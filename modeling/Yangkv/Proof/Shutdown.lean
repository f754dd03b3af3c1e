import Yangkv.Proof.Room
import Yangkv.Spec.Threads

/-!
# What `stop` leaves behind

The compacter quits at its next test of `stopFLAG`, and nobody makes room after it. A writer
looks at its own flag only with an empty queue.

* `Ok.step`: a thread outside its round is outside `mayInsertMessage`, and the compacter quits only
  when all flags are set.
* `NoRoom.step`, `leaves`: a writer that does not clear its queue (`Clears`) stays in its round, and
  one that does comes back.
* `quits_iff`: once the compacter has quit, a writer thread in a round can quit if and only if it
  clears its queue.
* `get_returns_iff`: and only then can a `getValue` that waits for it return.
-/

namespace Yangkv

open Lib Machine

namespace Threads

/-- What a step of the threads is to the database. -/
inductive Move (s : Threads) : Label → Threads → Prop
  | stop : s.stopped ≤ kMaxWriter → Move s .stop { s with stopped := s.stopped + 1 }
  | writerTest {w} : s.writer w = .test → Move s (.db (.store (.writer w)))
      (s.setWriter w (if s.writerStop w then .quit else .body))
  | writerBody {w d} : s.writer w = .body → s.db.writerStep w = some d →
      Move s (.db (.store (.writer w)))
        { s.setWriter w (if (d.store.writer_ w).pc = .idle then .test else .body) with db := d }
  | compacterTest {opened} : s.compacter = .test → Move s (.db (.compacter opened))
      { s with compacter := if s.compacterStop then .quit else .body }
  | compacterBody {opened d pc} : s.compacter = .body → pc ≠ .quit →
      s.db.step (.compacter opened) = some d →
      Move s (.db (.compacter opened)) { s with db := d, compacter := pc }
  | client {c st} : (∀ w, c ≠ .writer w) → s.db.store.step c = some st →
      Move s (.db (.store c)) { s with db := s.db.withStore st }
  | wake {w d} : s.db.step (.wake w) = some d → Move s (.db (.wake w)) { s with db := d }

variable {s s' s₀ : Threads} {l : Label} {w : Fin kMaxWriter} {hist : List Database.Event}

/-- The database and its threads as `init` leaves them. -/
structure Started (s : Threads) : Prop where
  db : s.db.Started
  lock : s.db.compact_lock_ = none
  stopped : s.stopped = 0
  writer : ∀ w, s.writer w = .test
  compacter : s.compacter = .test

/-- The bounds of `Database.SizedStep`. -/
def SizedStep (s : Threads) : Label → Prop
  | .stop => True
  | .db l => s.db.SizedStep l

/-- What holds of the threads in every run. -/
structure Ok (s : Threads) : Prop where
  db : s.db.Safe
  outside : ∀ w, s.writer w ≠ .body → (s.db.store.writer_ w).pc = .idle
  stopped : s.compacter = .quit → kMaxWriter < s.stopped

theorem Started.ok (h : Started s) : Ok s := by
  have hpc := h.db.store.pc
  refine ⟨⟨⟨_, h.db.ok⟩, ⟨fun w => ?_, fun w list hw => ?_, fun merged v hv => ?_⟩, fun w hoff => ?_⟩,
    fun w _ => hpc w, fun hq => ?_⟩
  · have hap : s.db.set_.writer w = .idle := h.db.append w
    have hl : s.db.set_.compact_lock_ = none := h.lock
    rw [hap, hl]
    exact ⟨False.elim, fun he => by cases he⟩
  · have hap : s.db.set_.writer w = .idle := h.db.append w
    rw [hap] at hw
    cases hw
  · have hc : s.db.set_.compacter = .test := h.db.compacter
    rw [hc] at hv
    cases hv
  · rw [hpc w] at hoff
    cases hoff
  · rw [h.compacter] at hq
    cases hq

theorem step_move (hs : s.step l = some s') : Move s l s' := by
  -- a client
  have client : ∀ {c : Store.Label}, (∀ w, c ≠ .writer w) →
      (s.db.step (.store c)).map (fun d => { s with db := d }) = some s' →
      Move s (.db (.store c)) s' := by
    intro c hc hs
    rw [Database.step_store hc] at hs
    obtain ⟨d, hd, rfl⟩ := Option.map_eq_some_iff.1 hs
    obtain ⟨st, hst, rfl⟩ := Option.map_eq_some_iff.1 hd
    exact .client hc hst
  cases l with
  | stop =>
    simp only [Threads.step] at hs
    split at hs
    · rename_i hle
      cases hs
      exact .stop hle
    · cases hs
  | db l =>
    cases l with
    | store c =>
      cases c with
      | writer w =>
        simp only [Threads.step, writerStep] at hs
        cases hw : s.writer w with
        | test =>
          simp only [hw, Option.some.injEq] at hs
          subst hs
          exact .writerTest hw
        | body =>
          simp only [hw, Option.map_eq_some_iff] at hs
          obtain ⟨d, hd, rfl⟩ := hs
          exact .writerBody hw hd
        | quit => simp only [hw, reduceCtorEq] at hs
      | callSet | callGet | client => exact client (by simp) hs
    | wake w =>
      obtain ⟨d, hd, rfl⟩ := Option.map_eq_some_iff.1 hs
      exact .wake hd
    | compacter opened =>
      simp only [Threads.step, compacterStep] at hs
      cases hc : s.compacter with
      | test =>
        simp only [hc, Option.some.injEq] at hs
        subst hs
        exact .compacterTest hc
      | body =>
        simp only [hc, Option.map_eq_some_iff] at hs
        obtain ⟨d, hd, rfl⟩ := hs
        refine .compacterBody hc ?_ hd
        split <;> simp
      | quit => simp only [hc, reduceCtorEq] at hs

theorem Ok.step (h : Ok s) (hg : SizedStep s l) (hs : s.step l = some s') : Ok s' := by
  have safe : ∀ {l : Database.Label} {d : Database}, SizedStep s (.db l) → s.db.step l = some d →
      d.Safe := by
    intro l d hg hd
    have hg : s.db.SizedStep l := hg
    exact h.db.step hg hd
  -- who is outside stays there
  have outside : ∀ {l : Database.Label} {d : Database} {w : Fin kMaxWriter},
      s.db.step l = some d → l ≠ .store (.writer w) → s.writer w ≠ .body →
      (d.store.writer_ w).pc = .idle := by
    intro l d w hd hl hw
    rw [h.db.pc_other hl hd]
    exact h.outside w hw
  cases step_move hs with
  | stop hle => exact ⟨h.db, h.outside, fun hq => Nat.lt_succ_of_lt (h.stopped hq)⟩
  | @writerTest w hw =>
    refine ⟨h.db, fun w' hw' => ?_, h.stopped⟩
    by_cases hne : w' = w
    · rw [hne]
      exact h.outside w (by rw [hw]; simp)
    · refine h.outside w' ?_
      simp only [setWriter, Function.update_of_ne hne] at hw'
      exact hw'
  | @writerBody w d hw hd =>
    refine ⟨safe hg hd, fun w' hw' => ?_, h.stopped⟩
    by_cases hne : w' = w
    · subst hne
      by_contra hp
      simp only [setWriter, Function.update_self, if_neg hp] at hw'
      exact hw' rfl
    · have hd' : s.db.step (.store (.writer w)) = some d := hd
      refine outside hd' (by simp [Ne.symm hne]) ?_
      simp only [setWriter, Function.update_of_ne hne] at hw'
      exact hw'
  | compacterTest hc =>
    refine ⟨h.db, h.outside, fun hq => ?_⟩
    by_cases hflag : s.compacterStop = true
    · exact of_decide_eq_true hflag
    · simp only [if_neg hflag] at hq
      cases hq
  | compacterBody hc hpc hd =>
    exact ⟨safe hg hd, fun w hw => outside hd (by simp) hw, fun hq => absurd hq hpc⟩
  | @client c st hc hst =>
    have hd : s.db.step (.store c) = some (s.db.withStore st) := by
      rw [Database.step_store hc, hst]
      rfl
    refine ⟨safe hg hd, fun w hw => outside hd ?_ hw, h.stopped⟩
    simp [hc w]
  | wake hd => exact ⟨safe hg hd, fun w hw => outside hd (by simp) hw, h.stopped⟩

/-! ## No room -/

/-- A step of the threads that are there, or of `stop`, in which no writer wakes by itself. -/
def NoWake (s : Threads) : Label → Prop
  | .db (.wake _) => False
  | l => SizedStep s l

theorem NoWake.sized (h : NoWake s l) : SizedStep s l := by
  cases l with
  | stop => exact h
  | db l =>
    cases l with
    | wake => exact absurd h id
    | store | compacter => exact h

/-- The compacter has quit, and the writer will not find the room it needs. -/
structure NoRoom (w : Fin kMaxWriter) (s : Threads) : Prop where
  ok : Ok s
  compacter : s.compacter = .quit
  body : s.writer w = .body
  noRoom : ¬ s.db.Clears w

theorem outside_idle (h : s.db.Safe) (hp : (s.db.store.writer_ w).pc ≠ .full) :
    s.db.append w = .idle := by
  obtain ⟨g, hok⟩ := h.ok
  exact (hok.shelved w).outside hp

/-- **The room does not come back.** -/
theorem NoRoom.step (h : NoRoom w s) (hg : NoWake s l) (hs : s.step l = some s') : NoRoom w s' := by
  have hok := h.ok.step hg.sized hs
  cases step_move hs with
  | stop hle => exact ⟨hok, h.compacter, h.body, h.noRoom⟩
  | @writerTest w' hw =>
    have hne : w ≠ w' := by
      rintro rfl
      rw [h.body] at hw
      cases hw
    exact ⟨hok, h.compacter, (Function.update_of_ne hne ..).trans h.body, h.noRoom⟩
  | @writerBody w' d hw hd =>
    by_cases hne : w' = w
    · subst hne
      obtain ⟨hiff, hidle⟩ := Database.own_step h.ok.db.lock (outside_idle h.ok.db) hd
      refine ⟨hok, h.compacter, ?_, fun hc => h.noRoom (hiff.2 hc)⟩
      have hp : (d.store.writer_ w').pc ≠ .idle := fun hp => h.noRoom (hidle hp)
      simp only [setWriter, Function.update_self, if_neg hp]
    · exact ⟨hok, h.compacter, (Function.update_of_ne (Ne.symm hne) ..).trans h.body,
        fun hc => h.noRoom (Database.other_step h.ok.db.lock hne hd hc)⟩
  | compacterTest hc | compacterBody hc =>
    rw [h.compacter] at hc
    cases hc
  | client hc hst =>
    obtain ⟨g, hdb⟩ := h.ok.db.ok
    exact ⟨hok, h.compacter, h.body, fun hr => h.noRoom (Database.client_step hdb hc hst hr)⟩
  | wake => exact absurd hg id

/-! ## Enough room -/

/-- The writer `w` is on its way from `s`, or has come back. -/
structure Leaving (s : Threads) (w : Fin kMaxWriter) (s' : Threads) : Prop where
  ok : Ok s'
  compacter : s'.compacter = s.compacter
  client : s'.db.store.client = s.db.store.client
  idx : s'.db.store.idx_ = s.db.store.idx_
  place : s'.writer w = .test ∨ s'.writer w = .body ∧ s'.db.Clears w

/-- The threads after a step of a writer. -/
def afterWriter (s : Threads) (w : Fin kMaxWriter) (d : Database) : Threads :=
  { s.setWriter w (if (d.store.writer_ w).pc = .idle then .test else .body) with db := d }

theorem by_writer {P : Threads → Prop} {d : Database} (hidx : s.db.store.idx_ < 2 ^ 56)
    (hw : s.writer w = .body) (hd : s.db.writerStep w = some d)
    (hp : Ok (s.afterWriter w d) → machine.CanReach NoWake (s.afterWriter w d) P) (h : Ok s) :
    machine.CanReach NoWake s P := by
  have hg : NoWake s (.db (.store (.writer w))) := hidx
  have hs : s.step (.db (.store (.writer w))) = some (s.afterWriter w d) := by
    have hd : s.db.step (.store (.writer w)) = some d := hd
    simp only [Threads.step, writerStep, hw, hd, Option.map_some]
    rfl
  exact .step hg hs (hp (h.step hg.sized hs))

/-- How far the writer with the mutex is from giving it back. -/
def ownerInside (s : Threads) : ℕ := s.db.compact_lock_.elim 0 fun w => VersionSet.inside (s.db.append w)

/-- The others give the mutex back. -/
theorem Leaving.freed (h : Leaving s w s') (hidx : s.db.store.idx_ < 2 ^ 56) :
    machine.CanReach NoWake s' fun s' => Leaving s w s' ∧
      (s'.db.compact_lock_ = none ∨ s'.db.compact_lock_ = some w) := by
  refine CanReach.measure ownerInside ?_ h
  intro s₁ h₁ hn
  push Not at hn
  obtain ⟨w', hl⟩ := Option.ne_none_iff_exists'.1 hn.1
  have hne : w' ≠ w := by
    rintro rfl
    exact hn.2 hl
  have hlock := h₁.ok.db.lock
  have hholds : VersionSet.Holds (s₁.db.append w') := (hlock.mutex w').2 hl
  have hp : (s₁.db.store.writer_ w').pc = .full := by
    by_contra hp
    rw [outside_idle h₁.ok.db hp] at hholds
    exact hholds
  have hbody : s₁.writer w' = .body := by
    by_contra hb
    have hidle := h₁.ok.outside w' hb
    rw [hp] at hidle
    cases hidle
  obtain ⟨v, hv, hless⟩ := VersionSet.owner_next hlock hholds
  obtain ⟨d, hd, rfl⟩ := Database.full_next hp hv
  obtain ⟨hclient, hidx'⟩ := Database.writer_keeps hd
  refine by_writer (by rw [h₁.idx]; exact hidx) hbody hd (fun hok => .refl ⟨⟨hok, h₁.compacter, ?_, ?_,
    ?_⟩, ?_⟩) h₁.ok
  · exact hclient.trans h₁.client
  · exact hidx'.trans h₁.idx
  · have hsame : (s₁.afterWriter w' d).writer w = s₁.writer w := Function.update_of_ne hne.symm ..
    rw [hsame]
    exact h₁.place.imp_right fun ⟨hb, hc⟩ =>
      ⟨hb, Database.owner_step hlock hne hholds hp hd hc⟩
  · have hpos : 0 < VersionSet.inside (s₁.db.append w') := by
      cases hap : s₁.db.append w' <;> rw [hap] at hholds <;>
        first | exact hholds.elim | simp [VersionSet.inside]
    have hl' : d.compact_lock_ = none ∨ d.compact_lock_ = some w' ∧
        VersionSet.inside (d.append w') < VersionSet.inside (s₁.db.append w') := hless
    have hdb : (s₁.afterWriter w' d).db = d := rfl
    unfold ownerInside
    rw [hdb, hl]
    obtain hl' | ⟨hl', hlt⟩ := hl'
    · rw [hl']
      exact hpos
    · rw [hl']
      exact hlt

/-- **A writer that finds room comes back.** -/
theorem leaves (h : Ok s) (hidx : s.db.store.idx_ < 2 ^ 56) (hw : s.writer w = .body)
    (hc : s.db.Clears w) :
    machine.CanReach NoWake s fun s' => Leaving s w s' ∧ s'.writer w = .test := by
  have h₀ : Leaving s w s := ⟨h, rfl, rfl, rfl, .inr ⟨hw, hc⟩⟩
  refine (h₀.freed hidx).trans fun s₁ h₁ => ?_
  have hback := CanReach.measure (M := machine) (G := NoWake) (s := s₁)
    (I := fun s' => Leaving s w s' ∧ (s'.db.compact_lock_ = none ∨ s'.db.compact_lock_ = some w))
    (P := fun s' => s'.writer w = .test) (fun s' => if s'.writer w = .test then 0 else
      Database.left (s'.db.store.writer_ w) (s'.db.append w) + 1) ?_ h₁
  · exact hback.mono fun s' hs' => ⟨hs'.1.1, hs'.2⟩
  rintro s₂ ⟨h₂, hl₂⟩ hn
  obtain htest | ⟨hbody, hc₂⟩ := h₂.place
  · exact absurd htest hn
  obtain ⟨d, hd, hlt⟩ := h₂.ok.db.own_next hl₂ hc₂
  obtain ⟨hclient, hidx'⟩ := Database.writer_keeps hd
  obtain ⟨hiff, -⟩ := Database.own_step h₂.ok.db.lock (outside_idle h₂.ok.db) hd
  have hself : (s₂.afterWriter w d).writer w =
      if (d.store.writer_ w).pc = .idle then .test else .body := Function.update_self ..
  refine by_writer (by rw [h₂.idx]; exact hidx) hbody hd (fun hok => .refl ⟨⟨⟨hok, h₂.compacter, ?_, ?_,
    ?_⟩, ?_⟩, ?_⟩) h₂.ok
  · exact hclient.trans h₂.client
  · exact hidx'.trans h₂.idx
  · rw [hself]
    split
    · exact .inl rfl
    · exact .inr ⟨rfl, hiff.1 hc₂⟩
  · by_cases hp : (s₂.db.store.writer_ w).pc = .full
    · obtain ⟨l, hl, -, hm⟩ := (Database.full_step hp hd).move
      exact hm.own_lock hl hl₂
    · simp only [Database.writerStep, if_neg hp, Option.map_eq_some_iff] at hd
      obtain ⟨st, -, rfl⟩ := hd
      exact hl₂
  · rw [hself, if_neg hn]
    split
    · simp
    · rename_i hp
      have hlt := hlt.resolve_left hp
      simp only [reduceCtorEq, if_false]
      show Database.left (d.store.writer_ w) (d.append w) + 1 < _
      omega

/-- **Which writers end after `stop`.** Once the compacter has quit, a writer thread can quit, with no
spurious wake-up, if and only if it is between two rounds or clears its queue: it neither sleeps nor
has found the version full, and every test of `isFull` that is left to it, until its queue is empty,
finds room. -/
theorem quits_iff (h0 : Started s₀) (hx : machine.Exec SizedStep s₀ hist s)
    (hq : s.compacter = .quit) (hidx : s.db.store.idx_ < 2 ^ 56) (w : Fin kMaxWriter) :
    machine.CanReach NoWake s (·.writer w = .quit) ↔ (s.writer w = .body → s.db.Clears w) := by
  have h : Ok s := hx.invariant h0.ok fun s l s' h hg hs => h.step hg hs
  constructor
  · rintro ⟨h', s', hy, hquit⟩ hbody
    by_contra hc
    have hno : NoRoom w s' := hy.invariant ⟨h, hq, hbody, hc⟩ fun s l s' h hg hs => h.step hg hs
    rw [hno.body] at hquit
    cases hquit
  · intro hc
    -- the flag is set
    have tested : ∀ {s : Threads}, Ok s → s.compacter = .quit → s.db.store.idx_ < 2 ^ 56 →
        s.writer w = .test → machine.CanReach NoWake s (·.writer w = .quit) := by
      intro s h hq hidx hw
      have hflag : s.writerStop w = true := by
        have hlt := h.stopped hq
        exact decide_eq_true (w.isLt.trans hlt)
      have hg : NoWake s (.db (.store (.writer w))) := hidx
      have hs : s.step (.db (.store (.writer w))) = some (s.setWriter w .quit) := by
        simp only [Threads.step, writerStep, hw, hflag, if_true]
      exact .step hg hs (.refl (Function.update_self ..))
    cases hw : s.writer w with
    | quit => exact .refl hw
    | test => exact tested h hq hidx hw
    | body =>
      refine (leaves h hidx hw (hc hw)).trans fun s' ⟨h', hw'⟩ => ?_
      exact tested h'.ok (h'.compacter.trans hq) (by rw [h'.idx]; exact hidx) hw'

/-! ## The keys of the writer -/

section

variable {t : Tid} {key : Bytes} {seq : ℕ}

/-- A `getValue` waits for the read lock of the writer. -/
structure Waiting (w : Fin kMaxWriter) (t : Tid) (key : Bytes) (seq : ℕ) (s : Threads) : Prop where
  noRoom : NoRoom w s
  home : writerOf key = w
  client : s.db.store.client t = .getActive key seq
  locked : (s.db.store.writer_ w).pc ≠ .idle

/-- **It waits for good.** -/
theorem Waiting.step (h : Waiting w t key seq s) (hg : NoWake s l) (hs : s.step l = some s') :
    Waiting w t key seq s' := by
  have hno := h.noRoom.step hg hs
  have hdb := h.noRoom.ok.db
  cases step_move hs with
  | stop | writerTest | compacterTest => exact ⟨hno, h.home, h.client, h.locked⟩
  | @writerBody w' d hw hd =>
    refine ⟨hno, h.home, ?_, ?_⟩
    · exact (congrFun (Database.writer_keeps hd).1 t).trans h.client
    · by_cases hne : w' = w
      · subst hne
        have hown := Database.own_step hdb.lock (outside_idle hdb) hd
        exact fun hp => h.noRoom.noRoom (hown.2 hp)
      · have hd' : s.db.step (.store (.writer w')) = some d := hd
        show (d.store.writer_ w).pc ≠ .idle
        rw [hdb.pc_other (by simp [hne]) hd']
        exact h.locked
  | compacterBody hc =>
    rw [h.noRoom.compacter] at hc
    cases hc
  | @client c st hc hst =>
    have hd : s.db.step (.store c) = some (s.db.withStore st) := by
      rw [Database.step_store hc, hst]
      rfl
    refine ⟨hno, h.home, ?_, ?_⟩
    · have hne : c ≠ .client t := by
        rintro rfl
        have hst : s.db.store.clientStep t = some st := hst
        have hlock := h.locked
        rw [← h.home] at hlock
        simp only [Store.clientStep, h.client, if_neg hlock, reduceCtorEq] at hst
      exact ((Store.step_move hst).client_of_ne hne (by rw [h.client]; simp)).trans h.client
    · show ((s.db.withStore st).store.writer_ w).pc ≠ .idle
      rw [hdb.pc_other (by simp [hc w]) hd]
      exact h.locked
  | wake => exact absurd hg id

/-- A client goes on. -/
theorem by_client {P : Threads → Prop} {st : Store} (hidx : s.db.store.idx_ < 2 ^ 56)
    (hst : s.db.store.clientStep t = some st)
    (hp : machine.CanReach NoWake { s with db := s.db.withStore st } P) :
    machine.CanReach NoWake s P := by
  have hg : NoWake s (.db (.store (.client t))) := hidx
  have hs : s.step (.db (.store (.client t))) = some { s with db := s.db.withStore st } := by
    have hst : s.db.store.step (.client t) = some st := hst
    simp only [Threads.step, Database.step, hst, Option.map_some]
  exact .step hg hs hp

/-- With the lock free the `getValue` returns. -/
theorem get_returns (h : Ok s) (hidx : s.db.store.idx_ < 2 ^ 56)
    (ht : s.db.store.client t = .getActive key seq)
    (hp : (s.db.store.writer_ (writerOf key)).pc = .idle) :
    machine.CanReach NoWake s (·.db.store.client t = .idle) := by
  obtain ⟨g, hok⟩ := h.db.ok
  have hw := hok.shelved (writerOf key)
  -- with its answer the call is over
  have done : ∀ {s : Threads} {result : Status × Option Bytes}, s.db.store.idx_ < 2 ^ 56 →
      s.db.store.client t = .getDone key result →
      machine.CanReach NoWake s (·.db.store.client t = .idle) := by
    intro s result hidx ht
    have hst : s.db.store.clientStep t = some (s.db.store.setClient t .idle) := by
      simp only [Store.clientStep, ht]
    exact by_client hidx hst (.refl (Function.update_self ..))
  obtain ⟨answer, ha⟩ : ∃ answer,
      (s.db.store.writer_ (writerOf key)).getEntry key seq = some answer := by
    unfold Writer.getEntry
    cases hg : (s.db.store.writer_ (writerOf key)).list_.get key with
    | none => exact ⟨_, rfl⟩
    | some slice =>
      have hfrom := hw.from_list.mono fun _ hS => hS.1
      obtain ⟨e, hd, -⟩ := hfrom.get_some hg
      simp only [hd, Option.map_some]
      exact ⟨_, rfl⟩
  cases answer with
  | some result =>
    have hst : s.db.store.clientStep t = some (s.db.store.setClient t (.getDone key result)) := by
      simp only [Store.clientStep, ht, hp, if_true, ha, Option.map_some]
    exact by_client hidx hst (done hidx (Function.update_self ..))
  | none =>
    have hst : s.db.store.clientStep t = some (s.db.store.setClient t (.getFrozen key seq)) := by
      simp only [Store.clientStep, ht, hp, if_true, ha, Option.map_some]
    refine by_client hidx hst ?_
    set s₁ : Threads := { s with db := s.db.withStore (s.db.store.setClient t (.getFrozen key seq)) }
    have ht₁ : s₁.db.store.client t = .getFrozen key seq := Function.update_self ..
    have hlists : ∀ l ∈ s₁.db.store.current_.list_ (writerOf key), l.From MemEntry.Bounded :=
      fun l hl => (hw.from_lists l hl).mono fun _ hS => hS.1
    have hst₁ : s₁.db.store.clientStep t = some (s₁.db.store.setClient t (.getDone key
        (answerOf (layered
          ((s₁.db.store.current_.list_ (writerOf key)).reverse.map SkipList.find) key)))) := by
      simp only [Store.clientStep, ht₁, Store.readVersion_ok hlists, Option.map_some]
    exact by_client hidx hst₁ (done hidx (Function.update_self ..))

/-- **Which keys can be read after `stop`.** Once the compacter has quit, a `getValue` that waits for
a writer in `mayInsertMessage` can return, with no spurious wake-up, if and only if the writer clears
its queue. -/
theorem get_returns_iff (h0 : Started s₀) (hx : machine.Exec SizedStep s₀ hist s)
    (hq : s.compacter = .quit) (hidx : s.db.store.idx_ < 2 ^ 56)
    (ht : s.db.store.client t = .getActive key seq)
    (hp : (s.db.store.writer_ (writerOf key)).pc ≠ .idle) :
    machine.CanReach NoWake s (·.db.store.client t = .idle) ↔ s.db.Clears (writerOf key) := by
  have h : Ok s := hx.invariant h0.ok fun s l s' h hg hs => h.step hg hs
  have hbody : s.writer (writerOf key) = .body := by
    by_contra hb
    exact hp (h.outside _ hb)
  constructor
  · rintro ⟨h', s', hy, hidle⟩
    by_contra hc
    have hwait : Waiting (writerOf key) t key seq s' :=
      hy.invariant ⟨⟨h, hq, hbody, hc⟩, rfl, ht, hp⟩ fun s l s' h hg hs => h.step hg hs
    rw [hwait.client] at hidle
    cases hidle
  · intro hc
    refine (leaves h hidx hbody hc).trans fun s' ⟨h', hw'⟩ => ?_
    have ht' : s'.db.store.client t = .getActive key seq := by
      rw [h'.client]
      exact ht
    exact get_returns h'.ok (by rw [h'.idx]; exact hidx) ht' (h'.ok.outside _ (by rw [hw']; simp))

end

/-! ## A round under way at the end -/

instance (s : Threads) (l : Label) : Decidable (SizedStep s l) :=
  match l with
  | .stop => instDecidableTrue
  | .db (.store l) => inferInstanceAs (Decidable (s.db.store.SizedStep l))
  | .db (.wake _) | .db (.compacter _) => instDecidableTrue

def freshThreads : Threads := ⟨Database.freshDatabase, 0, fun _ => .test, .test⟩

theorem freshThreads_started : freshThreads.Started :=
  ⟨Database.freshDatabase_started, rfl, rfl, fun _ => rfl, rfl⟩

/-- Thread 0 looks for a key while the writer 2 has taken its write lock; then `stop`. -/
def stopInRound : List Label :=
  [.db (.store (.callGet 0 [97]))] ++ List.replicate 4 (.db (.store (.client 0))) ++
    List.replicate 2 (.db (.store (.writer 2))) ++ List.replicate 5 .stop ++ [.db (.compacter none)]

theorem stopInRound_runs : ∃ hist s, machine.Exec SizedStep freshThreads hist s ∧
    s.compacter = .quit ∧ s.db.store.idx_ < 2 ^ 56 ∧ s.db.Clears 2 ∧
    s.db.store.client 0 = .getActive [97] 1 ∧ (s.db.store.writer_ 2).pc = .loop := by
  have hr : (machine.exec SizedStep freshThreads stopInRound).map
      (fun r => (r.2.compacter, decide (r.2.db.store.idx_ < 2 ^ 56 ∧ r.2.db.Clears 2),
        r.2.db.store.client 0, (r.2.db.store.writer_ 2).pc)) =
      some (.quit, true, .getActive [97] 1, .loop) := by decide +kernel
  obtain ⟨r, hr, he⟩ := Option.map_eq_some_iff.1 hr
  simp only [Prod.mk.injEq, decide_eq_true_eq] at he
  obtain ⟨hq, ⟨hidx, hc⟩, hclient, hpc⟩ := he
  exact ⟨r.1, r.2, exec_sound hr, hq, hidx, hc, hclient, hpc⟩

theorem quits_iff_inRound : ∃ hist s, machine.Exec SizedStep freshThreads hist s ∧
    s.compacter = .quit ∧ machine.CanReach NoWake s (·.writer 2 = .quit) := by
  obtain ⟨hist, s, hx, hq, hidx, hc, -⟩ := stopInRound_runs
  exact ⟨hist, s, hx, hq, (quits_iff freshThreads_started hx hq hidx 2).2 fun _ => hc⟩

theorem get_returns_iff_inRound : ∃ hist s, machine.Exec SizedStep freshThreads hist s ∧
    s.compacter = .quit ∧ s.db.store.client 0 = .getActive [97] 1 ∧
    machine.CanReach NoWake s (·.db.store.client 0 = .idle) := by
  obtain ⟨hist, s, hx, hq, hidx, hc, hclient, hpc⟩ := stopInRound_runs
  have hhome : writerOf [97] = 2 := by decide +kernel
  refine ⟨hist, s, hx, hq, hclient,
    (get_returns_iff freshThreads_started hx hq hidx hclient ?_).2 ?_⟩
  · rw [hhome, hpc]
    simp
  · rw [hhome]
    exact hc

end Threads

end Yangkv
