import Yangkv.Spec.Store

/-!
# What one step of the store can do

* `step_move`: every step is one of the moves of `Move`. The invariants of the store
  are proved by cases on the move.
* `ClientsOk`: a thread inside `push` holds the lock of its queue, and the slot it
  has written is the one behind the last entry.
-/

namespace Yangkv

open Lib

/-! ## The queue -/

namespace MessageQueue

variable {σ : Type} {q q' : MessageQueue σ} {e : MemEntry σ}

theorem advance_some (h : q.advance = some q') :
    ∃ hf, q' = { q with ring := q.ring.advance hf } := by
  unfold advance at h
  split at h
  · rename_i hf; exact ⟨hf, (Option.some.inj h).symm⟩
  · cases h

theorem pop_some (h : q.pop = some q') : ∃ he, q' = { q with ring := q.ring.pop he } := by
  unfold pop at h
  split at h
  · rename_i he; exact ⟨he, (Option.some.inj h).symm⟩
  · cases h

theorem contents_advance (h : q.advance = some q') :
    q'.contents = q.contents ++ [q.ring.get q.ring.wr] := by
  obtain ⟨hf, rfl⟩ := advance_some h
  exact Ring.contents_advance hf

theorem contents_put (h : q.isFull = false) : (q.put e).contents = q.contents :=
  Ring.contents_put h

theorem contents_pop (h : q.pop = some q') : q'.contents = q.contents.tail := by
  obtain ⟨he, rfl⟩ := pop_some h
  exact Ring.contents_pop he

theorem getFront_some (h : q.getFront = some e) : q.contents.head? = some e := by
  unfold getFront at h
  split at h
  · cases h
  · rename_i he
    rw [← h]
    exact Ring.contents_front (Bool.not_eq_true _ ▸ he)

end MessageQueue

namespace Store

/-! ## Moves -/

/-- The writer whose queue an entry is pushed to. -/
abbrev home (e : Entry) : Fin kMaxWriter := writerOf e.key.bytes

/-- The key that a thread inside `getValue` reads. -/
def reads : ClientPc → Option Bytes
  | .getCalled key | .getSeq key _ | .getBegin key _ _ | .getScan key _ _ _ | .getActive key _
  | .getFrozen key _ | .getDone key _ => some key
  | _ => none

/-- What a step does, by the place of the thread that takes it. -/
inductive Move (s : Store) : Label → Store → Prop
  | callSet {t key value del_flag} : s.client t = .idle →
      Move s (.callSet t key value del_flag) (s.setClient t (.setCalled key value del_flag))
  | callGet {t key} : s.client t = .idle →
      Move s (.callGet t key) (s.setClient t (.getCalled key))
  | take {t key value del_flag} : s.client t = .setCalled key value del_flag →
      Move s (.client t) { s.setClient t (.set .taken (entryOf key value s.idx_ del_flag)) with
        idx_ := s.idx_ + 1 }
  | lock {t e} : s.client t = .set .taken e → (s.writer_ (home e)).lock_ = none →
      Move s (.client t) ((s.setWriter (home e) { s.writer_ (home e) with lock_ := some t }).setClient
        t (.set .locked e))
  | size {t e slice f} : s.client t = .set .locked e → (s.writer_ (home e)).queue_.ready_ = true →
      encodeMemEntry e = some slice →
      (s.writer_ (home e)).queue_.log_.appendSize slice.length = some f →
      Move s (.client t) (s.onQueue t (home e) (.set .sized e)
        { (s.writer_ (home e)).queue_ with log_ := f })
  | append {t e slice f} : s.client t = .set .sized e → encodeMemEntry e = some slice →
      (s.writer_ (home e)).queue_.log_.append slice = (.ok, f) →
      Move s (.client t) (s.onQueue t (home e) (.set .appended e)
        { (s.writer_ (home e)).queue_ with log_ := f })
  | flush {t e f} : s.client t = .set .appended e →
      (s.writer_ (home e)).queue_.log_.flush = (.ok, f) →
      Move s (.client t) (s.onQueue t (home e) (.set .logged e)
        { (s.writer_ (home e)).queue_ with log_ := f })
  | skip {t e} : s.client t = .set .locked e → (s.writer_ (home e)).queue_.ready_ = false →
      Move s (.client t) (s.setClient t (.set .logged e))
  | wait {t e} : s.client t = .set .logged e → Move s (.client t) s
  | put {t e} : s.client t = .set .logged e → (s.writer_ (home e)).queue_.isFull = false →
      Move s (.client t) (s.onQueue t (home e) (.set .written e)
        ((s.writer_ (home e)).queue_.put e))
  | count {t e q} : s.client t = .set .written e → (s.writer_ (home e)).queue_.advance = some q →
      Move s (.client t) (s.onQueue t (home e) (.set .counted e) q)
  | unlock {t e} : s.client t = .set .counted e →
      Move s (.client t) ((s.setWriter (home e) { s.writer_ (home e) with lock_ := none }).setClient
        t .idle)
  | get {t key pc} : reads (s.client t) = some key → reads pc = some key ∨ pc = .idle →
      Move s (.client t) (s.setClient t pc)
  | acquire {w} : (s.writer_ w).pc = .idle →
      Move s (.writer w) (s.setWriter w { s.writer_ w with pc := .loop })
  | release {w} : (s.writer_ w).pc = .loop →
      Move s (.writer w) (s.setWriter w { s.writer_ w with pc := .idle })
  | insert {w front list} : (s.writer_ w).pc = .loop →
      (s.writer_ w).queue_.getFront = some front → (s.writer_ w).list_.insert front = some list →
      Move s (.writer w) (s.setWriter w { s.writer_ w with list_ := list, pc := .inserted })
  | pop {w q} : (s.writer_ w).pc = .inserted → (s.writer_ w).queue_.pop = some q →
      Move s (.writer w) (s.setWriter w { s.writer_ w with queue_ := q, pc := .popped })
  | check {w} : (s.writer_ w).pc = .popped →
      Move s (.writer w) (s.setWriter w { s.writer_ w with
        pc := if kMaxActiveListSize ≤ (s.writer_ w).list_.size then .full else .loop })
  | freeze {w} : (s.writer_ w).pc = .full →
      Move s (.writer w) { s.setWriter w { s.writer_ w with pc := .frozen } with
        current_ := s.current_.appendList (s.writer_ w).list_ w }
  | renew {w} : (s.writer_ w).pc = .frozen →
      Move s (.writer w) (s.setWriter w { s.writer_ w with list_ := .empty, pc := .loop })

variable {s s' : Store} {l : Label} {t t' : Tid} {w w' : Fin kMaxWriter} {wr : Writer}
  {pc : ClientPc} {p : SetPc} {e : Entry}

@[simp] theorem setClient_idx : (s.setClient t pc).idx_ = s.idx_ := rfl
@[simp] theorem setClient_writer : (s.setClient t pc).writer_ = s.writer_ := rfl
@[simp] theorem setClient_current : (s.setClient t pc).current_ = s.current_ := rfl
@[simp] theorem setClient_client :
    (s.setClient t pc).client = Function.update s.client t pc := rfl
@[simp] theorem setWriter_idx : (s.setWriter w wr).idx_ = s.idx_ := rfl
@[simp] theorem setWriter_writer :
    (s.setWriter w wr).writer_ = Function.update s.writer_ w wr := rfl
@[simp] theorem setWriter_current : (s.setWriter w wr).current_ = s.current_ := rfl
@[simp] theorem setWriter_client : (s.setWriter w wr).client = s.client := rfl

theorem onLog_some {r : Status × WritableFile} (h : s.onLog t w pc r = some s') :
    r = (.ok, r.2) ∧ s' = s.onQueue t w pc { (s.writer_ w).queue_ with log_ := r.2 } := by
  unfold onLog at h
  split at h
  · rename_i hr; exact ⟨by rw [← hr], (Option.some.inj h).symm⟩
  · cases h

theorem setStep_move (ht : s.client t = .set p e) (h : s.setStep t e p = some s') :
    Move s (.client t) s' := by
  unfold setStep at h
  cases p with
  | taken =>
    simp only [lock] at h
    split at h
    · rename_i hl; cases h; exact .lock ht hl
    · cases h
  | locked =>
    simp only at h
    split at h
    · rename_i hr
      obtain ⟨slice, hs, h⟩ := Option.bind_eq_some_iff.1 h
      obtain ⟨f, hf, h⟩ := Option.bind_eq_some_iff.1 h
      obtain ⟨-, rfl⟩ := onLog_some h
      exact .size ht hr hs hf
    · rename_i hr; cases h; exact .skip ht (by simpa using hr)
  | sized =>
    obtain ⟨slice, hs, h⟩ := Option.bind_eq_some_iff.1 h
    obtain ⟨hr, rfl⟩ := onLog_some h
    exact .append ht hs hr
  | appended =>
    obtain ⟨hr, rfl⟩ := onLog_some h
    exact .flush ht hr
  | logged =>
    simp only [Option.some.injEq] at h
    split at h
    · cases h; exact .wait ht
    · rename_i hf; cases h; exact .put ht (by simpa using hf)
  | written =>
    obtain ⟨q, hq, rfl⟩ := Option.map_eq_some_iff.1 h
    exact .count ht hq
  | counted =>
    cases h
    exact .unlock ht

theorem clientStep_move (h : s.clientStep t = some s') : Move s (.client t) s' := by
  unfold clientStep at h
  split at h
  · cases h
  · rename_i ht; cases h; exact .take ht
  · rename_i ht; exact setStep_move ht h
  · rename_i ht; cases h; exact .get (by rw [ht]; rfl) (.inl rfl)
  · rename_i ht; cases h; exact .get (by rw [ht]; rfl) (.inl rfl)
  · rename_i ht; cases h; exact .get (by rw [ht]; rfl) (.inl rfl)
  · rename_i ht; cases h; exact .get (by rw [ht]; rfl) (.inl rfl)
  · rename_i ht
    simp only at h
    split at h <;> cases h <;> exact .get (by rw [ht]; rfl) (.inl rfl)
  · rename_i ht
    simp only at h
    split at h
    · obtain ⟨a, -, rfl⟩ := Option.map_eq_some_iff.1 h
      cases a <;> exact .get (by rw [ht]; rfl) (.inl rfl)
    · cases h
  · rename_i ht
    obtain ⟨a, -, rfl⟩ := Option.map_eq_some_iff.1 h
    exact .get (by rw [ht]; rfl) (.inl rfl)
  · rename_i key _ ht; cases h; exact .get (show reads (s.client t) = some key by rw [ht]; rfl) (.inr rfl)

theorem writerStep_move (h : s.writerStep w = some s') : Move s (.writer w) s' := by
  unfold writerStep at h
  simp only at h
  split at h
  · cases h
  · rename_i hp; cases h; exact .acquire hp
  · rename_i hp
    obtain ⟨wr, hw, rfl⟩ := Option.map_eq_some_iff.1 h
    unfold Writer.insertFront at hw
    split at hw
    · cases hw; exact .release hp
    · simp only [Option.bind_eq_bind, Option.bind_eq_some_iff, Option.some.injEq] at hw
      obtain ⟨front, hf, list, hl, rfl⟩ := hw
      exact .insert hp hf hl
  · rename_i hp
    obtain ⟨wr, hw, rfl⟩ := Option.map_eq_some_iff.1 h
    obtain ⟨q, hq, rfl⟩ := Option.map_eq_some_iff.1 hw
    exact .pop hp hq
  · rename_i hp; cases h; exact .check hp
  · rename_i hp; cases h; exact .freeze hp
  · rename_i hp; cases h; exact .renew hp

/-- **Every step is a move.** -/
theorem step_move (h : s.step l = some s') : Move s l s' := by
  cases l with
  | callSet t key value del_flag =>
    simp only [step] at h
    split at h
    · rename_i ht; cases h; exact .callSet ht
    · cases h
  | callGet t key =>
    simp only [step] at h
    split at h
    · rename_i ht; cases h; exact .callGet ht
    · cases h
  | client t => exact clientStep_move h
  | writer w => exact writerStep_move h

/-! ## Threads inside `push` -/

/-- What a thread inside `push` relies on. -/
structure ClientsOk (s : Store) : Prop where
  /-- it holds the lock of its queue -/
  locked : ∀ t p e, s.client t = .set p e → p ≠ .taken → (s.writer_ (home e)).lock_ = some t
  /-- the slot it has written is still the one behind the last entry -/
  slot : ∀ t e, s.client t = .set .written e →
    (s.writer_ (home e)).queue_.ring.get (s.writer_ (home e)).queue_.ring.wr = e

/-- At most one thread is inside `push` of a queue. -/
theorem ClientsOk.alone (h : ClientsOk s) {p p' : SetPc} {e e' : Entry} (ht : s.client t = .set p e)
    (ht' : s.client t' = .set p' e') (hp : p ≠ .taken) (hp' : p' ≠ .taken)
    (hw : home e = home e') : t = t' := by
  have h1 := h.locked t p e ht hp
  have h2 := h.locked t' p' e' ht' hp'
  rw [hw, h2] at h1
  exact (Option.some.inj h1).symm

/-- A step that touches no lock and no ring keeps what the other threads rely on. -/
theorem ClientsOk.frame (h : ClientsOk s)
    (hl : ∀ w, (s'.writer_ w).lock_ = (s.writer_ w).lock_)
    (hr : ∀ w, (s'.writer_ w).queue_.ring = (s.writer_ w).queue_.ring)
    (hc : ∀ t p e, s'.client t = .set p e → s.client t = .set p e ∨ p = .taken ∨
      (p ≠ .written ∧ ∃ p', p' ≠ .taken ∧ s.client t = .set p' e)) : ClientsOk s' := by
  constructor
  · intro t p e ht hp
    rw [hl]
    rcases hc t p e ht with h1 | h1 | ⟨-, p', hp', h1⟩
    · exact h.locked t p e h1 hp
    · exact absurd h1 hp
    · exact h.locked t p' e h1 hp'
  · intro t e ht
    rw [hr]
    rcases hc t _ e ht with h1 | h1 | ⟨h1, -⟩
    · exact h.slot t e h1
    · cases h1
    · exact absurd rfl h1

theorem update_client {c : Tid → ClientPc} {x : ClientPc}
    (h : Function.update c t pc t' = x) : t' ≠ t ∧ c t' = x ∨ t' = t ∧ pc = x := by
  rcases eq_or_ne t' t with rfl | hne
  · right; exact ⟨rfl, by rwa [Function.update_self] at h⟩
  · left; exact ⟨hne, by rwa [Function.update_of_ne hne] at h⟩

/-- What a step of the writer `w₀` keeps, it keeps for all of them. -/
theorem keeps_field {α : Type} (f : Writer → α) {w₀ : Fin kMaxWriter}
    (hw : s'.writer_ = Function.update s.writer_ w₀ wr) (h : f wr = f (s.writer_ w₀)) :
    f (s'.writer_ w) = f (s.writer_ w) := by
  rw [hw]
  rcases eq_or_ne w w₀ with rfl | hne
  · rw [Function.update_self]
    exact h
  · rw [Function.update_of_ne hne]

/-- A writer's step changes neither its lock nor a slot. -/
theorem ClientsOk.writer (h : ClientsOk s) (hc : s'.client = s.client)
    (hw : s'.writer_ = Function.update s.writer_ w wr) (hl : wr.lock_ = (s.writer_ w).lock_)
    (hwr : wr.queue_.ring.wr = (s.writer_ w).queue_.ring.wr)
    (hslot : wr.queue_.ring.slot = (s.writer_ w).queue_.ring.slot) : ClientsOk s' := by
  have hlock : ∀ w, (s'.writer_ w).lock_ = (s.writer_ w).lock_ := fun _ =>
    keeps_field (·.lock_) hw hl
  have hend : ∀ w, (s'.writer_ w).queue_.ring.wr = (s.writer_ w).queue_.ring.wr := fun _ =>
    keeps_field (·.queue_.ring.wr) hw hwr
  have hslots : ∀ w, (s'.writer_ w).queue_.ring.slot = (s.writer_ w).queue_.ring.slot := fun _ =>
    keeps_field (·.queue_.ring.slot) hw hslot
  constructor
  · intro t p e ht hp
    rw [hc] at ht
    rw [hlock]
    exact h.locked t p e ht hp
  · intro t e ht
    rw [hc] at ht
    have hget := h.slot t e ht
    unfold Ring.get at hget ⊢
    rw [hend, hslots]
    exact hget

/-- A step of a thread inside `push` on its queue. -/
theorem ClientsOk.inside {q : MessageQueue Slice} {p' : SetPc} (h : ClientsOk s)
    (ht : s.client t = .set p e) (hp : p ≠ .taken) (hq : p' = .written → q.ring.get q.ring.wr = e) :
    ClientsOk (s.onQueue t (home e) (.set p' e) q) := by
  constructor
  · intro t' p₁ e' ht' hp₁
    simp only [onQueue, setClient_writer, setWriter_writer, Function.update_apply]
    have hl : (s.writer_ (home e')).lock_ = some t' := by
      rcases update_client ht' with ⟨-, h1⟩ | ⟨rfl, h1⟩
      · exact h.locked t' p₁ e' h1 hp₁
      · cases h1; exact h.locked t' p e ht hp
    split
    · rename_i hw; rw [hw] at hl; exact hl
    · exact hl
  · intro t' e' ht'
    rcases update_client ht' with ⟨hne, h1⟩ | ⟨rfl, h1⟩
    · -- the other thread is inside `push` of another queue
      have hw : home e' ≠ home e := fun hw => hne (h.alone h1 ht (by simp) hp hw)
      simp only [onQueue, setClient_writer, setWriter_writer, Function.update_of_ne hw]
      exact h.slot t' e' h1
    · cases h1
      simp only [onQueue, setClient_writer, setWriter_writer, Function.update_self]
      exact hq rfl

/-- **Every step keeps what the threads inside `push` rely on.** -/
theorem ClientsOk.step (h : ClientsOk s) (hm : Move s l s') : ClientsOk s' := by
  -- a thread that moves on its own, to a place outside `push`
  have hown : ∀ {t} pc, (∀ p e, pc ≠ .set p e ∨ p = .taken) → ClientsOk (s.setClient t pc) := by
    intro t pc hpc
    refine h.frame (fun _ => rfl) (fun _ => rfl) fun t' p e hc => ?_
    rcases update_client hc with ⟨-, h1⟩ | ⟨rfl, h1⟩
    · exact .inl h1
    · rcases hpc p e with h2 | h2
      · exact absurd h1 h2
      · exact .inr (.inl h2)
  cases hm with
  | callSet ht => exact hown _ fun _ _ => .inl (by simp)
  | callGet ht => exact hown _ fun _ _ => .inl (by simp)
  | take ht =>
    refine (hown (.set .taken _) fun p e => ?_).frame (fun _ => rfl) (fun _ => rfl)
      fun _ _ _ hc => .inl hc
    rcases eq_or_ne p .taken with hp | hp
    · exact .inr hp
    · exact .inl fun h1 => hp (by cases h1; rfl)
  | get ht hpc =>
    refine hown _ fun p e => .inl ?_
    rintro rfl
    simp [reads] at hpc
  | wait => exact h
  | skip ht =>
    refine h.frame (fun _ => rfl) (fun _ => rfl) fun t' p e' hc => ?_
    rcases update_client hc with ⟨-, h1⟩ | ⟨rfl, h1⟩
    · exact .inl h1
    · cases h1; exact .inr (.inr ⟨by simp, .locked, by simp, ht⟩)
  | size ht | append ht | flush ht | count ht => exact h.inside ht (by simp) (by simp)
  | put ht => exact h.inside ht (by simp) fun _ => Ring.get_put_self
  | @lock t e ht hl =>
    constructor
    · intro t' p e' ht' hp
      rw [setClient_writer, setWriter_writer, Function.update_apply]
      rcases update_client ht' with ⟨hne, h1⟩ | ⟨rfl, h1⟩
      · have h2 := h.locked t' p e' h1 hp
        rw [if_neg, h2]
        intro hw
        rw [hw, hl] at h2
        cases h2
      · cases h1; rw [if_pos rfl]
    · intro t' e' ht'
      rcases update_client ht' with ⟨hne, h1⟩ | ⟨rfl, h1⟩
      · have h2 := h.slot t' e' h1
        rw [setClient_writer, setWriter_writer, Function.update_apply]
        split
        · rename_i hw; rw [hw] at h2; exact h2
        · exact h2
      · cases h1
  | @unlock t e ht =>
    have hne' : ∀ {t' p e'}, t' ≠ t → s.client t' = .set p e' → p ≠ .taken → home e' ≠ home e :=
      fun hne h1 hp hw => hne (h.alone h1 ht hp (by simp) hw)
    constructor
    · intro t' p e' ht' hp
      rcases update_client ht' with ⟨hne, h1⟩ | ⟨rfl, h1⟩
      · rw [setClient_writer, setWriter_writer, Function.update_of_ne (hne' hne h1 hp)]
        exact h.locked t' p e' h1 hp
      · cases h1
    · intro t' e' ht'
      rcases update_client ht' with ⟨hne, h1⟩ | ⟨rfl, h1⟩
      · rw [setClient_writer, setWriter_writer, Function.update_of_ne (hne' hne h1 (by simp))]
        exact h.slot t' e' h1
      · cases h1
  | @pop w q hp hq =>
    obtain ⟨he, rfl⟩ := MessageQueue.pop_some hq
    exact h.writer rfl rfl rfl rfl rfl
  | _ => exact h.writer rfl rfl rfl rfl rfl

/-! ## Where a step leaves the threads -/

/-- A thread that holds an entry held it before, or has just taken its id. -/
theorem Move.set_cases (hm : Move s l s') (h : s'.client t' = .set p e) :
    (∃ p', s.client t' = .set p' e) ∨ ∃ key value del_flag,
      s.client t' = .setCalled key value del_flag ∧ e = entryOf key value s.idx_ del_flag ∧
        l = .client t' ∧ s'.idx_ = s.idx_ + 1 := by
  cases hm with
  | take ht =>
    rcases update_client h with ⟨-, h1⟩ | ⟨rfl, h1⟩
    · exact .inl ⟨p, h1⟩
    · cases h1; exact .inr ⟨_, _, _, ht, rfl, rfl, rfl⟩
  | callSet | callGet =>
    rcases update_client h with ⟨-, h1⟩ | ⟨-, h1⟩
    · exact .inl ⟨p, h1⟩
    · cases h1
  | get _ hpc =>
    rcases update_client h with ⟨-, h1⟩ | ⟨-, rfl⟩
    · exact .inl ⟨p, h1⟩
    · simp [reads] at hpc
  | unlock =>
    rcases update_client h with ⟨-, h1⟩ | ⟨-, h1⟩
    · exact .inl ⟨p, h1⟩
    · cases h1
  | lock ht | size ht | append ht | flush ht | skip ht | put ht | count ht =>
    rcases update_client h with ⟨-, h1⟩ | ⟨rfl, h1⟩
    · exact .inl ⟨p, h1⟩
    · cases h1; exact .inl ⟨_, ht⟩
  | _ => exact .inl ⟨p, h⟩

/-- A thread about to take its id was so before, or has just called. -/
theorem Move.called_cases (hm : Move s l s') {key value : Bytes} {del_flag : Bool}
    (h : s'.client t' = .setCalled key value del_flag) :
    s.client t' = .setCalled key value del_flag ∨ l = .callSet t' key value del_flag := by
  cases hm with
  | callSet =>
    rcases update_client h with ⟨-, h1⟩ | ⟨rfl, h1⟩
    · exact .inl h1
    · cases h1; exact .inr rfl
  | get _ hpc =>
    rcases update_client h with ⟨-, h1⟩ | ⟨-, rfl⟩
    · exact .inl h1
    · simp [reads] at hpc
  | callGet | take | unlock | lock | size | append | flush | skip | put | count =>
    rcases update_client h with ⟨-, h1⟩ | ⟨-, h1⟩
    · exact .inl h1
    · cases h1
  | _ => exact .inl h

/-- A thread stays where it is while it does not move itself. -/
theorem Move.client_of_ne (hm : Move s l s') (hl : l ≠ .client t) (hi : s.client t ≠ .idle) :
    s'.client t = s.client t := by
  cases hm with
  | callSet ht | callGet ht =>
    exact Function.update_of_ne (by rintro rfl; exact hi ht) _ _
  | take | lock | size | append | flush | skip | put | count | unlock | get =>
    exact Function.update_of_ne (by rintro rfl; exact hl rfl) _ _
  | _ => rfl

/-- A thread that is not inside a call gets there by a call. -/
theorem Move.idle_cases (hm : Move s l s') (h : s.client t = .idle) : s'.client t = .idle ∨
    (∃ key value del_flag, l = .callSet t key value del_flag) ∨ ∃ key, l = .callGet t key := by
  have hstay : ∀ {t' pc}, s.client t' ≠ .idle → Function.update s.client t' pc t = .idle := by
    intro t' pc hne
    rw [Function.update_of_ne, h]
    rintro rfl
    exact hne h
  cases hm with
  | @callSet t' key value del_flag ht =>
    rcases eq_or_ne t t' with rfl | hne
    · exact .inr (.inl ⟨key, value, del_flag, rfl⟩)
    · exact .inl ((Function.update_of_ne hne _ _).trans h)
  | @callGet t' key ht =>
    rcases eq_or_ne t t' with rfl | hne
    · exact .inr (.inr ⟨key, rfl⟩)
    · exact .inl ((Function.update_of_ne hne _ _).trans h)
  | take ht | lock ht | size ht | append ht | flush ht | skip ht | put ht | count ht | unlock ht =>
    exact .inl (hstay (by rw [ht]; simp))
  | get ht => exact .inl (hstay fun hi => by rw [hi] at ht; cases ht)
  | _ => exact .inl h

theorem Move.idx_le (hm : Move s l s') : s.idx_ ≤ s'.idx_ := by
  cases hm with
  | take => exact Nat.le_succ _
  | _ => exact le_rfl

/-- A writer's step moves no client thread. -/
theorem Move.client_of_writer (hm : Move s (.writer w) s') : s'.client = s.client := by
  cases hm <;> rfl

theorem keeps_fixed {w₀ : Fin kMaxWriter} (hw : s'.writer_ = Function.update s.writer_ w₀ wr)
    (hpc : wr.pc = .off ↔ (s.writer_ w₀).pc = .off)
    (hlogid : wr.queue_.logid_ = (s.writer_ w₀).queue_.logid_)
    (hmax : wr.queue_.max_id_ = (s.writer_ w₀).queue_.max_id_) :
    ((s'.writer_ w).pc = .off ↔ (s.writer_ w).pc = .off) ∧
      (s'.writer_ w).queue_.logid_ = (s.writer_ w).queue_.logid_ ∧
      (s'.writer_ w).queue_.max_id_ = (s.writer_ w).queue_.max_id_ :=
  ⟨Iff.of_eq (keeps_field (·.pc = .off) hw (propext hpc)), keeps_field (·.queue_.logid_) hw hlogid,
    keeps_field (·.queue_.max_id_) hw hmax⟩

/-- What a step does to a ring. -/
theorem Move.ring_cases (hm : Move s l s') (w : Fin kMaxWriter) :
    (s'.writer_ w).queue_.ring = (s.writer_ w).queue_.ring ∨
    (∃ t e, s.client t = .set .logged e ∧ home e = w ∧ (s.writer_ w).queue_.ring.isFull = false ∧
      (s'.writer_ w).queue_.ring = (s.writer_ w).queue_.ring.put e) ∨
    (∃ t e hf, s.client t = .set .written e ∧ home e = w ∧
      (s'.writer_ w).queue_.ring = (s.writer_ w).queue_.ring.advance hf) ∨
    ∃ he, (s'.writer_ w).queue_.ring = (s.writer_ w).queue_.ring.pop he := by
  have other : ∀ {w₀ wr}, w ≠ w₀ → Function.update s.writer_ w₀ wr w = s.writer_ w :=
    fun hne => Function.update_of_ne hne _ _
  cases hm with
  | @put t e ht hf =>
    simp only [onQueue, setClient_writer, setWriter_writer]
    rcases eq_or_ne w (home e) with rfl | hne
    · rw [Function.update_self]; exact .inr (.inl ⟨t, e, ht, rfl, hf, rfl⟩)
    · rw [other hne]; exact .inl rfl
  | @count t e q ht hq =>
    obtain ⟨hf, rfl⟩ := MessageQueue.advance_some hq
    simp only [onQueue, setClient_writer, setWriter_writer]
    rcases eq_or_ne w (home e) with rfl | hne
    · rw [Function.update_self]; exact .inr (.inr (.inl ⟨t, e, hf, ht, rfl, rfl⟩))
    · rw [other hne]; exact .inl rfl
  | @pop w₀ q hp hq =>
    obtain ⟨he, rfl⟩ := MessageQueue.pop_some hq
    simp only [setWriter_writer]
    rcases eq_or_ne w w₀ with rfl | hne
    · rw [Function.update_self]; exact .inr (.inr (.inr ⟨he, rfl⟩))
    · rw [other hne]; exact .inl rfl
  | callSet | callGet | take | skip | wait | get => exact .inl rfl
  | _ => exact .inl (keeps_field (·.queue_.ring) rfl rfl)

/-- What a step does to an active list. -/
theorem Move.list_cases (hm : Move s l s') (w : Fin kMaxWriter) :
    (s'.writer_ w).list_ = (s.writer_ w).list_ ∨ (s'.writer_ w).list_ = .empty ∨
    ∃ front ∈ (s.writer_ w).queue_.contents,
      (s.writer_ w).list_.insert front = some (s'.writer_ w).list_ := by
  have other : ∀ {w₀ wr}, w ≠ w₀ → Function.update s.writer_ w₀ wr w = s.writer_ w :=
    fun hne => Function.update_of_ne hne _ _
  cases hm with
  | @insert w₀ front list hp hf hl =>
    simp only [setWriter_writer]
    rcases eq_or_ne w w₀ with rfl | hne
    · rw [Function.update_self]
      exact .inr (.inr ⟨front, List.mem_of_mem_head? (MessageQueue.getFront_some hf), hl⟩)
    · rw [other hne]; exact .inl rfl
  | @renew w₀ hp =>
    simp only [setWriter_writer]
    rcases eq_or_ne w w₀ with rfl | hne
    · rw [Function.update_self]; exact .inr (.inl rfl)
    · rw [other hne]; exact .inl rfl
  | callSet | callGet | take | skip | wait | get => exact .inl rfl
  | _ => exact .inl (keeps_field (·.list_) rfl rfl)

/-! ## Slots -/

/-- Every slot written since the start holds an entry in `S`, also those popped since. -/
def SlotsIn (S : Entry → Prop) (s : Store) (w : Fin kMaxWriter) : Prop :=
  1 ≤ (s.writer_ w).queue_.ring.rd ∧
    ∀ j, 1 ≤ j → j < (s.writer_ w).queue_.ring.wr → S ((s.writer_ w).queue_.ring.get j)

theorem SlotsIn.mono {S S' : Entry → Prop} (h : SlotsIn S s w) (hS : ∀ e, S e → S' e) :
    SlotsIn S' s w :=
  ⟨h.1, fun j hj hlt => hS _ (h.2 j hj hlt)⟩

theorem SlotsIn.contents {S : Entry → Prop} (h : SlotsIn S s w) :
    ∀ e ∈ (s.writer_ w).queue_.contents, S e := by
  intro e he
  obtain ⟨i, hi, rfl⟩ := List.mem_map.1 he
  have := List.mem_range.1 hi
  have := h.1
  exact h.2 _ (by omega) (by omega)

theorem SlotsIn.step {S : Entry → Prop} (h : SlotsIn S s w) (hm : Move s l s') (hc : ClientsOk s)
    (hS : ∀ t p e, s.client t = .set p e → p = .logged ∨ p = .written → home e = w → S e) :
    SlotsIn S s' w := by
  obtain ⟨h1, h2⟩ := h
  unfold SlotsIn
  rcases hm.ring_cases w with hr | ⟨t, e, ht, hw, -, hr⟩ | ⟨t, e, hf, ht, hw, hr⟩ | ⟨he, hr⟩
  · rw [hr]; exact ⟨h1, h2⟩
  · rw [hr]
    refine ⟨h1, fun j hj hlt => ?_⟩
    rw [Ring.get_put]
    split
    · exact hS t _ e ht (.inl rfl) hw
    · exact h2 j hj hlt
  · rw [hr]
    refine ⟨h1, fun j hj hlt => ?_⟩
    rcases Nat.lt_succ_iff_lt_or_eq.1 hlt with hlt | rfl
    · exact h2 j hj hlt
    · subst hw
      show S ((s.writer_ (home e)).queue_.ring.get _)
      rw [hc.slot t e ht]; exact hS t _ e ht (.inr rfl) rfl
  · rw [hr]
    exact ⟨Nat.le_succ_of_le h1, h2⟩

/-- What a step does to the frozen lists of a writer. -/
theorem Move.frozen_cases (hm : Move s l s') (w : Fin kMaxWriter) :
    s'.current_.list_ w = s.current_.list_ w ∨
      s'.current_.list_ w = s.current_.list_ w ++ [(s.writer_ w).list_] := by
  cases hm with
  | @freeze w₀ hp =>
    simp only [Version.appendList, Function.update_apply]
    split
    · rename_i hw; rw [hw]; exact .inr rfl
    · exact .inl rfl
  | _ => exact .inl rfl

theorem Move.wr_le (hm : Move s l s') (w : Fin kMaxWriter) :
    (s.writer_ w).queue_.ring.wr ≤ (s'.writer_ w).queue_.ring.wr := by
  rcases hm.ring_cases w with hr | ⟨t, e, -, -, -, hr⟩ | ⟨t, e, hf, -, -, hr⟩ | ⟨he, hr⟩ <;> rw [hr]
  · exact le_rfl
  · exact Nat.le_succ _
  · exact le_rfl

/-- An entry in the queue after a step was there before, or has just been counted in. -/
theorem Move.contents_cases (hm : Move s l s') (hc : ClientsOk s) {e : Entry}
    (h : e ∈ (s'.writer_ w).queue_.contents) :
    e ∈ (s.writer_ w).queue_.contents ∨
      ∃ t, s.client t = .set .written e ∧ home e = w := by
  unfold MessageQueue.contents at h ⊢
  rcases hm.ring_cases w with hr | ⟨t, e', -, -, hf, hr⟩ | ⟨t, e', hf, ht, hw, hr⟩ | ⟨he, hr⟩ <;>
    rw [hr] at h
  · exact .inl h
  · rw [Ring.contents_put hf] at h; exact .inl h
  · rw [Ring.contents_advance] at h
    rcases List.mem_append.1 h with h | h
    · exact .inl h
    · subst hw
      rw [List.mem_singleton.1 h, hc.slot t e' ht]
      exact .inr ⟨t, ht, rfl⟩
  · rw [Ring.contents_pop] at h
    exact .inl (List.mem_of_mem_tail h)

/-- What no step changes. -/
theorem Move.fixed (hm : Move s l s') (w : Fin kMaxWriter) :
    ((s'.writer_ w).pc = .off ↔ (s.writer_ w).pc = .off) ∧
      (s'.writer_ w).queue_.logid_ = (s.writer_ w).queue_.logid_ ∧
      (s'.writer_ w).queue_.max_id_ = (s.writer_ w).queue_.max_id_ := by
  cases hm with
  | callSet | callGet | take | skip | wait | get => exact ⟨Iff.rfl, rfl, rfl⟩
  | lock | size | append | flush | put | unlock => exact keeps_fixed rfl Iff.rfl rfl rfl
  | count _ hq =>
    obtain ⟨hf, rfl⟩ := MessageQueue.advance_some hq
    exact keeps_fixed rfl Iff.rfl rfl rfl
  | pop hp hq =>
    obtain ⟨he, rfl⟩ := MessageQueue.pop_some hq
    exact keeps_fixed rfl (by simp [hp]) rfl rfl
  | check hp =>
    refine keeps_fixed rfl ?_ rfl rfl
    rw [hp]
    dsimp only
    split
    · simp
    · simp
  | acquire hp | release hp | insert hp | freeze hp | renew hp =>
    exact keeps_fixed rfl (by simp [hp]) rfl rfl

end Store

end Yangkv
