import Yangkv.Lib.Progress
import Yangkv.Proof.Crash

/-!
# No call is stuck

`push` waits for the lock of its queue and for room in it, `getEntry` for the lock of the
writer. Whoever holds a lock can go on, and a writer empties its queue on its own.

* `Live.step`: a lock is held by a thread inside `push`, a slot is written only with room
  for it, and while no `::write` fails every log takes its records.
* `drained`: every writer can empty its queue.
* `no_deadlock`: from every state of every run each call can return.
-/

namespace Yangkv

open Lib

namespace Store

variable {s s' : Store} {l : Label} {t : Tid} {w : Fin kMaxWriter} {p : SetPc} {e : Entry}
  {hist : List Event}

/-! ## Who holds the lock -/

/-- A thread leaves `push` with the lock of its queue free. -/
theorem Move.inside_next (hm : Move s l s') (ht : s.client t = .set p e) (hp : p ≠ .taken) :
    (∃ p', p' ≠ .taken ∧ s'.client t = .set p' e) ∨ (s'.writer_ (home e)).lock_ = none := by
  -- the thread `t'` moves from `p₁` to `p₂`
  have inside : ∀ {t' p₁ p₂ e'}, s.client t' = .set p₁ e' → p₂ ≠ .taken →
      s'.client = Function.update s.client t' (.set p₂ e') →
      ∃ p', p' ≠ .taken ∧ s'.client t = .set p' e := by
    intro t' p₁ p₂ e' ht' hp₂ hc
    rw [hc]
    by_cases he : t = t'
    · rw [he, ht', ClientPc.set.injEq] at ht
      rw [he, Function.update_self, ht.2]
      exact ⟨p₂, hp₂, rfl⟩
    · rw [Function.update_of_ne he, ht]
      exact ⟨p, hp, rfl⟩
  -- the thread `t'` is outside
  have outside : ∀ {t' pc}, (∀ p e, s.client t' = .set p e → p = .taken) →
      s'.client = Function.update s.client t' pc → ∃ p', p' ≠ .taken ∧ s'.client t = .set p' e := by
    intro t' pc hout hc
    have hne : t ≠ t' := by
      rintro rfl
      exact hp (hout p e ht)
    rw [hc, Function.update_of_ne hne, ht]
    exact ⟨p, hp, rfl⟩
  cases hm with
  | callSet ht' | callGet ht' =>
    exact .inl (outside (by rw [ht']; intro p e h; cases h) rfl)
  | take ht' => exact .inl (outside (by rw [ht']; intro p e h; cases h) rfl)
  | get hr =>
    refine .inl (outside (fun p e h => ?_) rfl)
    rw [h] at hr
    cases hr
  | lock ht' | size ht' | append ht' | flush ht' | skip ht' | put ht' | count ht' =>
    exact .inl (inside ht' (by simp) rfl)
  | @unlock t' e' ht' =>
    by_cases he : t = t'
    · rw [he, ht', ClientPc.set.injEq] at ht
      rw [← ht.2]
      refine .inr ?_
      rw [setClient_writer, setWriter_writer, Function.update_self]
    · refine .inl ⟨p, hp, ?_⟩
      rw [setClient_client, Function.update_of_ne he]
      exact ht
  | _ => exact .inl ⟨p, hp, ht⟩

theorem Move.lock_cases (hm : Move s l s') (w : Fin kMaxWriter) :
    (s'.writer_ w).lock_ = (s.writer_ w).lock_ ∨ (s'.writer_ w).lock_ = none ∨
      ∃ t e, (s'.writer_ w).lock_ = some t ∧ home e = w ∧ s'.client t = .set .locked e := by
  cases hm with
  | @lock t e =>
    by_cases hw : w = home e
    · subst hw
      refine .inr (.inr ⟨t, e, ?_, rfl, Function.update_self ..⟩)
      rw [setClient_writer, setWriter_writer, Function.update_self]
    · rw [setClient_writer, setWriter_writer, Function.update_of_ne hw]
      exact .inl rfl
  | @unlock t e =>
    by_cases hw : w = home e
    · subst hw
      refine .inr (.inl ?_)
      rw [setClient_writer, setWriter_writer, Function.update_self]
    · rw [setClient_writer, setWriter_writer, Function.update_of_ne hw]
      exact .inl rfl
  | callSet | callGet | take | skip | wait | get => exact .inl rfl
  | count _ hq =>
    obtain ⟨hf, rfl⟩ := MessageQueue.advance_some hq
    exact .inl (keeps_field (·.lock_) rfl rfl)
  | pop _ hq =>
    obtain ⟨he, rfl⟩ := MessageQueue.pop_some hq
    exact .inl (keeps_field (·.lock_) rfl rfl)
  | _ => exact .inl (keeps_field (·.lock_) rfl rfl)

/-- Slots are written where there is room for them. -/
def RoomFor (s : Store) : Prop :=
  ∀ t e, s.client t = .set .written e → (s.writer_ (home e)).queue_.isFull = false

theorem RoomFor.step (h : RoomFor s) (hc : s.ClientsOk) (hm : Move s l s') : RoomFor s' := by
  intro t e ht
  -- a step that puts no thread at `written` and keeps the rings
  have same : (∀ t e, s'.client t = .set .written e → s.client t = .set .written e) →
      (s'.writer_ (home e)).queue_.ring = (s.writer_ (home e)).queue_.ring →
      (s'.writer_ (home e)).queue_.isFull = false := by
    intro hw hr
    rw [MessageQueue.isFull, hr]
    exact h t e (hw t e ht)
  have moves : ∀ {t' pc}, (∀ e, pc ≠ .set .written e) →
      s'.client = Function.update s.client t' pc →
      ∀ t e, s'.client t = .set .written e → s.client t = .set .written e := by
    intro t' pc hpc hcl t e ht
    rw [hcl] at ht
    obtain ⟨-, hold⟩ | ⟨-, hnew⟩ := update_client ht
    · exact hold
    · exact absurd hnew (hpc e)
  -- a step inside `push` of another queue
  have other : ∀ {t' p' e' q pc}, s.client t' = .set p' e' → p' ≠ .taken →
      s' = s.onQueue t' (home e') pc q → s.client t = .set .written e → t ≠ t' →
      (s'.writer_ (home e)).queue_.isFull = false := by
    intro t' p' e' q pc ht' hp' hs hold hne
    have hw : home e ≠ home e' := fun hw => hne (hc.alone hold ht' (by simp) hp' hw)
    rw [hs, onQueue, setClient_writer, setWriter_writer, Function.update_of_ne hw]
    exact h t e hold
  cases hm with
  | callSet | callGet | take | skip => exact same (moves (by simp) rfl) rfl
  | get _ hpc =>
    refine same (moves (fun e he => ?_) rfl) rfl
    rw [he] at hpc
    obtain hpc | hpc := hpc <;> cases hpc
  | wait => exact same (fun _ _ hold => hold) rfl
  | lock | unlock | size | append | flush =>
    exact same (moves (by simp) rfl) (keeps_field (·.queue_.ring) rfl rfl)
  | @put t' e' ht' hf =>
    obtain ⟨hne, hold⟩ | ⟨rfl, hnew⟩ := update_client ht
    · exact other ht' (by simp) rfl hold hne
    · cases hnew
      rw [onQueue, setClient_writer, setWriter_writer, Function.update_self]
      exact hf
  | @count t' e' q ht' hq =>
    obtain ⟨hne, hold⟩ | ⟨-, hnew⟩ := update_client ht
    · exact other ht' (by simp) rfl hold hne
    · cases hnew
  | @pop w q _ hq =>
    obtain ⟨he, rfl⟩ := MessageQueue.pop_some hq
    by_cases hw : home e = w
    · subst hw
      have hle := (s.writer_ (home e)).queue_.ring.room
      have hlt := (s.writer_ (home e)).queue_.ring.le
      have hne : ¬ (s.writer_ (home e)).queue_.ring.wr = (s.writer_ (home e)).queue_.ring.rd := by
        simpa [Ring.isEmpty] using he
      rw [setWriter_writer, Function.update_self]
      show ((s.writer_ (home e)).queue_.ring.pop he).isFull = false
      simp only [Ring.isFull, Ring.pop, beq_eq_false_iff_ne, ne_eq]
      omega
    · rw [setWriter_writer, Function.update_of_ne hw]
      exact h t e ht
  | acquire | release | insert | check | freeze | renew =>
    exact same (fun _ _ hold => hold) (keeps_field (·.queue_.ring) rfl rfl)

/-- No `::write` of a log will fail. -/
theorem Move.noFail (hm : Move s l s') (hc : s.ClientsOk) {logged pushed : List Entry}
    (hwal : s.WalOk logged pushed w) (hf : (s.writer_ w).queue_.log_.NoFail) :
    (s'.writer_ w).queue_.log_.NoFail := by
  -- a step of a thread on the log of `home e`
  have own : ∀ {t e pc f}, (home e = w → f.NoFail) →
      s' = s.onQueue t (home e) pc { (s.writer_ (home e)).queue_ with log_ := f } →
      (s'.writer_ w).queue_.log_.NoFail := by
    intro t e pc f hn hs
    rw [hs, onQueue, setClient_writer, setWriter_writer]
    by_cases hw : w = home e
    · rw [hw, Function.update_self]
      exact hn hw.symm
    · rw [Function.update_of_ne hw]
      exact hf
  have same : (s'.writer_ w).queue_.log_ = (s.writer_ w).queue_.log_ →
      (s'.writer_ w).queue_.log_.NoFail := fun hl => by rw [hl]; exact hf
  cases hm with
  | @size t e slice f ht _ _ hsize =>
    refine own (fun hw => ?_) rfl
    subst hw
    obtain ⟨-, -, hbuf⟩ := hwal.at hc ht rfl (by simp)
    obtain rfl := Option.some.inj ((appendSize_of_empty hbuf _).symm.trans hsize)
    exact hf
  | @append t e slice f ht henc hok =>
    refine own (fun hw => ?_) rfl
    subst hw
    obtain ⟨-, -, record, -, hbuf⟩ := hwal.at hc ht rfl (by simp)
    have hroom : (s.writer_ (home e)).queue_.log_.buf.length ≤ kWritableFileBufferSize := by
      rw [hbuf, length_leBytes]
      decide
    obtain ⟨f', hf', -, -, hn⟩ := WritableFile.append_ok hf hroom slice
    rw [hok, Prod.mk.injEq] at hf'
    rw [hf'.2]
    exact hn
  | @flush t e f ht hok =>
    refine own (fun hw => ?_) rfl
    subst hw
    obtain ⟨f', hf', -, -, hn⟩ := WritableFile.flush_ok hf
    rw [hok, Prod.mk.injEq] at hf'
    rw [hf'.2]
    exact hn
  | count _ hq =>
    obtain ⟨hf, rfl⟩ := MessageQueue.advance_some hq
    exact same (keeps_field (·.queue_.log_) rfl rfl)
  | pop _ hq =>
    obtain ⟨he, rfl⟩ := MessageQueue.pop_some hq
    exact same (keeps_field (·.queue_.log_) rfl rfl)
  | put | lock | unlock | acquire | release | insert | check | freeze | renew =>
    exact same (keeps_field (·.queue_.log_) rfl rfl)
  | _ => exact same rfl

/-! ## The invariant -/

/-- Nothing stands in the way of a thread for good. -/
structure Live (s : Store) : Prop where
  ok : ∃ pushed, s.Ok pushed
  up : ∀ w, (s.writer_ w).pc ≠ .off
  held : ∀ w t, (s.writer_ w).lock_ = some t →
    ∃ p e, p ≠ .taken ∧ home e = w ∧ s.client t = .set p e
  room : s.RoomFor
  wal : ∀ w, ∃ logged pushed, s.WalOk logged pushed w
  noFail : ∀ w, (s.writer_ w).queue_.log_.NoFail

theorem Live.step (h : Live s) (hg : s.SizedStep l) (hs : s.step l = some s') : Live s' := by
  have hm := step_move hs
  obtain ⟨pushed, hok⟩ := h.ok
  refine ⟨⟨_, hok.step hg hs⟩, fun w hoff => ?_, fun w t hl => ?_, h.room.step hok.clients hm,
    fun w => ?_, fun w => ?_⟩
  · exact h.up w ((hm.fixed w).1.1 hoff)
  · obtain hsame | hfree | ⟨t', e, hl', hw, ht'⟩ := hm.lock_cases w
    · rw [hsame] at hl
      obtain ⟨p, e, hp, hw, ht⟩ := h.held w t hl
      obtain ⟨p', hp', ht'⟩ | hfree := hm.inside_next ht hp
      · exact ⟨p', e, hp', hw, ht'⟩
      · rw [hw, hsame, hl] at hfree
        cases hfree
    · rw [hfree] at hl
      cases hl
    · rw [hl', Option.some.injEq] at hl
      rw [← hl]
      exact ⟨.locked, e, by simp, hw, ht'⟩
  · obtain ⟨logged, pushed, hwal⟩ := h.wal w
    exact ⟨_, _, hwal.step hok.clients hm⟩
  · obtain ⟨logged, pushed, hwal⟩ := h.wal w
    exact hm.noFail hok.clients hwal (h.noFail w)

/-! ## A writer empties its queue -/

/-- A step of the threads that are there, before the ids reach `2 ^ 56`. -/
def NoCall (s : Store) : Label → Prop
  | .callSet _ _ _ _ | .callGet _ _ => False
  | l => s.SizedStep l

theorem NoCall.sized (h : s.NoCall l) : s.SizedStep l := by
  cases l with
  | callSet | callGet => exact absurd h id
  | client t => exact h
  | writer w => exact h

/-- How far a writer is from sleeping with an empty queue. -/
def toDrain (wr : Writer) : ℕ :=
  8 * wr.queue_.contents.length +
    match wr.pc with
    | .off | .inserted => 0
    | .idle => 5 * min wr.queue_.contents.length 1
    | .loop => 1
    | .frozen => 2
    | .full => 3
    | .popped => 4

theorem setWriter_self {wr : Writer} : (s.setWriter w wr).writer_ w = wr := Function.update_self ..

/-- **Every step of a writer brings it nearer.** -/
theorem Live.writer_next (h : Live s) (w : Fin kMaxWriter)
    (hn : ¬ ((s.writer_ w).pc = .idle ∧ (s.writer_ w).queue_.contents = [])) :
    ∃ s', s.writerStep w = some s' ∧ toDrain (s'.writer_ w) < toDrain (s.writer_ w) := by
  obtain ⟨pushed, hok⟩ := h.ok
  have hpipe := hok.pipe w
  have hlen : (s.writer_ w).queue_.contents = [] ↔ (s.writer_ w).queue_.contents.length = 0 :=
    List.length_eq_zero_iff.symm
  cases hpc : (s.writer_ w).pc with
  | off => exact absurd hpc (h.up w)
  | idle =>
    refine ⟨_, (by simp only [writerStep, hpc]; rfl), ?_⟩
    have hpos : (s.writer_ w).queue_.contents.length ≠ 0 := fun h0 => hn ⟨hpc, hlen.2 h0⟩
    rw [setWriter_self]
    simp only [toDrain, hpc]
    omega
  | loop =>
    cases he : (s.writer_ w).queue_.isEmpty with
    | true =>
      have hins : (s.writer_ w).insertFront = some { s.writer_ w with pc := .idle } := by
        simp only [Writer.insertFront, he, if_true]
      refine ⟨_, (by simp only [writerStep, hpc, hins, Option.map_some]; rfl), ?_⟩
      have h0 := hlen.1 (Ring.isEmpty_iff.1 he)
      rw [setWriter_self]
      simp only [toDrain, hpc]
      omega
    | false =>
      obtain ⟨front, hf⟩ : ∃ front, (s.writer_ w).queue_.getFront = some front := by
        simp only [MessageQueue.getFront, he]
        exact ⟨_, rfl⟩
      have hbound : front.Bounded := by
        obtain ⟨ins, hins, -, -⟩ := hpipe.flow
        refine hpipe.bounded front ?_
        rw [hins, hpc]
        exact List.mem_append_right _ (List.mem_of_mem_head? (MessageQueue.getFront_some hf))
      obtain ⟨list, hl⟩ : ∃ list, (s.writer_ w).list_.insert front = some list := by
        simp only [SkipList.insert, encodeMemEntry_fits hbound.fits]
        exact ⟨_, rfl⟩
      have hins : (s.writer_ w).insertFront =
          some { s.writer_ w with list_ := list, pc := .inserted } := by
        rw [Writer.insertFront, he, if_neg Bool.false_ne_true, hf]
        simp only [Option.bind_eq_bind, Option.bind_some, hl]
      refine ⟨_, (by simp only [writerStep, hpc, hins, Option.map_some]; rfl), ?_⟩
      rw [setWriter_self]
      simp only [toDrain, hpc]
      omega
  | inserted =>
    have hpos := hpipe.ahead
    rw [hpc] at hpos
    have he : (s.writer_ w).queue_.ring.isEmpty = false := by
      rw [← Bool.not_eq_true]
      intro he
      have h0 := hlen.1 (Ring.isEmpty_iff.1 he)
      simp only [WriterPc.ahead] at hpos
      omega
    obtain ⟨q, hq⟩ : ∃ q, (s.writer_ w).queue_.pop = some q := by
      simp only [MessageQueue.pop, he]
      exact ⟨_, rfl⟩
    refine ⟨_, (by simp only [writerStep, hpc, Writer.popFront, hq, Option.map_some]; rfl), ?_⟩
    rw [setWriter_self]
    simp only [toDrain, hpc, MessageQueue.contents_pop hq, List.length_tail]
    simp only [WriterPc.ahead] at hpos
    omega
  | popped =>
    refine ⟨_, (by simp only [writerStep, hpc]; rfl), ?_⟩
    rw [setWriter_self]
    by_cases hsize : kMaxActiveListSize ≤ (s.writer_ w).list_.size
    · simp only [toDrain, hpc, if_pos hsize]
      omega
    · simp only [toDrain, hpc, if_neg hsize]
      omega
  | full =>
    refine ⟨_, (by simp only [writerStep, hpc]; rfl), ?_⟩
    show toDrain ((s.setWriter w _).writer_ w) < _
    rw [setWriter_self]
    simp only [toDrain, hpc]
    omega
  | frozen =>
    refine ⟨_, (by simp only [writerStep, hpc]; rfl), ?_⟩
    rw [setWriter_self]
    simp only [toDrain, hpc]
    omega

/-- The clients of `s'` are where those of `s` are. -/
structure SameClients (s s' : Store) : Prop where
  client : s'.client = s.client
  idx : s'.idx_ = s.idx_
  lock : ∀ w, (s'.writer_ w).lock_ = (s.writer_ w).lock_

theorem Move.sameClients (hm : Move s (.writer w) s') : SameClients s s' := by
  refine ⟨hm.client_of_writer, ?_, fun w => ?_⟩
  · cases hm <;> rfl
  · cases hm with
    | pop _ hq =>
      obtain ⟨he, rfl⟩ := MessageQueue.pop_some hq
      exact keeps_field (·.lock_) rfl rfl
    | _ => exact keeps_field (·.lock_) rfl rfl

theorem SameClients.trans {s'' : Store} (h : SameClients s s') (h' : SameClients s' s'') :
    SameClients s s'' :=
  ⟨h'.client.trans h.client, h'.idx.trans h.idx, fun w => (h'.lock w).trans (h.lock w)⟩

/-- **Every writer can empty its queue**, and sleeps then. -/
theorem drained (h : Live s) (hidx : s.idx_ < 2 ^ 56) (w : Fin kMaxWriter) :
    machine.CanReach NoCall s fun s' => (Live s' ∧ SameClients s s') ∧
      (s'.writer_ w).pc = .idle ∧ (s'.writer_ w).queue_.contents = [] := by
  refine Machine.CanReach.measure (I := fun s' => Live s' ∧ SameClients s s')
    (fun s' => toDrain (s'.writer_ w)) ?_ ⟨h, rfl, rfl, fun _ => rfl⟩
  rintro s₁ ⟨hlive, hsame⟩ hn
  obtain ⟨s₂, hs, hlt⟩ := hlive.writer_next w hn
  have hg : s₁.NoCall (.writer w) := by
    show s₁.idx_ < 2 ^ 56
    rw [hsame.idx]
    exact hidx
  have hmove := (writerStep_move hs).sameClients
  exact .step hg hs (.refl ⟨⟨hlive.step (NoCall.sized hg) hs, hsame.trans hmove⟩, hlt⟩)

/-! ## A call returns -/

theorem by_client {P : Store → Prop} (hidx : s.idx_ < 2 ^ 56) (hs : s.clientStep t = some s')
    (hp : machine.CanReach NoCall s' P) : machine.CanReach NoCall s P := by
  have hg : s.NoCall (.client t) := hidx
  exact .step hg hs hp

/-- How many steps of `push` are left. -/
def pushLeft : SetPc → ℕ
  | .taken => 7
  | .locked => 6
  | .sized => 5
  | .appended => 4
  | .logged => 3
  | .written => 2
  | .counted => 1

theorem pushLeft_pos (p : SetPc) : 0 < pushLeft p := by
  cases p <;> decide

/-- The same for a thread. -/
def writeLeft : ClientPc → ℕ
  | .set p _ => pushLeft p
  | _ => 0

/-- The thread `t` of `s` is in `push` in `s'`, or has left it. -/
structure Pushing (s : Store) (t : Tid) (e : Entry) (s' : Store) : Prop where
  live : Live s'
  idx : s'.idx_ = s.idx_
  other : ∀ t', t' ≠ t → s'.client t' = s.client t'
  place : (∃ p, p ≠ .taken ∧ s'.client t = .set p e) ∨
    s'.client t = .idle ∧ (s'.writer_ (home e)).lock_ = none

/-- **Inside `push` there is a step forward**, at the slot if there is room for it. -/
theorem Live.push_next (h : Live s) (hidx : s.idx_ < 2 ^ 56) (ht : s.client t = .set p e)
    (hp : p ≠ .taken) (hroom : p = .logged → (s.writer_ (home e)).queue_.isFull = false) :
    ∃ s', s.clientStep t = some s' ∧ Pushing s t e s' ∧
      ∀ p', s'.client t = .set p' e → pushLeft p' < pushLeft p := by
  -- on to `p'`
  have go : ∀ {p' s'}, s.clientStep t = some s' → s'.idx_ = s.idx_ →
      s'.client = Function.update s.client t (.set p' e) → p' ≠ .taken →
      pushLeft p' < pushLeft p →
      ∃ s', s.clientStep t = some s' ∧ Pushing s t e s' ∧
        ∀ p', s'.client t = .set p' e → pushLeft p' < pushLeft p := by
    intro p' s' hs hi hc hp' hlt
    have hself : s'.client t = .set p' e := by rw [hc, Function.update_self]
    refine ⟨s', hs, ⟨h.step (l := .client t) hidx hs, hi, fun t' hne => ?_, .inl ⟨p', hp', hself⟩⟩,
      fun p'' ht'' => ?_⟩
    · rw [hc, Function.update_of_ne hne]
    · rw [hself, ClientPc.set.injEq] at ht''
      rw [← ht''.1]
      exact hlt
  obtain ⟨pushed, hok⟩ := h.ok
  obtain ⟨logged, pushed', hwal⟩ := h.wal (home e)
  have henc := encodeMemEntry_fits (hok.entry t p e ht).fits
  have hnf := h.noFail (home e)
  have hstep : s.clientStep t = s.setStep t e p := by simp only [clientStep, ht]
  cases p with
  | taken => exact absurd rfl hp
  | locked =>
    obtain ⟨-, -, hbuf⟩ := hwal.at hok.clients ht rfl (by simp)
    have hsize := appendSize_of_empty hbuf e.record.length
    have hs : s.clientStep t = some (s.onQueue t (home e) (.set .sized e)
        { (s.writer_ (home e)).queue_ with log_ :=
          { (s.writer_ (home e)).queue_.log_ with buf := leBytes 8 e.record.length } }) := by
      rw [hstep]
      simp only [setStep, hwal.ready, if_true, henc, Option.bind_some, onLog, hsize]
    exact go hs rfl rfl (by simp) (by decide)
  | sized =>
    obtain ⟨-, -, record, -, hbuf⟩ := hwal.at hok.clients ht rfl (by simp)
    have hfits : (s.writer_ (home e)).queue_.log_.buf.length ≤ kWritableFileBufferSize := by
      rw [hbuf, length_leBytes]
      decide
    obtain ⟨f, hf, -⟩ := WritableFile.append_ok hnf hfits e.record
    have hs : s.clientStep t = some (s.onQueue t (home e) (.set .appended e)
        { (s.writer_ (home e)).queue_ with log_ := f }) := by
      rw [hstep]
      simp only [setStep, henc, Option.bind_some, onLog, hf, if_true]
    exact go hs rfl rfl (by simp) (by decide)
  | appended =>
    obtain ⟨f, hf, -⟩ := WritableFile.flush_ok hnf
    have hs : s.clientStep t = some (s.onQueue t (home e) (.set .logged e)
        { (s.writer_ (home e)).queue_ with log_ := f }) := by
      rw [hstep]
      simp only [setStep, onLog, hf, if_true]
    exact go hs rfl rfl (by simp) (by decide)
  | logged =>
    have hs : s.clientStep t = some (s.onQueue t (home e) (.set .written e)
        ((s.writer_ (home e)).queue_.put e)) := by
      rw [hstep]
      simp only [setStep, hroom rfl, Bool.false_eq_true, if_false]
    exact go hs rfl rfl (by simp) (by decide)
  | written =>
    have hfree : (s.writer_ (home e)).queue_.ring.isFull = false := h.room t e ht
    obtain ⟨q, hq⟩ : ∃ q, (s.writer_ (home e)).queue_.advance = some q := by
      simp only [MessageQueue.advance, hfree]
      exact ⟨_, rfl⟩
    have hs : s.clientStep t = some (s.onQueue t (home e) (.set .counted e) q) := by
      rw [hstep]
      simp only [setStep, hq, Option.map_some]
    exact go hs rfl rfl (by simp) (by decide)
  | counted =>
    have hs : s.clientStep t = some ((s.setWriter (home e)
        { s.writer_ (home e) with lock_ := none }).setClient t .idle) := by
      rw [hstep]
      simp only [setStep]
    refine ⟨_, hs, ⟨h.step (l := .client t) hidx hs, rfl, fun t' hne => ?_, .inr ⟨?_, ?_⟩⟩,
      fun p' ht' => ?_⟩
    · exact Function.update_of_ne hne ..
    · exact Function.update_self ..
    · rw [setClient_writer, setWriter_self]
    · rw [setClient_client, Function.update_self] at ht'
      cases ht'

theorem not_full_of_empty {q : MessageQueue Slice} (hq : q.contents = []) : q.isFull = false := by
  rw [← Bool.not_eq_true]
  intro hf
  have hlen := Ring.isFull_iff.1 hf
  change q.contents.length = kQueueSize at hlen
  rw [hq] at hlen
  cases hlen

/-- A thread inside `push` can return. -/
theorem push_returns (h : Live s) (hidx : s.idx_ < 2 ^ 56) (ht : s.client t = .set p e)
    (hp : p ≠ .taken) : machine.CanReach NoCall s fun s' =>
      Pushing s t e s' ∧ s'.client t = .idle := by
  refine Machine.CanReach.measure (I := Pushing s t e) (fun s' => writeLeft (s'.client t)) ?_
    ⟨h, rfl, fun _ _ => rfl, .inl ⟨p, hp, ht⟩⟩
  intro s₁ h₁ hn
  obtain ⟨p₁, hp₁, ht₁⟩ | ⟨hidle, -⟩ := h₁.place
  · have hidx₁ : s₁.idx_ < 2 ^ 56 := by rw [h₁.idx]; exact hidx
    refine (drained h₁.live hidx₁ (home e)).trans fun s₂ hdrained => ?_
    obtain ⟨⟨h₂, hsame⟩, _, hempty⟩ := hdrained
    have hidx₂ : s₂.idx_ < 2 ^ 56 := by rw [hsame.idx]; exact hidx₁
    have ht₂ : s₂.client t = .set p₁ e := by rw [hsame.client]; exact ht₁
    obtain ⟨s₃, hs, h₃, hlt⟩ := h₂.push_next hidx₂ ht₂ hp₁ fun _ => not_full_of_empty hempty
    refine by_client hidx₂ hs (.refl ⟨⟨h₃.live, ?_, fun t' hne => ?_, h₃.place⟩, ?_⟩)
    · rw [h₃.idx, hsame.idx, h₁.idx]
    · rw [h₃.other t' hne, hsame.client, h₁.other t' hne]
    · rw [ht₁]
      obtain ⟨p₃, -, ht₃⟩ | ⟨hidle, -⟩ := h₃.place
      · rw [ht₃]
        exact hlt p₃ ht₃
      · rw [hidle]
        exact pushLeft_pos p₁
  · exact absurd hidle hn

/-- A thread at its queue can return, if need be after the one that holds the lock. -/
theorem taken_returns (h : Live s) (hidx : s.idx_ < 2 ^ 56) (ht : s.client t = .set .taken e) :
    machine.CanReach NoCall s (·.client t = .idle) := by
  -- with the lock free
  have free : ∀ {s₁ : Store}, Live s₁ → s₁.idx_ < 2 ^ 56 → s₁.client t = .set .taken e →
      (s₁.writer_ (home e)).lock_ = none → machine.CanReach NoCall s₁ (·.client t = .idle) := by
    intro s₁ h₁ hidx₁ ht₁ hl
    have hs : s₁.clientStep t = some ((s₁.setWriter (home e)
        { s₁.writer_ (home e) with lock_ := some t }).setClient t (.set .locked e)) := by
      simp only [clientStep, ht₁, setStep, lock, hl, if_true]
    refine by_client hidx₁ hs ?_
    have h₂ := h₁.step (l := .client t) hidx₁ hs
    refine (push_returns h₂ hidx₁ (Function.update_self ..) (by simp)).mono fun s₃ h₃ => h₃.2
  cases hl : (s.writer_ (home e)).lock_ with
  | none => exact free h hidx ht hl
  | some t' =>
    obtain ⟨p', e', hp', hw, ht'⟩ := h.held _ t' hl
    have hne : t ≠ t' := by
      rintro rfl
      rw [ht, ClientPc.set.injEq] at ht'
      exact hp' ht'.1.symm
    refine (push_returns h hidx ht' hp').trans fun s₁ hpushed => ?_
    obtain ⟨h₁, hidle⟩ := hpushed
    have hfree : (s₁.writer_ (home e)).lock_ = none := by
      obtain ⟨p₁, -, hset⟩ | ⟨-, hfree⟩ := h₁.place
      · rw [hidle] at hset
        cases hset
      · rw [← hw]
        exact hfree
    refine free h₁.live ?_ ?_ hfree
    · rw [h₁.idx]
      exact hidx
    · rw [h₁.other t hne]
      exact ht

section

variable {key : Bytes} {seq : ℕ}

theorem done_returns {result : Status × Option Bytes} (hidx : s.idx_ < 2 ^ 56)
    (ht : s.client t = .getDone key result) : machine.CanReach NoCall s (·.client t = .idle) := by
  have hs : s.clientStep t = some (s.setClient t .idle) := by simp only [clientStep, ht]
  exact by_client hidx hs (.refl (Function.update_self ..))

theorem frozen_returns (h : Live s) (hidx : s.idx_ < 2 ^ 56) (ht : s.client t = .getFrozen key seq) :
    machine.CanReach NoCall s (·.client t = .idle) := by
  obtain ⟨pushed, hok⟩ := h.ok
  obtain ⟨result, hr⟩ : ∃ result, s.readVersion key = some result :=
    ⟨_, readVersion_ok fun l hl => ((hok.pipe _).frozen l hl).1⟩
  have hs : s.clientStep t = some (s.setClient t (.getDone key result)) := by
    simp only [clientStep, ht, hr, Option.map_some]
  refine by_client hidx hs ?_
  exact done_returns hidx (Function.update_self ..)

/-- `getEntry` waits for the writer to sleep. -/
theorem active_returns (h : Live s) (hidx : s.idx_ < 2 ^ 56) (ht : s.client t = .getActive key seq) :
    machine.CanReach NoCall s (·.client t = .idle) := by
  refine (drained h hidx (writerOf key)).trans fun s₁ ⟨⟨h₁, hsame⟩, hidle, _⟩ => ?_
  have hidx₁ : s₁.idx_ < 2 ^ 56 := by rw [hsame.idx]; exact hidx
  have ht₁ : s₁.client t = .getActive key seq := by rw [hsame.client]; exact ht
  obtain ⟨pushed, hok⟩ := h₁.ok
  obtain ⟨answer, ha⟩ : ∃ answer, (s₁.writer_ (writerOf key)).getEntry key seq = some answer := by
    unfold Writer.getEntry
    cases hg : (s₁.writer_ (writerOf key)).list_.get key with
    | none => exact ⟨_, rfl⟩
    | some slice =>
      obtain ⟨e, hd, -⟩ := (hok.pipe (writerOf key)).active.get_some hg
      simp only [hd, Option.map_some]
      exact ⟨_, rfl⟩
  cases answer with
  | none =>
    have hs : s₁.clientStep t = some (s₁.setClient t (.getFrozen key seq)) := by
      simp only [clientStep, ht₁, hidle, if_true, ha, Option.map_some]
    have h₂ := h₁.step (l := .client t) hidx₁ hs
    exact by_client hidx₁ hs (frozen_returns h₂ hidx₁ (Function.update_self ..))
  | some result =>
    have hs : s₁.clientStep t = some (s₁.setClient t (.getDone key result)) := by
      simp only [clientStep, ht₁, hidle, if_true, ha, Option.map_some]
    exact by_client hidx₁ hs (done_returns hidx₁ (Function.update_self ..))

theorem scan_returns {last turns : ℕ} (h : Live s) (hidx : s.idx_ < 2 ^ 56)
    (ht : s.client t = .getScan key seq last turns) :
    machine.CanReach NoCall s (·.client t = .idle) := by
  induction turns generalizing s with
  | zero =>
    have hs : s.clientStep t = some (s.setClient t (.getActive key seq)) := by
      simp only [clientStep, ht]
    have h₁ := h.step (l := .client t) hidx hs
    exact by_client hidx hs (active_returns h₁ hidx (Function.update_self ..))
  | succ turns ih =>
    cases hc : MessageQueue.check ((s.writer_ (writerOf key)).queue_.ring.get (last + turns)) key
        seq with
    | some result =>
      have hs : s.clientStep t = some (s.setClient t (.getDone key result)) := by
        simp only [clientStep, ht, hc]
      exact by_client hidx hs (done_returns hidx (Function.update_self ..))
    | none =>
      have hs : s.clientStep t = some (s.setClient t (.getScan key seq last turns)) := by
        simp only [clientStep, ht, hc]
      have h₁ := h.step (l := .client t) hidx hs
      exact by_client hidx hs (ih h₁ hidx (Function.update_self ..))

/-- A thread that is to search its queue can return. -/
theorem seq_returns (h : Live s) (hidx : s.idx_ < 2 ^ 56) (ht : s.client t = .getSeq key seq) :
    machine.CanReach NoCall s (·.client t = .idle) := by
  set w_ptr := (s.writer_ (writerOf key)).queue_.w_ptr with hw
  have hs : s.clientStep t = some (s.setClient t (.getBegin key seq w_ptr)) := by
    simp only [clientStep, ht, hw]
  have h₁ := h.step (l := .client t) hidx hs
  have ht₁ : (s.setClient t (.getBegin key seq w_ptr)).client t = .getBegin key seq w_ptr :=
    Function.update_self ..
  set s₁ := s.setClient t (.getBegin key seq w_ptr)
  set r_ptr := (s₁.writer_ (writerOf key)).queue_.r_ptr with hr
  have hs₁ : s₁.clientStep t = some (s₁.setClient t (.getScan key seq r_ptr (w_ptr - r_ptr))) := by
    simp only [clientStep, ht₁, hr]
  have h₂ := h₁.step (l := .client t) hidx hs₁
  exact by_client hidx hs (by_client hidx hs₁ (scan_returns h₂ hidx (Function.update_self ..)))

end

/-- The store as `init` leaves it, with logs in which no `::write` will fail. -/
structure Opened (s : Store) : Prop where
  started : s.Started
  log : ∀ w, NewLog (s.writer_ w).queue_
  lock : ∀ w, (s.writer_ w).lock_ = none
  noFail : ∀ w, (s.writer_ w).queue_.log_.NoFail

theorem Opened.live (h : s.Opened) : Live s := by
  refine ⟨⟨_, h.started.ok⟩, fun w hoff => ?_, fun w t hl => ?_, fun t e ht => ?_,
    fun w => ⟨[], [], h.started.wal (h.log w)⟩, h.noFail⟩
  · rw [h.started.pc w] at hoff
    cases hoff
  · rw [h.lock w] at hl
    cases hl
  · rw [h.started.client t] at ht
    cases ht

/-- **No call is stuck.** In every run, from every state: a writer can empty its queue, and every
`setKey` and `getValue` can return, by steps of the threads that are there. -/
theorem no_deadlock {s₀ : Store} (h0 : s₀.Opened) (hx : machine.Exec SizedStep s₀ hist s)
    (hidx : s.idx_ + 1 < 2 ^ 56) :
    (∀ w, machine.CanReach NoCall s fun s' =>
      (s'.writer_ w).pc = .idle ∧ (s'.writer_ w).queue_.contents = []) ∧
    ∀ t, machine.CanReach NoCall s (·.client t = .idle) := by
  have h : Live s := hx.invariant h0.live fun s l s' h hg hs => h.step hg hs
  have hidx' : s.idx_ < 2 ^ 56 := by omega
  refine ⟨fun w => (drained h hidx' w).mono fun s' hs' => hs'.2, fun t => ?_⟩
  cases ht : s.client t with
  | idle => exact .refl ht
  | setCalled key value del_flag =>
    have hs : s.clientStep t = some
        { s.setClient t (.set .taken (entryOf key value s.idx_ del_flag)) with
          idx_ := s.idx_ + 1 } := by
      simp only [clientStep, ht]
    have h₁ := h.step (l := .client t) hidx' hs
    exact by_client hidx' hs (taken_returns h₁ hidx (Function.update_self ..))
  | set p e =>
    by_cases hp : p = .taken
    · rw [hp] at ht
      exact taken_returns h hidx' ht
    · exact (push_returns h hidx' ht hp).mono fun s' hs' => hs'.2
  | getCalled key =>
    have hs : s.clientStep t = some (s.setClient t (.getSeq key s.idx_)) := by
      simp only [clientStep, ht]
    have h₁ := h.step (l := .client t) hidx' hs
    exact by_client hidx' hs (seq_returns h₁ hidx' (Function.update_self ..))
  | getSeq key seq => exact seq_returns h hidx' ht
  | getBegin key seq w_ptr =>
    have hs : s.clientStep t = some (s.setClient t (.getScan key seq
        (s.writer_ (writerOf key)).queue_.r_ptr
        (w_ptr - (s.writer_ (writerOf key)).queue_.r_ptr))) := by
      simp only [clientStep, ht]
    have h₁ := h.step (l := .client t) hidx' hs
    exact by_client hidx' hs (scan_returns h₁ hidx' (Function.update_self ..))
  | getScan key seq last turns => exact scan_returns h hidx' ht
  | getActive key seq => exact active_returns h hidx' ht
  | getFrozen key seq => exact frozen_returns h hidx' ht
  | getDone key result => exact done_returns hidx' ht

/-! ## Two threads at one queue -/

theorem freshStore_opened : freshStore.Opened := by
  refine ⟨freshStore_started, fun w => ⟨rfl, rfl, rfl⟩, fun w => rfl, fun w hmem => ?_⟩
  cases hmem

/-- Thread 1 waits for the lock that thread 0 holds. -/
def twoAtOnce : List Label :=
  [.callSet 0 [97] [98] false, .callSet 1 [97] [99] false, .client 0, .client 1, .client 0]

theorem no_deadlock_twoAtOnce : ∃ hist s, machine.Exec SizedStep freshStore hist s ∧
    s.client 1 = .set .taken (entryOf [97] [99] 2 false) ∧ (s.writer_ 2).lock_ = some 0 ∧
    machine.CanReach NoCall s (·.client 1 = .idle) := by
  have hr : (machine.exec SizedStep freshStore twoAtOnce).map
      (fun r => (r.2.client 1, (r.2.writer_ 2).lock_, r.2.idx_)) =
      some (.set .taken (entryOf [97] [99] 2 false), some 0, 3) := by decide +kernel
  obtain ⟨⟨hist, s⟩, hr, he⟩ := Option.map_eq_some_iff.1 hr
  obtain ⟨hclient, he⟩ := Prod.mk.inj he
  obtain ⟨hlock, hidx⟩ := Prod.mk.inj he
  have hx := Machine.exec_sound hr
  have hlt : s.idx_ + 1 < 2 ^ 56 := by
    have h3 : s.idx_ = 3 := hidx
    rw [h3]
    decide
  exact ⟨hist, s, hx, hclient, hlock, (no_deadlock freshStore_opened hx hlt).2 1⟩

end Store

end Yangkv
