import Yangkv.Spec.SharedQueue

/-!
# The message queue is a bounded FIFO

Whatever the order of the single reads and writes, the counters and slots are those
of a ring: each step leaves it, writes the slot behind its entries, counts that slot
in, or drops the front. A producer may read a stale `r_ptr` and the writer a stale
`w_ptr`; both err on the safe side.

* `QueueOk.step`: what one read or write preserves, and what it does to the ring.
* `bounded_fifo`: the counters stay in their bounds, no assertion fails, no slot in
  use is overwritten, and what was popped and what is queued is what was pushed.
-/

namespace Yangkv

open Lib

namespace SharedQueue

variable {ι E : Type} {s s' : SharedQueue ι E} {q q' : Ring E kQueueSize} {hist : List (Event E)}
  {p p' : ι} {b : Bool} {l : Label ι E} {slots : ℕ → E} {entry : E}

/-- The entries whose `push` has taken a slot. -/
def pushedIn (hist : List (Event E)) : List E :=
  hist.filterMap fun
    | .pushed entry => some entry
    | .popped _ => none

def poppedIn (hist : List (Event E)) : List E :=
  hist.filterMap fun
    | .popped entry => some entry
    | .pushed _ => none

/-- The entries in the slots `r_ptr .. w_ptr - 1`. -/
def contents (s : SharedQueue ι E) : List E :=
  (List.range (s.w_ptr.toNat - s.r_ptr.toNat)).map fun i =>
    s.queue_ ((s.r_ptr.toNat + i) % kQueueSize)

/-- What the queue promises in every state. -/
structure BoundedFifo (hist : List (Event E)) (s : SharedQueue ι E) : Prop where
  le : s.r_ptr ≤ s.w_ptr
  room : s.w_ptr.toNat ≤ s.r_ptr.toNat + kQueueSize
  asserts : s.consumer ≠ .failed
  /-- a producer about to write a slot has none of those in use before it -/
  slots : ∀ p entry i, s.producer p = .put entry i →
    ∀ j, s.r_ptr ≤ j → j < s.w_ptr → slotOf i ≠ slotOf j
  fifo : pushedIn hist = poppedIn hist ++ s.contents

/-! ## What each place knows -/

/-- The place is one with `lock_`. -/
def Holds : PushPc E → Prop
  | .idle | .called _ => False
  | _ => True

/-- What a producer knows of the ring. -/
def PushOk (q : Ring E kQueueSize) : PushPc E → Prop
  | .isFull _ (.gotW w) => w.toNat = q.wr
  -- `r_ptr` may have grown since
  | .isFull _ (.gotR r) => r.toNat ≤ q.rd ∧ q.wr ≤ r.toNat + kQueueSize
  | .slot _ => q.isFull = false
  | .put _ i => q.isFull = false ∧ i.toNat = q.wr
  | .advance entry => q.isFull = false ∧ q.get q.wr = entry
  | .store entry w => q.isFull = false ∧ q.get q.wr = entry ∧ w.toNat = q.wr
  | _ => True

/-- What the writer knows when it has read this much of an assertion. -/
def NonEmpty (q : Ring E kQueueSize) : Reads → Prop
  | .none => q.rd < q.wr
  -- `w_ptr` may have grown since
  | .gotW w => q.rd < w.toNat ∧ w.toNat ≤ q.wr
  | .gotR r => q.rd < q.wr ∧ r.toNat = q.rd

/-- What the writer knows of the ring. -/
def PopOk (q : Ring E kQueueSize) : PopPc E → Prop
  | .isEmpty .none => True
  | .isEmpty (.gotW w) => q.rd ≤ w.toNat ∧ w.toNat ≤ q.wr
  | .isEmpty (.gotR r) => r.toNat = q.rd
  | .getFront got => NonEmpty q got
  | .front => q.rd < q.wr
  | .insert i => q.rd < q.wr ∧ i.toNat = q.rd
  | .pop entry got => NonEmpty q got ∧ q.get q.rd = entry
  | .advance entry => q.rd < q.wr ∧ q.get q.rd = entry
  | .store entry r => q.rd < q.wr ∧ q.get q.rd = entry ∧ r.toNat = q.rd
  | .failed => False

/-- The memory is that of the ring `q`, and every place knows what it has to. -/
structure QueueOk (hist : List (Event E)) (s : SharedQueue ι E) (q : Ring E kQueueSize) : Prop where
  slot : s.queue_ = q.slot
  rd : s.r_ptr.toNat = q.rd
  wr : s.w_ptr.toNat = q.wr
  mutex : ∀ p, Holds (s.producer p) → s.lock_ = some p
  push : ∀ p, PushOk q (s.producer p)
  pop : PopOk q s.consumer
  count : q.wr = (pushedIn hist).length + 1
  fifo : pushedIn hist = poppedIn hist ++ q.contents

/-- What a step may do to the ring. -/
inductive RingStep (q : Ring E kQueueSize) : Ring E kQueueSize → Prop
  | same : RingStep q q
  | put (entry : E) : q.isFull = false → RingStep q (q.put entry)
  | advance (h : q.isFull = false) : RingStep q (q.advance h)
  | pop (h : q.isEmpty = false) : RingStep q (q.pop h)

theorem PushOk.of_not_holds {pc : PushPc E} (h : ¬ Holds pc) : PushOk q pc := by
  cases pc with
  | idle | called => trivial
  | _ => exact absurd trivial h

theorem isFull_false : q.isFull = false ↔ q.wr < q.rd + kQueueSize := by
  have h1 := q.le
  have h2 := q.room
  simp only [Ring.isFull, beq_eq_false_iff_ne]
  omega

theorem isEmpty_false : q.isEmpty = false ↔ q.rd < q.wr := by
  have h1 := q.le
  simp only [Ring.isEmpty, beq_eq_false_iff_ne]
  omega

/-- Dropping the front only makes room. -/
theorem PushOk.pop {pc : PushPc E} (h : PushOk q pc) (hq : q.isEmpty = false) :
    PushOk (q.pop hq) pc := by
  have hroom : q.isFull = false → (q.pop hq).isFull = false := by
    rw [isFull_false, isFull_false]
    simp only [Ring.pop]
    omega
  cases pc with
  | idle | called | pushed => trivial
  | isFull entry got =>
    cases got with
    | none => trivial
    | gotW w => exact h
    | gotR r => exact ⟨Nat.le_succ_of_le h.1, h.2⟩
  | slot entry => exact hroom h
  | put entry i | advance entry | store entry w => exact ⟨hroom h.1, h.2⟩

/-- The slot behind the entries is none the writer looks at. -/
theorem PopOk.put {pc : PopPc E} (h : PopOk q pc) (hq : q.isFull = false) :
    PopOk (q.put entry) pc := by
  have hget : q.rd < q.wr → (q.put entry).get q.rd = q.get q.rd :=
    fun hlt => Ring.get_put_ne hq le_rfl hlt
  have hne : ∀ {got}, NonEmpty q got → q.rd < q.wr := by
    intro got hn
    cases got with
    | none => exact hn
    | gotW w => exact hn.1.trans_le hn.2
    | gotR r => exact hn.1
  cases pc with
  | isEmpty got => cases got <;> exact h
  | getFront got => cases got <;> exact h
  | front | insert | failed => exact h
  | pop e got =>
    refine ⟨?_, (hget (hne h.1)).trans h.2⟩
    have hn := h.1
    cases got <;> exact hn
  | advance e => exact ⟨h.1, (hget h.1).trans h.2⟩
  | store e r => exact ⟨h.1, (hget h.1).trans h.2.1, h.2.2⟩

/-- Counting a slot in leaves the front where it is. -/
theorem PopOk.advance {pc : PopPc E} (h : PopOk q pc) (hq : q.isFull = false) :
    PopOk (q.advance hq) pc := by
  have hne : ∀ {got}, NonEmpty q got → NonEmpty (q.advance hq) got := by
    intro got hn
    cases got with
    | none => exact Nat.lt_succ_of_lt hn
    | gotW w => exact ⟨hn.1, Nat.le_succ_of_le hn.2⟩
    | gotR r => exact ⟨Nat.lt_succ_of_lt hn.1, hn.2⟩
  cases pc with
  | isEmpty got =>
    cases got with
    | none => trivial
    | gotW w => exact ⟨h.1, Nat.le_succ_of_le h.2⟩
    | gotR r => exact h
  | getFront got => exact hne h
  | front => exact Nat.lt_succ_of_lt h
  | insert i => exact ⟨Nat.lt_succ_of_lt h.1, h.2⟩
  | pop e got => exact ⟨hne h.1, h.2⟩
  | advance e | store e r => exact ⟨Nat.lt_succ_of_lt h.1, h.2⟩
  | failed => exact h

/-! ## Steps -/

theorem start_ok : QueueOk [] (start slots : SharedQueue ι E) (.emptyAt slots 1) := by
  constructor
  case slot => rfl
  case rd => rfl
  case wr => rfl
  case mutex => exact fun _ h => False.elim h
  case push => exact fun _ => trivial
  case pop => trivial
  case count => rfl
  case fifo => rw [Ring.contents_emptyAt]; rfl

/-- The writer moves on without writing. -/
theorem QueueOk.look (h : QueueOk hist s q) {pc : PopPc E} (hpc : PopOk q pc) :
    QueueOk hist { s with consumer := pc } q :=
  ⟨h.slot, h.rd, h.wr, h.mutex, h.push, hpc, h.count, h.fifo⟩

theorem pushedIn_append (hist hist' : List (Event E)) :
    pushedIn (hist ++ hist') = pushedIn hist ++ pushedIn hist' := List.filterMap_append

theorem poppedIn_append (hist hist' : List (Event E)) :
    poppedIn (hist ++ hist') = poppedIn hist ++ poppedIn hist' := List.filterMap_append

/-- `isEmpty` is wrong only about entries that came since. -/
theorem QueueOk.isEmpty_read {got : Reads} (h : QueueOk hist s q) (hc : PopOk q (.isEmpty got)) :
    PopOk q (match s.read b got with
      | .inl got => .isEmpty got
      | .inr (w, r) => if w = r then .isEmpty .none else .getFront .none) := by
  have hle := q.le
  cases got with
  | none =>
    cases b with
    | true => exact ⟨h.wr ▸ hle, h.wr.le⟩
    | false => exact h.rd
  | gotW w =>
    -- `w` is at most `w_ptr` now, so what differs from `r_ptr` is above it
    simp only [read]
    split
    · trivial
    · rename_i hne
      have hne : w.toNat ≠ s.r_ptr.toNat := fun he => hne (UInt64.toNat_inj.1 he)
      rw [h.rd] at hne
      have h1 : q.rd ≤ w.toNat := hc.1
      have h2 : w.toNat ≤ q.wr := hc.2
      show q.rd < q.wr
      omega
  | gotR r =>
    simp only [read]
    split
    · trivial
    · rename_i hne
      have hne : s.w_ptr.toNat ≠ r.toNat := fun he => hne (UInt64.toNat_inj.1 he)
      have hr : r.toNat = q.rd := hc
      rw [h.wr, hr] at hne
      show q.rd < q.wr
      omega

/-- **No assertion fails behind `isEmpty`.** -/
theorem QueueOk.assert_read {got : Reads} (h : QueueOk hist s q) (hc : NonEmpty q got) :
    match s.read b got with
      | .inl got => NonEmpty q got
      | .inr (w, r) => w > r ∧ q.rd < q.wr := by
  cases got with
  | none =>
    cases b with
    | true => exact ⟨h.wr ▸ hc, h.wr.le⟩
    | false => exact ⟨hc, h.rd⟩
  | gotW w =>
    obtain ⟨h1, h2⟩ : q.rd < w.toNat ∧ w.toNat ≤ q.wr := hc
    refine ⟨UInt64.lt_iff_toNat_lt.2 ?_, by omega⟩
    rw [h.rd]; exact h1
  | gotR r =>
    obtain ⟨h1, h2⟩ : q.rd < q.wr ∧ r.toNat = q.rd := hc
    refine ⟨UInt64.lt_iff_toNat_lt.2 ?_, h1⟩
    rw [h.wr, h2]; exact h1

theorem QueueOk.popStep (h : QueueOk hist s q) (hs : s.popStep b = some s')
    (hn : (pushedIn hist).length < 2 ^ 64 - 1) :
    ∃ q', RingStep q q' ∧ QueueOk (hist ++ (s.event (.consume b)).toList) s' q' := by
  have hc := h.pop
  unfold SharedQueue.popStep at hs
  have hlook : ∀ pc, s.event (.consume b) = none → some { s with consumer := pc } = some s' →
      PopOk q pc → ∃ q', RingStep q q' ∧ QueueOk (hist ++ (s.event (.consume b)).toList) s' q' := by
    intro pc hev he hpc
    rw [hev, Option.toList_none, List.append_nil, ← Option.some.inj he]
    exact ⟨q, .same, h.look hpc⟩
  cases hp : s.consumer with
  | isEmpty got =>
    rw [hp] at hs hc
    exact hlook _ (by simp only [event, hp]) hs (h.isEmpty_read hc)
  | getFront got =>
    rw [hp] at hs hc
    refine hlook _ (by simp only [event, hp]) hs ?_
    have hr := h.assert_read (b := b) hc
    cases he : s.read b got with
    | inl got => rw [he] at hr; exact hr
    | inr wr => rw [he] at hr; simp only [hr.1, if_true]; exact hr.2
  | front =>
    rw [hp] at hs hc
    exact hlook _ (by simp only [event, hp]) hs ⟨hc, h.rd⟩
  | insert i =>
    rw [hp] at hs hc
    refine hlook _ (by simp only [event, hp]) hs ⟨hc.1, ?_⟩
    show q.slot (q.rd % kQueueSize) = s.queue_ (i.toNat % kQueueSize)
    rw [h.slot, hc.2]
  | pop entry got =>
    rw [hp] at hs hc
    refine hlook _ (by simp only [event, hp]) hs ?_
    have hr := h.assert_read (b := b) hc.1
    cases he : s.read b got with
    | inl got => rw [he] at hr; exact ⟨hr, hc.2⟩
    | inr wr => rw [he] at hr; simp only [hr.1, if_true]; exact ⟨hr.2, hc.2⟩
  | advance entry =>
    rw [hp] at hs hc
    exact hlook _ (by simp only [event, hp]) hs ⟨hc.1, hc.2, h.rd⟩
  | failed => rw [hp] at hs; cases hs
  | store entry r =>
    rw [hp] at hs hc
    obtain ⟨hlt, hget, hr⟩ : q.rd < q.wr ∧ q.get q.rd = entry ∧ r.toNat = q.rd := hc
    cases hs
    have hev : s.event (.consume b) = some (.popped entry) := by simp only [event, hp]
    have he : q.isEmpty = false := isEmpty_false.2 hlt
    rw [hev, Option.toList_some]
    have hpu : pushedIn (hist ++ [.popped entry]) = pushedIn hist := by
      rw [pushedIn_append]; exact List.append_nil _
    refine ⟨q.pop he, .pop he, h.slot, ?_, h.wr, h.mutex, fun p => (h.push p).pop he, trivial, ?_, ?_⟩
    · -- as many were pushed as `w_ptr` counts, so `r_ptr` does not wrap
      have hcount := h.count
      show (r + 1).toNat = q.rd + 1
      rw [UInt64.toNat_add, hr, UInt64.toNat_one]
      omega
    · rw [hpu]; exact h.count
    · -- the front of the ring moves to what was popped
      obtain ⟨x, xs, hx⟩ : ∃ x xs, q.contents = x :: xs := by
        cases hqc : q.contents with
        | nil => rw [← Ring.isEmpty_iff, he] at hqc; cases hqc
        | cons x xs => exact ⟨x, xs, rfl⟩
      have hfront := Ring.contents_front he
      rw [hx, List.head?_cons, hget, Option.some.injEq] at hfront
      rw [hpu, poppedIn_append, Ring.contents_pop, hx, h.fifo, hx, hfront, List.append_assoc]
      rfl

/-- Who has the lock is the only one at a place with it. -/
theorem QueueOk.alone (h : QueueOk hist s q) (hp : Holds (s.producer p))
    (hp' : Holds (s.producer p')) : p' = p := by
  have h1 := h.mutex p' hp'
  rw [h.mutex p hp] at h1
  exact (Option.some.inj h1).symm

/-- What `isFull` finds out before the push takes a slot. -/
theorem QueueOk.isFull_read {got : Reads} (h : QueueOk hist s q)
    (hc : PushOk q (.isFull entry got)) :
    PushOk q (match s.read b got with
      | .inl got => .isFull entry got
      | .inr (w, r) => if w - r = .ofNat kQueueSize then .isFull entry .none else .slot entry) := by
  have hle := q.le
  have hroom := q.room
  have key : ∀ w r : UInt64, w.toNat = q.wr → r.toNat ≤ q.rd → q.wr ≤ r.toNat + kQueueSize →
      PushOk q (if w - r = .ofNat kQueueSize then .isFull entry .none else .slot entry) := by
    intro w r hw h1 h2
    split
    · trivial
    · rename_i hne
      -- an old `r_ptr` can only make the queue look fuller than it is
      have hsub : (w - r).toNat = q.wr - r.toNat := by
        rw [UInt64.toNat_sub_of_le _ _ (UInt64.le_iff_toNat_le.2 (by omega)), hw]
      have hne : q.wr - r.toNat ≠ kQueueSize := by
        rw [← hsub]
        exact fun he => hne (UInt64.toNat_inj.1 he)
      refine isFull_false.2 ?_
      omega
  cases got with
  | none =>
    cases b with
    | true => exact h.wr
    | false => exact ⟨h.rd.le, by rw [h.rd]; exact hroom⟩
  | gotW w => exact key w s.r_ptr hc h.rd.le (by rw [h.rd]; exact hroom)
  | gotR r => exact key s.w_ptr r h.wr hc.1 hc.2

/-- What the ring shows of the queue. -/
theorem QueueOk.boundedFifo (h : QueueOk hist s q) : BoundedFifo hist s := by
  constructor
  case le => exact UInt64.le_iff_toNat_le.2 (by rw [h.rd, h.wr]; exact q.le)
  case room => rw [h.rd, h.wr]; exact q.room
  case asserts =>
    intro hf
    have hc := h.pop
    rw [hf] at hc
    exact hc
  case slots =>
    intro p entry i hp j h1 h2
    have hc := h.push p
    rw [hp] at hc
    obtain ⟨hf, hi⟩ : q.isFull = false ∧ i.toNat = q.wr := hc
    have h1 : q.rd ≤ j.toNat := by rw [← h.rd]; exact UInt64.le_iff_toNat_le.1 h1
    have h2 : j.toNat < q.wr := by rw [← h.wr]; exact UInt64.lt_iff_toNat_lt.1 h2
    rw [slotOf, slotOf, hi]
    exact (Ring.slot_ne hf h1 h2).symm
  case fifo =>
    rw [h.fifo]
    simp only [contents, h.rd, h.wr, h.slot]
    rfl

variable [DecidableEq ι]

theorem update_producer {f : ι → PushPc E} {pc : PushPc E} {P : PushPc E → Prop}
    (hne : ∀ p', p' ≠ p → P (f p')) (hpc : P pc) (p' : ι) : P (Function.update f p pc p') := by
  rcases eq_or_ne p' p with rfl | hpp
  · rw [Function.update_self]; exact hpc
  · rw [Function.update_of_ne hpp]; exact hne p' hpp

/-- A producer takes the lock, gives it back or moves on without writing. -/
theorem QueueOk.move (h : QueueOk hist s q) {pc : PushPc E} {lock : Option ι}
    (hlock : ∀ p', p' ≠ p → Holds (s.producer p') → lock = some p') (hown : Holds pc → lock = some p)
    (hpc : PushOk q pc) : QueueOk hist { s.setProducer p pc with lock_ := lock } q := by
  constructor
  case slot => exact h.slot
  case rd => exact h.rd
  case wr => exact h.wr
  case mutex =>
    intro p'
    rcases eq_or_ne p' p with rfl | hpp
    · simpa [setProducer] using hown
    · simpa [setProducer, hpp] using hlock p' hpp
  case push => exact update_producer (fun p' _ => h.push p') hpc
  case pop => exact h.pop
  case count => exact h.count
  case fifo => exact h.fifo

/-- The producer with the lock writes a slot or a counter: the others have nothing to know. -/
theorem QueueOk.write {hist' : List (Event E)} (h : QueueOk hist s q) (hp : Holds (s.producer p))
    {pc : PushPc E} {queue : ℕ → E} {w : UInt64} (hslot : queue = q'.slot)
    (hrd : q'.rd = q.rd) (hwr : w.toNat = q'.wr) (hpush : PushOk q' pc)
    (hpop : PopOk q' s.consumer) (hcount : q'.wr = (pushedIn hist').length + 1)
    (hfifo : pushedIn hist' = poppedIn hist' ++ q'.contents) :
    QueueOk hist' { s.setProducer p pc with queue_ := queue, w_ptr := w } q' := by
  constructor
  case slot => exact hslot
  case rd => exact h.rd.trans hrd.symm
  case wr => exact hwr
  case mutex =>
    have hp' : ∀ p', p' ≠ p → Holds (s.producer p') → s.lock_ = some p' := fun p' _ => h.mutex p'
    intro p'
    rcases eq_or_ne p' p with rfl | hpp
    · exact fun _ => h.mutex p' hp
    · simpa [setProducer, hpp] using hp' p' hpp
  case push =>
    refine update_producer (fun p' hpp => .of_not_holds fun hh => ?_) hpush
    exact hpp (h.alone hp hh)
  case pop => exact hpop
  case count => exact hcount
  case fifo => exact hfifo

theorem QueueOk.pushStep (h : QueueOk hist s q) (hs : s.pushStep p b = some s')
    (hn : (pushedIn (hist ++ (s.event (.push p b)).toList)).length < 2 ^ 64 - 1) :
    ∃ q', RingStep q q' ∧ QueueOk (hist ++ (s.event (.push p b)).toList) s' q' := by
  have hc := h.push p
  have hother : ∀ p', p' ≠ p → Holds (s.producer p') → s.lock_ = some p' := fun p' _ => h.mutex p'
  unfold SharedQueue.pushStep at hs
  have hsame : s.event (.push p b) = none → QueueOk hist s' q →
      ∃ q', RingStep q q' ∧ QueueOk (hist ++ (s.event (.push p b)).toList) s' q' := by
    intro hev h'
    rw [hev, Option.toList_none, List.append_nil]
    exact ⟨q, .same, h'⟩
  cases hp : s.producer p with
  | idle => rw [hp] at hs; cases hs
  | called entry =>
    rw [hp] at hs
    simp only [Option.ite_none_right_eq_some, Option.some.injEq] at hs
    obtain ⟨hl, rfl⟩ := hs
    refine hsame (by simp only [event, hp]) (h.move (fun p' hpp hh => ?_) (fun _ => rfl) trivial)
    rw [hother p' hpp hh] at hl
    cases hl
  | isFull entry got =>
    rw [hp] at hs hc
    cases hs
    have hmine : s.lock_ = some p := h.mutex p (by rw [hp]; trivial)
    exact hsame (by simp only [event, hp]) (h.move hother (fun _ => hmine) (h.isFull_read hc))
  | slot entry =>
    rw [hp] at hs hc
    cases hs
    have hmine : s.lock_ = some p := h.mutex p (by rw [hp]; trivial)
    exact hsame (by simp only [event, hp]) (h.move hother (fun _ => hmine) ⟨hc, h.wr⟩)
  | put entry i =>
    rw [hp] at hs hc
    obtain ⟨hf, hi⟩ : q.isFull = false ∧ i.toNat = q.wr := hc
    cases hs
    have hev : s.event (.push p b) = none := by simp only [event, hp]
    rw [hev, Option.toList_none, List.append_nil]
    refine ⟨q.put entry, .put entry hf, h.write (by rw [hp]; trivial) ?_ rfl h.wr
      ⟨hf, Ring.get_put_self⟩ (h.pop.put hf) h.count ?_⟩
    · rw [h.slot, slotOf, hi]; rfl
    · rw [Ring.contents_put hf]; exact h.fifo
  | advance entry =>
    rw [hp] at hs hc
    cases hs
    have hmine : s.lock_ = some p := h.mutex p (by rw [hp]; trivial)
    exact hsame (by simp only [event, hp])
      (h.move hother (fun _ => hmine) ⟨hc.1, hc.2, h.wr⟩)
  | store entry w =>
    rw [hp] at hs hc
    obtain ⟨hf, hget, hw⟩ : q.isFull = false ∧ q.get q.wr = entry ∧ w.toNat = q.wr := hc
    cases hs
    have hev : s.event (.push p b) = some (.pushed entry) := by simp only [event, hp]
    have hpu : pushedIn (hist ++ [.pushed entry]) = pushedIn hist ++ [entry] := by
      rw [pushedIn_append]; rfl
    have hpo : poppedIn (hist ++ [.pushed entry]) = poppedIn hist := by
      rw [poppedIn_append]; exact List.append_nil _
    rw [hev, Option.toList_some, hpu, List.length_append, List.length_singleton] at hn
    rw [hev, Option.toList_some]
    have hcount := h.count
    refine ⟨q.advance hf, .advance hf, h.write (by rw [hp]; trivial) h.slot rfl ?_ trivial
      (h.pop.advance hf) ?_ ?_⟩
    · -- the counter does not wrap
      show (w + 1).toNat = q.wr + 1
      rw [UInt64.toNat_add, hw, UInt64.toNat_one]
      omega
    · rw [hpu, List.length_append, List.length_singleton, ← hcount]; rfl
    · rw [hpu, hpo, Ring.contents_advance, hget, h.fifo, List.append_assoc]
  | pushed =>
    rw [hp] at hs
    cases hs
    refine hsame (by simp only [event, hp]) (h.move (fun p' hpp hh => ?_) False.elim trivial)
    exact absurd (h.alone (by rw [hp]; trivial) hh) hpp

/-- **Every read and write keeps the invariant**, and does one thing to the ring at most. -/
theorem QueueOk.step (h : QueueOk hist s q) (hs : s.step l = some s')
    (hn : (pushedIn (hist ++ (s.event l).toList)).length < 2 ^ 64 - 1) :
    ∃ q', RingStep q q' ∧ QueueOk (hist ++ (s.event l).toList) s' q' := by
  cases l with
  | push p b => exact h.pushStep hs hn
  | consume b =>
    refine h.popStep hs (lt_of_le_of_lt ?_ hn)
    rw [pushedIn_append, List.length_append]
    exact Nat.le_add_right _ _
  | call p entry =>
    simp only [SharedQueue.step] at hs
    split at hs
    · cases hs
      refine ⟨q, .same, ?_⟩
      simp only [event, Option.toList_none, List.append_nil]
      exact h.move (fun p' _ => h.mutex p') False.elim trivial
    · cases hs

/-- **The message queue is a bounded FIFO**, with any number of producers and fewer than
`2 ^ 64 - 1` pushes. -/
theorem bounded_fifo (hx : (machine : Machine (SharedQueue ι E) _ _).Exec Machine.Any (start slots)
    hist s) (hn : (pushedIn hist).length < 2 ^ 64 - 1) : BoundedFifo hist s := by
  have h : (pushedIn hist).length < 2 ^ 64 - 1 → ∃ q, QueueOk hist s q := by
    refine hx.induct (I := fun hist s => (pushedIn hist).length < 2 ^ 64 - 1 → ∃ q, QueueOk hist s q)
      (fun _ => ⟨_, start_ok⟩) fun hist s l s' ih _ hs hn => ?_
    obtain ⟨q, hq⟩ := ih <| by
      rw [pushedIn_append, List.length_append] at hn
      exact Nat.lt_of_le_of_lt (Nat.le_add_right _ _) hn
    obtain ⟨q', -, hq'⟩ := hq.step hs hn
    exact ⟨q', hq'⟩
  obtain ⟨q, hq⟩ := h hn
  exact hq.boundedFifo

/-- Two producers push one after the other, and the first entry is popped in between. -/
def twoPushes : List (Label (Fin 2) ℕ) :=
  .call 0 7 :: List.replicate 8 (.push 0 true) ++ List.replicate 10 (.consume false) ++
    .call 1 8 :: List.replicate 8 (.push 1 false)

theorem bounded_fifo_twoPushes : ∃ hist s,
    (machine : Machine (SharedQueue (Fin 2) ℕ) _ _).Exec Machine.Any (start fun _ => 0) hist s ∧
      pushedIn hist = [7, 8] ∧ poppedIn hist = [7] ∧ BoundedFifo hist s := by
  have hr : ((machine : Machine (SharedQueue (Fin 2) ℕ) _ _).exec Machine.Any (start fun _ => 0)
      twoPushes).map (fun r => (pushedIn r.1, poppedIn r.1)) = some ([7, 8], [7]) := by
    decide +kernel
  obtain ⟨r, hr, he⟩ := Option.map_eq_some_iff.1 hr
  simp only [Prod.mk.injEq] at he
  have hx := Machine.exec_sound hr
  exact ⟨r.1, r.2, hx, he.1, he.2, bounded_fifo hx (by rw [he.1]; decide)⟩

end SharedQueue

end Yangkv
