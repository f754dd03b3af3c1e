import Yangkv.Lib.Machine
import Yangkv.Spec.MessageQueue

/-!
# The message queue, one read or write at a time
(`memory/message_queue.cpp`, `memory/writer.cpp`)

Producers in `push` and the writer in the loop of `mayInsertMessage`, over any kind
of entry. A step is one read or one write of `w_ptr`, `r_ptr` or a slot; the order in
which a comparison reads the two counters is not specified and comes with the label.
The log, the active list and `usleep` touch none of them.
-/

namespace Yangkv

open Lib

/-- How far a comparison of `w_ptr` and `r_ptr` has come. -/
inductive Reads
  | none
  | gotW (w : UInt64)
  | gotR (r : UInt64)

/-- Where a producer is in `push(entry)`. -/
inductive PushPc (E : Type)
  | idle
  | called (entry : E)
  /-- with `lock_`, in `while(isFull())` -/
  | isFull (entry : E) (got : Reads)
  /-- before it reads the number of its slot -/
  | slot (entry : E)
  | put (entry : E) (i : UInt64)
  /-- before the read of `w_ptr++` -/
  | advance (entry : E)
  | store (entry : E) (w : UInt64)
  | pushed

/-- Where the writer is in the loop of `mayInsertMessage`. -/
inductive PopPc (E : Type)
  | isEmpty (got : Reads)
  /-- in the assertion of `getFront` -/
  | getFront (got : Reads)
  /-- before it reads the number of the front slot -/
  | front
  /-- in `insert`, with a reference to the slot -/
  | insert (i : UInt64)
  /-- in the assertion of `pop`, having inserted the entry -/
  | pop (entry : E) (got : Reads)
  /-- before the read of `r_ptr++` -/
  | advance (entry : E)
  | store (entry : E) (r : UInt64)
  /-- an assertion has failed -/
  | failed

structure SharedQueue (ι E : Type) where
  w_ptr : UInt64
  r_ptr : UInt64
  queue_ : ℕ → E
  lock_ : Option ι
  producer : ι → PushPc E
  consumer : PopPc E

namespace SharedQueue

inductive Label (ι E : Type)
  /-- the producer calls `push` -/
  | call (p : ι) (entry : E)
  /-- a step of a producer; a comparison reads `w_ptr` first or `r_ptr` first -/
  | push (p : ι) (wFirst : Bool)
  | consume (wFirst : Bool)

inductive Event (E : Type)
  /-- `w_ptr++` has counted in the slot of the entry -/
  | pushed (entry : E)
  /-- `r_ptr++` has dropped the entry that was inserted -/
  | popped (entry : E)
  deriving DecidableEq

variable {ι E : Type}

/-- After the constructor; nobody has written the slots. -/
def start (slots : ℕ → E) : SharedQueue ι E :=
  ⟨1, 1, slots, none, fun _ => .idle, .isEmpty .none⟩

/-- One read of a comparison, and after the second one both values. -/
def read (s : SharedQueue ι E) (wFirst : Bool) : Reads → Reads ⊕ UInt64 × UInt64
  | .none => .inl (if wFirst then .gotW s.w_ptr else .gotR s.r_ptr)
  | .gotW w => .inr (w, s.r_ptr)
  | .gotR r => .inr (s.w_ptr, r)

/-- The slot of a counter: `i % kQueueSize`. -/
def slotOf (i : UInt64) : ℕ := i.toNat % kQueueSize

/-- One step of the loop of `mayInsertMessage`. -/
def popStep (s : SharedQueue ι E) (wFirst : Bool) : Option (SharedQueue ι E) :=
  match s.consumer with
  | .isEmpty got => some { s with
      consumer := match s.read wFirst got with
        | .inl got => .isEmpty got
        | .inr (w, r) => if w = r then .isEmpty .none else .getFront .none }
  | .getFront got => some { s with
      consumer := match s.read wFirst got with
        | .inl got => .getFront got
        | .inr (w, r) => if w > r then .front else .failed }
  | .front => some { s with consumer := .insert s.r_ptr }
  | .insert i => some { s with consumer := .pop (s.queue_ (slotOf i)) .none }
  | .pop entry got => some { s with
      consumer := match s.read wFirst got with
        | .inl got => .pop entry got
        | .inr (w, r) => if w > r then .advance entry else .failed }
  | .advance entry => some { s with consumer := .store entry s.r_ptr }
  | .store _ r => some { s with r_ptr := r + 1, consumer := .isEmpty .none }
  | .failed => none

variable [DecidableEq ι]

def setProducer (s : SharedQueue ι E) (p : ι) (pc : PushPc E) : SharedQueue ι E :=
  { s with producer := Function.update s.producer p pc }

/-- One step of `push`. -/
def pushStep (s : SharedQueue ι E) (p : ι) (wFirst : Bool) : Option (SharedQueue ι E) :=
  match s.producer p with
  | .idle => none
  | .called entry =>
    if s.lock_ = none then some { s.setProducer p (.isFull entry .none) with lock_ := some p }
    else none
  | .isFull entry got => some <| s.setProducer p <|
      match s.read wFirst got with
      | .inl got => .isFull entry got
      | .inr (w, r) => if w - r = .ofNat kQueueSize then .isFull entry .none else .slot entry
  | .slot entry => some (s.setProducer p (.put entry s.w_ptr))
  | .put entry i => some { s.setProducer p (.advance entry) with
      queue_ := Function.update s.queue_ (slotOf i) entry }
  | .advance entry => some (s.setProducer p (.store entry s.w_ptr))
  | .store _ w => some { s.setProducer p .pushed with w_ptr := w + 1 }
  | .pushed => some { s.setProducer p .idle with lock_ := none }

def step (s : SharedQueue ι E) : Label ι E → Option (SharedQueue ι E)
  | .call p entry =>
    match s.producer p with
    | .idle => some (s.setProducer p (.called entry))
    | _ => none
  | .push p wFirst => s.pushStep p wFirst
  | .consume wFirst => s.popStep wFirst

def event (s : SharedQueue ι E) : Label ι E → Option (Event E)
  | .push p _ =>
    match s.producer p with
    | .store entry _ => some (.pushed entry)
    | _ => none
  | .consume _ =>
    match s.consumer with
    | .store entry _ => some (.popped entry)
    | _ => none
  | .call _ _ => none

/-- The producers and the writer. -/
def machine : Machine (SharedQueue ι E) (Label ι E) (Event E) := ⟨step, event⟩

end SharedQueue

end Yangkv
