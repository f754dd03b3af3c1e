import Yangkv.Lib.Machine
import Yangkv.Spec.MessageQueue
import Yangkv.Spec.Store

/-!
# The store and the strings of its callers
(`main/yangkvMain.cpp`, `memory/message_queue.cpp`, `memory/writer.cpp`)

An entry in a queue has slices of the strings that `setKey` was called with. The log
gets a copy of their bytes in `push`, the active list gets one when the writer comes
to the entry. Here the memory behind the slices is part of the state, and the callers
may write to it. `AddRecord`, which reads it once, and `insert` are one step each.
-/

namespace Yangkv

open Lib

/-- What a slice in a queue points into. -/
inductive StrId
  /-- the memory at `data()` of a string of the callers -/
  | caller (i : ℕ)
  /-- `NullStr` -/
  | null
  /-- what the constructor has replayed -/
  | replayed (i : ℕ)
  deriving DecidableEq, Repr

/-- `Slice(str)`: a pointer and a size. -/
structure StrView where
  data_ : StrId
  size_ : ℕ
  deriving DecidableEq, Repr

/-- The bytes from each pointer on. -/
abbrev Memory := StrId → ℕ → UInt8

/-- What a slice shows, and the byte behind it. -/
def StrView.read (mem : Memory) (v : StrView) : Slice :=
  ⟨(List.range v.size_).map (mem v.data_), mem v.data_ v.size_⟩

/-- Where a client thread is in `setKey`. -/
inductive CallPc
  | idle
  | called (key value : StrView) (del_flag : Bool)
  /-- with its id and its writer -/
  | taken (w : Fin kMaxWriter) (entry : MemEntry StrView)
  /-- inside `push`, with its lock, as up to `counted` -/
  | locked (w : Fin kMaxWriter) (entry : MemEntry StrView)
  /-- `AddRecord` is done -/
  | logged (w : Fin kMaxWriter) (entry : MemEntry StrView)
  /-- the slot is written -/
  | written (w : Fin kMaxWriter) (entry : MemEntry StrView)
  /-- the slot is counted in -/
  | counted (w : Fin kMaxWriter) (entry : MemEntry StrView)
  deriving DecidableEq, Repr

/-- A `Writer` whose queue holds slices of strings. -/
structure ViewWriter where
  queue_ : MessageQueue StrView
  /-- the thread inside `push` -/
  lock_ : Option Tid
  list_ : SkipList
  pc : WriterPc

structure Callers where
  mem : Memory
  idx_ : ℕ
  writer_ : Fin kMaxWriter → ViewWriter
  current_ : Version SkipList
  client : Tid → CallPc

/-- Entries as they are read when they are shown. -/
inductive Callers.Event
  /-- `AddRecord` has written the record of the entry -/
  | logged (w : Fin kMaxWriter) (entry : Entry)
  /-- the entry is in the active list -/
  | inserted (w : Fin kMaxWriter) (entry : Entry)
  deriving DecidableEq, Repr

inductive Callers.Label
  /-- `setKey` of two strings of the callers, by pointer and size -/
  | callSet (t : Tid) (key value : ℕ × ℕ) (del_flag : Bool)
  /-- `delKey` -/
  | callDel (t : Tid) (key : ℕ × ℕ)
  | client (t : Tid)
  | writer (w : Fin kMaxWriter)
  /-- the callers change, or free and use again, the memory of a string -/
  | reuse (i : ℕ) (bytes : ℕ → UInt8)

namespace Callers

/-- The entry as its slices show it. -/
def shown (s : Callers) (entry : MemEntry StrView) : Entry := entry.map (·.read s.mem)

def setWriter (s : Callers) (w : Fin kMaxWriter) (wr : ViewWriter) : Callers :=
  { s with writer_ := Function.update s.writer_ w wr }

def setClient (s : Callers) (t : Tid) (pc : CallPc) : Callers :=
  { s with client := Function.update s.client t pc }

/-- A step of thread `t` on the queue `w`, on to `pc`. -/
def onQueue (s : Callers) (t : Tid) (w : Fin kMaxWriter) (pc : CallPc) (q : MessageQueue StrView) :
    Callers :=
  (s.setWriter w { s.writer_ w with queue_ := q }).setClient t pc

/-- One step of `mayInsertMessage`. -/
def writerStep (s : Callers) (w : Fin kMaxWriter) : Option Callers :=
  let wr := s.writer_ w
  match wr.pc with
  | .off => none
  | .idle => some (s.setWriter w { wr with pc := .loop })
  | .loop =>
    if wr.queue_.isEmpty then some (s.setWriter w { wr with pc := .idle })
    else do
      let front ← wr.queue_.getFront
      let list ← wr.list_.insert (s.shown front)
      some (s.setWriter w { wr with list_ := list, pc := .inserted })
  | .inserted => wr.queue_.pop.map fun q => s.setWriter w { wr with queue_ := q, pc := .popped }
  | .popped => some (s.setWriter w
      { wr with pc := if kMaxActiveListSize ≤ wr.list_.size then .full else .loop })
  | .full => some
      { s.setWriter w { wr with pc := .frozen } with current_ := s.current_.appendList wr.list_ w }
  | .frozen => some (s.setWriter w { wr with list_ := .empty, pc := .loop })

/-- One step of `setKey`. -/
def clientStep (s : Callers) (t : Tid) : Option Callers :=
  match s.client t with
  | .idle => none
  | .called key value del_flag => some
      { s.setClient t (.taken (writerOf (key.read s.mem).bytes) ⟨key, value, s.idx_, del_flag⟩) with
        idx_ := s.idx_ + 1 }
  | .taken w entry =>
    if (s.writer_ w).lock_ = none then
      some ((s.setWriter w { s.writer_ w with lock_ := some t }).setClient t (.locked w entry))
    else none
  | .locked w entry =>
    let q := (s.writer_ w).queue_
    if q.ready_ then
      (addRecord q.log_ (s.shown entry)).map fun log =>
        s.onQueue t w (.logged w entry) { q with log_ := log }
    else some (s.setClient t (.logged w entry))
  | .logged w entry =>
    let q := (s.writer_ w).queue_
    -- a turn of `while(isFull()) usleep(5)`
    some (if q.isFull then s else s.onQueue t w (.written w entry) (q.put entry))
  | .written w entry =>
    (s.writer_ w).queue_.advance.map (s.onQueue t w (.counted w entry))
  | .counted w _ => some
      ((s.setWriter w { s.writer_ w with lock_ := none }).setClient t .idle)

def step (s : Callers) : Label → Option Callers
  | .callSet t key value del_flag =>
    if s.client t = .idle then some (s.setClient t
      (.called ⟨.caller key.1, key.2⟩ ⟨.caller value.1, value.2⟩ del_flag)) else none
  | .callDel t key =>
    if s.client t = .idle then
      some (s.setClient t (.called ⟨.caller key.1, key.2⟩ ⟨.null, 0⟩ true))
    else none
  | .client t => s.clientStep t
  | .writer w => s.writerStep w
  | .reuse i bytes => some { s with mem := Function.update s.mem (.caller i) bytes }

def event (s : Callers) : Label → Option Event
  | .client t =>
    match s.client t with
    | .locked w entry => if (s.writer_ w).queue_.ready_ then some (.logged w (s.shown entry)) else none
    | _ => none
  | .writer w =>
    match (s.writer_ w).pc with
    | .loop => ((s.writer_ w).queue_.getFront).map fun front => .inserted w (s.shown front)
    | _ => none
  | _ => none

/-- The running store, with its callers. -/
def machine : Machine Callers Label Event := ⟨step, event⟩

end Callers

end Yangkv
