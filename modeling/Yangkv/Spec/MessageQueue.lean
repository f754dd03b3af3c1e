import Yangkv.Lib.Ring
import Yangkv.Spec.Log

/-!
# The message queue of a writer (`memory/message_queue.cpp`)

`w_ptr`, `r_ptr` and `queue_` are one ring, which carries `r_ptr ≤ w_ptr ≤ r_ptr +
kQueueSize`. The queue is written over the kind of slice its entries hold: strings
of the callers while the store runs, views into the readers' buffers while the
constructor replays old logs.
-/

namespace Yangkv

open Lib

def kQueueSize : ℕ := 40

/-- `LogFileName`. -/
def logFileName (file_number writer_number : ℕ) : String :=
  "yang_log_writer_" ++ toString writer_number ++ "_" ++ toString file_number

structure MessageQueue (σ : Type) where
  ring : Ring (MemEntry σ) kQueueSize
  log_ : WritableFile
  logid_ : ℕ
  writerid_ : ℕ
  max_id_ : ℕ
  ready_ : Bool

namespace MessageQueue

variable {σ : Type}

def w_ptr (q : MessageQueue σ) : ℕ := q.ring.wr
def r_ptr (q : MessageQueue σ) : ℕ := q.ring.rd
def isFull (q : MessageQueue σ) : Bool := q.ring.isFull
def isEmpty (q : MessageQueue σ) : Bool := q.ring.isEmpty

/-- The entries in the slots `r_ptr .. w_ptr - 1`. -/
def contents (q : MessageQueue σ) : List (MemEntry σ) := q.ring.contents

/-- `getFront`; its assertion is that the queue is not empty. -/
def getFront (q : MessageQueue σ) : Option (MemEntry σ) :=
  if q.isEmpty then none else some (q.ring.get q.r_ptr)

/-- `pop`, under the same assertion. -/
def pop (q : MessageQueue σ) : Option (MessageQueue σ) :=
  if h : q.ring.isEmpty = false then some { q with ring := q.ring.pop h } else none

/-- `queue_[w_ptr % kQueueSize] = entry`. -/
def put (q : MessageQueue σ) (entry : MemEntry σ) : MessageQueue σ :=
  { q with ring := q.ring.put entry }

/-- `w_ptr++`, which `push` reaches only while the queue is not full. -/
def advance (q : MessageQueue σ) : Option (MessageQueue σ) :=
  if h : q.ring.isFull = false then some { q with ring := q.ring.advance h } else none

/-- `push` with `ready_` still false, so that no record is logged, and nobody popping: each
turn of `while(isFull()) usleep(5)` takes one unit of fuel. -/
def pushReplayed (q : MessageQueue σ) (entry : MemEntry σ) : ℕ → Option (MessageQueue σ)
  | 0 => none
  | fuel + 1 => if q.isFull then q.pushReplayed entry fuel else (q.put entry).advance

/-! ## Lookup -/

/-- What `search` answers from a slot: the status and the value it assigns, if the slot matches. -/
def check (entry : Entry) (key : Bytes) (seq : ℕ) : Option (Status × Option Bytes) :=
  if key = entry.key.bytes ∧ seq ≤ entry.seq_num then
    if entry.value_type then some (.notFound, none) else some (.ok, some entry.value.bytes)
  else none

/-- The loop of `search`, from slot `i` down to slot `last`; the counter starts at
`i + 1 - last` turns. -/
def searchLoop (q : MessageQueue Slice) (key : Bytes) (seq last : ℕ) :
    ℕ → Option (Status × Option Bytes)
  | 0 => none
  | turns + 1 => (check (q.ring.get (last + turns)) key seq).or (q.searchLoop key seq last turns)

/-- `search`: slots `w_ptr - 1` down to `r_ptr`. No result is the return value `false`. -/
def search (q : MessageQueue Slice) (key : Bytes) (seq : ℕ) : Option (Status × Option Bytes) :=
  q.searchLoop key seq q.r_ptr (q.w_ptr - q.r_ptr)

/-- The loop of `search` with `*value` and `*s`: what it returns and what they hold then. -/
def searchIntoLoop (q : MessageQueue Slice) (key : Bytes) (seq last : ℕ) (value : Bytes)
    (s : Status) : ℕ → Bool × Bytes × Status
  | 0 => (false, value, s)
  | turns + 1 =>
    let entry := q.ring.get (last + turns)
    if key = entry.key.bytes ∧ seq ≤ entry.seq_num then
      if entry.value_type then (true, value, .notFound) else (true, entry.value.bytes, .ok)
    else q.searchIntoLoop key seq last value s turns

/-- `search` with `*value` and `*s`. -/
def searchInto (q : MessageQueue Slice) (key : Bytes) (seq : ℕ) (value : Bytes) (s : Status) :
    Bool × Bytes × Status :=
  q.searchIntoLoop key seq q.r_ptr value s (q.w_ptr - q.r_ptr)

end MessageQueue

/-! ## The constructor -/

/-- A slice into the `buf_` of the reader of one log file. -/
structure BufView where
  file : ℕ
  view : View
  deriving DecidableEq, Repr

namespace MessageQueue

/-- The replay loop over one log file: `while(!reader->end())`. -/
def replay (file : ℕ) : ℕ → Reader → MessageQueue BufView → Option (Reader × MessageQueue BufView)
  | 0, _, _ => none
  | fuel + 1, reader, q =>
    if reader.atEnd then some (reader, q)
    else do
      let (entry, reader) ← reader.readRecord
      let q := { q with max_id_ := max q.max_id_ entry.seq_num }
      let q ← q.pushReplayed (entry.map (⟨file, ·⟩)) fuel
      replay file fuel reader q

/-- The loop over the old logs, with the buffer each reader is left with. `files i` is the
contents of log file `i`, which has to exist. -/
def replayLogs (fuel : ℕ) (files : ℕ → Option Bytes) :
    List ℕ → MessageQueue BufView × (ℕ → Bytes) → Option (MessageQueue BufView × (ℕ → Bytes))
  | [], s => some s
  | i :: is, (q, bufs) => do
    let oldlog ← files i
    let (reader, q) ← replay i fuel (.new oldlog (bufs i)) q
    replayLogs fuel files is (q, Function.update bufs i reader.buf)

/-- `MessageQueue::MessageQueue` with the given fuel for its loops. `logfile` is the new log,
`slots` and `scratch` what the ring and the readers' buffers hold before they are written. -/
def construct (fuel : ℕ) (files : ℕ → Option Bytes) (logfile : WritableFile)
    (slots : ℕ → MemEntry BufView) (scratch : ℕ → Bytes) (writerID logID : ℕ) :
    Option (MessageQueue BufView × (ℕ → Bytes)) := do
  let q : MessageQueue BufView :=
    { ring := .emptyAt slots 1
      log_ := logfile
      logid_ := logID
      writerid_ := writerID
      max_id_ := 0
      ready_ := false }
  let (q, bufs) ← replayLogs fuel files (List.range' 1 (logID - 1)) (q, scratch)
  some ({ q with ready_ := true }, bufs)

/-- The queue as a reader of its slots sees it, each slice read from its buffer. -/
def resolve (bufs : ℕ → Bytes) (q : MessageQueue BufView) : MessageQueue Slice :=
  { q with ring := q.ring.map fun e => e.map fun v => v.view.read (bufs v.file) }

end MessageQueue

end Yangkv
