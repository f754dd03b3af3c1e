import Yangkv.Lib.Machine
import Yangkv.Spec.MessageQueue
import Yangkv.Spec.Version

/-!
# The running store (`main/yangkvMain.cpp`, `memory/writer.cpp`)

Client threads in `setKey`, `delKey` and `getValue`, and the four writer threads in
`mayInsertMessage`, take one step after the other; a step is one access to what
they share. `Store.machine` has one label for each thread that may move, and shows
calls, returns, the records that `AddRecord` completed and the entries that `push`
counted in.

The write lock of a writer is held from `loop` until it is `idle` again; the read
lock of `getEntry` and the lock of a `Version` cover one step each.
`AppendFrozenList` is its `AppendList`: its mutex and its wait only delay the step.
No compaction is part of this machine.

An entry holds the bytes of its call. So callers are taken to leave the strings they
pass alone until the entry is in a list; `Callers` has the slices.
-/

namespace Yangkv

open Lib

/-- Names of client threads. -/
abbrev Tid := ℕ

/-- Where a writer thread is in `mayInsertMessage`. -/
inductive WriterPc
  /-- the thread is not created yet -/
  | off
  /-- between two calls, without the write lock -/
  | idle
  /-- at the loop condition, as at all later places with the write lock -/
  | loop
  /-- the front entry is in the list, but still in the queue -/
  | inserted
  | popped
  /-- the list has `kMaxActiveListSize` keys -/
  | full
  /-- the list is in the current version, but still the active one -/
  | frozen
  deriving DecidableEq, Repr

/-- Where a client thread is in `setKey`, once it has its id. -/
inductive SetPc
  | taken
  /-- inside `push`, with its lock, as up to `counted` -/
  | locked
  /-- `AppendSize` is done -/
  | sized
  | appended
  /-- `AddRecord` is done -/
  | logged
  /-- the slot is written -/
  | written
  /-- the slot is counted in -/
  | counted
  deriving DecidableEq, Repr

/-- Where a client thread is. -/
inductive ClientPc
  | idle
  | setCalled (key value : Bytes) (del_flag : Bool)
  | set (pc : SetPc) (entry : Entry)
  | getCalled (key : Bytes)
  /-- `seq` is read from `idx_` -/
  | getSeq (key : Bytes) (seq : ℕ)
  /-- in `search`, `w_ptr` is read -/
  | getBegin (key : Bytes) (seq w_ptr : ℕ)
  /-- in the loop of `search`, with `turns` slots from `last` on still to look at -/
  | getScan (key : Bytes) (seq last turns : ℕ)
  /-- before `getEntry` -/
  | getActive (key : Bytes) (seq : ℕ)
  /-- before `Version::Get` -/
  | getFrozen (key : Bytes) (seq : ℕ)
  | getDone (key : Bytes) (result : Status × Option Bytes)
  deriving DecidableEq, Repr

structure Writer where
  queue_ : MessageQueue Slice
  /-- the thread inside `push` -/
  lock_ : Option Tid
  list_ : SkipList
  pc : WriterPc

structure Store where
  idx_ : ℕ
  writer_ : Fin kMaxWriter → Writer
  current_ : Version SkipList
  client : Tid → ClientPc

/-- What a run of the store shows. -/
inductive Store.Event
  | callSet (t : Tid) (key value : Bytes) (del_flag : Bool)
  | retSet (t : Tid) (key : Bytes)
  | callGet (t : Tid) (key : Bytes)
  | retGet (t : Tid) (key : Bytes) (result : Status × Option Bytes)
  /-- `AddRecord` has completed the record of the entry -/
  | logged (w : Fin kMaxWriter) (entry : Entry)
  /-- `push` has counted the slot of the entry in -/
  | pushed (w : Fin kMaxWriter) (entry : Entry)
  deriving DecidableEq, Repr

/-- `callSet` is a call of `setKey`; `delKey` of a key is the call with `NullStr` and the flag. -/
inductive Store.Label
  | callSet (t : Tid) (key value : Bytes) (del_flag : Bool)
  | callGet (t : Tid) (key : Bytes)
  | client (t : Tid)
  | writer (w : Fin kMaxWriter)
  deriving DecidableEq, Repr

/-! ## The steps of a writer -/

namespace Writer

/-- `getEntry` under the read lock. No result when the list holds what cannot be decoded. -/
def getEntry (wr : Writer) (key : Bytes) (seq : ℕ) : Option Answer :=
  match wr.list_.get key with
  | none => some none
  | some slice => (decodeSlice slice).map fun entry =>
    if seq < entry.seq_num then none
    else if entry.value_type then some (.notFound, none)
    else some (.ok, some entry.value.bytes)

/-- `queue_->isEmpty()`, and where it is false `list_->insert(queue_->getFront())`. -/
def insertFront (wr : Writer) : Option Writer :=
  if wr.queue_.isEmpty then some { wr with pc := .idle }
  else do
    let front ← wr.queue_.getFront
    let list ← wr.list_.insert front
    some { wr with list_ := list, pc := .inserted }

/-- `queue_->pop()`. -/
def popFront (wr : Writer) : Option Writer :=
  wr.queue_.pop.map fun q => { wr with queue_ := q, pc := .popped }

end Writer

namespace Store

def setWriter (s : Store) (w : Fin kMaxWriter) (wr : Writer) : Store :=
  { s with writer_ := Function.update s.writer_ w wr }

def setClient (s : Store) (t : Tid) (pc : ClientPc) : Store :=
  { s with client := Function.update s.client t pc }

/-- One step of `mayInsertMessage`. -/
def writerStep (s : Store) (w : Fin kMaxWriter) : Option Store :=
  let wr := s.writer_ w
  match wr.pc with
  | .off => none
  | .idle => some (s.setWriter w { wr with pc := .loop })
  | .loop => wr.insertFront.map (s.setWriter w)
  | .inserted => wr.popFront.map (s.setWriter w)
  | .popped => some (s.setWriter w
      { wr with pc := if kMaxActiveListSize ≤ wr.list_.size then .full else .loop })
  | .full => some
      { s.setWriter w { wr with pc := .frozen } with current_ := s.current_.appendList wr.list_ w }
  | .frozen => some (s.setWriter w { wr with list_ := .empty, pc := .loop })

/-! ## The steps of a client -/

/-- A step of thread `t` on the queue `w`, on to `pc`. -/
def onQueue (s : Store) (t : Tid) (w : Fin kMaxWriter) (pc : ClientPc) (q : MessageQueue Slice) :
    Store :=
  (s.setWriter w { s.writer_ w with queue_ := q }).setClient t pc

/-- A step of thread `t` on the log of the queue `w`; its assertion is that the status is `ok`. -/
def onLog (s : Store) (t : Tid) (w : Fin kMaxWriter) (pc : ClientPc) (r : Status × WritableFile) :
    Option Store :=
  if r.1 = .ok then some (s.onQueue t w pc { (s.writer_ w).queue_ with log_ := r.2 }) else none

/-- `lock_guard`. -/
def lock (s : Store) (t : Tid) (w : Fin kMaxWriter) (pc : ClientPc) : Option Store :=
  if (s.writer_ w).lock_ = none then
    some ((s.setWriter w { s.writer_ w with lock_ := some t }).setClient t pc)
  else none

/-- One step of `setKey` with the entry it pushes. -/
def setStep (s : Store) (t : Tid) (entry : Entry) : SetPc → Option Store :=
  let w := writerOf entry.key.bytes
  let q := (s.writer_ w).queue_
  fun
  | .taken => s.lock t w (.set .locked entry)
  | .locked =>
    if q.ready_ then
      (encodeMemEntry entry).bind fun slice => (q.log_.appendSize slice.length).bind fun log =>
        s.onLog t w (.set .sized entry) (.ok, log)
    else some (s.setClient t (.set .logged entry))
  | .sized =>
    (encodeMemEntry entry).bind fun slice =>
      s.onLog t w (.set .appended entry) (q.log_.append slice)
  | .appended => s.onLog t w (.set .logged entry) q.log_.flush
  | .logged => some (if q.isFull then s else s.onQueue t w (.set .written entry) (q.put entry))
  | .written => q.advance.map (s.onQueue t w (.set .counted entry))
  | .counted => some ((s.setWriter w { s.writer_ w with lock_ := none }).setClient t .idle)

/-- `MemEntry(key, value, id, del_flag)` of two strings. -/
def entryOf (key value : Bytes) (id : ℕ) (del_flag : Bool) : Entry :=
  ⟨.ofString key, .ofString value, id, del_flag⟩

/-- The end of `getValue`: what it answers from `Version::Get`. -/
def readVersion (s : Store) (key : Bytes) : Option (Status × Option Bytes) :=
  (s.current_.get key).map fun
    | some value => (.ok, some value)
    | none => (.notFound, none)

/-- One step of a client thread. -/
def clientStep (s : Store) (t : Tid) : Option Store :=
  match s.client t with
  | .idle => none
  | .setCalled key value del_flag => some
      { s.setClient t (.set .taken (entryOf key value s.idx_ del_flag)) with idx_ := s.idx_ + 1 }
  | .set pc entry => s.setStep t entry pc
  | .getCalled key => some (s.setClient t (.getSeq key s.idx_))
  | .getSeq key seq =>
    some (s.setClient t (.getBegin key seq (s.writer_ (writerOf key)).queue_.w_ptr))
  | .getBegin key seq w_ptr =>
    let r_ptr := (s.writer_ (writerOf key)).queue_.r_ptr
    some (s.setClient t (.getScan key seq r_ptr (w_ptr - r_ptr)))
  | .getScan key seq _ 0 => some (s.setClient t (.getActive key seq))
  | .getScan key seq last (turns + 1) =>
    let slot := (s.writer_ (writerOf key)).queue_.ring.get (last + turns)
    match MessageQueue.check slot key seq with
    | some result => some (s.setClient t (.getDone key result))
    | none => some (s.setClient t (.getScan key seq last turns))
  | .getActive key seq =>
    let wr := s.writer_ (writerOf key)
    if wr.pc = .idle then
      (wr.getEntry key seq).map fun
        | some result => s.setClient t (.getDone key result)
        | none => s.setClient t (.getFrozen key seq)
    else none
  | .getFrozen key _ =>
    (s.readVersion key).map fun result => s.setClient t (.getDone key result)
  | .getDone _ _ => some (s.setClient t .idle)

def step (s : Store) : Label → Option Store
  | .callSet t key value del_flag =>
    if s.client t = .idle then some (s.setClient t (.setCalled key value del_flag)) else none
  | .callGet t key => if s.client t = .idle then some (s.setClient t (.getCalled key)) else none
  | .client t => s.clientStep t
  | .writer w => s.writerStep w

/-- What the step of a client thread shows. -/
def clientEvent (s : Store) (t : Tid) : Option Event :=
  match s.client t with
  | .set .appended entry => some (.logged (writerOf entry.key.bytes) entry)
  | .set .written entry => some (.pushed (writerOf entry.key.bytes) entry)
  | .set .counted entry => some (.retSet t entry.key.bytes)
  | .getDone key result => some (.retGet t key result)
  | _ => none

def event (s : Store) : Label → Option Event
  | .callSet t key value del_flag => some (.callSet t key value del_flag)
  | .callGet t key => some (.callGet t key)
  | .client t => s.clientEvent t
  | .writer _ => none

/-- The running store. -/
def machine : Machine Store Label Event := ⟨step, event⟩

/-! ## Lookups without other threads in between -/

/-- `getEntry`, and `Version::Get` where it returns `false`. -/
def readLists (s : Store) (key : Bytes) (seq : ℕ) : Option (Status × Option Bytes) :=
  ((s.writer_ (writerOf key)).getEntry key seq).bind fun
    | some result => some result
    | none => s.readVersion key

/-- `getValue`. -/
def getValue (s : Store) (key : Bytes) : Option (Status × Option Bytes) :=
  match (s.writer_ (writerOf key)).queue_.search key s.idx_ with
  | some result => some result
  | none => s.readLists key s.idx_

end Store

end Yangkv
