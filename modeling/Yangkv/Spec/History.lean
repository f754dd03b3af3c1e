import Yangkv.Spec.Store

/-!
# Starts of the store (`main/yangkvMain.cpp`, `init`)

A machine that is started and ends any number of times over the same directory. A
start constructs the four writers one after the other, each by opening its new log
and replaying its older ones; the thread of a writer runs from then on. When all
queues are ready, `idx_` is set above the largest number found, and clients may
call. A constructor that never returns is a start that makes no more steps and can
only end.
-/

namespace Yangkv

open Lib

/-- The contents of the files of the directory. -/
abbrev Disk := String → Option Bytes

/-- `getLogID`: the first file number from `fileid` on that no log of the writer has. -/
def getLogID (disk : Disk) (writerid : ℕ) : ℕ → ℕ → Option ℕ
  | _, 0 => none
  | fileid, fuel + 1 =>
    if (disk (logFileName fileid writerid)).isSome then getLogID disk writerid (fileid + 1) fuel
    else some fileid

/-- How far a start has come. -/
inductive Phase
  | down
  /-- in `init`, with the writers below `n` constructed -/
  | starting (n : ℕ)
  /-- in the constructor of the queue of writer `w`, with its new log open -/
  | replaying (w : Fin kMaxWriter) (logID : ℕ) (logfile : WritableFile)
  /-- `init` has set `idx_` -/
  | running

/-- The directory and the store that runs over it. -/
structure World where
  disk : Disk
  phase : Phase
  store : Store

namespace World

/-- A store of which nothing is constructed yet. -/
def booting : Store :=
  { idx_ := 1
    writer_ := fun w =>
      { queue_ :=
          { ring := .emptyAt (fun _ => ⟨⟨[], 0⟩, ⟨[], 0⟩, 0, false⟩) 1
            log_ := .create [] [] []
            logid_ := 0
            writerid_ := w
            max_id_ := 0
            ready_ := false }
        lock_ := none
        list_ := .empty
        pc := .off }
    current_ := .new
    client := fun _ => .idle }

/-- An empty directory, and no store. -/
def empty : World := ⟨fun _ => none, .down, booting⟩

inductive Label
  | boot
  /-- `getLogID` and `NewWritableFile`; the results of the system calls on the new file -/
  | openLog (fuel : ℕ) (writes : List WriteResult) (syncs closes : List Bool)
  /-- the rest of the constructor, over whatever memory it got, and the creation of the thread -/
  | construct (fuel : ℕ) (slots : ℕ → MemEntry BufView) (scratch : ℕ → Bytes)
  /-- the loop over `ready()` and `maxid()` -/
  | ready
  /-- a step of the running threads -/
  | run (l : Store.Label)
  /-- the process ends -/
  | halt

inductive Event
  | booted
  /-- the constructor has left these entries in the queue of `w` -/
  | replayed (w : Fin kMaxWriter) (entries : List Entry)
  | store (e : Store.Event)
  deriving DecidableEq, Repr

/-- What the writers' open logs hold is on the disk. -/
def sync (s : Store) (disk : Disk) : Disk := fun name =>
  ((List.finRange kMaxWriter).findSome? fun w =>
    let q := (s.writer_ w).queue_
    if (s.writer_ w).pc ≠ .off ∧ name = logFileName q.logid_ w then some q.log_.fd else none).or
    (disk name)

/-- `idx_ = std::max(idx_, queue->maxid() + 1)` for every writer. -/
def recoveredIdx (s : Store) : ℕ :=
  (List.finRange kMaxWriter).foldl (fun idx w => max idx ((s.writer_ w).queue_.max_id_ + 1)) s.idx_

/-- The step of a store in a start: clients call only once it is running. -/
def runStep (x : World) (l : Store.Label) : Option Store :=
  match x.phase, l with
  | .running, l => x.store.step l
  | .starting _, .writer w => x.store.step (.writer w)
  | .replaying _ _ _, .writer w => x.store.step (.writer w)
  | _, _ => none

/-- No thread is inside `AddRecord` of the log of `w`. -/
def Between (s : Store) (w : Fin kMaxWriter) : Prop :=
  ∀ t e, writerOf e.key.bytes = w → s.client t ≠ .set .sized e ∧ s.client t ≠ .set .appended e

def step (x : World) : Label → Option World
  | .boot =>
    match x.phase with
    | .down => some ⟨x.disk, .starting 0, booting⟩
    | _ => none
  | .openLog fuel writes syncs closes =>
    match x.phase with
    | .starting n =>
      if h : n < kMaxWriter then
        (getLogID x.disk n 1 fuel).map fun logID =>
          let logfile := WritableFile.create writes syncs closes
          { x with
            disk := Function.update x.disk (logFileName logID n) (some logfile.fd)
            phase := .replaying ⟨n, h⟩ logID logfile }
      else none
    | _ => none
  | .construct fuel slots scratch =>
    match x.phase with
    | .replaying w logID logfile =>
      (MessageQueue.construct fuel (fun i => x.disk (logFileName i w)) logfile slots scratch w
        logID).map fun r =>
          { x with
            phase := .starting (w + 1)
            store := x.store.setWriter w ⟨r.1.resolve r.2, none, .empty, .idle⟩ }
    | _ => none
  | .ready =>
    match x.phase with
    | .starting n =>
      if n = kMaxWriter then
        some { x with phase := .running, store := { x.store with idx_ := recoveredIdx x.store } }
      else none
    | _ => none
  | .run l => (x.runStep l).map fun s => { x with disk := sync s x.disk, store := s }
  | .halt =>
    match x.phase with
    | .down => none
    | _ => some { x with phase := .down, store := booting }

def event (x : World) : Label → Option Event
  | .boot => some .booted
  | .construct fuel slots scratch =>
    match x.phase with
    | .replaying w logID logfile =>
      (MessageQueue.construct fuel (fun i => x.disk (logFileName i w)) logfile slots scratch w
        logID).map fun r => .replayed w (r.1.resolve r.2).contents
    | _ => none
  | .run l => (x.store.event l).map .store
  | _ => none

/-- Any number of starts. -/
def machine : Machine World Label Event := ⟨step, event⟩

end World

end Yangkv
