import Yangkv.Spec.Database

/-!
# The threads of the database and `stop`
(`main/yangkvMain.cpp`, `memory/writer.cpp`, `memory/compacter.cpp`)

Each background thread tests its `stopFLAG` and goes round its loop again, or quits:
a writer before each `mayInsertMessage`, the compacter before each test of `isFull`.
`stop` sets the flags one after the other.
-/

namespace Yangkv

open Lib

/-- Where a thread is in its `workRound`. -/
inductive RoundPc
  /-- before the test of `stopFLAG` -/
  | test
  /-- in the body of the loop -/
  | body
  | quit
  deriving DecidableEq

structure Threads where
  db : Database
  /-- how many flags `stop` has set -/
  stopped : ℕ
  writer : Fin kMaxWriter → RoundPc
  compacter : RoundPc

namespace Threads

inductive Label
  /-- `stop` sets its next flag -/
  | stop
  | db (l : Database.Label)

variable (s : Threads)

/-- `writer_args_[w]->stopFLAG`. -/
def writerStop (w : Fin kMaxWriter) : Bool := w.val < s.stopped

/-- `compacter_args_->stopFLAG`, which comes after those of the writers. -/
def compacterStop : Bool := kMaxWriter < s.stopped

def setWriter (w : Fin kMaxWriter) (pc : RoundPc) : Threads :=
  { s with writer := Function.update s.writer w pc }

/-- One step of `Writer::workRound`. -/
def writerStep (w : Fin kMaxWriter) : Option Threads :=
  match s.writer w with
  | .test => some (s.setWriter w (if s.writerStop w then .quit else .body))
  | .body => (s.db.step (.store (.writer w))).map fun d =>
    -- `mayInsertMessage` returns where it gives the write lock back
    { s.setWriter w (if (d.store.writer_ w).pc = .idle then .test else .body) with db := d }
  | .quit => none

/-- One step of `Compacter::workRound`. -/
def compacterStep (opened : Option WritableFile) : Option Threads :=
  match s.compacter with
  | .test => some { s with compacter := if s.compacterStop then .quit else .body }
  | .body => (s.db.step (.compacter opened)).map fun d =>
    { s with
      db := d
      compacter := match d.compacter with
        | .test => .test
        | _ => .body }
  | .quit => none

def step : Label → Option Threads
  | .stop => if s.stopped ≤ kMaxWriter then some { s with stopped := s.stopped + 1 } else none
  | .db (.store (.writer w)) => s.writerStep w
  | .db (.compacter opened) => s.compacterStep opened
  | .db l => (s.db.step l).map fun d => { s with db := d }

/-- What a step shows of the database. -/
def event : Label → Option Database.Event
  | .stop => none
  | .db (.store (.writer w)) =>
    match s.writer w with
    | .body => s.db.event (.store (.writer w))
    | _ => none
  | .db (.compacter opened) =>
    match s.compacter with
    | .body => s.db.event (.compacter opened)
    | _ => none
  | .db l => s.db.event l

/-- The running database with its threads. -/
def machine : Machine Threads Label Database.Event := ⟨step, event⟩

end Threads

end Yangkv
