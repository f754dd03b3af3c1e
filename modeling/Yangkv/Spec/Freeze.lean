import Yangkv.Lib.Machine
import Yangkv.Spec.Version

/-!
# Writers that freeze lists and the compacter that merges them
(`main/versionset.cpp`, `memory/compacter.cpp`)

The writers in `AppendFrozenList` and the compacter in `workRound`, over any kind of
list. `compact` adds the table of the lists it is given to an edit. A writer in
`Wait` has released the mutex; it may wake by a broadcast or spuriously, and then
has to take the mutex again. The compacter never takes it, so it can run between a
writer's test of `isFull` and its sleep.
-/

namespace Yangkv

open Lib

/-- Where a writer is in `AppendFrozenList(list, ·)`. -/
inductive AppendPc (L : Type)
  | idle
  | called (list : L)
  /-- with the mutex, before the test of `isFull` -/
  | locked (list : L)
  /-- the test has found a full version -/
  | tested (list : L)
  /-- in `Wait`, asleep -/
  | waiting (list : L)
  /-- in `Wait`, awake and without the mutex -/
  | woken (list : L)
  /-- back from `Wait` -/
  | resumed (list : L)
  /-- the test has found a version that is not full -/
  | cleared (list : L)
  | appended
  deriving DecidableEq

/-- Where the compacter is in `workRound`. -/
inductive CompactPc (L : Type)
  | test
  /-- `isFull` was true -/
  | compact
  /-- `BuildTable` has merged the lists -/
  | apply (merged : Fin kMaxWriter → List L) (edit : VersionEdit)
  | appendVersion (merged : Fin kMaxWriter → List L) (v : Version L)
  | broadcast

structure VersionSet (L : Type) where
  current_ : Version L
  /-- the writer that has the mutex of `compact_lock_` -/
  compact_lock_ : Option (Fin kMaxWriter)
  writer : Fin kMaxWriter → AppendPc L
  compacter : CompactPc L

namespace VersionSet

inductive Label (L : Type)
  /-- the writer calls `AppendFrozenList` -/
  | call (w : Fin kMaxWriter) (list : L)
  | writer (w : Fin kMaxWriter)
  /-- a spurious wake-up -/
  | wake (w : Fin kMaxWriter)
  | compacter

inductive Event (L : Type)
  | appended (w : Fin kMaxWriter) (list : L)
  /-- `AppendVersion` has replaced the version, the compaction having merged these lists -/
  | replaced (merged : Fin kMaxWriter → List L)

variable {L : Type}

/-- Before the first call. -/
def start : VersionSet L := ⟨.new, none, fun _ => .idle, .test⟩

def setWriter (s : VersionSet L) (w : Fin kMaxWriter) (pc : AppendPc L) : VersionSet L :=
  { s with writer := Function.update s.writer w pc }

/-- Taking the mutex, on to `pc`. -/
def lock (s : VersionSet L) (w : Fin kMaxWriter) (pc : AppendPc L) : Option (VersionSet L) :=
  if s.compact_lock_ = none then some { s.setWriter w pc with compact_lock_ := some w } else none

/-- `AppendList` on the current version. -/
def appendList (s : VersionSet L) (w : Fin kMaxWriter) (list : L) : VersionSet L :=
  { s.setWriter w .appended with current_ := s.current_.appendList list w }

/-- One step of `AppendFrozenList`. -/
def writerStep (s : VersionSet L) (w : Fin kMaxWriter) : Option (VersionSet L) :=
  match s.writer w with
  | .idle => none
  | .called list => s.lock w (.locked list)
  | .locked list => some <| s.setWriter w (if s.current_.isFull then .tested list else .cleared list)
  -- `Wait` gives the mutex back and sleeps in one step
  | .tested list => some { s.setWriter w (.waiting list) with compact_lock_ := none }
  | .waiting _ => none
  | .woken list => s.lock w (.resumed list)
  | .resumed list | .cleared list => some (s.appendList w list)
  | .appended => some { s.setWriter w .idle with compact_lock_ := none }

/-- The writers after a broadcast. -/
def awake : AppendPc L → AppendPc L
  | .waiting list => .woken list
  | pc => pc

/-- One step of `workRound`. -/
def compacterStep (compact : (Fin kMaxWriter → List L) → VersionEdit → VersionEdit)
    (s : VersionSet L) : VersionSet L :=
  match s.compacter with
  | .test => { s with compacter := if s.current_.isFull then .compact else .test }
  | .compact => { s with compacter := .apply s.current_.list_ (compact s.current_.list_ ⟨[]⟩) }
  | .apply merged edit =>
    { s with compacter := .appendVersion merged (Version.new.apply s.current_ edit) }
  | .appendVersion _ v => { s with current_ := v, compacter := .broadcast }
  | .broadcast => { s with writer := fun w => awake (s.writer w), compacter := .test }

def step (compact : (Fin kMaxWriter → List L) → VersionEdit → VersionEdit) (s : VersionSet L) :
    Label L → Option (VersionSet L)
  | .call w list =>
    match s.writer w with
    | .idle => some (s.setWriter w (.called list))
    | _ => none
  | .writer w => s.writerStep w
  | .wake w =>
    match s.writer w with
    | .waiting list => some (s.setWriter w (.woken list))
    | _ => none
  | .compacter => some (s.compacterStep compact)

def event (s : VersionSet L) : Label L → Option (Event L)
  | .writer w =>
    match s.writer w with
    | .resumed list | .cleared list => some (.appended w list)
    | _ => none
  | .compacter =>
    match s.compacter with
    | .appendVersion merged _ => some (.replaced merged)
    | _ => none
  | _ => none

/-- Four writers and the compacter. -/
def machine (compact : (Fin kMaxWriter → List L) → VersionEdit → VersionEdit) :
    Machine (VersionSet L) (Label L) (Event L) := ⟨step compact, event⟩

end VersionSet

end Yangkv
