import Yangkv.Spec.Compacter
import Yangkv.Spec.Freeze
import Yangkv.Spec.History

/-!
# The running database
(`main/yangkvMain.cpp`, `memory/writer.cpp`, `main/versionset.cpp`, `memory/compacter.cpp`)

The clients and writers of `Store` together with the compacter and the lock of
`VersionSet`, over one current version. A writer with a full list takes the steps of
`AppendFrozenList` one by one, and keeps the write lock meanwhile. `BuildTable` is one
step, which leaves its file in the directory.
-/

namespace Yangkv

open Lib

structure Database where
  store : Store
  compact_lock_ : Option (Fin kMaxWriter)
  /-- where the writers are in `AppendFrozenList` -/
  append : Fin kMaxWriter → AppendPc SkipList
  compacter : CompactPc SkipList
  compacter_ : Compacter
  disk : Disk

namespace Database

inductive Label
  | store (l : Store.Label)
  /-- a spurious wake-up -/
  | wake (w : Fin kMaxWriter)
  /-- a step of `workRound`; `BuildTable` gets `opened` from `NewWritableFile` -/
  | compacter (opened : Option WritableFile)

inductive Event
  | store (e : Store.Event)
  /-- `insert` has put the entry into the active list of `w` -/
  | inserted (w : Fin kMaxWriter) (entry : Entry)
  /-- `AppendList` has added the active list of `w` to the current version -/
  | appended (w : Fin kMaxWriter)
  /-- `AppendVersion` has replaced the current version -/
  | replaced
  deriving DecidableEq

/-- What the writers and the compacter share. -/
def set_ (d : Database) : VersionSet SkipList :=
  ⟨d.store.current_, d.compact_lock_, d.append, d.compacter⟩

def withSet (d : Database) (v : VersionSet SkipList) : Database :=
  { d with
    store := { d.store with current_ := v.current_ }
    compact_lock_ := v.compact_lock_
    append := v.writer
    compacter := v.compacter }

def withStore (d : Database) (s : Store) : Database := { d with store := s }

/-- One step of `mayInsertMessage`, with `AppendFrozenList` where the list is full. -/
def writerStep (d : Database) (w : Fin kMaxWriter) : Option Database :=
  let wr := d.store.writer_ w
  if wr.pc = .full then
    match d.append w with
    | .idle => some (d.withSet (d.set_.setWriter w (.called wr.list_)))
    | .appended => (d.set_.writerStep w).map fun v =>
      let d := d.withSet v
      d.withStore (d.store.setWriter w { wr with pc := .frozen })
    | _ => (d.set_.writerStep w).map d.withSet
  else (d.store.writerStep w).map d.withStore

/-- One step of `workRound`. -/
def compacterStep (d : Database) (opened : Option WritableFile) : Option Database :=
  match d.compacter with
  | .compact => (d.compacter_.compactEnv d.store.current_ opened ⟨[]⟩).map fun r =>
    { d with
      compacter_ := r.2.1
      compacter := .apply d.store.current_.list_ r.2.2.2
      disk := Function.update d.disk (tableFileName r.2.1.file_seq_num_) (some r.2.2.1.fd) }
  -- `compact` is the only step that changes the edit
  | _ => some (d.withSet (d.set_.compacterStep fun _ edit => edit))

def step (d : Database) : Label → Option Database
  | .store (.writer w) => d.writerStep w
  | .store l => (d.store.step l).map d.withStore
  | .wake w =>
    match d.append w with
    | .waiting list => some (d.withSet (d.set_.setWriter w (.woken list)))
    | _ => none
  | .compacter opened => d.compacterStep opened

/-- What a step of a writer shows. -/
def writerEvent (d : Database) (w : Fin kMaxWriter) : Option Event :=
  match (d.store.writer_ w).pc, d.append w with
  | .loop, _ => (d.store.writer_ w).queue_.getFront.map (.inserted w)
  | .full, .resumed _ => some (.appended w)
  | .full, .cleared _ => some (.appended w)
  | _, _ => none

def event (d : Database) : Label → Option Event
  | .store (.writer w) => d.writerEvent w
  | .store l => (d.store.event l).map .store
  | .wake _ => none
  | .compacter _ =>
    match d.compacter with
    | .appendVersion _ _ => some .replaced
    | _ => none

/-- The running database. -/
def machine : Machine Database Label Event := ⟨step, event⟩

end Database

end Yangkv
