import Yangkv.Lib.Machine
import Yangkv.Spec.Version

/-!
# Versions and lists as objects with reference counts
(`main/versionset.cpp`, `memory/skiplist.h`, `main/yangkvMain.cpp`)

The pointer `current_`, the versions and lists it leads to by their addresses, and
who reads, appends to and replaces the current version: any number of `getValue`
calls, the writers in `AppendFrozenList` and the compacter in `workRound`. A call
takes no reference to the version it reads. An object whose `ref_` has come down to 0
has been released. The mutex of the writers and the counts of the files are left out,
so a writer may append at any time.
-/

namespace Yangkv

open Lib

/-- A `Version`, with its lists by their addresses. -/
structure VersionObject where
  version : Version ℕ
  ref_ : ℕ
  /-- how many readers have `rwlock_` -/
  rwlock_ : ℕ

structure ListObject where
  list : SkipList
  ref_ : ℕ

/-- Where a `getValue` is. -/
inductive ReadPc
  | idle
  /-- neither the queue nor the active list has the key -/
  | current (key : Bytes)
  /-- it has read `Current()` -/
  | fetched (key : Bytes) (v : ℕ)
  /-- in `Get`, with `rwlock_`, and this many lists still to look at -/
  | lists (key : Bytes) (v : ℕ) (left : ℕ)
  /-- before the search of the files -/
  | files (key : Bytes) (v : ℕ)
  | done (value : Option Bytes)

/-- Where the compacter is in `workRound`. -/
inductive SwapPc
  | test
  | compact
  | apply (edit : VersionEdit)
  /-- at the `Unref` of `AppendVersion(v)` -/
  | unref (v : ℕ)
  /-- in that `Unref`, with these lists still to release -/
  | release (v : ℕ) (ids : List ℕ)
  /-- before `current_ = v` -/
  | install (v : ℕ)
  /-- before `v->Ref()` -/
  | ref (v : ℕ)
  | broadcast

structure VersionHeap (ρ : Type) where
  version : ℕ → VersionObject
  list : ℕ → ListObject
  /-- the next free address of a version -/
  nextVersion : ℕ
  nextList : ℕ
  current_ : ℕ
  reader : ρ → ReadPc
  /-- the list a writer has to append, to the version that `current_` was -/
  writer : Fin kMaxWriter → Option (SkipList × ℕ)
  compacter : SwapPc

namespace VersionHeap

inductive Label (ρ : Type)
  /-- a `getValue` that comes to the versions -/
  | call (r : ρ) (key : Bytes)
  | read (r : ρ)
  /-- `AppendFrozenList` reads `current_` -/
  | freeze (w : Fin kMaxWriter) (list : SkipList)
  | append (w : Fin kMaxWriter)
  | compacter

variable {ρ : Type}

/-- After the constructor of `VersionSet`, with one empty version. -/
def start : VersionHeap ρ where
  version := fun _ => ⟨.new, 1, 0⟩
  list := fun _ => ⟨.empty, 0⟩
  nextVersion := 1
  nextList := 0
  current_ := 0
  reader := fun _ => .idle
  writer := fun _ => none
  compacter := .test

def setVersion (s : VersionHeap ρ) (v : ℕ) (o : VersionObject) : VersionHeap ρ :=
  { s with version := Function.update s.version v o }

def setList (s : VersionHeap ρ) (id : ℕ) (o : ListObject) : VersionHeap ρ :=
  { s with list := Function.update s.list id o }

/-- The lists of a version, writer by writer. -/
def listsOf (v : Version ℕ) : List ℕ := (List.finRange kMaxWriter).flatMap v.list_

/-- The version with its lists in place of their addresses. -/
def view (s : VersionHeap ρ) (v : ℕ) : Version SkipList :=
  { list_ := fun w => ((s.version v).version.list_ w).map fun id => (s.list id).list
    list_count_ := (s.version v).version.list_count_
    files_ := (s.version v).version.files_ }

/-- `AppendList` of a new list, which waits for the readers of the version. -/
def appendStep (s : VersionHeap ρ) (w : Fin kMaxWriter) : Option (VersionHeap ρ) :=
  match s.writer w with
  | none => none
  | some (list, v) =>
    let o := s.version v
    if o.rwlock_ = 0 then
      some { (s.setList s.nextList ⟨list, 1⟩).setVersion v
          { o with version := o.version.appendList s.nextList w } with
        nextList := s.nextList + 1
        writer := Function.update s.writer w none }
    else none

/-- One step of `workRound`; a failed assertion gives no step. -/
def compacterStep (compact : (Fin kMaxWriter → List SkipList) → VersionEdit → VersionEdit)
    (s : VersionHeap ρ) : Option (VersionHeap ρ) :=
  match s.compacter with
  | .test => some { s with
      compacter := if (s.version s.current_).version.isFull then .compact else .test }
  | .compact => some { s with compacter := .apply (compact (s.view s.current_).list_ ⟨[]⟩) }
  | .apply edit =>
    -- `new Version(set_)`, with `ref_` 0
    let v := Version.new.apply (s.version s.current_).version edit
    some { s.setVersion s.nextVersion ⟨v, 0, 0⟩ with
      nextVersion := s.nextVersion + 1
      compacter := .unref s.nextVersion }
  | .unref v =>
    let o := s.version s.current_
    if (s.version v).ref_ = 0 ∧ v ≠ s.current_ ∧ 1 ≤ o.ref_ then
      some { s.setVersion s.current_ { o with ref_ := o.ref_ - 1 } with
        compacter := if o.ref_ = 1 then .release v (listsOf o.version) else .install v }
    else none
  | .release v [] => some { s with compacter := .install v }
  | .release v (id :: ids) =>
    let o := s.list id
    if 1 ≤ o.ref_ then
      some { s.setList id { o with ref_ := o.ref_ - 1 } with compacter := .release v ids }
    else none
  | .install v => some { s with current_ := v, compacter := .ref v }
  | .ref v =>
    let o := s.version v
    some { s.setVersion v { o with ref_ := o.ref_ + 1 } with compacter := .broadcast }
  | .broadcast => some { s with compacter := .test }

variable [DecidableEq ρ]

def setReader (s : VersionHeap ρ) (r : ρ) (pc : ReadPc) : VersionHeap ρ :=
  { s with reader := Function.update s.reader r pc }

/-- Taking or giving back `rwlock_` for reading. -/
def setLock (s : VersionHeap ρ) (v : ℕ) (f : ℕ → ℕ) : VersionHeap ρ :=
  s.setVersion v { s.version v with rwlock_ := f (s.version v).rwlock_ }

/-- One step of `getValue` among the versions. -/
def readStep (s : VersionHeap ρ) (r : ρ) : Option (VersionHeap ρ) :=
  match s.reader r with
  | .idle => none
  | .current key => some (s.setReader r (.fetched key s.current_))
  | .fetched key v =>
    let sz := ((s.version v).version.list_ (writerOf key)).length
    some ((s.setLock v (· + 1)).setReader r (.lists key v sz))
  | .lists key v 0 => some ((s.setLock v (· - 1)).setReader r (.files key v))
  | .lists key v (i + 1) => do
    let id ← ((s.version v).version.list_ (writerOf key))[i]?
    match (s.list id).list.get key with
    | some slice =>
      let entry ← decodeSlice slice
      let value := if entry.value_type then none else some entry.value.bytes
      some ((s.setLock v (· - 1)).setReader r (.done value))
    | none => some (s.setReader r (.lists key v i))
  | .files key v =>
    -- the loop over `search_list` has an empty body
    let value := ((s.version v).version.searchList key).foldl (fun found _ => found) none
    some (s.setReader r (.done value))
  | .done _ => some (s.setReader r .idle)

def step (compact : (Fin kMaxWriter → List SkipList) → VersionEdit → VersionEdit)
    (s : VersionHeap ρ) : Label ρ → Option (VersionHeap ρ)
  | .call r key =>
    match s.reader r with
    | .idle => some (s.setReader r (.current key))
    | _ => none
  | .read r => s.readStep r
  | .freeze w list =>
    match s.writer w with
    | none => some { s with writer := Function.update s.writer w (some (list, s.current_)) }
    | some _ => none
  | .append w => s.appendStep w
  | .compacter => s.compacterStep compact

/-- The calls of `getValue`, the writers and the compacter. -/
def machine (compact : (Fin kMaxWriter → List SkipList) → VersionEdit → VersionEdit) :
    Machine (VersionHeap ρ) (Label ρ) Unit := ⟨step compact, fun _ _ => none⟩

end VersionHeap

end Yangkv
