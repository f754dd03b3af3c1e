import Yangkv.Lib.Machine
import Yangkv.Spec.Lifetime

/-!
# The list of versions and its reference counts
(`main/versionset.cpp`, `main/versionedit.h`, `memory/compacter.cpp`)

The ring of versions behind `dummy_versions_`, with the counts of the versions, of their
lists and of their files. All objects are known by their addresses. A field or object
that is unset or deleted gives no step when it is used, as a failed assertion does.

The labels are whole calls: a compaction that installs a version, an `AppendList`, and
the `Ref` and `Unref` of those who hold a version. The counts are `int` there and have
no bound here: nothing takes 2 ^ 31 references.
-/

namespace Yangkv

open Lib

/-- A `FileMetaData` object; the constructor leaves `allowed_seeks` unset. -/
structure FileObject where
  data : FileMetaData
  refs : ℕ
  allowed_seeks : Option ℤ

/-- A `Version` object without its links. -/
structure VersionNode where
  ref_ : ℕ
  list_ : Fin kMaxWriter → List ℕ
  list_count_ : ℕ
  files_ : Fin kMaxLevel → List ℕ

/-- The lists of a version, writer by writer. -/
def VersionNode.lists (n : VersionNode) : List ℕ := (List.finRange kMaxWriter).flatMap n.list_

/-- The files of a version, level by level. -/
def VersionNode.files (n : VersionNode) : List ℕ := (List.finRange kMaxLevel).flatMap n.files_

/-- `new Version(set)`; `prev_` and `next_` stay unset. -/
def VersionNode.new : VersionNode := ⟨0, fun _ => [], 0, fun _ => []⟩

structure VersionList where
  version : ℕ → Option VersionNode
  next_ : ℕ → Option ℕ
  prev_ : ℕ → Option ℕ
  list : ℕ → Option ListObject
  file : ℕ → Option FileObject
  /-- the next free address of a version -/
  nextVersion : ℕ
  nextList : ℕ
  nextFile : ℕ
  current_ : Option ℕ
  /-- the lists that `unref` has deleted, in order -/
  deleted : List ℕ
  /-- the files whose `refs` an `unref` has brought down to 0 -/
  zeroed : List ℕ

namespace VersionList

/-- The address of `dummy_versions_`. -/
def dummy_versions_ : ℕ := 0

def setVersion (s : VersionList) (v : ℕ) (n : VersionNode) : VersionList :=
  { s with version := Function.update s.version v (some n) }

def setFile (s : VersionList) (f : ℕ) (o : FileObject) : VersionList :=
  { s with file := Function.update s.file f (some o) }

/-- What a file object says about its file. -/
def dataAt (s : VersionList) (f : ℕ) : Option FileMetaData := (s.file f).map (·.data)

/-- `v->next_ = x`. -/
def setNext (s : VersionList) (v x : ℕ) : Option VersionList :=
  (s.version v).map fun _ => { s with next_ := Function.update s.next_ v (some x) }

/-- `v->prev_ = x`. -/
def setPrev (s : VersionList) (v x : ℕ) : Option VersionList :=
  (s.version v).map fun _ => { s with prev_ := Function.update s.prev_ v (some x) }

/-- `new Version(set)`, at the next free address. -/
def newVersion (s : VersionList) : VersionList :=
  { s.setVersion s.nextVersion .new with nextVersion := s.nextVersion + 1 }

/-! ## Files and lists -/

/-- `FileMetaData::ref`. -/
def refFile (s : VersionList) (f : ℕ) : Option VersionList :=
  (s.file f).map fun o => s.setFile f { o with refs := o.refs + 1 }

/-- `FileMetaData::unref`, which frees nothing yet. -/
def unrefFile (s : VersionList) (f : ℕ) : Option VersionList := do
  let o ← s.file f
  if 0 < o.refs then
    some { s.setFile f { o with refs := o.refs - 1 } with
      zeroed := if o.refs = 1 then s.zeroed ++ [f] else s.zeroed }
  else none

/-- `SkipList::unref`. -/
def unrefList (s : VersionList) (id : ℕ) : Option VersionList := do
  let o ← s.list id
  if 1 ≤ o.ref_ then
    if o.ref_ = 1 then
      some { s with list := Function.update s.list id none, deleted := s.deleted ++ [id] }
    else some { s with list := Function.update s.list id (some { o with ref_ := o.ref_ - 1 }) }
  else none

/-- `VersionEdit::AddFile` for each of the files: the new objects and the edit that refers to
them. -/
def addFiles (s : VersionList) (edit : VersionEdit) : VersionList × List (ℕ × ℕ) :=
  edit.new_files_.foldl (fun r it =>
    ({ r.1.setFile r.1.nextFile ⟨it.2, 0, none⟩ with nextFile := r.1.nextFile + 1 },
      r.2 ++ [(it.1, r.1.nextFile)])) (s, [])

/-! ## Versions -/

/-- `Version::Ref`. -/
def ref (s : VersionList) (v : ℕ) : Option VersionList :=
  (s.version v).map fun n => s.setVersion v { n with ref_ := n.ref_ + 1 }

/-- `next_->prev_ = prev_; prev_->next_ = next_`. -/
def unlink (s : VersionList) (v : ℕ) : Option VersionList := do
  let s ← s.setPrev (← s.next_ v) (← s.prev_ v)
  s.setNext (← s.prev_ v) (← s.next_ v)

/-- `delete v`, with `~Version`. -/
def delete (s : VersionList) (v : ℕ) : Option VersionList := do
  let n ← s.version v
  let s ← n.files.foldlM unrefFile s
  some { s with
    version := Function.update s.version v none
    next_ := Function.update s.next_ v none
    prev_ := Function.update s.prev_ v none }

/-- `Version::Unref`. -/
def unref (s : VersionList) (v : ℕ) : Option VersionList := do
  let n ← s.version v
  if v ≠ dummy_versions_ ∧ 1 ≤ n.ref_ then
    let s := s.setVersion v { n with ref_ := n.ref_ - 1 }
    if n.ref_ = 1 then do
      let s ← n.lists.foldlM unrefList s
      let s ← s.unlink v
      s.delete v
    else some s
  else none

/-- The first two loops of `Version::apply`: the added files of level 0 go behind those of `curr`. -/
def pushFiles (files_ : Fin kMaxLevel → List ℕ) (edit : List (ℕ × ℕ)) : Fin kMaxLevel → List ℕ :=
  edit.foldl
    (fun files it => if it.1 = 0 then Function.update files 0 (files 0 ++ [it.2]) else files) files_

/-- `Version::apply`: the files of `curr` and the added files of level 0, each of them referenced. -/
def apply (s : VersionList) (v curr : ℕ) (edit : List (ℕ × ℕ)) : Option VersionList := do
  let c ← s.version curr
  let n ← s.version v
  let n := { n with files_ := pushFiles c.files_ edit }
  n.files.foldlM refFile (s.setVersion v n)

/-- `Version::AppendList` of a list with `ref_` 1. -/
def appendList (s : VersionList) (v : ℕ) (list : SkipList) (idx : Fin kMaxWriter) :
    Option VersionList :=
  (s.version v).map fun n =>
    { s.setVersion v { n with
        list_ := Function.update n.list_ idx (n.list_ idx ++ [s.nextList])
        list_count_ := n.list_count_ + 1 } with
      list := Function.update s.list s.nextList (some ⟨list, 1⟩)
      nextList := s.nextList + 1 }

/-- The last four lines of `AppendVersion`. -/
def link (s : VersionList) (v : ℕ) : Option VersionList := do
  let s ← s.setPrev v (← s.prev_ dummy_versions_)
  let s ← s.setNext v dummy_versions_
  let s ← s.setNext (← s.prev_ v) v
  s.setPrev (← s.next_ v) v

/-- `VersionSet::AppendVersion`. -/
def appendVersion (s : VersionList) (v : ℕ) : Option VersionList := do
  let n ← s.version v
  if n.ref_ = 0 ∧ s.current_ ≠ some v then do
    let s ← match s.current_ with
      | some c => s.unref c
      | none => some s
    let s := { s with current_ := some v }
    let s ← s.ref v
    s.link v
  else none

/-- Where the constructor of `VersionSet` has set up the dummy; `current_` is null. -/
def initial : VersionList where
  version := Function.update (fun _ => none) dummy_versions_ (some { VersionNode.new with ref_ := 1 })
  next_ := Function.update (fun _ => none) dummy_versions_ (some dummy_versions_)
  prev_ := Function.update (fun _ => none) dummy_versions_ (some dummy_versions_)
  list := fun _ => none
  file := fun _ => none
  nextVersion := 1
  nextList := 0
  nextFile := 0
  current_ := none
  deleted := []
  zeroed := []

/-- The constructor of `VersionSet`. -/
def create : Option VersionList := initial.newVersion.appendVersion initial.nextVersion

/-- The end of a round of `workRound`, after `compact` has filled the edit. -/
def install (s : VersionList) (edit : VersionEdit) : Option VersionList := do
  let (s, edit) := s.addFiles edit
  let v := s.nextVersion
  let s ← s.newVersion.apply v (← s.current_) edit
  s.appendVersion v

/-! ## Runs -/

/-- The list, and how many times each version is held. -/
structure Holders where
  set : VersionList
  held : ℕ → ℕ

inductive Label
  | install (edit : VersionEdit)
  /-- `AppendFrozenList`, on the current version -/
  | append (list : SkipList) (idx : Fin kMaxWriter)
  | ref (v : ℕ)
  | unref (v : ℕ)

inductive Event
  | installed (v : ℕ)
  | appended (id v : ℕ)
  deriving DecidableEq

def Holders.step (s : Holders) : Label → Option Holders
  | .install edit => (s.set.install edit).map fun set => { s with set }
  | .append list idx => do
    let set ← s.set.appendList (← s.set.current_) list idx
    some { s with set }
  | .ref v => (s.set.ref v).map fun set => ⟨set, Function.update s.held v (s.held v + 1)⟩
  | .unref v => (s.set.unref v).map fun set => ⟨set, Function.update s.held v (s.held v - 1)⟩

def Holders.event (s : Holders) : Label → Option Event
  | .install _ => some (.installed s.set.nextVersion)
  | .append _ _ => s.set.current_.map (.appended s.set.nextList)
  | _ => none

def machine : Machine Holders Label Event := ⟨Holders.step, Holders.event⟩

/-- A version other than the dummy that is referenced. -/
def Live (s : VersionList) (v : ℕ) : Prop :=
  v ≠ dummy_versions_ ∧ ∃ n, s.version v = some n ∧ 1 ≤ n.ref_

/-- Who refers to a version has found it live, and gives back what it has taken. -/
def Allowed (s : Holders) : Label → Prop
  | .ref v => s.set.Live v
  | .unref v => 1 ≤ s.held v
  | _ => True

end VersionList

end Yangkv
