import Yangkv.Lib.OrderedSet
import Yangkv.Spec.Block
import Yangkv.Spec.VersionEdit
import Yangkv.Spec.VersionList

/-!
# `VersionSet::Builder` (`main/versionset.cpp`)

The builder works on the objects of the list of versions. Its sets of added files are
kept in the order of `BySmallestKey`. A failed assertion, an address without an object
and a level that is out of range give no result. The list of versions uses `Version::apply`
in its place.
-/

namespace Yangkv

open Lib

/-- `BySmallestKey`: by the smallest key, then by the number. -/
def FileMetaData.bySmallestKey (f1 f2 : FileMetaData) : Bool :=
  let r := sliceCompare f1.smallest.key.bytes f2.smallest.key.bytes
  if r ≠ .eq then r = .lt else f1.number < f2.number

/-- `BySmallestKey` on addresses; one without an object, which the builder never holds, would come
first. -/
def VersionList.bySmallestKey (s : VersionList) (f1 f2 : ℕ) : Bool :=
  match s.dataAt f1, s.dataAt f2 with
  | some d1, some d2 => d1.bySmallestKey d2
  | d1, d2 => d1.isNone && d2.isSome

structure LevelState where
  deleted_files : Finset ℕ
  added_files : List ℕ

structure VersionSet.Builder where
  heap : VersionList
  base_ : ℕ
  levels_ : Fin kMaxLevel → LevelState

namespace VersionSet.Builder

/-- `Builder(vset, base)`. -/
def new (heap : VersionList) (base : ℕ) : Option Builder :=
  (heap.ref base).map fun heap => ⟨heap, base, fun _ => ⟨∅, []⟩⟩

def setLevel (b : Builder) (level : Fin kMaxLevel) (st : LevelState) : Builder :=
  { b with levels_ := Function.update b.levels_ level st }

/-- One turn of the first loop of `Apply`. -/
def deleteFile (b : Builder) (level number : ℕ) : Option Builder :=
  if h : level < kMaxLevel then
    let st := b.levels_ ⟨level, h⟩
    some (b.setLevel ⟨level, h⟩ { st with deleted_files := insert number st.deleted_files })
  else none

/-- `static_cast<int>(file_size / 16384U)`, and at least 100. -/
def allowedSeeks (file_size : ℕ) : ℤ :=
  let allowed_seeks := Int.bmod (file_size / 16384 : ℕ) (2 ^ 32)
  if allowed_seeks < 100 then 100 else allowed_seeks

/-- One turn of the second loop of `Apply`, with a copy of the file. -/
def addFile (b : Builder) (level : ℕ) (d : FileMetaData) : Option Builder :=
  if h : level < kMaxLevel then
    let f := b.heap.nextFile
    let heap := { b.heap.setFile f ⟨d, 1, some (allowedSeeks d.file_size)⟩ with nextFile := f + 1 }
    let st := b.levels_ ⟨level, h⟩
    some ({ b with heap }.setLevel ⟨level, h⟩
      { deleted_files := st.deleted_files.erase d.number
        added_files := insertBy heap.bySmallestKey f st.added_files })
  else none

/-- `Apply`. -/
def apply (b : Builder) (edit : FullVersionEdit FileMetaData) : Option Builder := do
  let b ← edit.deletedFiles.foldlM (fun b it => b.deleteFile (ofLex it).1 (ofLex it).2) b
  edit.new_files_.foldlM (fun b it => b.addFile it.1 it.2) b

/-- The assertion of `MaybeAddFile`: from level 1 on, the last file ends before this one begins. -/
def mustNotOverlap (heap : VersionList) (level : Fin kMaxLevel) (files : List ℕ)
    (d : FileMetaData) : Bool :=
  level = 0 || match files.getLast?.bind heap.dataAt with
    | some last => sliceCompare last.largest.key.bytes d.smallest.key.bytes = .lt
    | none => true

/-- `MaybeAddFile`. -/
def maybeAddFile (v : ℕ) (level : Fin kMaxLevel) (b : Builder) (f : ℕ) : Option Builder := do
  let o ← b.heap.file f
  if o.data.number ∈ (b.levels_ level).deleted_files then some b
  else do
    let n ← b.heap.version v
    let files := n.files_ level
    if mustNotOverlap b.heap level files o.data then
      some { b with
        heap := (b.heap.setFile f { o with refs := o.refs + 1 }).setVersion v
          { n with files_ := Function.update n.files_ level (files ++ [f]) } }
    else none

/-- One turn of the loop of `SaveTo`, from the iterators over the base files and the added ones. -/
def saveLevel (v : ℕ) (level : Fin kMaxLevel) : Builder → List ℕ → List ℕ → Option Builder
  | b, base_files, [] => base_files.foldlM (maybeAddFile v level) b
  | b, base_files, f :: added => do
    -- all base files before the upper bound
    let smaller := fun g => !b.heap.bySmallestKey f g
    let b ← (base_files.takeWhile smaller).foldlM (maybeAddFile v level) b
    let b ← b.maybeAddFile v level f
    saveLevel v level b (base_files.dropWhile smaller) added

/-- `SaveTo`. -/
def saveTo (b : Builder) (v : ℕ) : Option Builder :=
  (List.finRange kMaxLevel).foldlM (fun b level => do
    let base ← b.heap.version b.base_
    b.saveLevel v level (base.files_ level) (b.levels_ level).added_files) b

/-- The references that `~Builder` gives back, with the objects that have no other. -/
def unrefAdded (s : VersionList) (f : ℕ) : Option VersionList :=
  (s.file f).map fun o =>
    if o.refs ≤ 1 then { s with file := Function.update s.file f none }
    else s.setFile f { o with refs := o.refs - 1 }

/-- `~Builder`. -/
def destroy (b : Builder) : Option VersionList := do
  let added := (List.finRange kMaxLevel).flatMap fun level => (b.levels_ level).added_files
  let heap ← added.foldlM unrefAdded b.heap
  heap.unref b.base_

end VersionSet.Builder

/-! ## The two ways of applying an edit -/

namespace VersionList

/-- The numbers of the files that a version lists at a level. -/
def numbersAt (s : VersionList) (v : ℕ) (level : Fin kMaxLevel) : Finset ℕ :=
  ((((s.version v).elim [] (·.files_ level)).filterMap s.dataAt).map (·.number)).toFinset

/-- `Version::apply` of an edit to a new version. -/
def applied (s : VersionList) (curr : ℕ) (edit : FullVersionEdit FileMetaData) :
    Option VersionList :=
  let (s, files) := s.addFiles edit.toEdit
  s.newVersion.apply s.nextVersion curr files

/-- The same with a builder. -/
def built (s : VersionList) (curr : ℕ) (edit : FullVersionEdit FileMetaData) :
    Option VersionSet.Builder := do
  let s := (s.addFiles edit.toEdit).1
  let b ← VersionSet.Builder.new s.newVersion curr
  let b ← b.apply edit
  b.saveTo s.nextVersion

end VersionList

end Yangkv
