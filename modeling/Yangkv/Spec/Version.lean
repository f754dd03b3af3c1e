import Mathlib.Data.List.FinRange
import Yangkv.Spec.SkipList

/-!
# Versions (`main/versionset.h`, `main/versionset.cpp`, `main/versionedit.h`)

A `Version` is written over the kind of list it freezes, `SkipList` in the store.
Reference counts only free memory and are left out.
-/

namespace Yangkv

open Lib

instance : NeZero kMaxWriter := ⟨by decide⟩

instance : NeZero kMaxLevel := ⟨by decide⟩

structure FileMetaData where
  smallest : Entry
  largest : Entry
  file_size : ℕ
  number : ℕ
  deriving DecidableEq, Repr

/-- `mayInFile`: the key is between the smallest and the largest one. -/
def FileMetaData.mayInFile (f : FileMetaData) (user_key : Bytes) : Bool :=
  (compare user_key f.smallest.key.bytes).isGE && (compare user_key f.largest.key.bytes).isLE

/-- What a `VersionEdit` gathers for `apply`: the files to add, with their levels. -/
structure VersionEdit where
  new_files_ : List (ℕ × FileMetaData)

/-- `AddFile`. -/
def VersionEdit.addFile (edit : VersionEdit) (level file file_size : ℕ) (smallest largest : Entry) :
    VersionEdit :=
  ⟨edit.new_files_ ++ [(level, ⟨smallest, largest, file_size, file⟩)]⟩

structure Version (L : Type) where
  list_ : Fin kMaxWriter → List L
  list_count_ : ℕ
  files_ : Fin kMaxLevel → List FileMetaData

namespace Version

variable {L : Type}

/-- `new Version(set)`. -/
def new : Version L := ⟨fun _ => [], 0, fun _ => []⟩

def isFull (v : Version L) : Bool := kMaxFrozenList ≤ v.list_count_

/-- `AppendList`. -/
def appendList (v : Version L) (list : L) (idx : Fin kMaxWriter) : Version L :=
  { v with
    list_ := Function.update v.list_ idx (v.list_ idx ++ [list])
    list_count_ := v.list_count_ + 1 }

/-- `apply`: the files of `curr` and the added files of level 0. -/
def apply (v curr : Version L) (edit : VersionEdit) : Version L :=
  { v with
    files_ := edit.new_files_.foldl
      (fun files it => if it.1 = 0 then Function.update files 0 (files 0 ++ [it.2]) else files)
      curr.files_ }

/-- The `search_list` that `Get` gathers: on level 0 all files that may hold the key, on every
other level the first one. -/
def searchList (v : Version L) (key : Bytes) : List FileMetaData :=
  (List.finRange kMaxLevel).flatMap fun lv =>
    if lv = 0 then (v.files_ lv).filter (·.mayInFile key)
    else ((v.files_ lv).filter (·.mayInFile key)).take 1

/-- `Get`: the lists of the key's writer from the last one to the first, then the files. The value
where it returns `true`; no result at all when a list holds what cannot be decoded. -/
def get (v : Version SkipList) (key : Bytes) : Option (Option Bytes) :=
  match (v.list_ (writerOf key)).reverse.findSome? (·.get key) with
  | some slice =>
    (decodeSlice slice).map fun entry => if entry.value_type then none else some entry.value.bytes
  | none =>
    -- the loop over `search_list` has an empty body
    some ((v.searchList key).foldl (fun found _ => found) none)

end Version

end Yangkv
