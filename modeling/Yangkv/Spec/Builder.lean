import Yangkv.Spec.Table
import Yangkv.Spec.Version

/-!
# Tables from frozen lists (`main/builder.cpp`)
-/

namespace Yangkv

open Lib

/-- `MergeIterator`: its map `mp_`, which is read from the front. -/
abbrev MergeIterator := Std.TreeMap Bytes Bytes

namespace MergeIterator

/-- The entries of one list, each in place of an older one with its key. -/
def addList (mp_ : MergeIterator) (list_ : SkipList) : MergeIterator :=
  list_.list_.foldl (fun mp_ key slice => mp_.insert key slice) mp_

/-- The constructor: the lists of one writer after the other. -/
def new (frozenlists : Fin kMaxWriter → List SkipList) : MergeIterator :=
  (List.finRange kMaxWriter).foldl (fun mp_ i => (frozenlists i).foldl addList mp_) ∅

/-- `setMetaData`: the smallest and the largest entry it sets; an empty map has none. -/
def setMetaData (mp_ : MergeIterator) : Option (Entry × Entry) := do
  let first ← mp_.toList.head?
  let smallest ← decodeSlice first.2
  let last ← mp_.toList.getLast?
  let largest ← decodeSlice last.2
  some (smallest, largest)

end MergeIterator

/-- The turn of the loop of `BuildTable` for one entry of the merged map. -/
def addSlice (builder : TableBuilder) (it : Bytes × Bytes) : Option TableBuilder := do
  let entry ← decodeSlice it.2
  builder.add entry.key.bytes entry.value.bytes

/-- `BuildTable` into the new file `file`: the file and the metadata, of which the number is
given. The status of `Finish`, `Sync` and `Close` is not returned. -/
def buildTable (frozenlists : Fin kMaxWriter → List SkipList) (file : WritableFile) (number : ℕ) :
    Option (WritableFile × FileMetaData) := do
  let builder ← TableBuilder.new .default file
  let iter := MergeIterator.new frozenlists
  let (smallest, largest) ← iter.setMetaData
  let builder ← iter.toList.foldlM addSlice builder
  let builder ← builder.finish
  if builder.status = .ok then
    let file_size := builder.fileSize
    if file_size = 0 then none
    else some (builder.file.sync.2.close.2, ⟨smallest, largest, file_size, number⟩)
  -- the destructor closes the file
  else some (builder.file.close.2, ⟨smallest, largest, 0, number⟩)

/-- `BuildTable` with what `NewWritableFile` sets `file` to, and the status it returns. Without a
file the first block is appended through a null pointer. -/
def buildTableEnv (frozenlists : Fin kMaxWriter → List SkipList) (opened : Option WritableFile)
    (number : ℕ) : Option (Status × WritableFile × FileMetaData) := do
  let file ← opened
  let (file, metadata) ← buildTable frozenlists file number
  some (.ok, file, metadata)

/-- The contents of the file that `BuildTable` leaves. -/
def tableOf (frozenlists : Fin kMaxWriter → List SkipList) (file : WritableFile) (number : ℕ) :
    Option Bytes :=
  (buildTable frozenlists file number).map (·.1.fd)

end Yangkv
