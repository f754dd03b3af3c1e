import Mathlib.Data.Finset.Sort
import Mathlib.Data.Prod.Lex
import Yangkv.Spec.Version

/-!
# Version edits and their byte format (`main/versionedit.h`, `main/versionedit.cpp`)

`FullVersionEdit` is a `VersionEdit` with all its fields. `DecodeFrom` fills one
`FileMetaData` for all the files it reads, and every element of `new_files_` points to
it; what they show is what it holds in the end.
-/

namespace Yangkv

open Lib

inductive Tag
  | kComparator
  | kLogNumber
  | kNextFileNumber
  | kLastSequence
  | kCompactPointer
  | kDeletedFile
  | kNewFile
  | kPrevLogNumber
  deriving DecidableEq, Repr

/-- The number of a tag; 8 is not in use. -/
def Tag.code : Tag → ℕ
  | kComparator => 1
  | kLogNumber => 2
  | kNextFileNumber => 3
  | kLastSequence => 4
  | kCompactPointer => 5
  | kDeletedFile => 6
  | kNewFile => 7
  | kPrevLogNumber => 9

/-- `VersionEdit`, over what it holds for a file. A set of pairs is ordered by the first ones,
then by the second ones. -/
@[ext]
structure FullVersionEdit (F : Type) where
  log_number_ : Fin kMaxWriter → ℕ
  prev_log_number_ : ℕ
  next_file_number_ : ℕ
  last_sequence_ : ℕ
  has_comparator_ : Bool
  has_log_number_ : Bool
  has_prev_log_number_ : Bool
  has_next_file_number_ : Bool
  has_last_sequence_ : Bool
  deleted_files_ : Finset (ℕ ×ₗ ℕ)
  new_files_ : List (ℕ × F)

namespace FullVersionEdit

variable {F G : Type}

/-- `Clear`, which leaves `prev_log_number_` as it is. -/
def clear (e : FullVersionEdit F) : FullVersionEdit G where
  log_number_ := fun _ => 0
  prev_log_number_ := e.prev_log_number_
  next_file_number_ := 0
  last_sequence_ := 0
  has_comparator_ := false
  has_log_number_ := false
  has_prev_log_number_ := false
  has_next_file_number_ := false
  has_last_sequence_ := false
  deleted_files_ := ∅
  new_files_ := []

/-- `SetLogNumber`; `writerid` is an index of `log_number_`. -/
def setLogNumber (e : FullVersionEdit F) (num : ℕ) (writerid : Fin kMaxWriter) : FullVersionEdit F :=
  { e with
    has_log_number_ := true
    log_number_ := Function.update e.log_number_ writerid num }

def setPrevLogNumber (e : FullVersionEdit F) (num : ℕ) : FullVersionEdit F :=
  { e with has_prev_log_number_ := true, prev_log_number_ := num }

def setNextFile (e : FullVersionEdit F) (num : ℕ) : FullVersionEdit F :=
  { e with has_next_file_number_ := true, next_file_number_ := num }

def setLastSequence (e : FullVersionEdit F) (seq : ℕ) : FullVersionEdit F :=
  { e with has_last_sequence_ := true, last_sequence_ := seq }

def deleteFile (e : FullVersionEdit F) (level file : ℕ) : FullVersionEdit F :=
  { e with deleted_files_ := insert (toLex (level, file)) e.deleted_files_ }

def addFile (e : FullVersionEdit FileMetaData) (level file file_size : ℕ)
    (smallest largest : Entry) : FullVersionEdit FileMetaData :=
  { e with new_files_ := e.new_files_ ++ [(level, ⟨smallest, largest, file_size, file⟩)] }

/-- The edit with this file behind every pointer. -/
def deref (e : FullVersionEdit Unit) (f : FileMetaData) : FullVersionEdit FileMetaData :=
  { e with new_files_ := e.new_files_.map fun it => (it.1, f) }

/-- What `apply` reads of it. -/
def toEdit (e : FullVersionEdit FileMetaData) : VersionEdit := ⟨e.new_files_⟩

/-- A call that builds an edit. -/
inductive Call
  | setPrevLogNumber (num : ℕ)
  | setNextFile (num : ℕ)
  | setLastSequence (seq : ℕ)
  | deleteFile (level file : ℕ)
  | addFile (level file file_size : ℕ) (smallest largest : Entry)

def call (e : FullVersionEdit FileMetaData) : Call → FullVersionEdit FileMetaData
  | .setPrevLogNumber num => e.setPrevLogNumber num
  | .setNextFile num => e.setNextFile num
  | .setLastSequence seq => e.setLastSequence seq
  | .deleteFile level file => e.deleteFile level file
  | .addFile level file file_size smallest largest => e.addFile level file file_size smallest largest

/-- The calls after `Clear`. -/
def build (e : FullVersionEdit F) (calls : List Call) : FullVersionEdit FileMetaData :=
  calls.foldl call e.clear

/-- Any call that sets something of an edit. -/
inductive Setter
  | setLogNumber (num : ℕ) (writerid : Fin kMaxWriter)
  | call (c : Call)

def set (e : FullVersionEdit FileMetaData) : Setter → FullVersionEdit FileMetaData
  | .setLogNumber num writerid => e.setLogNumber num writerid
  | .call c => e.call c

/-- Such calls after `Clear`. -/
def buildAll (e : FullVersionEdit F) (setters : List Setter) : FullVersionEdit FileMetaData :=
  setters.foldl set e.clear

end FullVersionEdit

/-! ## Encoding -/

def putVarint32 (dst : Bytes) (v : ℕ) : Bytes := dst ++ encodeVarint32 (.ofNat v)

def putVarint64 (dst : Bytes) (v : ℕ) : Bytes := dst ++ encodeVarint64 (.ofNat v)

def putLengthPrefixedSlice (dst value : Bytes) : Bytes := putVarint32 dst value.length ++ value

namespace FullVersionEdit

/-- A tag and a number, if it is there. -/
def putNumber (dst : Bytes) (tag : Tag) (has : Bool) (num : ℕ) : Bytes :=
  if has then putVarint64 (putVarint32 dst tag.code) num else dst

def putDeletedFile (dst : Bytes) (it : ℕ ×ₗ ℕ) : Bytes :=
  putVarint64 (putVarint32 (putVarint32 dst Tag.kDeletedFile.code) (ofLex it).1) (ofLex it).2

def putNewFile (dst : Bytes) (it : ℕ × FileMetaData) : Option Bytes := do
  let f := it.2
  let dst := putVarint32 (putVarint32 dst Tag.kNewFile.code) it.1
  let dst := putVarint64 (putVarint64 dst f.number) f.file_size
  let slice ← encodeMemEntry f.smallest
  let dst := putLengthPrefixedSlice dst slice
  let slice ← encodeMemEntry f.largest
  some (putLengthPrefixedSlice dst slice)

/-- `deleted_files_` in the order of the `std::set`. -/
def deletedFiles {F : Type} (e : FullVersionEdit F) : List (ℕ ×ₗ ℕ) := e.deleted_files_.sort (· ≤ ·)

/-- `EncodeTo`; no result when an assertion of `EncodeMemEntry` fails. -/
def encodeTo (e : FullVersionEdit FileMetaData) (dst : Bytes) : Option Bytes :=
  let dst := putNumber dst .kPrevLogNumber e.has_prev_log_number_ e.prev_log_number_
  let dst := putNumber dst .kNextFileNumber e.has_next_file_number_ e.next_file_number_
  let dst := putNumber dst .kLastSequence e.has_last_sequence_ e.last_sequence_
  let dst := e.deletedFiles.foldl putDeletedFile dst
  e.new_files_.foldlM putNewFile dst

end FullVersionEdit

/-! ## Decoding -/

/-- `GetLengthPrefixedSlice` of a slice: the slice it sets, and what is left of the input. -/
def getLengthPrefixedSlice (input : Bytes) : Option (Bytes × Bytes) := do
  let (len, input) ← getVarint32Ptr input
  if len.toNat ≤ input.length then some (input.take len.toNat, input.drop len.toNat) else none

/-- `DecodeMemEntry` of a slice that starts at `ptr` in `mem`; it does not look at its size. -/
def decodeMemEntryAt (mem : Bytes) (ptr : ℕ) : Option (MemEntry View) := do
  let (klength, key_ptr) ← getVarint32At mem ptr
  let key : View := ⟨key_ptr, (klength - 9).toNat⟩
  let info ← decodeFixed64Before mem (key_ptr + klength.toNat)
  let (vlength, vptr) ← getVarint32At mem (key_ptr + klength.toNat)
  some ⟨key, ⟨vptr, (vlength - 1).toNat⟩, info >>> 8, info &&& 255 ≠ 0⟩

/-- `GetMemEntry`, where `input` is what is left of `src`: whether it returns true, the entry and
the new input. No result at all is a read outside `src`. -/
def getMemEntry (src input : Bytes) : Option (Option (Entry × Bytes)) :=
  match getLengthPrefixedSlice input with
  | none => some none
  | some (str, input) =>
    (decodeMemEntryAt src (src.length - (str.length + input.length))).map fun entry =>
      some (entry.read src, input)

def getLevel (input : Bytes) : Option (ℕ × Bytes) := do
  let (v, input) ← getVarint32Ptr input
  if v.toNat < kMaxLevel then some (v.toNat, input) else none

namespace FullVersionEdit

/-- The locals of `DecodeFrom`, and the edit it fills. -/
structure Decoder where
  edit : FullVersionEdit Unit
  f : FileMetaData
  input : Bytes
  msg : Option String

namespace Decoder

/-- The body of a `case` for a number. -/
def getNumber (d : Decoder) (set : FullVersionEdit Unit → ℕ → FullVersionEdit Unit) (msg : String) :
    Decoder :=
  match getVarint64Ptr d.input with
  | some (num, input) => { d with edit := set d.edit num.toNat, input := input }
  | none => { d with msg := some msg }

def getDeletedFile (d : Decoder) : Decoder :=
  match (do
    let (level, input) ← getLevel d.input
    let (number, input) ← getVarint64Ptr input
    some (level, number, input)) with
  | some (level, number, input) =>
    { d with edit := d.edit.deleteFile level number.toNat, input := input }
  | none => { d with msg := some "deleted file" }

/-- The conditions of the `case` for a new file, which set `f` as far as they hold: the level and
the new input if all of them do. -/
def getNewFile (src : Bytes) (f : FileMetaData) (input : Bytes) :
    Option (FileMetaData × Option (ℕ × Bytes)) :=
  match getLevel input with
  | none => some (f, none)
  | some (level, input) =>
    match getVarint64Ptr input with
    | none => some (f, none)
    | some (number, input) =>
      let f := { f with number := number.toNat }
      match getVarint64Ptr input with
      | none => some (f, none)
      | some (file_size, input) =>
        let f := { f with file_size := file_size.toNat }
        (getMemEntry src input).bind fun
          | none => some (f, none)
          | some (smallest, input) =>
            let f := { f with smallest := smallest }
            (getMemEntry src input).map fun
              | none => (f, none)
              | some (largest, input) => ({ f with largest := largest }, some (level, input))

/-- The `switch`. -/
def record (src : Bytes) (d : Decoder) (tag : ℕ) : Option Decoder :=
  if tag = Tag.kPrevLogNumber.code then some (d.getNumber setPrevLogNumber "previous log number")
  else if tag = Tag.kNextFileNumber.code then some (d.getNumber setNextFile "next file number")
  else if tag = Tag.kLastSequence.code then some (d.getNumber setLastSequence "last sequence number")
  else if tag = Tag.kDeletedFile.code then some d.getDeletedFile
  else if tag = Tag.kNewFile.code then
    (getNewFile src d.f d.input).map fun
      | (f, some (level, input)) =>
        { d with
          edit := { d.edit with new_files_ := d.edit.new_files_ ++ [(level, ())] }
          f := f
          input := input }
      | (f, none) => { d with f := f, msg := some "new-file entry" }
  else some { d with msg := some "unknown tag" }

/-- The loop, with a unit of fuel for each turn. -/
def loop (src : Bytes) : ℕ → Decoder → Option Decoder
  | 0, _ => none
  | fuel + 1, d =>
    if d.msg.isSome then some d
    else
      match getVarint32Ptr d.input with
      | none => some d
      | some (tag, input) => ({ d with input := input }.record src tag.toNat).bind (loop src fuel)

end Decoder

/-- `DecodeFrom`: the status, and the edit as it is read afterwards. `fresh` is what
`new FileMetaData()` holds. A turn of the loop takes a byte of `src` at least. No result is a
read outside `src`. -/
def decodeFrom {F : Type} (e : FullVersionEdit F) (fresh : FileMetaData) (src : Bytes) :
    Option (Status × FullVersionEdit FileMetaData) := do
  let d ← Decoder.loop src (src.length + 1) ⟨e.clear, fresh, src, none⟩
  let msg := if d.msg.isNone && !d.input.isEmpty then some "invalid tag" else d.msg
  some (if msg.isSome then .corruption else .ok, d.edit.deref d.f)

end FullVersionEdit

end Yangkv
