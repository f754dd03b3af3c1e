import Yangkv.Lib.Machine
import Yangkv.Spec.Builder
import Yangkv.Spec.Store

/-!
# The compacter (`memory/compacter.h`, `memory/compacter.cpp`, `utils/filename.h`)
-/

namespace Yangkv

open Lib

/-- `TableFileName`. -/
def tableFileName (file_number : ℕ) : String := "yang_sst_" ++ toString file_number

/-- `Compacter`; its constructor leaves `file_seq_num_` as it is. -/
structure Compacter where
  file_seq_num_ : ℕ

namespace Compacter

/-- `compact` of the current version into the new file `file`, with its edit. -/
def compact (c : Compacter) (current_ : Version SkipList) (file : WritableFile)
    (edit : VersionEdit) : Option (Compacter × WritableFile × VersionEdit) := do
  -- a `uint32_t`
  let number := (c.file_seq_num_ + 1) % 2 ^ 32
  let (file, metadata) ← buildTable current_.list_ file number
  some (⟨number⟩, file,
    edit.addFile 0 metadata.number metadata.file_size metadata.smallest metadata.largest)

/-- A turn of the loop of `workRound` where the current version is full: the version that
`AppendVersion` makes the current one. -/
def round (c : Compacter) (current_ : Version SkipList) (file : WritableFile) :
    Option (Compacter × WritableFile × Version SkipList) := do
  let (c, file, edit) ← c.compact current_ file ⟨[]⟩
  some (c, file, Version.new.apply current_ edit)

/-- `compact` with what `NewWritableFile` gives, and its status. -/
def compactEnv (c : Compacter) (current_ : Version SkipList) (opened : Option WritableFile)
    (edit : VersionEdit) : Option (Status × Compacter × WritableFile × VersionEdit) := do
  let number := (c.file_seq_num_ + 1) % 2 ^ 32
  let (s, file, metadata) ← buildTableEnv current_.list_ opened number
  some (s, ⟨number⟩, file,
    edit.addFile 0 metadata.number metadata.file_size metadata.smallest metadata.largest)

/-- The same turn of the loop of `workRound`, which does not look at the status. -/
def roundEnv (c : Compacter) (current_ : Version SkipList) (opened : Option WritableFile) :
    Option (Compacter × WritableFile × Version SkipList) := do
  let (_, c, file, edit) ← c.compactEnv current_ opened ⟨[]⟩
  some (c, file, Version.new.apply current_ edit)

end Compacter

/-- The store after a turn of `workRound`, with no other thread in between. -/
def Store.compactRound (s : Store) (c : Compacter) (file : WritableFile) :
    Option (Compacter × WritableFile × Store) :=
  if s.current_.isFull then
    (c.round s.current_ file).map fun r => (r.1, r.2.1, { s with current_ := r.2.2 })
  else some (c, file, s)

/-! ## Starts and compactions -/

namespace Compacter

/-- The compacter of a start of the store, and the current version. -/
structure Process where
  compacter_ : Compacter
  current_ : Version SkipList

inductive Label
  /-- a start of the store, with what its `file_seq_num_` happens to hold -/
  | start (file_seq_num_ : UInt32)
  /-- `AppendFrozenList` -/
  | append (list : SkipList) (idx : Fin kMaxWriter)
  /-- a round of `workRound`, with what `NewWritableFile` gives -/
  | compact (opened : Option WritableFile)

inductive Event
  | started (file_seq_num_ : UInt32)
  /-- `compact` has passed the name to `NewWritableFile`, which has opened the file or not -/
  | opened (fname : String) (created : Bool)
  deriving DecidableEq

/-- A process that has crashed, as in a round without a file, takes no step until the next start. -/
def step (s : Option Process) : Label → Option (Option Process)
  | .start file_seq_num_ => some (some ⟨⟨file_seq_num_.toNat⟩, Version.new⟩)
  | .append list idx => s.map fun p => some { p with current_ := p.current_.appendList list idx }
  | .compact opened => s.bind fun p =>
    if p.current_.isFull then
      some ((p.compacter_.roundEnv p.current_ opened).map fun r => ⟨r.1, r.2.2⟩)
    else none

def event (s : Option Process) : Label → Option Event
  | .start file_seq_num_ => some (.started file_seq_num_)
  | .append _ _ => none
  | .compact opened => s.map fun p =>
    .opened (tableFileName ((p.compacter_.file_seq_num_ + 1) % 2 ^ 32)) opened.isSome

/-- The starts of the store in one directory, one after the other. -/
def machine : Machine (Option Process) Label Event := ⟨step, event⟩

end Compacter

end Yangkv
