import Yangkv.Spec.DbFormat
import Yangkv.Spec.Env

/-!
# The write-ahead log (`utils/logwriter.cpp`, `utils/logreader.cpp`)
-/

namespace Yangkv

open Lib

/-- `log::Writer::AddRecord`; no result when `AppendSize` has none or an assertion fails. -/
def addRecord (dest : WritableFile) (entry : Entry) : Option WritableFile := do
  let slice ← encodeMemEntry entry
  let dest ← dest.appendSize slice.length
  let (s, dest) := dest.append slice
  if s ≠ .ok then none
  let (s, dest) := dest.flush
  if s ≠ .ok then none
  some dest

/-- `log::Reader`. All records are read into the one `buf_`; bytes a read stores past its
`kMaxRecordSize` bytes are kept behind it. -/
structure Reader where
  dest : Bytes
  offset : ℕ
  buf : Bytes
  size : ℕ
  deriving DecidableEq, Repr

namespace Reader

/-- A reader at the start of `dest`; `scratch` is what the new `buf_` happens to hold. -/
def new (dest scratch : Bytes) : Reader := ⟨dest, 0, scratch, dest.length⟩

/-- `Reader::end`, in `size_t` arithmetic. -/
def atEnd (r : Reader) : Bool := decide (r.size ≤ (r.offset + 4) % 2 ^ 64)

/-- `ReadRecord`: the entry, as views into `buf_`. -/
def readRecord (r : Reader) : Option (MemEntry View × Reader) := do
  let (record_size, buf) := readSize r.dest r.offset r.buf
  let (_, _, buf) := readAt r.dest ((r.offset + 8) % 2 ^ 64) record_size buf
  let entry ← decodeMemEntry buf
  some (entry, { r with offset := (r.offset + (8 + record_size)) % 2 ^ 64, buf := buf })

end Reader

end Yangkv
