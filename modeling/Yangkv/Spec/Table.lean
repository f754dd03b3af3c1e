import Yangkv.Spec.Block
import Yangkv.Spec.Env

/-!
# Table files (`table/format.cpp`, `table/table_builder.cpp`)

`readTable` reads a table file with `ReadBlock` as its format describes it: the footer,
the index block, and the data blocks of the handles in it. `tableBlocks` is what a file
of this format holds, whether one `::pread` reaches it or not.
-/

namespace Yangkv

open Lib

/-- The types a block can be stored with, as their `char`. -/
inductive CompressionType
  | kNoCompression
  | kSnappyCompression
  deriving DecidableEq, Repr

def CompressionType.toByte : CompressionType → UInt8
  | kNoCompression => 0
  | kSnappyCompression => 1

/-- What the table code reads of `Options`. -/
structure Options where
  block_size : ℕ
  block_restart_interval : ℕ
  compression : CompressionType
  deriving DecidableEq, Repr

/-- `Options()`. -/
def Options.default : Options := ⟨4096, 16, .kNoCompression⟩

/-! ## Handles and footers -/

structure BlockHandle where
  offset_ : ℕ
  size_ : ℕ
  deriving DecidableEq, Repr

namespace BlockHandle

def kMaxEncodedLength : ℕ := 10 + 10

/-- A handle of which no field is set. -/
def unset : BlockHandle := ⟨2 ^ 64 - 1, 2 ^ 64 - 1⟩

/-- `EncodeTo`, under its assertions: the bytes it appends. -/
def encodeTo (h : BlockHandle) : Option Bytes :=
  if h.offset_ = 2 ^ 64 - 1 ∨ h.size_ = 2 ^ 64 - 1 then none
  else some (encodeVarint64 (.ofNat h.offset_) ++ encodeVarint64 (.ofNat h.size_))

/-- `DecodeFrom`, with what is left of the input; no result is an error. -/
def decodeFrom (input : Bytes) : Option (BlockHandle × Bytes) := do
  let (offset, input) ← getVarint64Ptr input
  let (size, input) ← getVarint64Ptr input
  some (⟨offset.toNat, size.toNat⟩, input)

end BlockHandle

structure Footer where
  metaindex_handle_ : BlockHandle
  index_handle_ : BlockHandle
  deriving DecidableEq, Repr

namespace Footer

def kEncodedLength : ℕ := 2 * BlockHandle.kMaxEncodedLength + 8

/-- `EncodeTo` of an empty string, under its assertion. -/
def encodeTo (f : Footer) : Option Bytes := do
  let metaindex ← f.metaindex_handle_.encodeTo
  let index ← f.index_handle_.encodeTo
  let dst := (metaindex ++ index).rightpad (2 * BlockHandle.kMaxEncodedLength) 0
  let dst := dst.take (2 * BlockHandle.kMaxEncodedLength)
  let dst := dst ++ encodeFixed32 (kTableMagicNumber % 2 ^ 32) ++
    encodeFixed32 (kTableMagicNumber / 2 ^ 32)
  if dst.length = kEncodedLength then some dst else none

/-- `DecodeFrom`; no result is an error, or a read behind the input. -/
def decodeFrom (input : Bytes) : Option Footer := do
  let magic_lo ← decodeFixed32 (input.drop (kEncodedLength - 8))
  let magic_hi ← decodeFixed32 (input.drop (kEncodedLength - 4))
  if magic_hi * 2 ^ 32 + magic_lo ≠ kTableMagicNumber then none
  else
    let (metaindex, input) ← BlockHandle.decodeFrom input
    let (index, _) ← BlockHandle.decodeFrom input
    some ⟨metaindex, index⟩

/-- `DecodeFrom`, with what is left of the input: it ends with the magic number, whatever the
handles leave before it. -/
def decodeFromInput (input : Bytes) : Option (Footer × Bytes) :=
  (decodeFrom input).map fun footer => (footer, input.drop kEncodedLength)

end Footer

/-- The block that a file holds at a handle, with the type of an uncompressed one behind it. -/
def blockAt (file : Bytes) (handle : BlockHandle) : Option Bytes :=
  let stored := file.drop handle.offset_
  if handle.size_ + kBlockTrailerSize ≤ stored.length ∧
      stored[handle.size_]? = some CompressionType.kNoCompression.toByte then
    some (stored.take handle.size_)
  else none

/-- `ReadBlock` of a file with the given contents; no result is an error. -/
def readBlock (file : Bytes) (handle : BlockHandle) : Option Bytes :=
  let n := handle.size_
  let (s, read_size, buf) := readAt file handle.offset_ (n + kBlockTrailerSize) []
  if s ≠ .ok then none
  else if read_size ≠ n + kBlockTrailerSize then none
  else if buf[n]? = some CompressionType.kNoCompression.toByte then some (buf.take n)
  else none

/-- How `ReadBlock` ends: with an error, with the data of the block, or with an index that is not in
its buffer. -/
inductive BlockRead
  | error
  | ok (data : Bytes)
  | outside
  deriving DecidableEq, Repr

/-- `ReadBlock` of any handle, with its sums as a `size_t`; `alloc` says of which sizes a buffer can be
allocated. -/
def readBlock64 (alloc : ℕ → Bool) (file : Bytes) (handle : BlockHandle) : BlockRead :=
  let n : UInt64 := .ofNat handle.size_
  let size := n + .ofNat kBlockTrailerSize
  if alloc size.toNat = false then .error
  else
    let (s, read_size, buf) := readAt file handle.offset_ size.toNat []
    if s ≠ .ok then .error
    else if read_size ≠ size.toNat then .error
    else match buf[n.toNat]? with
      | none => .outside
      | some type =>
        if type = CompressionType.kNoCompression.toByte then .ok (buf.take n.toNat) else .error

/-! ## Building a table -/

/-- `TableBuilder::Rep`. -/
structure TableBuilder where
  options : Options
  file : WritableFile
  offset : ℕ
  status : Status
  data_block : BlockBuilder
  index_block : BlockBuilder
  last_key : Bytes
  num_entries : ℕ
  closed : Bool
  pending_index_entry : Bool
  pending_handle : BlockHandle
  deriving DecidableEq, Repr

namespace TableBuilder

/-- The constructor; the index block has a restart at every entry. -/
def new (options : Options) (file : WritableFile) : Option TableBuilder := do
  let data_block ← BlockBuilder.new options.block_restart_interval
  let index_block ← BlockBuilder.new options.block_restart_interval
  some
    { options := options
      file := file
      offset := 0
      status := .ok
      data_block := data_block
      index_block := { index_block with block_restart_interval := 1 }
      last_key := []
      num_entries := 0
      closed := false
      pending_index_entry := false
      pending_handle := .unset }

/-- `WriteRawBlock`, with the handle it sets. -/
def writeRawBlock (r : TableBuilder) (block_contents : Bytes) (type : CompressionType) :
    TableBuilder × BlockHandle :=
  let handle : BlockHandle := ⟨r.offset, block_contents.length⟩
  let (s, file) := r.file.append block_contents
  let r := { r with file := file, status := s }
  if s = .ok then
    let (s, file) := r.file.append (type.toByte :: encodeFixed32 0)
    let r := { r with file := file, status := s }
    if s = .ok then
      ({ r with offset := r.offset + block_contents.length + kBlockTrailerSize }, handle)
    else (r, handle)
  else (r, handle)

/-- `WriteBlock`, with the block after its `Reset` and the handle it sets. -/
def writeBlock (r : TableBuilder) (block : BlockBuilder) :
    Option (TableBuilder × BlockBuilder × BlockHandle) :=
  if r.status ≠ .ok then none
  else
    let block := block.finish
    let (r, handle) := r.writeRawBlock block.buffer_ r.options.compression
    some (r, block.reset, handle)

/-- `Flush`, under its assertions. -/
def flush (r : TableBuilder) : Option TableBuilder :=
  if r.closed then none
  else if r.status ≠ .ok then some r
  else if r.data_block.empty then some r
  else if r.pending_index_entry then none
  else do
    let (r, data_block, pending_handle) ← r.writeBlock r.data_block
    let r := { r with data_block := data_block, pending_handle := pending_handle }
    if r.status = .ok then
      let (s, file) := r.file.flush
      some { r with pending_index_entry := true, file := file, status := s }
    else some r

/-- The index entry of the last block, with the key `last_key`. -/
def addIndexEntry (r : TableBuilder) (last_key : Bytes) : Option TableBuilder := do
  let handle_encoding ← r.pending_handle.encodeTo
  let index_block ← r.index_block.add last_key handle_encoding
  some { r with last_key := last_key, index_block := index_block, pending_index_entry := false }

/-- `Add`, under its assertions. -/
def add (r : TableBuilder) (key value : Bytes) : Option TableBuilder :=
  if r.closed then none
  else if r.status ≠ .ok then some r
  else if 0 < r.num_entries ∧ sliceCompare key r.last_key ≠ .gt then none
  else do
    let r ←
      (if r.pending_index_entry then
        if r.data_block.empty then r.addIndexEntry (findShortestSeparator r.last_key key) else none
      else some r)
    let data_block ← r.data_block.add key value
    let r := { r with
      last_key := key
      num_entries := r.num_entries + 1
      data_block := data_block }
    if r.options.block_size ≤ r.data_block.currentSizeEstimate then r.flush else some r

/-- `Finish`, under its assertions. -/
def finish (r : TableBuilder) : Option TableBuilder := do
  let r ← r.flush
  if r.closed then none
  let r := { r with closed := true }
  -- the metaindex block
  if r.status ≠ .ok then some r
  else
    let meta_index_block ← BlockBuilder.new r.options.block_restart_interval
    let (r, _, metaindex_block_handle) ← r.writeBlock meta_index_block
    -- the index block
    if r.status ≠ .ok then some r
    else
      let r ←
        (if r.pending_index_entry then r.addIndexEntry (findShortSuccessor r.last_key) else some r)
      let (r, index_block, index_block_handle) ← r.writeBlock r.index_block
      let r := { r with index_block := index_block }
      -- the footer
      if r.status ≠ .ok then some r
      else
        let footer_encoding ← Footer.encodeTo ⟨metaindex_block_handle, index_block_handle⟩
        let (s, file) := r.file.append footer_encoding
        let r := { r with file := file, status := s }
        if r.status = .ok then some { r with offset := r.offset + footer_encoding.length }
        else some r

/-- `FileSize`. -/
def fileSize (r : TableBuilder) : ℕ := r.offset

/-- The sizes the builder keeps are below 2^32. -/
structure Fits (r : TableBuilder) : Prop where
  file : r.fileSize < 2 ^ 32
  data : r.data_block.currentSizeEstimate < 2 ^ 32
  index : r.index_block.currentSizeEstimate < 2 ^ 32

/-- The calls a client makes between the constructor and `Finish`. -/
inductive Call
  | add (key value : Bytes)
  | flush
  deriving DecidableEq, Repr

def call (r : TableBuilder) : Call → Option TableBuilder
  | .add key value => r.add key value
  | .flush => r.flush

/-- What a call adds. -/
def Call.entry : Call → Option (Bytes × Bytes)
  | .add key value => some (key, value)
  | .flush => none

/-- What the calls add, in order. -/
def addsOf (calls : List Call) : List (Bytes × Bytes) := calls.filterMap Call.entry

/-- The constructor and these calls. -/
def run (options : Options) (file : WritableFile) (calls : List Call) : Option TableBuilder := do
  let r ← new options file
  calls.foldlM call r

/-- The constructor, these calls and `Finish`. -/
def build (options : Options) (file : WritableFile) (calls : List Call) : Option TableBuilder := do
  let r ← run options file calls
  r.finish

end TableBuilder

/-! ## Reading a table -/

/-- The blocks of a table file, each with the separator of its index entry, where `read` gives the
block of a handle. -/
def readTableWith (read : BlockHandle → Option Bytes) (file : Bytes) :
    Option (List (Bytes × List (Bytes × Bytes))) := do
  let footer ← Footer.decodeFrom (file.drop (file.length - Footer.kEncodedLength))
  let index ← read footer.index_handle_
  let index_entries ← (Block.new index).entries
  index_entries.mapM fun entry => do
    let (handle, _) ← BlockHandle.decodeFrom entry.2
    let contents ← read handle
    let entries ← (Block.new contents).entries
    some (entry.1, entries)

/-- What `ReadBlock` gives of the blocks of a table file. -/
def readTable (file : Bytes) : Option (List (Bytes × List (Bytes × Bytes))) :=
  readTableWith (readBlock file) file

/-- The blocks that a table file holds. -/
def tableBlocks (file : Bytes) : Option (List (Bytes × List (Bytes × Bytes))) :=
  readTableWith (blockAt file) file

end Yangkv
