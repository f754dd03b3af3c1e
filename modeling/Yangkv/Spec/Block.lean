import Yangkv.Spec.DbFormat

/-!
# Blocks (`utils/comparator.h`, `table/block_builder.cpp`, `table/block.cpp`)

A block is a list of entries with prefix-compressed keys, behind them the offsets of
the entries with a full key, and their number. `Block.entries` reads the format that
`BlockBuilder::Add` describes; the source has no iterator over a block.
-/

namespace Yangkv

open Lib

/-! ## The comparator -/

/-- `memcmp` of two byte strings of the same length. -/
def memcmp : Bytes → Bytes → Ordering
  | a :: as, b :: bs => if a < b then .lt else if b < a then .gt else memcmp as bs
  | _, _ => .eq

/-- `Slice::compare`, and `Comparator::Compare`. -/
def sliceCompare (a b : Bytes) : Ordering :=
  let min_len := if a.length < b.length then a.length else b.length
  match memcmp (a.take min_len) (b.take min_len) with
  | .eq => if a.length < b.length then .lt else if b.length < a.length then .gt else .eq
  | r => r

/-- The loop over the common prefix of two strings, in `FindShortestSeparator` and in `Add`. -/
def sharedLength : Bytes → Bytes → ℕ
  | a :: as, b :: bs => if a = b then sharedLength as bs + 1 else 0
  | _, _ => 0

/-- `FindShortestSeparator`: what it leaves in `start`. -/
def findShortestSeparator (start limit : Bytes) : Bytes :=
  let diff_index := sharedLength start limit
  match start[diff_index]?, limit[diff_index]? with
  | some diff_byte, some limit_byte =>
    if diff_byte < 0xff ∧ diff_byte.toNat + 1 < limit_byte.toNat then
      start.take diff_index ++ [diff_byte + 1]
    else start
  -- one string is a prefix of the other
  | _, _ => start

/-- `FindShortSuccessor`: what it leaves in `key`. -/
def findShortSuccessor : Bytes → Bytes
  | [] => []
  | byte :: key => if byte ≠ 0xff then [byte + 1] else byte :: findShortSuccessor key

/-! ## Building a block -/

/-- `BlockBuilder`, with what it reads of `*options_`. -/
structure BlockBuilder where
  block_restart_interval : ℕ
  buffer_ : Bytes
  restarts_ : List ℕ
  counter_ : ℕ
  finished_ : Bool
  last_key_ : Bytes
  deriving DecidableEq, Repr

namespace BlockBuilder

/-- The constructor, under its assertion. -/
def new (block_restart_interval : ℕ) : Option BlockBuilder :=
  if 1 ≤ block_restart_interval then some ⟨block_restart_interval, [], [0], 0, false, []⟩ else none

def reset (b : BlockBuilder) : BlockBuilder :=
  { b with buffer_ := [], restarts_ := [0], counter_ := 0, finished_ := false, last_key_ := [] }

def currentSizeEstimate (b : BlockBuilder) : ℕ :=
  b.buffer_.length + b.restarts_.length * 4 + 4

def empty (b : BlockBuilder) : Bool := b.buffer_.isEmpty

/-- `Finish`; the slice it returns is the new `buffer_`. -/
def finish (b : BlockBuilder) : BlockBuilder :=
  { b with
    buffer_ := b.buffer_ ++ b.restarts_.flatMap encodeFixed32 ++ encodeFixed32 b.restarts_.length
    finished_ := true }

/-- `Add`, under its assertions. -/
def add (b : BlockBuilder) (key value : Bytes) : Option BlockBuilder :=
  if b.finished_ then none
  else if b.block_restart_interval < b.counter_ then none
  else if ¬ (b.buffer_.isEmpty ∨ sliceCompare key b.last_key_ = .gt) then none
  else
    let restart := ¬ b.counter_ < b.block_restart_interval
    let shared := if restart then 0 else sharedLength b.last_key_ key
    let non_shared := key.length - shared
    let buffer_ := b.buffer_ ++ encodeVarint32 (.ofNat shared) ++ encodeVarint32 (.ofNat non_shared) ++
      encodeVarint32 (.ofNat value.length) ++ (key.drop shared).take non_shared ++ value
    let last_key_ := b.last_key_.take shared ++ (key.drop shared).take non_shared
    if last_key_ ≠ key then none
    else some { b with
      buffer_ := buffer_
      -- an offset is kept as a `uint32_t`
      restarts_ := if restart then b.restarts_ ++ [b.buffer_.length % 2 ^ 32] else b.restarts_
      counter_ := (if restart then 0 else b.counter_) + 1
      last_key_ := last_key_ }

end BlockBuilder

/-! ## Reading a block -/

structure Block where
  data_ : Bytes
  size_ : ℕ
  restart_offset_ : ℕ
  deriving DecidableEq, Repr

namespace Block

/-- The constructor; a block that is too small for its restarts has size 0. -/
def new (contents : Bytes) : Block :=
  match decodeFixed32 (contents.drop (contents.length - 4)) with
  | none => ⟨contents, 0, 0⟩
  | some numRestarts =>
    if (contents.length - 4) / 4 < numRestarts then ⟨contents, 0, 0⟩
    else ⟨contents, contents.length, contents.length - (1 + numRestarts) * 4⟩

/-- The entry at `p`, behind an entry with key `last_key`, and what is behind it. -/
def decodeEntry (last_key p : Bytes) : Option ((Bytes × Bytes) × Bytes) := do
  let (shared, p) ← getVarint32Ptr p
  let (non_shared, p) ← getVarint32Ptr p
  let (value_size, p) ← getVarint32Ptr p
  if last_key.length < shared.toNat ∨ p.length < non_shared.toNat + value_size.toNat then none
  else
    let p' := p.drop non_shared.toNat
    some ((last_key.take shared.toNat ++ p.take non_shared.toNat, p'.take value_size.toNat),
      p'.drop value_size.toNat)

/-- The entries from `p` on; every entry takes a unit of fuel. -/
def decodeEntries (last_key p : Bytes) : ℕ → Option (List (Bytes × Bytes))
  | 0 => if p.isEmpty then some [] else none
  | fuel + 1 =>
    if p.isEmpty then some []
    else do
      let (entry, p) ← decodeEntry last_key p
      let entries ← decodeEntries entry.1 p fuel
      some (entry :: entries)

/-- The keys and values in the block. -/
def entries (b : Block) : Option (List (Bytes × Bytes)) :=
  if b.size_ = 0 then none
  else decodeEntries [] (b.data_.take b.restart_offset_) b.restart_offset_

end Block

end Yangkv
