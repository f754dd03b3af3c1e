import Mathlib.Data.Int.Basic
import Yangkv.Lib.Slices
import Yangkv.Spec.DbFormat

/-!
# Filter blocks (`table/filter_block.h`, `table/filter_block.cpp`)

A `FilterPolicy` is given by its two methods; the repository has none. A failed assertion,
a read outside the block and a shift by 64 and more give no result.
-/

namespace Yangkv

open Lib

structure FilterPolicy where
  /-- of the first `n` keys of an array, into `dst` -/
  createFilter : (keys : List Bytes) → (n : ℤ) → (dst : Bytes) → Bytes
  keyMayMatch : (key filter : Bytes) → Bool

def kFilterBaseLg : ℕ := 11

def kFilterBase : ℕ := 1 <<< kFilterBaseLg

structure FilterBlockBuilder where
  policy_ : FilterPolicy
  keys_ : Bytes
  start_ : List ℕ
  result_ : Bytes
  filter_offsets_ : List ℕ

namespace FilterBlockBuilder

def new (policy : FilterPolicy) : FilterBlockBuilder := ⟨policy, [], [], [], []⟩

/-- `GenerateFilter`; the offset is cut to 32 bits, and the number of keys is cast to `int`. -/
def generateFilter (b : FilterBlockBuilder) : FilterBlockBuilder :=
  let num_keys := b.start_.length
  if num_keys = 0 then
    { b with filter_offsets_ := b.filter_offsets_ ++ [b.result_.length % 2 ^ 32] }
  else
    let tmp_keys_ := slices b.keys_ (b.start_ ++ [b.keys_.length])
    { b with
      keys_ := []
      start_ := []
      result_ := b.policy_.createFilter tmp_keys_ (Int.bmod num_keys (2 ^ 32)) b.result_
      filter_offsets_ := b.filter_offsets_ ++ [b.result_.length % 2 ^ 32] }

@[simp] theorem length_generateFilter (b : FilterBlockBuilder) :
    b.generateFilter.filter_offsets_.length = b.filter_offsets_.length + 1 := by
  unfold generateFilter
  dsimp only
  split
  · simp
  · simp

/-- The loop of `StartBlock`. -/
def generateFilters (filter_index : ℕ) (b : FilterBlockBuilder) : FilterBlockBuilder :=
  if b.filter_offsets_.length < filter_index then generateFilters filter_index b.generateFilter
  else b
termination_by filter_index - b.filter_offsets_.length
decreasing_by
  rw [length_generateFilter]
  omega

/-- `StartBlock`, under its assertion. -/
def startBlock (b : FilterBlockBuilder) (block_offset : ℕ) : Option FilterBlockBuilder :=
  let filter_index := block_offset / kFilterBase
  if b.filter_offsets_.length ≤ filter_index then some (generateFilters filter_index b) else none

def addKey (b : FilterBlockBuilder) (key : Bytes) : FilterBlockBuilder :=
  { b with start_ := b.start_ ++ [b.keys_.length], keys_ := b.keys_ ++ key }

/-- `Finish`. -/
def finish (b : FilterBlockBuilder) : Bytes :=
  let b := if b.start_.isEmpty then b else b.generateFilter
  let array_offset := b.result_.length % 2 ^ 32
  let result_ := b.filter_offsets_.foldl (fun result_ o => result_ ++ encodeFixed32 o) b.result_
  result_ ++ encodeFixed32 array_offset ++ [UInt8.ofNat kFilterBaseLg]

/-- The calls before `Finish`: `StartBlock` of each offset and `AddKey` of the keys that come with
it. -/
def build (policy : FilterPolicy) (blocks : List (ℕ × List Bytes)) : Option FilterBlockBuilder :=
  blocks.foldlM (fun b it => (b.startBlock it.1).map fun b => it.2.foldl addKey b) (new policy)

end FilterBlockBuilder

/-- The positions are those in `data_`. -/
structure FilterBlockReader where
  policy_ : FilterPolicy
  data_ : Bytes
  offset_ : ℕ
  num_ : ℕ
  base_lg_ : ℕ

namespace FilterBlockReader

/-- A `char` as a `size_t`, with its sign. -/
def charToSize (c : UInt8) : ℕ := if c < 128 then c.toNat else 2 ^ 64 - 256 + c.toNat

def new (policy : FilterPolicy) (contents : Bytes) : Option FilterBlockReader :=
  let r : FilterBlockReader := ⟨policy, [], 0, 0, 0⟩
  let n := contents.length
  if n < 5 then some r
  else do
    let r := { r with base_lg_ := charToSize (← contents[n - 1]?) }
    let last_word ← decodeFixed32 (contents.drop (n - 5))
    if n - 5 < last_word then some r
    else some { r with data_ := contents, offset_ := last_word, num_ := (n - 5 - last_word) / 4 }

def keyMayMatch (r : FilterBlockReader) (block_offset : ℕ) (key : Bytes) : Option Bool :=
  if 64 ≤ r.base_lg_ then none
  else
    let index := block_offset >>> r.base_lg_
    if index < r.num_ then do
      let start ← decodeFixed32 (r.data_.drop (r.offset_ + index * 4))
      let limit ← decodeFixed32 (r.data_.drop (r.offset_ + index * 4 + 4))
      if start ≤ limit ∧ limit ≤ r.offset_ then
        some (r.policy_.keyMayMatch key ((r.data_.drop start).take (limit - start)))
      else if start = limit then some false
      else some true
    else some true

end FilterBlockReader

end Yangkv
