import Yangkv.Lib.Varint
import Yangkv.Spec.Config

/-!
# Entries and their byte format (`utils/dbformat.h`, `utils/dbformat.cpp`)

Pointers into a byte range are the bytes from the pointer to the end of the
range. A read the C++ code makes outside its memory, and a `nullptr` it goes on
to use, are undefined behaviour: the function then has no result.
-/

namespace Yangkv

open Lib

/-! ## Fixed-width and variable-length numbers -/

/-- `EncodeFixed32`: the bytes of a `uint32_t`. -/
def encodeFixed32 (value : ℕ) : Bytes := leBytes 4 value

/-- `EncodeFixed64`: the bytes of a `uint64_t`. -/
def encodeFixed64 (value : ℕ) : Bytes := leBytes 8 value

/-- `DecodeFixed32` of the four bytes at the pointer. -/
def decodeFixed32 (ptr : Bytes) : Option ℕ :=
  if 4 ≤ ptr.length then some (leNat (ptr.take 4)) else none

/-- `DecodeFixed64` of the eight bytes at the pointer. -/
def decodeFixed64 (ptr : Bytes) : Option ℕ :=
  if 8 ≤ ptr.length then some (leNat (ptr.take 8)) else none

/-- `EncodeVarint32`, the bytes it writes. -/
def encodeVarint32 (v : UInt32) : Bytes :=
  if v < 128 then
    [v.toUInt8]
  else if v < 16384 then
    [(v ||| 128).toUInt8, (v >>> 7).toUInt8]
  else if v < 2097152 then
    [(v ||| 128).toUInt8, ((v >>> 7) ||| 128).toUInt8, (v >>> 14).toUInt8]
  else if v < 268435456 then
    [(v ||| 128).toUInt8, ((v >>> 7) ||| 128).toUInt8, ((v >>> 14) ||| 128).toUInt8,
      (v >>> 21).toUInt8]
  else
    [(v ||| 128).toUInt8, ((v >>> 7) ||| 128).toUInt8, ((v >>> 14) ||| 128).toUInt8,
      ((v >>> 21) ||| 128).toUInt8, (v >>> 28).toUInt8]

/-- `EncodeVarint64`, the bytes it writes. -/
def encodeVarint64 (v : UInt64) : Bytes :=
  if v ≥ 128 then ((v &&& 127) ||| 128).toUInt8 :: encodeVarint64 (v >>> 7) else [v.toUInt8]
termination_by v.toNat
decreasing_by
  rename_i h
  have h : 128 ≤ v.toNat := by simpa [UInt64.le_iff_toNat_le] using h
  simp only [UInt64.toNat_shiftRight, UInt64.reduceToNat, Nat.reduceMod, Nat.shiftRight_eq_div_pow]
  omega

/-- `VarintLength`. -/
def varintLength (v : UInt64) : ℕ :=
  if v ≥ 128 then varintLength (v >>> 7) + 1 else 1
termination_by v.toNat
decreasing_by
  rename_i h
  have h : 128 ≤ v.toNat := by simpa [UInt64.le_iff_toNat_le] using h
  simp only [UInt64.toNat_shiftRight, UInt64.reduceToNat, Nat.reduceMod, Nat.shiftRight_eq_div_pow]
  omega

/-- The loop of `GetVarint32PtrFallback` over the bytes in `[p, limit)`; no result is `nullptr`. -/
def getVarint32PtrFallback (shift result : UInt32) : Bytes → Option (UInt32 × Bytes)
  | [] => none
  | byte :: p =>
    if shift ≤ 28 then
      if byte.toUInt32 &&& 128 ≠ 0 then
        getVarint32PtrFallback (shift + 7) (result ||| ((byte.toUInt32 &&& 127) <<< shift)) p
      else some (result ||| (byte.toUInt32 <<< shift), p)
    else none

/-- `GetVarint32Ptr` over the bytes in `[p, limit)`: the value and the bytes behind it. -/
def getVarint32Ptr : Bytes → Option (UInt32 × Bytes)
  | [] => getVarint32PtrFallback 0 0 []
  | byte :: p =>
    if byte.toUInt32 &&& 128 = 0 then some (byte.toUInt32, p)
    else getVarint32PtrFallback 0 0 (byte :: p)

/-- The loop of `GetVarint64Ptr` over the bytes in `[p, limit)`. -/
def getVarint64Loop (shift result : UInt64) : Bytes → Option (UInt64 × Bytes)
  | [] => none
  | byte :: p =>
    if shift ≤ 63 then
      if byte.toUInt64 &&& 128 ≠ 0 then
        getVarint64Loop (shift + 7) (result ||| ((byte.toUInt64 &&& 127) <<< shift)) p
      else some (result ||| (byte.toUInt64 <<< shift), p)
    else none

/-- `GetVarint64Ptr`; `GetVarint64` on a slice reads the same bytes. -/
def getVarint64Ptr (p : Bytes) : Option (UInt64 × Bytes) := getVarint64Loop 0 0 p

/-- `GetVarint32`: the value where it returns `true`, and what `input` is afterwards. -/
def getVarint32 (input : Bytes) : Option UInt32 × Bytes :=
  match getVarint32Ptr input with
  | none => (none, input)
  | some (value, q) => (some value, q)

/-- `GetVarint64`, in the same way. -/
def getVarint64 (input : Bytes) : Option UInt64 × Bytes :=
  match getVarint64Ptr input with
  | none => (none, input)
  | some (value, q) => (some value, q)

/-- `GetLengthPrefixedSlice(p, limit, ·)`, the pointers as offsets into `mem`: the slice it sets
and the pointer it returns. No result is `nullptr`. -/
def getLengthPrefixedSlicePtr (mem : Bytes) (p limit : ℕ) : Option (Bytes × ℕ) := do
  let (len, rest) ← getVarint32Ptr ((mem.take limit).drop p)
  let p := limit - rest.length
  if limit < p + len.toNat then none else some ((mem.drop p).take len.toNat, p + len.toNat)

/-! ## Entries -/

/-- A `Slice` as `EncodeMemEntry` reads it: its bytes, and the byte behind them. -/
structure Slice where
  bytes : Bytes
  next : UInt8
  deriving DecidableEq, Repr

/-- The slice of a `std::string`, which keeps a zero byte behind its contents. -/
def Slice.ofString (s : Bytes) : Slice := ⟨s, 0⟩

/-- `Slice(ptr, len)` with the pointer kept as an offset into a buffer. -/
structure View where
  off : ℕ
  len : ℕ
  deriving DecidableEq, Repr

/-- What a view shows of the buffer it points into. -/
def View.read (mem : Bytes) (v : View) : Slice :=
  ⟨(mem.drop v.off).take v.len, (mem.drop (v.off + v.len)).headD 0⟩

/-- `MemEntry`, over the kind of slice it holds. -/
structure MemEntry (σ : Type) where
  key : σ
  value : σ
  seq_num : ℕ
  value_type : Bool
  deriving DecidableEq, Repr

/-- An entry whose slices are read. -/
abbrev Entry := MemEntry Slice

def MemEntry.map {σ τ : Type} (f : σ → τ) (e : MemEntry σ) : MemEntry τ :=
  ⟨f e.key, f e.value, e.seq_num, e.value_type⟩

/-- The word that holds the sequence number and the type. -/
def MemEntry.info {σ : Type} (e : MemEntry σ) : ℕ := (e.seq_num <<< 8) ||| e.value_type.toNat

/-- `EncodeMemEntry`; no result when its assertion fails. -/
def encodeMemEntry (entry : Entry) : Option Bytes :=
  let key_size := entry.key.bytes.length + 1
  let val_size := entry.value.bytes.length + 1
  let internal_key_size := key_size + 8
  let encoded_len := varintLength (.ofNat internal_key_size) + internal_key_size +
    varintLength (.ofNat val_size) + val_size
  let buf := encodeVarint32 (.ofNat internal_key_size) ++ (entry.key.bytes ++ [entry.key.next]) ++
    encodeFixed64 entry.info ++ encodeVarint32 (.ofNat val_size) ++
    (entry.value.bytes ++ [entry.value.next])
  if buf.length = encoded_len then some buf else none

/-- `GetVarint32Ptr(ptr, ptr + 5, ·)` in `mem`: the value and the pointer behind it. -/
def getVarint32At (mem : Bytes) (ptr : ℕ) : Option (UInt32 × ℕ) :=
  (getVarint32Ptr ((mem.drop ptr).take 5)).map fun r =>
    (r.1, ptr + (((mem.drop ptr).take 5).length - r.2.length))

/-- `DecodeFixed64(ptr - 8)` in `mem`. -/
def decodeFixed64Before (mem : Bytes) (ptr : ℕ) : Option ℕ :=
  if 8 ≤ ptr then decodeFixed64 (mem.drop (ptr - 8)) else none

/-- `DecodeMemEntry` at the front of `mem`, the slices as views into `mem`. -/
def decodeMemEntry (mem : Bytes) : Option (MemEntry View) := do
  let (klength, key_ptr) ← getVarint32At mem 0
  let key : View := ⟨key_ptr, (klength - 9).toNat⟩
  let info ← decodeFixed64Before mem (key_ptr + klength.toNat)
  let (vlength, vptr) ← getVarint32At mem (key_ptr + klength.toNat)
  some ⟨key, ⟨vptr, (vlength - 1).toNat⟩, info >>> 8, info &&& 255 ≠ 0⟩

/-- The entry whose slices read the buffer the entry was decoded from. -/
def MemEntry.read (mem : Bytes) (e : MemEntry View) : Entry := e.map (·.read mem)

/-- The sizes of an entry fit the 32-bit length fields of its encoding. -/
def MemEntry.Fits (e : Entry) : Prop :=
  e.key.bytes.length + 9 < 2 ^ 32 ∧ e.value.bytes.length + 1 < 2 ^ 32

instance (e : Entry) : Decidable e.Fits := inferInstanceAs (Decidable (_ ∧ _))

end Yangkv
