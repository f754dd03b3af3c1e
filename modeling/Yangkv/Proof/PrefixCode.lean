import Yangkv.Proof.VersionEdit

/-!
# Numbers and slices are read off in front of anything

* `readsBack_varint32`, `readsBack_varint64`: a number is read whole or not at all.
* `getLengthPrefixedSlicePtr_eq`: `GetLengthPrefixedSlice` of two pointers and of a
  slice are the same reader.
* `codecs_read_back`: all of it together, behind anything that is written already.
-/

namespace Yangkv

open Lib

/-- `get` reads `v` where `code` is in front. A proper part of `code` it leaves as it is. -/
structure ReadsBack {α : Type} (get : Bytes → Option α × Bytes) (code : Bytes) (v : α) : Prop where
  whole : ∀ suffix, get (code ++ suffix) = (some v, suffix)
  part : ∀ front, front <+: code → front ≠ code → get front = (none, front)

theorem readsBack_varint32 (v : UInt32) : ReadsBack getVarint32 (Varint.encode v.toNat) v where
  whole suffix := by
    have h := getVarint32Ptr_encode v.toNat_lt suffix
    rw [UInt32.ofNat_toNat] at h
    simp only [getVarint32, h]
  part front hfront hne := by
    have h := getVarint32Ptr_eq front
    rw [Varint.decode_of_proper hfront hne, Option.map_none] at h
    simp only [getVarint32, h]

theorem readsBack_varint64 (v : UInt64) : ReadsBack getVarint64 (Varint.encode v.toNat) v where
  whole suffix := by
    have h := getVarint64Ptr_encode v.toNat_lt suffix
    rw [UInt64.ofNat_toNat] at h
    simp only [getVarint64, h]
  part front hfront hne := by
    have h := getVarint64Ptr_eq front
    rw [Varint.decode_of_proper hfront hne, Option.map_none] at h
    simp only [getVarint64, h]

/-- What is behind a number is the end of what it was read from. -/
theorem getVarint32Ptr_rest {bs rest : Bytes} {v : UInt32} (h : getVarint32Ptr bs = some (v, rest)) :
    ∃ front, bs = front ++ rest := by
  rw [getVarint32Ptr_eq] at h
  obtain ⟨⟨n, r⟩, hdec, hr⟩ := Option.map_eq_some_iff.1 h
  rw [Prod.mk.injEq] at hr
  obtain ⟨-, rfl⟩ := hr
  obtain ⟨front, hbs, -⟩ := Varint.decode_split hdec
  exact ⟨front, hbs⟩

/-- **The two overloads read the same**, the one between two pointers and the one in a slice. -/
theorem getLengthPrefixedSlicePtr_eq {mem : Bytes} {p limit : ℕ} (hp : p ≤ limit)
    (hlimit : limit ≤ mem.length) :
    getLengthPrefixedSlicePtr mem p limit =
      (getLengthPrefixedSlice ((mem.take limit).drop p)).map fun r => (r.1, limit - r.2.length) := by
  unfold getLengthPrefixedSlicePtr getLengthPrefixedSlice
  cases hv : getVarint32Ptr ((mem.take limit).drop p) with
  | none => rfl
  | some r =>
    obtain ⟨len, rest⟩ := r
    obtain ⟨front, hfront⟩ := getVarint32Ptr_rest hv
    have hlen := congrArg List.length hfront
    rw [List.length_drop, List.length_take, Nat.min_eq_left hlimit, List.length_append] at hlen
    -- what is left of the slice is the memory from the pointer behind the number to the limit
    have hrest : rest = (mem.take limit).drop (limit - rest.length) := by
      have hdrop := congrArg (List.drop front.length) hfront
      rw [List.drop_drop, List.drop_left] at hdrop
      rw [show limit - rest.length = p + front.length by omega, hdrop]
    simp only [Option.bind_eq_bind, Option.bind_some]
    by_cases hle : len.toNat ≤ rest.length
    · rw [if_neg (by omega), if_pos hle, Option.map_some, List.length_drop]
      have htake : (mem.drop (limit - rest.length)).take len.toNat = rest.take len.toNat := by
        conv_rhs => rw [hrest]
        rw [List.drop_take, List.take_take, Nat.min_eq_left (by omega)]
      rw [htake, show limit - rest.length + len.toNat = limit - (rest.length - len.toNat) by omega]
    · rw [if_pos (by omega), if_neg hle, Option.map_none]

/-- **The codecs are prefix codes.** What `PutVarint32` and `PutVarint64` append has `VarintLength`
bytes, is read back whatever is behind it, and is not read at all where a part of it is missing. A
slice that `PutLengthPrefixedSlice` appends is read back whatever is behind it, and both overloads of
`GetLengthPrefixedSlice` read the same from any bytes. -/
theorem codecs_read_back (dst : Bytes) :
    (∀ v : UInt32, ∃ code, putVarint32 dst v.toNat = dst ++ code ∧
      code.length = varintLength v.toUInt64 ∧ ReadsBack getVarint32 code v) ∧
    (∀ v : UInt64, ∃ code, putVarint64 dst v.toNat = dst ++ code ∧
      code.length = varintLength v ∧ ReadsBack getVarint64 code v) ∧
    (∀ x : Bytes, x.length < 2 ^ 32 → ∃ code, putLengthPrefixedSlice dst x = dst ++ code ∧
      ∀ suffix, getLengthPrefixedSlice (code ++ suffix) = some (x, suffix)) ∧
    ∀ (mem : Bytes) (p limit : ℕ), p ≤ limit → limit ≤ mem.length →
      getLengthPrefixedSlicePtr mem p limit =
        (getLengthPrefixedSlice ((mem.take limit).drop p)).map fun r =>
          (r.1, limit - r.2.length) := by
  refine ⟨fun v => ?_, fun v => ?_, fun x hx => ?_, fun mem p limit hp hlimit => ?_⟩
  · refine ⟨_, FullVersionEdit.putVarint32_eq dst v.toNat_lt, ?_, readsBack_varint32 v⟩
    rw [varintLength_eq, UInt32.toNat_toUInt64]
  · refine ⟨_, FullVersionEdit.putVarint64_eq dst v.toNat_lt, ?_, readsBack_varint64 v⟩
    rw [varintLength_eq]
  · refine ⟨Varint.encode x.length ++ x, ?_, getLengthPrefixedSlice_encode hx⟩
    rw [putLengthPrefixedSlice, FullVersionEdit.putVarint32_eq dst hx, List.append_assoc]
  · exact getLengthPrefixedSlicePtr_eq hp hlimit

/-- The two bytes of 300, the slice `ab`, and both overloads on a slice that is cut off. -/
theorem codecs_read_back_300 :
    (∃ code, putVarint32 [] 300 = [] ++ code ∧ code.length = 2 ∧ getVarint32 [172] = (none, [172])) ∧
      getLengthPrefixedSlice [2, 97, 98, 7] = some ([97, 98], [7]) ∧
      getLengthPrefixedSlicePtr [9, 2, 97] 1 3 = none := by
  obtain ⟨h32, -, hslice, hptr⟩ := codecs_read_back []
  obtain ⟨code, h1, h2, -⟩ := h32 300
  obtain ⟨code', h3, h4⟩ := hslice [97, 98] (by decide)
  have hcode : code' = [2, 97, 98] := h3.symm.trans (by decide)
  refine ⟨⟨code, h1, h2.trans (by decide +kernel), by decide⟩, ?_, ?_⟩
  · have := h4 [7]
    rw [hcode] at this
    exact this
  · rw [hptr [9, 2, 97] 1 3 (by decide) (by decide)]
    decide

end Yangkv
