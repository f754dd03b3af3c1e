import Yangkv.Lib.Slices
import Yangkv.Spec.DbFormat
import Mathlib.Tactic.Ring

/-!
# The number and entry formats

* `encodeVarint32_eq`, `encodeVarint64_eq`, `getVarint32Ptr_eq`,
  `getVarint64Ptr_eq`: the unrolled and the looping codecs are the base-128 code.
* `encodeMemEntry_fits`: within the 32-bit length fields the assertion of
  `EncodeMemEntry` holds, and its bytes are `record`.
* `decodeMemEntry_record`: `DecodeMemEntry` reads back what `EncodeMemEntry`
  wrote, whatever follows it in memory.
* `memEntry_roundTrip`: decoding inverts encoding, and encoding the decoded entry
  gives the same bytes again.
-/

namespace Yangkv

open Lib

/-! ## Numbers -/

theorem decodeFixed32_append {n : ℕ} (hn : n < 2 ^ 32) (rest : Bytes) :
    decodeFixed32 (encodeFixed32 n ++ rest) = some n := by
  have hlen : (encodeFixed32 n).length = 4 := length_leBytes 4 n
  unfold decodeFixed32
  rw [if_pos (by rw [List.length_append]; omega), List.take_left' hlen]
  exact congrArg some (leNat_leBytes_of_lt (by omega))

theorem length_flatMap_fixed32 (ns : List ℕ) :
    (ns.flatMap encodeFixed32).length = 4 * ns.length := length_words 4 ns

/-- A word of a table of words. -/
theorem decodeFixed32_table {ns : List ℕ} {i n : ℕ} (hi : ns[i]? = some n) (hn : n < 2 ^ 32)
    (back : Bytes) :
    decodeFixed32 ((ns.flatMap encodeFixed32 ++ back).drop (4 * i)) = some n := by
  obtain ⟨rest, hrest⟩ := drop_words (k := 4) hi back
  have hdrop : (ns.flatMap encodeFixed32 ++ back).drop (4 * i) = encodeFixed32 n ++ rest := hrest
  rw [hdrop]
  exact decodeFixed32_append hn rest

theorem or_128_mod (x : ℕ) : (x ||| 128) % 256 = x % 128 + 128 := by
  have h := Nat.or_mod_two_pow (a := x) (b := 128) (n := 8)
  have hd : ∀ i : Fin 256, i.val ||| 128 = i.val % 128 + 128 := by decide +kernel
  have hx := hd ⟨x % 256, Nat.mod_lt _ (by omega)⟩
  simp only at hx
  rw [show (256 : ℕ) = 2 ^ 8 by rfl, h, show (128 : ℕ) % 2 ^ 8 = 128 by rfl,
    show (2 : ℕ) ^ 8 = 256 by rfl, hx]
  omega

theorem byte32_or (x : UInt32) : (x ||| 128).toUInt8 = UInt8.ofNat (x.toNat % 128 + 128) := by
  apply UInt8.toNat_inj.1
  rw [UInt32.toNat_toUInt8, UInt32.toNat_or, UInt8.toNat_ofNat']
  have := or_128_mod x.toNat
  simp only [UInt32.reduceToNat, Nat.reducePow] at this ⊢
  omega

theorem byte32 (x : UInt32) : x.toUInt8 = UInt8.ofNat x.toNat := by
  apply UInt8.toNat_inj.1
  rw [UInt32.toNat_toUInt8, UInt8.toNat_ofNat']

theorem shiftRight32 (v k : UInt32) (hk : k.toNat < 32) : (v >>> k).toNat = v.toNat / 2 ^ k.toNat := by
  rw [UInt32.toNat_shiftRight, Nat.mod_eq_of_lt hk, Nat.shiftRight_eq_div_pow]

/-- **The unrolled encoder writes the base-128 code.** -/
theorem encodeVarint32_eq (v : UInt32) : encodeVarint32 v = Varint.encode v.toNat := by
  have h7 := shiftRight32 v 7 (by decide)
  have h14 := shiftRight32 v 14 (by decide)
  have h21 := shiftRight32 v 21 (by decide)
  have h28 := shiftRight32 v 28 (by decide)
  simp only [UInt32.reduceToNat, Nat.reducePow] at h7 h14 h21 h28
  have hlt := v.toNat_lt
  unfold encodeVarint32
  simp only [byte32_or]
  simp only [UInt32.lt_iff_toNat_lt, UInt32.reduceToNat, byte32, h7, h14, h21, h28]
  -- one group of seven bits per byte: the four comparisons are those of the recursion
  split
  · rw [Varint.encode_of_lt (by omega)]
  rw [Varint.encode_of_ge (by omega)]
  split
  · rw [Varint.encode_of_lt (by omega)]
  rw [Varint.encode_of_ge (by omega), Nat.div_div_eq_div_mul, show 128 * 128 = 16384 by rfl]
  split
  · rw [Varint.encode_of_lt (by omega)]
  rw [Varint.encode_of_ge (by omega), Nat.div_div_eq_div_mul, show 16384 * 128 = 2097152 by rfl]
  split
  · rw [Varint.encode_of_lt (by omega)]
  rw [Varint.encode_of_ge (by omega), Nat.div_div_eq_div_mul,
    show 2097152 * 128 = 268435456 by rfl, Varint.encode_of_lt (by omega)]

theorem byte64_or (x : UInt64) :
    ((x &&& 127) ||| 128).toUInt8 = UInt8.ofNat (x.toNat % 128 + 128) := by
  apply UInt8.toNat_inj.1
  rw [UInt64.toNat_toUInt8, UInt64.toNat_or, UInt64.toNat_and, UInt8.toNat_ofNat']
  have h1 : x.toNat &&& 127 = x.toNat % 128 := Nat.and_two_pow_sub_one_eq_mod x.toNat 7
  have h2 := or_128_mod (x.toNat % 128)
  simp only [UInt64.reduceToNat, Nat.reducePow] at h2 ⊢
  rw [h1, h2]
  omega

theorem shiftRight64_7 (v : UInt64) : (v >>> 7).toNat = v.toNat / 128 := by
  rw [UInt64.toNat_shiftRight]
  simp only [UInt64.reduceToNat, Nat.reduceMod, Nat.shiftRight_eq_div_pow, Nat.reducePow]

/-- **The looping encoder writes the base-128 code.** -/
theorem encodeVarint64_eq (v : UInt64) : encodeVarint64 v = Varint.encode v.toNat := by
  induction hn : v.toNat using Nat.strongRecOn generalizing v with
  | ind n ih =>
    subst hn
    rw [encodeVarint64]
    split
    · rename_i h
      have h : 128 ≤ v.toNat := by simpa [UInt64.le_iff_toNat_le] using h
      rw [Varint.encode_of_ge h, byte64_or, ih _ (by rw [shiftRight64_7]; omega) (v >>> 7) rfl,
        shiftRight64_7]
    · rename_i h
      have h : v.toNat < 128 := by
        have : ¬ 128 ≤ v.toNat := by simpa [UInt64.le_iff_toNat_le] using h
        omega
      rw [Varint.encode_of_lt h]
      rfl

/-- `VarintLength` is the number of bytes of the code. -/
theorem varintLength_eq (v : UInt64) : varintLength v = (Varint.encode v.toNat).length := by
  induction hn : v.toNat using Nat.strongRecOn generalizing v with
  | ind n ih =>
    subst hn
    rw [varintLength]
    split
    · rename_i h
      have h : 128 ≤ v.toNat := by simpa [UInt64.le_iff_toNat_le] using h
      rw [ih _ (by rw [shiftRight64_7]; omega) (v >>> 7) rfl, Varint.encode_of_ge h, shiftRight64_7,
        List.length_cons]
    · rename_i h
      have : ¬ 128 ≤ v.toNat := by simpa [UInt64.le_iff_toNat_le] using h
      rw [Varint.encode_of_lt (by omega)]
      rfl

theorem and_128 (x : ℕ) (hx : x < 256) : x &&& 128 = x / 128 * 128 := by
  have h : ∀ i : Fin 256, i.val &&& 128 = i.val / 128 * 128 := by decide +kernel
  exact h ⟨x, hx⟩

/-- Adding a group of bits above the ones already there is the `|=` of the loops. -/
theorem or_group {w r g s : ℕ} (hs : s ≤ w) (hr : r < 2 ^ s) :
    r ||| (g * 2 ^ s % 2 ^ w) = (r + g * 2 ^ s) % 2 ^ w := by
  obtain ⟨d, rfl⟩ : ∃ d, w = s + d := ⟨w - s, by omega⟩
  rw [pow_add, Nat.mul_comm g, Nat.mul_mod_mul_left, Nat.or_comm,
    ← Nat.two_pow_add_eq_or_of_lt hr, Nat.mod_mul, Nat.add_mul_mod_self_left, Nat.mod_eq_of_lt hr,
    Nat.add_mul_div_left _ _ (Nat.two_pow_pos s), Nat.div_eq_of_lt hr, Nat.zero_add, Nat.add_comm]

theorem cont32 (b : UInt8) : b.toUInt32 &&& 128 = 0 ↔ b.toNat < 128 := by
  rw [← UInt32.toNat_inj, UInt32.toNat_and, UInt8.toNat_toUInt32]
  simp only [UInt32.reduceToNat]
  rw [and_128 _ b.toNat_lt]
  omega

theorem cont64 (b : UInt8) : b.toUInt64 &&& 128 = 0 ↔ b.toNat < 128 := by
  rw [← UInt64.toNat_inj, UInt64.toNat_and, UInt8.toNat_toUInt64]
  simp only [UInt64.reduceToNat]
  rw [and_128 _ b.toNat_lt]
  omega

theorem group32 {x r shift : UInt32} {i : ℕ} (hs : shift.toNat = 7 * i) (hi : 7 * i < 32)
    (hr : r.toNat < 2 ^ (7 * i)) :
    r ||| (x <<< shift) = UInt32.ofNat (r.toNat + x.toNat * 2 ^ (7 * i)) := by
  apply UInt32.toNat_inj.1
  rw [UInt32.toNat_or, UInt32.toNat_shiftLeft, hs, Nat.mod_eq_of_lt hi, Nat.shiftLeft_eq,
    or_group (by omega) hr, UInt32.toNat_ofNat']

theorem group64 {x r shift : UInt64} {i : ℕ} (hs : shift.toNat = 7 * i) (hi : 7 * i < 64)
    (hr : r.toNat < 2 ^ (7 * i)) :
    r ||| (x <<< shift) = UInt64.ofNat (r.toNat + x.toNat * 2 ^ (7 * i)) := by
  apply UInt64.toNat_inj.1
  rw [UInt64.toNat_or, UInt64.toNat_shiftLeft, hs, Nat.mod_eq_of_lt hi, Nat.shiftLeft_eq,
    or_group (by omega) hr, UInt64.toNat_ofNat']

theorem and_127 (x : ℕ) : x &&& 127 = x % 128 := Nat.and_two_pow_sub_one_eq_mod x 7

theorem two_pow_group (i : ℕ) : (2 : ℕ) ^ (7 * (i + 1)) = 128 * 2 ^ (7 * i) := by
  rw [Nat.mul_add, pow_add, Nat.mul_comm]; rfl

/-- One more group stays below the next group's weight. -/
theorem group_lt {r b i : ℕ} (hr : r < 2 ^ (7 * i)) :
    r + b % 128 * 2 ^ (7 * i) < 2 ^ (7 * (i + 1)) := by
  have : b % 128 * 2 ^ (7 * i) ≤ 127 * 2 ^ (7 * i) := Nat.mul_le_mul_right _ (by omega)
  rw [two_pow_group]; omega

/-- The groups read so far and the ones still to come add up. -/
theorem group_step (w r b n i : ℕ) :
    ((r + b % 128 * 2 ^ (7 * i)) % 2 ^ w + n * 2 ^ (7 * (i + 1))) % 2 ^ w =
      (r + (b % 128 + 128 * n) * 2 ^ (7 * i)) % 2 ^ w := by
  rw [two_pow_group, Nat.mod_add_mod]
  congr 1
  ring

/-- The fallback loop after `i` groups: what is left to read goes above them. -/
theorem fallback_eq (bs : Bytes) : ∀ (i : ℕ) (shift r : UInt32), i ≤ 5 → shift.toNat = 7 * i →
    r.toNat < 2 ^ (7 * i) →
    getVarint32PtrFallback shift r bs = (Varint.decode (5 - i) bs).map fun x =>
      (UInt32.ofNat (r.toNat + x.1 * 2 ^ (7 * i)), x.2) := by
  induction bs with
  | nil => intro i shift r _ _ _; cases 5 - i <;> rfl
  | cons b bs ih =>
    intro i shift r hi hs hr
    have h28 : (28 : UInt32).toNat = 28 := rfl
    have hle : shift ≤ 28 ↔ i ≤ 4 := by rw [UInt32.le_iff_toNat_le, hs, h28]; omega
    unfold getVarint32PtrFallback
    by_cases h4 : i ≤ 4
    · rw [if_pos (hle.2 h4)]
      obtain ⟨j, hj⟩ : ∃ j, 5 - i = j + 1 := ⟨4 - i, by omega⟩
      have hj' : 5 - (i + 1) = j := by omega
      rw [hj, Varint.decode]
      by_cases hb : b.toNat < 128
      · rw [if_neg (by simpa using (cont32 b).2 hb), if_pos hb, Option.map_some,
          group32 hs (by omega) hr, UInt8.toNat_toUInt32]
      · have h127 : (b.toUInt32 &&& 127).toNat = b.toNat % 128 := by
          rw [UInt32.toNat_and, UInt8.toNat_toUInt32]; exact and_127 b.toNat
        have hs' : (shift + 7).toNat = 7 * (i + 1) := by
          have h7 : (7 : UInt32).toNat = 7 := rfl
          rw [UInt32.toNat_add, hs, h7, Nat.mod_eq_of_lt (by omega)]; omega
        have hmod := UInt32.toNat_ofNat' (n := r.toNat + b.toNat % 128 * 2 ^ (7 * i))
        rw [if_pos (by simpa using fun h => hb ((cont32 b).1 h)), if_neg hb,
          group32 hs (by omega) hr, h127, ih (i + 1) _ _ (by omega) hs' (by
            rw [hmod]; exact lt_of_le_of_lt (Nat.mod_le _ _) (group_lt hr)), hj', Option.map_map]
        congr 1
        funext x
        simp only [Function.comp, Prod.mk.injEq, and_true]
        apply UInt32.toNat_inj.1
        rw [UInt32.toNat_ofNat', UInt32.toNat_ofNat', UInt32.toNat_ofNat', group_step]
    · rw [if_neg (fun h => h4 (hle.1 h))]
      have : 5 - i = 0 := by omega
      rw [this]; rfl

/-- **`GetVarint32Ptr` reads the base-128 code**, at most five bytes of it. -/
theorem getVarint32Ptr_eq (bs : Bytes) :
    getVarint32Ptr bs = (Varint.decode 5 bs).map fun x => (UInt32.ofNat x.1, x.2) := by
  have hf := fallback_eq bs 0 0 0 (by omega) rfl (by decide)
  have h0 : (0 : UInt32).toNat = 0 := rfl
  simp only [Nat.sub_zero, h0, Nat.mul_zero, pow_zero, Nat.mul_one, Nat.zero_add] at hf
  cases bs with
  | nil => exact hf
  | cons b bs =>
    by_cases hb : b.toNat < 128
    · simp only [getVarint32Ptr]
      rw [if_pos ((cont32 b).2 hb), Varint.decode, if_pos hb, Option.map_some]
      congr 2
      apply UInt32.toNat_inj.1
      rw [UInt8.toNat_toUInt32, UInt32.toNat_ofNat', Nat.mod_eq_of_lt (by omega)]
    · simp only [getVarint32Ptr]
      rw [if_neg (fun h => hb ((cont32 b).1 h))]
      exact hf

/-- The 64-bit loop after `i` groups. -/
theorem loop64_eq (bs : Bytes) : ∀ (i : ℕ) (shift r : UInt64), i ≤ 10 → shift.toNat = 7 * i →
    r.toNat < 2 ^ (7 * i) →
    getVarint64Loop shift r bs = (Varint.decode (10 - i) bs).map fun x =>
      (UInt64.ofNat (r.toNat + x.1 * 2 ^ (7 * i)), x.2) := by
  induction bs with
  | nil => intro i shift r _ _ _; cases 10 - i <;> rfl
  | cons b bs ih =>
    intro i shift r hi hs hr
    have h63 : (63 : UInt64).toNat = 63 := rfl
    have hle : shift ≤ 63 ↔ i ≤ 9 := by rw [UInt64.le_iff_toNat_le, hs, h63]; omega
    unfold getVarint64Loop
    by_cases h9 : i ≤ 9
    · rw [if_pos (hle.2 h9)]
      obtain ⟨j, hj⟩ : ∃ j, 10 - i = j + 1 := ⟨9 - i, by omega⟩
      have hj' : 10 - (i + 1) = j := by omega
      rw [hj, Varint.decode]
      by_cases hb : b.toNat < 128
      · rw [if_neg (by simpa using (cont64 b).2 hb), if_pos hb, Option.map_some,
          group64 hs (by omega) hr, UInt8.toNat_toUInt64]
      · have h127 : (b.toUInt64 &&& 127).toNat = b.toNat % 128 := by
          rw [UInt64.toNat_and, UInt8.toNat_toUInt64]; exact and_127 b.toNat
        have hs' : (shift + 7).toNat = 7 * (i + 1) := by
          have h7 : (7 : UInt64).toNat = 7 := rfl
          rw [UInt64.toNat_add, hs, h7, Nat.mod_eq_of_lt (by omega)]; omega
        have hmod := UInt64.toNat_ofNat' (n := r.toNat + b.toNat % 128 * 2 ^ (7 * i))
        rw [if_pos (by simpa using fun h => hb ((cont64 b).1 h)), if_neg hb,
          group64 hs (by omega) hr, h127, ih (i + 1) _ _ (by omega) hs' (by
            rw [hmod]; exact lt_of_le_of_lt (Nat.mod_le _ _) (group_lt hr)), hj', Option.map_map]
        congr 1
        funext x
        simp only [Function.comp, Prod.mk.injEq, and_true]
        apply UInt64.toNat_inj.1
        rw [UInt64.toNat_ofNat', UInt64.toNat_ofNat', UInt64.toNat_ofNat', group_step]
    · rw [if_neg (fun h => h9 (hle.1 h))]
      have : 10 - i = 0 := by omega
      rw [this]; rfl

/-- **`GetVarint64Ptr` reads the base-128 code**, at most ten bytes of it. -/
theorem getVarint64Ptr_eq (bs : Bytes) :
    getVarint64Ptr bs = (Varint.decode 10 bs).map fun x => (UInt64.ofNat x.1, x.2) := by
  have hf := loop64_eq bs 0 0 0 (by omega) rfl (by decide)
  have h0 : (0 : UInt64).toNat = 0 := rfl
  simp only [Nat.sub_zero, h0, Nat.mul_zero, pow_zero, Nat.mul_one, Nat.zero_add] at hf
  exact hf

theorem getVarint32Ptr_encode {n : ℕ} (hn : n < 2 ^ 32) (bs : Bytes) :
    getVarint32Ptr (Varint.encode n ++ bs) = some (UInt32.ofNat n, bs) := by
  rw [getVarint32Ptr_eq, Varint.decode_encode (by omega) (by omega), Option.map_some]

theorem getVarint64Ptr_encode {n : ℕ} (hn : n < 2 ^ 64) (bs : Bytes) :
    getVarint64Ptr (Varint.encode n ++ bs) = some (UInt64.ofNat n, bs) := by
  rw [getVarint64Ptr_eq, Varint.decode_encode (by omega) (by omega), Option.map_some]

/-! ## Entries -/

/-- The bytes `EncodeMemEntry` writes for an entry that fits. -/
def MemEntry.record (e : Entry) : Bytes :=
  Varint.encode (e.key.bytes.length + 9) ++ (e.key.bytes ++ [e.key.next]) ++
    encodeFixed64 e.info ++ Varint.encode (e.value.bytes.length + 1) ++
    (e.value.bytes ++ [e.value.next])

/-- Where `DecodeMemEntry` finds the parts of an entry at the front of a buffer. -/
def MemEntry.views (e : Entry) : MemEntry View :=
  { key := ⟨(Varint.encode (e.key.bytes.length + 9)).length, e.key.bytes.length⟩
    value := ⟨(Varint.encode (e.key.bytes.length + 9)).length + (e.key.bytes.length + 9) +
      (Varint.encode (e.value.bytes.length + 1)).length, e.value.bytes.length⟩
    seq_num := e.seq_num % 2 ^ 56
    value_type := e.value_type }

/-- **Within the length fields the assertion of `EncodeMemEntry` holds.** -/
theorem encodeMemEntry_fits {e : Entry} (he : e.Fits) : encodeMemEntry e = some e.record := by
  obtain ⟨hk, hv⟩ := he
  have h1 : (UInt32.ofNat (e.key.bytes.length + 1 + 8)).toNat = e.key.bytes.length + 9 := by
    rw [UInt32.toNat_ofNat', Nat.mod_eq_of_lt (by omega)]
  have h2 : (UInt64.ofNat (e.key.bytes.length + 1 + 8)).toNat = e.key.bytes.length + 9 := by
    rw [UInt64.toNat_ofNat', Nat.mod_eq_of_lt (by omega)]
  have h3 : (UInt32.ofNat (e.value.bytes.length + 1)).toNat = e.value.bytes.length + 1 := by
    rw [UInt32.toNat_ofNat', Nat.mod_eq_of_lt (by omega)]
  have h4 : (UInt64.ofNat (e.value.bytes.length + 1)).toNat = e.value.bytes.length + 1 := by
    rw [UInt64.toNat_ofNat', Nat.mod_eq_of_lt (by omega)]
  unfold encodeMemEntry
  simp only [encodeVarint32_eq, varintLength_eq, h1, h2, h3, h4]
  rw [if_pos (by simp [encodeFixed64]; omega)]
  rfl

/-- Where the assertion of `EncodeMemEntry` holds, each length is encoded in as many bytes as
`VarintLength` counts, also where it is cut off to 32 bits. -/
theorem encodeMemEntry_some {e : Entry} {slice : Bytes} (h : encodeMemEntry e = some slice) :
    (Varint.encode ((e.key.bytes.length + 9) % 2 ^ 32)).length =
        (Varint.encode ((e.key.bytes.length + 9) % 2 ^ 64)).length ∧
      (Varint.encode ((e.value.bytes.length + 1) % 2 ^ 32)).length =
        (Varint.encode ((e.value.bytes.length + 1) % 2 ^ 64)).length ∧
      slice = Varint.encode ((e.key.bytes.length + 9) % 2 ^ 32) ++ (e.key.bytes ++ [e.key.next]) ++
        encodeFixed64 e.info ++ Varint.encode ((e.value.bytes.length + 1) % 2 ^ 32) ++
        (e.value.bytes ++ [e.value.next]) := by
  have hle : ∀ n : ℕ, (Varint.encode (n % 2 ^ 32)).length ≤ (Varint.encode (n % 2 ^ 64)).length :=
    fun n => Varint.length_encode_mono (by omega)
  have hk := hle (e.key.bytes.length + 9)
  have hv := hle (e.value.bytes.length + 1)
  unfold encodeMemEntry at h
  simp only [Option.ite_none_right_eq_some, Option.some.injEq, encodeVarint32_eq, varintLength_eq,
    UInt32.toNat_ofNat', UInt64.toNat_ofNat'] at h
  obtain ⟨hlen, rfl⟩ := h
  simp only [List.length_append, List.length_singleton, encodeFixed64, length_leBytes] at hlen
  rw [show e.key.bytes.length + 1 + 8 = e.key.bytes.length + 9 from rfl] at hlen
  exact ⟨by omega, by omega, rfl⟩

theorem exists_encodeMemEntry {e : Entry}
    (hk : (Varint.encode ((e.key.bytes.length + 9) % 2 ^ 32)).length =
      (Varint.encode ((e.key.bytes.length + 9) % 2 ^ 64)).length)
    (hv : (Varint.encode ((e.value.bytes.length + 1) % 2 ^ 32)).length =
      (Varint.encode ((e.value.bytes.length + 1) % 2 ^ 64)).length) :
    ∃ slice, encodeMemEntry e = some slice := by
  unfold encodeMemEntry
  simp only [encodeVarint32_eq, varintLength_eq, UInt32.toNat_ofNat', UInt64.toNat_ofNat']
  rw [show e.key.bytes.length + 1 + 8 = e.key.bytes.length + 9 from rfl, if_pos]
  · exact ⟨_, rfl⟩
  · simp only [List.length_append, List.length_singleton, encodeFixed64, length_leBytes, hk, hv]
    omega

/-- A number a little above the 32-bit range loses bytes when it is cut off. -/
theorem lt_of_length_encode {n : ℕ} (hn : n < 2 ^ 32 + 128)
    (h : (Varint.encode (n % 2 ^ 32)).length = (Varint.encode (n % 2 ^ 64)).length) : n < 2 ^ 32 := by
  by_contra hge
  have hpos := Varint.encode_length_pos (n / 128)
  rw [Nat.mod_eq_of_lt (show n < 2 ^ 64 by omega), Varint.encode_of_lt (by omega),
    Varint.encode_of_ge (by omega), List.length_singleton, List.length_cons] at h
  omega

/-- Where the assertion holds for sizes that a `uint32_t` holds, the entry fits. -/
theorem fits_of_encode {e : Entry} {slice : Bytes} (hk : e.key.bytes.length < 2 ^ 32)
    (hv : e.value.bytes.length < 2 ^ 32) (h : encodeMemEntry e = some slice) : e.Fits := by
  obtain ⟨h1, h2, -⟩ := encodeMemEntry_some h
  exact ⟨lt_of_length_encode (by omega) h1, lt_of_length_encode (by omega) h2⟩

theorem length_record (e : Entry) : e.record.length =
    (Varint.encode (e.key.bytes.length + 9)).length + (e.key.bytes.length + 9) +
      (Varint.encode (e.value.bytes.length + 1)).length + (e.value.bytes.length + 1) := by
  simp [MemEntry.record, encodeFixed64]; omega

/-- A record is never as short as the size word that frames it in a log. -/
theorem length_record_ge (e : Entry) : 12 ≤ e.record.length := by
  have h1 := Varint.encode_length_pos (e.key.bytes.length + 9)
  have h2 := Varint.encode_length_pos (e.value.bytes.length + 1)
  rw [length_record]; omega

theorem info_eq (e : Entry) : e.info = e.seq_num * 256 + e.value_type.toNat := by
  unfold MemEntry.info
  have hb : e.value_type.toNat < 2 ^ 8 := by cases e.value_type <;> decide
  rw [Nat.shiftLeft_eq, Nat.mul_comm, ← Nat.two_pow_add_eq_or_of_lt hb]

/-- The tag word gives back the sequence number below `2 ^ 56` and the type. -/
theorem info_split (e : Entry) : (e.info % 256 ^ 8) >>> 8 = e.seq_num % 2 ^ 56 ∧
    decide ((e.info % 256 ^ 8) &&& 255 ≠ 0) = e.value_type := by
  have hand : ∀ x : ℕ, x &&& 255 = x % 256 := fun x => Nat.and_two_pow_sub_one_eq_mod x 8
  rw [info_eq, Nat.shiftRight_eq_div_pow, hand]
  cases e.value_type
  · simp only [Bool.toNat_false, decide_eq_false_iff_not, not_not]; omega
  · simp only [Bool.toNat_true, decide_eq_true_eq]; omega

theorem getVarint32At_encode {mem : Bytes} {p n : ℕ} (hn : n < 2 ^ 32) {bs : Bytes}
    (h : mem.drop p = Varint.encode n ++ bs) :
    getVarint32At mem p = some (UInt32.ofNat n, p + (Varint.encode n).length) := by
  have hlen := Varint.length_encode_le (k := 5) (n := n) (by omega) (by omega)
  have htake : (mem.drop p).take 5 =
      Varint.encode n ++ bs.take (5 - (Varint.encode n).length) := by
    rw [h, List.take_append, List.take_of_length_le hlen]
  unfold getVarint32At
  rw [htake, getVarint32Ptr_encode hn, Option.map_some, List.length_append, Nat.add_sub_cancel]

theorem toNat_sub_of_lt {n c : ℕ} (hn : n + c < 2 ^ 32) :
    (UInt32.ofNat (n + c) - UInt32.ofNat c).toNat = n := by
  have h1 : (UInt32.ofNat (n + c)).toNat = n + c := by
    rw [UInt32.toNat_ofNat', Nat.mod_eq_of_lt hn]
  have h2 : (UInt32.ofNat c).toNat = c := by rw [UInt32.toNat_ofNat', Nat.mod_eq_of_lt (by omega)]
  rw [UInt32.toNat_sub_of_le _ _ (by rw [UInt32.le_iff_toNat_le, h1, h2]; omega), h1, h2]
  omega

/-- The parts of a record, one behind the other. -/
theorem record_append (e : Entry) (tail : Bytes) :
    e.record ++ tail = Varint.encode (e.key.bytes.length + 9) ++ (e.key.bytes ++ ([e.key.next] ++
      (encodeFixed64 e.info ++ (Varint.encode (e.value.bytes.length + 1) ++
        (e.value.bytes ++ ([e.value.next] ++ tail)))))) := by
  simp only [MemEntry.record, List.append_assoc]

theorem record_drop_key (e : Entry) (tail : Bytes) :
    (e.record ++ tail).drop e.views.key.off = e.key.bytes ++ ([e.key.next] ++
      (encodeFixed64 e.info ++ (Varint.encode (e.value.bytes.length + 1) ++
        (e.value.bytes ++ ([e.value.next] ++ tail))))) := by
  rw [record_append]; exact List.drop_left

theorem record_drop_info (e : Entry) (tail : Bytes) :
    (e.record ++ tail).drop (e.views.key.off + (e.key.bytes.length + 1)) =
      encodeFixed64 e.info ++ (Varint.encode (e.value.bytes.length + 1) ++
        (e.value.bytes ++ ([e.value.next] ++ tail))) := by
  rw [← List.drop_drop, record_drop_key, ← List.append_assoc, List.drop_left' (by simp)]

theorem record_drop_vlength (e : Entry) (tail : Bytes) :
    (e.record ++ tail).drop (e.views.key.off + (e.key.bytes.length + 9)) =
      Varint.encode (e.value.bytes.length + 1) ++ (e.value.bytes ++ ([e.value.next] ++ tail)) := by
  rw [show e.views.key.off + (e.key.bytes.length + 9) =
    e.views.key.off + (e.key.bytes.length + 1) + 8 by omega, ← List.drop_drop, record_drop_info,
    List.drop_left' (by simp [encodeFixed64])]

theorem record_drop_value (e : Entry) (tail : Bytes) :
    (e.record ++ tail).drop e.views.value.off = e.value.bytes ++ ([e.value.next] ++ tail) := by
  rw [show e.views.value.off = e.views.key.off + (e.key.bytes.length + 9) +
    (Varint.encode (e.value.bytes.length + 1)).length by rfl, ← List.drop_drop,
    record_drop_vlength, List.drop_left]

/-- **`DecodeMemEntry` reads back what `EncodeMemEntry` wrote**, whatever lies behind it. -/
theorem decodeMemEntry_record {e : Entry} (he : e.Fits) (tail : Bytes) :
    decodeMemEntry (e.record ++ tail) = some e.views := by
  obtain ⟨hk, hv⟩ := he
  have hkl : (UInt32.ofNat (e.key.bytes.length + 9)).toNat = e.key.bytes.length + 9 := by
    rw [UInt32.toNat_ofNat', Nat.mod_eq_of_lt hk]
  have h1 : getVarint32At (e.record ++ tail) 0 =
      some (UInt32.ofNat (e.key.bytes.length + 9), e.views.key.off) := by
    rw [getVarint32At_encode hk (by rw [List.drop_zero]; exact record_append e tail),
      Nat.zero_add]
    rfl
  have h2 : decodeFixed64Before (e.record ++ tail) (e.views.key.off + (e.key.bytes.length + 9)) =
      some (e.info % 256 ^ 8) := by
    unfold decodeFixed64Before decodeFixed64
    rw [if_pos (by omega), show e.views.key.off + (e.key.bytes.length + 9) - 8 =
      e.views.key.off + (e.key.bytes.length + 1) by omega, record_drop_info,
      if_pos (by simp [encodeFixed64]), encodeFixed64, take_leBytes, leNat_leBytes]
  have h3 : getVarint32At (e.record ++ tail) (e.views.key.off + (e.key.bytes.length + 9)) =
      some (UInt32.ofNat (e.value.bytes.length + 1), e.views.value.off) :=
    getVarint32At_encode hv (record_drop_vlength e tail)
  obtain ⟨hseq, htype⟩ := info_split e
  unfold decodeMemEntry
  simp only [h1, Option.bind_eq_bind, Option.bind_some, hkl, h2, h3, hseq, htype]
  rw [show (9 : UInt32) = UInt32.ofNat 9 by rfl, show (1 : UInt32) = UInt32.ofNat 1 by rfl,
    toNat_sub_of_lt hk, toNat_sub_of_lt hv]
  rfl

/-- The views of a decoded record show the entry, with the byte behind each part. -/
theorem read_views (e : Entry) (tail : Bytes) :
    e.views.read (e.record ++ tail) = { e with seq_num := e.seq_num % 2 ^ 56 } := by
  have hk : e.views.key.read (e.record ++ tail) = e.key := by
    unfold View.read
    rw [← List.drop_drop, record_drop_key]
    simp [MemEntry.views]
  have hv : e.views.value.read (e.record ++ tail) = e.value := by
    unfold View.read
    rw [← List.drop_drop, record_drop_value]
    simp [MemEntry.views]
  simp only [MemEntry.read, MemEntry.map, hk, hv]
  rfl

/-- The views of a decoded record, and the byte behind each, are inside the record. -/
theorem views_inside (e : Entry) : e.views.key.off + e.views.key.len < e.record.length ∧
    e.views.value.off + e.views.value.len < e.record.length := by
  have hlen := length_record e
  have hpos := Varint.encode_length_pos (e.value.bytes.length + 1)
  simp only [MemEntry.views]
  constructor <;> omega

section

variable {e : Entry}

/-- **`DecodeMemEntry` inverts `EncodeMemEntry`** on an entry whose sizes and sequence number fit
their fields. The encoding has the length computed for its buffer; decoded at the front of any
bytes it gives the entry back, with the bytes behind its key and its value; and what is decoded,
which points into the encoding, is encoded by the same bytes again. -/
theorem memEntry_roundTrip (hk : e.key.bytes.length + 9 < 2 ^ 32)
    (hv : e.value.bytes.length + 1 < 2 ^ 32) (hseq : e.seq_num < 2 ^ 56) :
    ∃ buf, encodeMemEntry e = some buf ∧
      buf.length = varintLength (.ofNat (e.key.bytes.length + 9)) + (e.key.bytes.length + 9) +
        varintLength (.ofNat (e.value.bytes.length + 1)) + (e.value.bytes.length + 1) ∧
      ∀ tail, ∃ views : MemEntry View, decodeMemEntry (buf ++ tail) = some views ∧
        views.key.off + views.key.len < buf.length ∧
        views.value.off + views.value.len < buf.length ∧
        views.read (buf ++ tail) = e ∧ encodeMemEntry (views.read (buf ++ tail)) = some buf := by
  have he : e.Fits := ⟨hk, hv⟩
  have henc := encodeMemEntry_fits he
  refine ⟨e.record, henc, ?_, fun tail => ⟨e.views, decodeMemEntry_record he tail, ?_⟩⟩
  · rw [length_record, varintLength_eq, varintLength_eq, UInt64.toNat_ofNat', UInt64.toNat_ofNat',
      Nat.mod_eq_of_lt (by omega), Nat.mod_eq_of_lt (by omega)]
  · have hread : e.views.read (e.record ++ tail) = e := by
      rw [read_views, Nat.mod_eq_of_lt hseq]
    obtain ⟨hin, hin'⟩ := views_inside e
    exact ⟨hin, hin', hread, by rw [hread, henc]⟩

/-- A key with a zero byte, an empty value, and arbitrary bytes behind them. -/
theorem memEntry_roundTrip_zeros : ∃ buf,
    encodeMemEntry ⟨⟨[97, 0], 7⟩, ⟨[], 255⟩, 5, true⟩ = some buf ∧
      ∃ views, decodeMemEntry (buf ++ [1, 2]) = some views ∧
        views.read (buf ++ [1, 2]) = ⟨⟨[97, 0], 7⟩, ⟨[], 255⟩, 5, true⟩ := by
  obtain ⟨buf, h1, -, h2⟩ := memEntry_roundTrip (e := ⟨⟨[97, 0], 7⟩, ⟨[], 255⟩, 5, true⟩)
    (by decide) (by decide) (by decide)
  obtain ⟨views, h3, -, -, h4, -⟩ := h2 [1, 2]
  exact ⟨buf, h1, views, h3, h4⟩

end

end Yangkv
