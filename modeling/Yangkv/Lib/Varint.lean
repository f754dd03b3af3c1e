import Yangkv.Lib.Bytes

/-!
# Base-128 variable-length numbers

Seven payload bits a byte, lowest group first, the top bit set on every byte but
the last. `decode k` reads at most `k` bytes.

* `decode_encode`: a number below `128 ^ k` is read back by `decode k`, whatever
  follows it.
* `decode_of_proper`: a proper part of its bytes is not read at all.
* `decode_split`: what is read is at the front, and what is behind it does not matter.
* `length_encode_le`: a number below `128 ^ k` takes at most `k` bytes.
-/

namespace Yangkv.Lib.Varint

/-- The representation of `n`. -/
def encode (n : ℕ) : Bytes :=
  if n < 128 then [UInt8.ofNat n] else UInt8.ofNat (n % 128 + 128) :: encode (n / 128)
termination_by n

/-- The number at the front of a byte string and what follows it, read in at most `k` bytes. -/
def decode : ℕ → Bytes → Option (ℕ × Bytes)
  | 0, _ => none
  | _ + 1, [] => none
  | k + 1, b :: bs =>
    if b.toNat < 128 then some (b.toNat, bs)
    else (decode k bs).map fun r => (b.toNat % 128 + 128 * r.1, r.2)

theorem encode_of_lt {n : ℕ} (h : n < 128) : encode n = [UInt8.ofNat n] := by
  rw [encode, if_pos h]

theorem encode_of_ge {n : ℕ} (h : 128 ≤ n) :
    encode n = UInt8.ofNat (n % 128 + 128) :: encode (n / 128) := by
  rw [encode, if_neg (by omega)]

theorem encode_length_pos (n : ℕ) : 0 < (encode n).length := by
  rw [encode]; split <;> simp

theorem length_encode_le {k n : ℕ} (hk : 0 < k) (h : n < 128 ^ k) : (encode n).length ≤ k := by
  induction k generalizing n with
  | zero => omega
  | succ k ih =>
    rcases Nat.lt_or_ge n 128 with hn | hn
    · rw [encode_of_lt hn]; simp
    · rw [encode_of_ge hn, List.length_cons]
      rcases Nat.eq_zero_or_pos k with rfl | hk'
      · simp at h; omega
      · have := ih hk' (Nat.div_lt_of_lt_mul (by rw [pow_succ, Nat.mul_comm] at h; exact h))
        omega

/-- A larger number does not take fewer bytes. -/
theorem length_encode_mono {m n : ℕ} (h : m ≤ n) : (encode m).length ≤ (encode n).length := by
  induction n using Nat.strongRecOn generalizing m with
  | ind n ih =>
    by_cases hm : m < 128
    · have hpos := encode_length_pos n
      rw [encode_of_lt hm, List.length_singleton]
      omega
    · have hle := @ih (n / 128) (by omega) (m / 128) (by omega)
      rw [encode_of_ge (by omega), encode_of_ge (show 128 ≤ n by omega), List.length_cons,
        List.length_cons]
      omega

/-- **The code is a prefix code.** What follows a number does not change how it is read. -/
theorem decode_encode {k n : ℕ} (hk : 0 < k) (h : n < 128 ^ k) (bs : Bytes) :
    decode k (encode n ++ bs) = some (n, bs) := by
  induction k generalizing n with
  | zero => omega
  | succ k ih =>
    rcases Nat.lt_or_ge n 128 with hn | hn
    · rw [encode_of_lt hn, List.singleton_append, decode]
      have : (UInt8.ofNat n).toNat = n := by rw [UInt8.toNat_ofNat']; omega
      rw [this, if_pos hn]
    · rw [encode_of_ge hn, List.cons_append, decode]
      have hb : (UInt8.ofNat (n % 128 + 128)).toNat = n % 128 + 128 := by
        rw [UInt8.toNat_ofNat']; omega
      have hd : n / 128 < 128 ^ k :=
        Nat.div_lt_of_lt_mul (by rw [pow_succ, Nat.mul_comm] at h; exact h)
      have hk' : 0 < k := by
        rcases Nat.eq_zero_or_pos k with rfl | hp
        · simp at hd; omega
        · exact hp
      rw [hb, if_neg (by omega), ih hk' hd]
      simp only [Option.map_some, Option.some.injEq, Prod.mk.injEq, and_true]
      omega

/-- A part of a number is not read as a number: its bytes all say that more are to come. -/
theorem decode_truncated {n : ℕ} {front back : Bytes} (h : front ++ back = encode n)
    (hne : back ≠ []) (k : ℕ) : decode k front = none := by
  induction k generalizing n front with
  | zero => rfl
  | succ k ih =>
    cases front with
    | nil => rfl
    | cons b front =>
      rcases Nat.lt_or_ge n 128 with hn | hn
      · rw [encode_of_lt hn, List.cons_append, List.cons.injEq, List.append_eq_nil_iff] at h
        exact absurd h.2.2 hne
      · rw [encode_of_ge hn, List.cons_append, List.cons.injEq] at h
        obtain ⟨hb, hrest⟩ := h
        have hge : ¬ b.toNat < 128 := by
          rw [hb, UInt8.toNat_ofNat']
          omega
        rw [decode, if_neg hge, ih hrest, Option.map_none]

theorem decode_of_proper {n : ℕ} {front : Bytes} (h : front <+: encode n) (hne : front ≠ encode n)
    (k : ℕ) : decode k front = none := by
  obtain ⟨back, hback⟩ := h
  refine decode_truncated hback ?_ k
  rintro rfl
  rw [List.append_nil] at hback
  exact hne hback

/-- **A number is read off the front**: at most `k` bytes, whatever is behind them. -/
theorem decode_split {k n : ℕ} {bs rest : Bytes} (h : decode k bs = some (n, rest)) :
    ∃ front, bs = front ++ rest ∧ 0 < front.length ∧ front.length ≤ k ∧
      ∀ more, decode k (front ++ more) = some (n, more) := by
  induction k generalizing bs n with
  | zero => cases h
  | succ k ih =>
    cases bs with
    | nil => cases h
    | cons b bs =>
      rw [decode] at h
      by_cases hb : b.toNat < 128
      · rw [if_pos hb, Option.some.injEq, Prod.mk.injEq] at h
        obtain ⟨rfl, rfl⟩ := h
        refine ⟨[b], rfl, Nat.one_pos, Nat.succ_pos k, fun more => ?_⟩
        rw [List.singleton_append, decode, if_pos hb]
      · rw [if_neg hb] at h
        obtain ⟨⟨m, r⟩, hm, hr⟩ := Option.map_eq_some_iff.1 h
        rw [Prod.mk.injEq] at hr
        obtain ⟨rfl, rfl⟩ := hr
        obtain ⟨front, rfl, -, hlen, hmore⟩ := ih hm
        refine ⟨b :: front, rfl, Nat.succ_pos _, Nat.succ_le_succ hlen, fun more => ?_⟩
        rw [List.cons_append, decode, if_neg hb, hmore, Option.map_some]

/-- Where there are `k` bytes, no other byte is looked at. -/
theorem decode_append {k : ℕ} {bs : Bytes} (h : k ≤ bs.length) (more : Bytes) :
    decode k (bs ++ more) = (decode k bs).map fun r => (r.1, r.2 ++ more) := by
  induction k generalizing bs with
  | zero => rfl
  | succ k ih =>
    cases bs with
    | nil => exact absurd h (Nat.not_succ_le_zero k)
    | cons b bs =>
      rw [List.cons_append, decode, decode]
      by_cases hb : b.toNat < 128
      · rw [if_pos hb, if_pos hb, Option.map_some]
      · rw [if_neg hb, if_neg hb, ih (Nat.le_of_succ_le_succ h), Option.map_map, Option.map_map]
        rfl

end Yangkv.Lib.Varint
