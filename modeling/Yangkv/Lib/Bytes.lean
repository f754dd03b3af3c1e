import Mathlib.Data.List.Basic
import Mathlib.Tactic.Ring

/-!
# Byte strings and fixed-width words

`leBytes k n` is the `k`-byte little-endian representation of `n`, `leNat` reads
one back. `overlay` is the store of a byte string at the front of a buffer.

* `leNat_leBytes`: reading a representation back gives the number modulo
  `256 ^ k`, with any bytes behind it left alone.
* `overlay_overlay`: a store hides the ones before it that are not longer.
-/

namespace Yangkv.Lib

/-- A string of bytes. -/
abbrev Bytes := List UInt8

/-- The `k` lowest bytes of `n`, lowest first. -/
def leBytes : ℕ → ℕ → Bytes
  | 0, _ => []
  | k + 1, n => UInt8.ofNat n :: leBytes k (n / 256)

/-- The number whose little-endian bytes are given. -/
def leNat : Bytes → ℕ
  | [] => 0
  | b :: bs => b.toNat + 256 * leNat bs

@[simp] theorem length_leBytes (k n : ℕ) : (leBytes k n).length = k := by
  induction k generalizing n with
  | zero => rfl
  | succ k ih => simp [leBytes, ih]

theorem leNat_leBytes (k n : ℕ) : leNat (leBytes k n) = n % 256 ^ k := by
  induction k generalizing n with
  | zero => simp [leBytes, leNat, Nat.mod_one]
  | succ k ih =>
    have hb : (UInt8.ofNat n).toNat = n % 256 := UInt8.toNat_ofNat'
    rw [leBytes, leNat, ih, hb, Nat.pow_succ, Nat.mul_comm (256 ^ k) 256, Nat.mod_mul]

theorem leNat_leBytes_of_lt {k n : ℕ} (h : n < 256 ^ k) : leNat (leBytes k n) = n := by
  rw [leNat_leBytes, Nat.mod_eq_of_lt h]

/-- As many bytes as the number was read from give them back. -/
theorem leBytes_leNat (bs : Bytes) : leBytes bs.length (leNat bs) = bs := by
  induction bs with
  | nil => rfl
  | cons b bs ih =>
    have hb := b.toNat_lt
    have hdiv : (b.toNat + 256 * leNat bs) / 256 = leNat bs := by omega
    have hhead : UInt8.ofNat (b.toNat + 256 * leNat bs) = b := by
      apply UInt8.toNat_inj.1
      rw [UInt8.toNat_ofNat']
      omega
    rw [List.length_cons, leNat, leBytes, hdiv, ih, hhead]

@[simp] theorem take_leBytes (k n : ℕ) (bs : Bytes) : (leBytes k n ++ bs).take k = leBytes k n := by
  rw [List.take_append_of_le_length (by simp), List.take_of_length_le (by simp)]

@[simp] theorem drop_leBytes (k n : ℕ) (bs : Bytes) : (leBytes k n ++ bs).drop k = bs := by
  rw [List.drop_append_of_le_length (by simp), List.drop_of_length_le (by simp), List.nil_append]

/-- `buf` after `data` is stored at its front. -/
def overlay (data buf : Bytes) : Bytes := data ++ buf.drop data.length

theorem overlay_prefix (data buf : Bytes) : (overlay data buf).take data.length = data := by
  simp [overlay]

theorem getElem?_overlay (data buf : Bytes) (p : ℕ) :
    (overlay data buf)[p]? = if p < data.length then data[p]? else buf[p]? := by
  unfold overlay
  split
  · rename_i h; rw [List.getElem?_append_left h]
  · rename_i h
    rw [List.getElem?_append_right (by omega), List.getElem?_drop]
    congr 1; omega

/-- A store of one string, then of another at least as long, is the store of the second. -/
theorem overlay_overlay {a b : Bytes} (h : a.length ≤ b.length) (buf : Bytes) :
    overlay b (overlay a buf) = overlay b buf := by
  unfold overlay
  rw [List.drop_append, List.drop_of_length_le h, List.nil_append, List.drop_drop]
  congr 2; omega

end Yangkv.Lib
