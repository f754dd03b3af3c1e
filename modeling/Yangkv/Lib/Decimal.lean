import Mathlib.Algebra.Group.Nat.Defs
import Mathlib.Algebra.Ring.Int.Defs
import Mathlib.Data.Int.Basic
import Mathlib.Data.List.Basic

/-!
# Numbers in a text

Formatted input and output of numbers in base 10, as the streams of C++ do it: `>>`
skips white space and takes the longest number that follows.

* `extractInt_digits`: a number that no digit follows is taken as a whole.
* `readInts_spaced`: numbers behind blanks are read back, one after the other.
-/

namespace Yangkv.Lib

/-- `isspace`. -/
def isSpace (c : Char) : Bool := c = ' ' || ('\t' ≤ c && c ≤ '\r')

/-- `>>` to an `int`, with what is left of the text; no result is a failure: there is no number, or
it is out of range. -/
def extractInt (s : List Char) : Option (ℤ × List Char) :=
  let s := s.dropWhile isSpace
  let digits := if s.head? = some '-' ∨ s.head? = some '+' then s.tail else s
  let value : ℤ := Nat.ofDigitChars 10 (digits.takeWhile Char.isDigit) 0
  let value := if s.head? = some '-' then -value else value
  if digits.takeWhile Char.isDigit = [] then none
  else if -2 ^ 31 ≤ value ∧ value < 2 ^ 31 then some (value, digits.dropWhile Char.isDigit)
  else none

/-- `n` times `>>`, up to the first failure. -/
def readInts : ℕ → List Char → List ℤ
  | 0, _ => []
  | n + 1, s =>
    match extractInt s with
    | some (value, s) => value :: readInts n s
    | none => []

/-- Numbers, each of them behind a blank. -/
def spaced (ns : List ℕ) : List Char := ns.flatMap fun n => ' ' :: Nat.toDigits 10 n

theorem spaced_append (ns ms : List ℕ) : spaced (ns ++ ms) = spaced ns ++ spaced ms :=
  List.flatMap_append ..

theorem isDigit_not_space {c : Char} (h : c.isDigit = true) : isSpace c = false := by
  rw [Char.isDigit_iff_toNat] at h
  unfold isSpace
  have hblank : c ≠ ' ' := by
    rintro rfl
    exact absurd h (by decide)
  have hcontrol : ¬ c ≤ '\r' := by
    intro hle
    have hle' : c.toNat ≤ 13 := hle
    have hge : 48 ≤ c.toNat := h.1
    omega
  rw [decide_eq_false hblank, decide_eq_false hcontrol, Bool.and_false, Bool.or_false]

/-- A number behind a blank, which the end of the text or another blank follows. -/
theorem extractInt_digits {n : ℕ} (hn : n < 2 ^ 31) {rest : List Char}
    (hrest : ∀ c ∈ rest.head?, c.isDigit = false) :
    extractInt (' ' :: Nat.toDigits 10 n ++ rest) = some ((n : ℤ), rest) := by
  obtain ⟨c, cs, hcs⟩ := List.exists_cons_of_ne_nil (Nat.toDigits_ne_nil (n := n) (b := 10))
  have hdigit : ∀ d ∈ Nat.toDigits 10 n, d.isDigit = true := fun d hd =>
    Nat.isDigit_of_mem_toDigits (by decide) (by decide) hd
  have hc : c.isDigit = true := hdigit c (hcs ▸ List.mem_cons_self)
  have hskip : (' ' :: Nat.toDigits 10 n ++ rest).dropWhile isSpace = Nat.toDigits 10 n ++ rest := by
    rw [List.cons_append, List.dropWhile_cons_of_pos (by decide), hcs, List.cons_append,
      List.dropWhile_cons_of_neg (by rw [isDigit_not_space hc]; decide)]
  have hhead : (Nat.toDigits 10 n ++ rest).head? = some c := by rw [hcs]; rfl
  have hminus : (Nat.toDigits 10 n ++ rest).head? ≠ some '-' := by
    rw [hhead]
    rintro ⟨⟩
    exact absurd hc (by decide)
  have hplus : (Nat.toDigits 10 n ++ rest).head? ≠ some '+' := by
    rw [hhead]
    rintro ⟨⟩
    exact absurd hc (by decide)
  have htake : (Nat.toDigits 10 n ++ rest).takeWhile Char.isDigit = Nat.toDigits 10 n := by
    rw [List.takeWhile_append_of_pos hdigit]
    cases rest with
    | nil => rw [List.takeWhile_nil, List.append_nil]
    | cons d rest =>
      rw [List.takeWhile_cons_of_neg (by rw [hrest d rfl]; decide), List.append_nil]
  have hdrop : (Nat.toDigits 10 n ++ rest).dropWhile Char.isDigit = rest := by
    rw [List.dropWhile_append_of_pos hdigit]
    cases rest with
    | nil => rfl
    | cons d rest => exact List.dropWhile_cons_of_neg (by rw [hrest d rfl]; decide)
  have hrange : -2 ^ 31 ≤ (n : ℤ) ∧ (n : ℤ) < 2 ^ 31 := by omega
  unfold extractInt
  dsimp only
  rw [hskip, if_neg (not_or.2 ⟨hminus, hplus⟩), htake, hdrop, if_neg hminus,
    if_neg Nat.toDigits_ne_nil, Nat.ofDigitChars_ten_toDigits, if_pos hrange]

/-- **What is written is read back.** -/
theorem readInts_spaced {ns : List ℕ} (hns : ∀ n ∈ ns, n < 2 ^ 31) {fuel : ℕ}
    (hfuel : ns.length ≤ fuel) : readInts fuel (spaced ns) = ns.map Nat.cast := by
  induction ns generalizing fuel with
  | nil =>
    cases fuel with
    | zero => rfl
    | succ fuel => rfl
  | cons n ns ih =>
    obtain ⟨fuel, rfl⟩ := Nat.exists_eq_succ_of_ne_zero
      (Nat.ne_of_gt (Nat.lt_of_lt_of_le (Nat.succ_pos ns.length) hfuel))
    have hrest : ∀ c ∈ (spaced ns).head?, c.isDigit = false := by
      cases ns with
      | nil => simp [spaced]
      | cons m ms => simp [spaced]
    have htext : spaced (n :: ns) = ' ' :: Nat.toDigits 10 n ++ spaced ns := rfl
    rw [htext, readInts, extractInt_digits (hns n List.mem_cons_self) hrest]
    dsimp only
    rw [ih (fun m hm => hns m (List.mem_cons_of_mem _ hm)) (Nat.le_of_succ_le_succ hfuel),
      List.map_cons]

end Yangkv.Lib
