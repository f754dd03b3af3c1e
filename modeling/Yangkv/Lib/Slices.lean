import Mathlib.Data.List.Basic
import Yangkv.Lib.Bytes

/-!
# Strings and words one behind the other

`starts` says where each of some strings begins in the whole, `slices` cuts a string at
given positions.

* `slices_starts`: cut where the strings begin, the whole gives them back.
* `drop_words`: where a word begins in a table of words of one width.
-/

namespace Yangkv.Lib

variable {α : Type*}

/-- Where the strings begin, the first one at `o`. -/
def starts (o : ℕ) : List (List α) → List ℕ
  | [] => []
  | x :: xs => o :: starts (o + x.length) xs

/-- What stands between neighbouring positions. -/
def slices (s : List α) (pos : List ℕ) : List (List α) :=
  List.zipWith (fun i j => (s.drop i).take (j - i)) pos pos.tail

@[simp] theorem length_starts (o : ℕ) (xs : List (List α)) : (starts o xs).length = xs.length := by
  induction xs generalizing o with
  | nil => rfl
  | cons x xs ih => rw [starts, List.length_cons, ih, List.length_cons]

theorem starts_append (o : ℕ) (xs ys : List (List α)) :
    starts o (xs ++ ys) = starts o xs ++ starts (o + xs.flatten.length) ys := by
  induction xs generalizing o with
  | nil => simp [starts]
  | cons x xs ih =>
    rw [List.cons_append, starts, starts, ih, List.flatten_cons, List.length_append, Nat.add_assoc,
      List.cons_append]

/-- The first string begins at `o`; where there is none, that is the end. -/
theorem exists_starts (o : ℕ) (xs : List (List α)) :
    ∃ pos, starts o xs ++ [o + xs.flatten.length] = o :: pos := by
  cases xs with
  | nil => exact ⟨[], rfl⟩
  | cons x xs => exact ⟨_, rfl⟩

/-- The whole, cut where the strings begin. -/
theorem slices_starts (front : List α) (xs : List (List α)) :
    slices (front ++ xs.flatten) (starts front.length xs ++ [front.length + xs.flatten.length]) =
      xs := by
  induction xs generalizing front with
  | nil => rfl
  | cons x xs ih =>
    have hrest := ih (front ++ x)
    obtain ⟨pos, hpos⟩ := exists_starts (front ++ x).length xs
    have hend : front.length + (x :: xs).flatten.length =
        (front ++ x).length + xs.flatten.length := by
      rw [List.flatten_cons, List.length_append, List.length_append, Nat.add_assoc]
    have hfirst : ((front ++ (x :: xs).flatten).drop front.length).take
        ((front ++ x).length - front.length) = x := by
      rw [List.drop_left, List.length_append, Nat.add_sub_cancel_left, List.flatten_cons,
        List.take_left]
    have hwhole : front ++ (x :: xs).flatten = front ++ x ++ xs.flatten := by
      rw [List.flatten_cons, List.append_assoc]
    rw [starts, ← List.length_append, List.cons_append, hend, hpos]
    rw [hpos, ← hwhole] at hrest
    calc slices (front ++ (x :: xs).flatten) (front.length :: (front ++ x).length :: pos)
        = ((front ++ (x :: xs).flatten).drop front.length).take
            ((front ++ x).length - front.length) ::
          slices (front ++ (x :: xs).flatten) ((front ++ x).length :: pos) := rfl
      _ = x :: xs := by rw [hfirst, hrest]

/-! ## Tables of words -/

theorem length_words (k : ℕ) (ws : List ℕ) : (ws.flatMap (leBytes k)).length = k * ws.length := by
  induction ws with
  | nil => rfl
  | cons w ws ih =>
    rw [List.flatMap_cons, List.length_append, length_leBytes, ih, List.length_cons, Nat.mul_succ,
      Nat.add_comm]

/-- The words from the `i`-th on begin with it. -/
theorem drop_words {k i w : ℕ} {ws : List ℕ} (hi : ws[i]? = some w) (back : Bytes) :
    ∃ rest, (ws.flatMap (leBytes k) ++ back).drop (k * i) = leBytes k w ++ rest := by
  induction ws generalizing i with
  | nil => cases hi
  | cons v ws ih =>
    cases i with
    | zero =>
      obtain rfl : v = w := Option.some.inj hi
      exact ⟨ws.flatMap (leBytes k) ++ back, by simp⟩
    | succ i =>
      obtain ⟨rest, hrest⟩ := ih (i := i) hi
      refine ⟨rest, ?_⟩
      rw [List.flatMap_cons, List.append_assoc, Nat.mul_succ, Nat.add_comm, ← List.drop_drop,
        drop_leBytes, hrest]

end Yangkv.Lib
