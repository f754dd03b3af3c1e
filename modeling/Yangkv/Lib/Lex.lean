import Mathlib.Data.List.Basic
import Std.Data.TreeMap

/-!
# Lexicographic order of lists

Lists over an ordered type are compared entry by entry, a proper prefix first.

* `compare_append_left`: a common prefix does not matter.
* `compare_lt_of_head`: the first entries that differ decide.
* `sorted_keys`: the entries of a tree map come with strictly increasing keys.
-/

namespace Yangkv.Lib

variable {α : Type*} [Ord α]

theorem compare_append_left [Std.ReflOrd α] (p xs ys : List α) :
    compare (p ++ xs) (p ++ ys) = compare xs ys := by
  induction p with
  | nil => rfl
  | cons a p ih =>
    rw [List.cons_append, List.cons_append, List.compare_cons_cons, Std.ReflOrd.compare_self, ih]
    rfl

theorem compare_lt_of_head {x y : α} (h : compare x y = .lt) (xs ys : List α) :
    compare (x :: xs) (y :: ys) = .lt := by
  rw [List.compare_cons_cons, h]
  rfl

variable [Std.TransOrd α] {β : Type*}

/-- Each key is below the ones behind it. -/
def SortedKeys (es : List (α × β)) : Prop := es.Pairwise fun a b => compare a.1 b.1 = .lt

theorem sorted_keys (t : Std.TreeMap α β compare) : SortedKeys t.toList :=
  Std.TreeMap.ordered_keys_toList

theorem SortedKeys.find_key [DecidableEq α] {es : List (α × β)} (h : SortedKeys es) {a : α × β}
    (ha : a ∈ es) : es.find? (fun e => e.1 = a.1) = some a := by
  induction es with
  | nil => cases ha
  | cons e es ih =>
    obtain ⟨h1, h2⟩ := List.pairwise_cons.1 h
    obtain rfl | ha := List.mem_cons.1 ha
    · simp
    · have hne : e.1 ≠ a.1 := by
        intro he
        have hlt := h1 a ha
        have heq : compare a.1 a.1 = .eq := Std.ReflCmp.compare_self
        rw [he, heq] at hlt
        cases hlt
      rw [List.find?_cons_of_neg (by simpa using hne), ih h2 ha]

theorem SortedKeys.le_getLast {es : List (α × β)} (h : SortedKeys es) {a z : α × β} (ha : a ∈ es)
    (hz : es.getLast? = some z) : (compare a.1 z.1).isLE := by
  rcases List.eq_nil_or_concat es with rfl | ⟨es, y, rfl⟩
  · cases ha
  · rw [List.concat_eq_append] at h ha hz
    simp only [List.getLast?_append, List.getLast?_singleton, Option.some_or, Option.some.injEq] at hz
    subst hz
    rcases List.mem_append.1 ha with ha | ha
    · have := (List.pairwise_append.1 h).2.2 a ha y (List.mem_singleton_self y)
      rw [this]; rfl
    · rw [List.mem_singleton.1 ha]; exact Std.ReflCmp.isLE_rfl

theorem SortedKeys.head_le {es : List (α × β)} (h : SortedKeys es) {a z : α × β} (ha : a ∈ es)
    (hz : es.head? = some z) : (compare z.1 a.1).isLE := by
  cases es with
  | nil => cases ha
  | cons y es =>
    obtain rfl : y = z := Option.some.inj hz
    rcases List.mem_cons.1 ha with rfl | ha
    · exact Std.ReflCmp.isLE_rfl
    · rw [(List.pairwise_cons.1 h).1 a ha]
      rfl

/-- A list whose last key is below `k` has all of them below `k`. -/
theorem SortedKeys.lt_of_getLast {es : List (α × β)} (h : SortedKeys es) {k : α}
    (hl : ∀ b, es.getLast? = some b → compare b.1 k = .lt) {a : α × β} (ha : a ∈ es) :
    compare a.1 k = .lt := by
  have hz := List.getLast?_eq_some_getLast (List.ne_nil_of_mem ha)
  exact Std.TransCmp.lt_of_isLE_of_lt (h.le_getLast ha hz) (hl _ hz)

/-- A list of sorted keys grows behind its last key. -/
theorem SortedKeys.snoc {es : List (α × β)} {a : α × β} (h : SortedKeys es)
    (hl : ∀ b, es.getLast? = some b → compare b.1 a.1 = .lt) : SortedKeys (es ++ [a]) := by
  refine List.pairwise_append.2 ⟨h, List.pairwise_singleton _ _, fun b hb c hc => ?_⟩
  rw [List.mem_singleton.1 hc]
  exact h.lt_of_getLast hl hb

end Yangkv.Lib
