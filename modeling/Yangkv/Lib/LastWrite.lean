import Mathlib.Data.List.Induction
import Std.Data.TreeMap

/-!
# Last write wins

`lastFor key k l` is the last entry of the log `l` that is about `k`. A layer is a
partial map from keys; a stack of layers is read from its first layer down.

* `lastFor_append`: the later part of a log decides, where it speaks at all.
* `lastFor_snoc`: one more entry changes the answer for its own key only.
* `lastFor_eq_some_iff`: in a log in the order of its numbers, the last entry has the
  largest one.
* `getElem?_foldl_insert`: a tree map inserted into another one is a layer above it.
-/

namespace Yangkv.Lib

variable {α κ β : Type*}

section

variable [DecidableEq κ]

/-- The last entry of `l` about `k`. -/
def lastFor (key : α → κ) (k : κ) (l : List α) : Option α :=
  l.reverse.find? fun a => key a == k

variable {key : α → κ} {k : κ} {l l' : List α} {a : α}

@[simp] theorem lastFor_nil : lastFor key k [] = none := rfl

theorem lastFor_append : lastFor key k (l ++ l') = (lastFor key k l').or (lastFor key k l) := by
  simp [lastFor, List.find?_append]

theorem lastFor_snoc :
    lastFor key k (l ++ [a]) = if key a = k then some a else lastFor key k l := by
  rw [lastFor_append]
  by_cases h : key a = k <;> simp [lastFor, h]

theorem lastFor_cons :
    lastFor key k (a :: l) = (lastFor key k l).or (if key a = k then some a else none) := by
  rw [← List.singleton_append, lastFor_append]
  by_cases h : key a = k <;> simp [lastFor, h]

theorem lastFor_mem (h : lastFor key k l = some a) : a ∈ l ∧ key a = k := by
  have h1 := List.mem_of_find?_eq_some h
  have h2 := List.find?_some h
  exact ⟨List.mem_reverse.1 h1, by simpa using h2⟩

theorem lastFor_eq_none : lastFor key k l = none ↔ ∀ a ∈ l, key a ≠ k := by
  simp [lastFor]

/-- In a log in the order of its numbers, the last entry about `k` is the one with the largest
number. -/
theorem lastFor_eq_some_iff {f : α → ℕ} (hl : l.Pairwise fun a b => f a < f b) :
    lastFor key k l = some a ↔ a ∈ l ∧ key a = k ∧ ∀ b ∈ l, key b = k → f b ≤ f a := by
  induction l using List.reverseRecOn with
  | nil => simp
  | append_singleton l x ih =>
    obtain ⟨hl, -, hx⟩ := List.pairwise_append.1 hl
    have hlt : ∀ b ∈ l, f b < f x := fun b hb => hx b hb x List.mem_cons_self
    rw [lastFor_snoc]
    split
    case isTrue hk =>
      constructor
      · rintro ⟨⟩
        refine ⟨by simp, hk, fun b hb _ => ?_⟩
        obtain hb | hb := List.mem_append.1 hb
        · exact Nat.le_of_lt (hlt b hb)
        · obtain rfl := List.mem_singleton.1 hb
          exact Nat.le_refl _
      · rintro ⟨ha, -, hmax⟩
        obtain ha | ha := List.mem_append.1 ha
        · have := hmax x (by simp) hk
          have := hlt a ha
          omega
        · rw [List.mem_singleton.1 ha]
    case isFalse hk =>
      rw [ih hl]
      constructor
      · rintro ⟨ha, hak, hmax⟩
        refine ⟨List.mem_append_left _ ha, hak, fun b hb hbk => ?_⟩
        obtain hb | hb := List.mem_append.1 hb
        · exact hmax b hb hbk
        · rw [List.mem_singleton.1 hb] at hbk
          exact absurd hbk hk
      · rintro ⟨ha, hak, hmax⟩
        obtain ha | ha := List.mem_append.1 ha
        · exact ⟨ha, hak, fun b hb hbk => hmax b (List.mem_append_left _ hb) hbk⟩
        · rw [List.mem_singleton.1 ha] at hak
          exact absurd hak hk

end

/-- What a stack of layers answers for `k`, read from the first layer down. -/
def layered (layers : List (κ → Option β)) (k : κ) : Option β := layers.findSome? fun m => m k

variable {k : κ}

@[simp] theorem layered_nil : layered ([] : List (κ → Option β)) k = none := rfl

theorem layered_cons {m : κ → Option β} {ms : List (κ → Option β)} :
    layered (m :: ms) k = (m k).or (layered ms k) := by
  unfold layered
  rw [List.findSome?_cons]
  cases m k <;> rfl

theorem layered_append {ms ms' : List (κ → Option β)} :
    layered (ms ++ ms') k = (layered ms k).or (layered ms' k) := by
  simp [layered, List.findSome?_append]

/-! ## Tree maps -/

section

variable [Ord κ] [Std.TransOrd κ] [Std.LawfulEqOrd κ] [DecidableEq κ]

theorem getElem?_foldl_insert_list (es : List (κ × β)) (m : Std.TreeMap κ β compare) :
    (es.foldl (fun m e => m.insert e.1 e.2) m)[k]? =
      ((lastFor Prod.fst k es).map Prod.snd).or m[k]? := by
  induction es generalizing m with
  | nil => rfl
  | cons e es ih =>
    rw [List.foldl_cons, ih, lastFor_cons, Std.TreeMap.getElem?_insert]
    simp only [Std.compare_eq_iff_eq]
    cases lastFor Prod.fst k es with
    | some x => rfl
    | none => by_cases h : e.1 = k <;> simp [h]

theorem lastFor_toList (t : Std.TreeMap κ β compare) :
    (lastFor Prod.fst k t.toList).map Prod.snd = t[k]? := by
  cases h : lastFor Prod.fst k t.toList with
  | some e =>
    obtain ⟨h1, rfl⟩ := lastFor_mem h
    exact (Std.TreeMap.mem_toList_iff_getElem?_eq_some.1 h1).symm
  | none =>
    cases ht : t[k]? with
    | none => rfl
    | some v =>
      exact absurd rfl (lastFor_eq_none.1 h _ (Std.TreeMap.mem_toList_iff_getElem?_eq_some.2 ht))

theorem getElem?_foldl_insert (t m : Std.TreeMap κ β compare) :
    (t.foldl (fun m k v => m.insert k v) m)[k]? = t[k]?.or m[k]? := by
  rw [Std.TreeMap.foldl_eq_foldl_toList, getElem?_foldl_insert_list, lastFor_toList]

end

end Yangkv.Lib
