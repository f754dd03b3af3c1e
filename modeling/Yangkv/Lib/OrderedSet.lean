import Mathlib.Data.List.Sort

/-!
# Sorted vectors and sorted sets

A set in the order of a comparator, as the list of its elements, and the merge of a
sorted vector with such a set that looks for the upper bound of every element.

* `insertBy_perm`, `insertBy_sorted`: what inserting does to the list.
* `upperMerge_eq`: the merge is `List.merge`, so that its lemmas apply.
-/

namespace Yangkv.Lib

variable {α : Type*}

/-- Inserting into a set; an element that is equivalent to one of the set is not inserted. -/
def insertBy (less : α → α → Bool) (x : α) : List α → List α
  | [] => [x]
  | y :: l =>
    if less y x then y :: insertBy less x l else if less x y then x :: y :: l else y :: l

/-- The merge of a vector with a set. In front of each element of the set stand the elements of the
vector up to its upper bound. -/
def upperMerge (less : α → α → Bool) : List α → List α → List α
  | l, [] => l
  | l, x :: set =>
    l.takeWhile (fun y => !less x y) ++ x :: upperMerge less (l.dropWhile fun y => !less x y) set

/-- Not in the wrong order. -/
def InOrder (less : α → α → Bool) (l : List α) : Prop := l.Pairwise fun a b => less b a = false

/-- The order is total on classes of equivalent elements. -/
structure Comparator (less : α → α → Bool) : Prop where
  asymm : ∀ a b, less a b = true → less b a = false
  trans : ∀ a b c, less b a = false → less c b = false → less c a = false

variable {less : α → α → Bool} {x : α} {l set : List α}

theorem insertBy_perm (hx : ∀ y ∈ l, less y x = true ∨ less x y = true) :
    (insertBy less x l).Perm (x :: l) := by
  induction l with
  | nil => exact .refl _
  | cons y l ih =>
    unfold insertBy
    by_cases hyx : less y x = true
    · rw [if_pos hyx]
      exact ((ih fun z hz => hx z (List.mem_cons_of_mem _ hz)).cons y).trans (.swap x y l)
    · rw [if_neg hyx, if_pos ((hx y List.mem_cons_self).resolve_left hyx)]

theorem insertBy_subset {y : α} (hy : y ∈ insertBy less x l) : y = x ∨ y ∈ l := by
  induction l with
  | nil => exact .inl (List.mem_singleton.1 hy)
  | cons z l ih =>
    unfold insertBy at hy
    split at hy
    · rcases List.mem_cons.1 hy with rfl | hy
      · exact .inr List.mem_cons_self
      · exact (ih hy).imp_right (List.mem_cons_of_mem _)
    · split at hy
      · exact List.mem_cons.1 hy
      · exact .inr hy

theorem insertBy_sorted (hc : Comparator less) (hl : InOrder less l) :
    InOrder less (insertBy less x l) := by
  induction l with
  | nil => exact List.pairwise_singleton _ x
  | cons y l ih =>
    obtain ⟨hy, hl'⟩ := List.pairwise_cons.1 hl
    unfold insertBy
    by_cases hyx : less y x = true
    · rw [if_pos hyx]
      refine List.pairwise_cons.2 ⟨fun z hz => ?_, ih hl'⟩
      rcases insertBy_subset hz with rfl | hz
      · exact hc.asymm _ _ hyx
      · exact hy z hz
    · rw [if_neg hyx]
      by_cases hxy : less x y = true
      · rw [if_pos hxy]
        refine List.pairwise_cons.2 ⟨fun z hz => ?_, hl⟩
        rcases List.mem_cons.1 hz with rfl | hz
        · exact hc.asymm _ _ hxy
        · exact hc.trans _ _ _ (hc.asymm _ _ hxy) (hy z hz)
      · rw [if_neg hxy]
        exact hl

theorem upperMerge_cons_cons {y : α} : upperMerge less (y :: l) (x :: set) =
    if less x y then x :: upperMerge less (y :: l) set
    else y :: upperMerge less l (x :: set) := by
  by_cases h : less x y = true
  · simp [upperMerge, h]
  · simp [upperMerge, h]

/-- **Merging by upper bounds** takes the smaller front, and that of the vector if both are
equivalent. -/
theorem upperMerge_eq : upperMerge less l set = List.merge l set fun y x => !less x y := by
  induction set generalizing l with
  | nil => rw [upperMerge, List.merge_right]
  | cons x set ih =>
    induction l with
    | nil =>
      have hnil := ih (l := [])
      rw [List.nil_merge] at hnil ⊢
      rw [upperMerge, List.takeWhile_nil, List.dropWhile_nil, hnil, List.nil_append]
    | cons y l ihl =>
      rw [List.cons_merge_cons, upperMerge_cons_cons, ih, ihl]
      cases less x y <;> rfl

theorem upperMerge_perm : (upperMerge less l set).Perm (l ++ set) := by
  rw [upperMerge_eq]
  exact List.merge_perm_append _

theorem upperMerge_sorted (hc : Comparator less) (hl : InOrder less l) (hs : InOrder less set) :
    InOrder less (upperMerge less l set) := by
  have hle : ∀ {m : List α}, InOrder less m ↔ m.Pairwise fun a b => (!less b a) = true :=
    ⟨fun h => h.imp fun hab => by rw [hab]; rfl, fun h => h.imp fun hab => by simpa using hab⟩
  rw [upperMerge_eq, hle]
  refine List.pairwise_merge (fun a b c hab hbc => ?_) (fun a b => ?_) l set (hle.1 hl) (hle.1 hs)
  · have hca := hc.trans a b c (by simpa using hab) (by simpa using hbc)
    rw [hca]
    rfl
  · cases hba : less b a
    · rfl
    · rw [hc.asymm b a hba]
      rfl

end Yangkv.Lib
