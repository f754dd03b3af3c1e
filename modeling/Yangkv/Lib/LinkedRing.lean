import Mathlib.Data.List.Nodup
import Mathlib.Logic.Function.Basic

/-!
# Doubly linked rings

Cells with the fields `next` and `prev`, each of which may be unset. A ring starts and
ends at a sentinel cell.

* `Seg`: the cells from one cell to another, linked both ways.
* `Seg.retarget`: setting the last link of a segment to another cell.
* `IsRing.unlink`, `IsRing.append`: taking a cell out, and putting one in front of the
  sentinel, as the assignments to `next` and `prev`.
-/

namespace Yangkv.Lib

variable {α : Type*} {next prev next' prev' : α → Option α} {a b c d : α} {l : List α}

/-- From `a` the `next` links go through `l` to `b`, and the `prev` links back. -/
def Seg (next prev : α → Option α) (a : α) : List α → α → Prop
  | [], b => next a = some b ∧ prev b = some a
  | x :: l, b => (next a = some x ∧ prev x = some a) ∧ Seg next prev x l b

theorem Seg.append_iff {l₁ l₂ : List α} : Seg next prev a (l₁ ++ b :: l₂) c ↔
    Seg next prev a l₁ b ∧ Seg next prev b l₂ c := by
  induction l₁ generalizing a with
  | nil => rfl
  | cons x l₁ ih =>
    rw [List.cons_append, Seg, Seg, ih]
    exact and_assoc.symm

/-- A segment only depends on the links between its cells. -/
theorem Seg.congr (hn : ∀ x ∈ a :: l, next' x = next x) (hp : ∀ x, x ∈ l ∨ x = b → prev' x = prev x)
    (h : Seg next prev a l b) : Seg next' prev' a l b := by
  induction l generalizing a with
  | nil => exact ⟨by rw [hn a List.mem_cons_self]; exact h.1, by rw [hp b (.inr rfl)]; exact h.2⟩
  | cons x l ih =>
    obtain ⟨⟨h1, h2⟩, h3⟩ := h
    refine ⟨⟨?_, ?_⟩, ih (fun y hy => hn y (List.mem_cons_of_mem _ hy)) (fun y hy => ?_) h3⟩
    · rw [hn a List.mem_cons_self]
      exact h1
    · rw [hp x (.inl List.mem_cons_self)]
      exact h2
    · exact hp y (hy.imp_left (List.mem_cons_of_mem _))

/-- The cells `l` and the sentinel `d` form a ring. -/
structure IsRing (next prev : α → Option α) (d : α) (l : List α) : Prop where
  nodup : (d :: l).Nodup
  seg : Seg next prev d l d

theorem IsRing.nil (hn : next d = some d) (hp : prev d = some d) : IsRing next prev d [] :=
  ⟨List.nodup_singleton d, hn, hp⟩

theorem IsRing.congr (hn : ∀ x ∈ d :: l, next' x = next x) (hp : ∀ x ∈ d :: l, prev' x = prev x)
    (h : IsRing next prev d l) : IsRing next' prev' d l := by
  refine ⟨h.nodup, h.seg.congr hn fun x hx => hp x ?_⟩
  rcases hx with hx | rfl
  · exact List.mem_cons_of_mem _ hx
  · exact List.mem_cons_self

variable [DecidableEq α]

/-- **Setting the last link**: its source `p` is one of the cells of the segment. -/
theorem Seg.retarget (h : Seg next prev a l b) (hnodup : (a :: l).Nodup) (hc : c ∉ l) :
    ∃ p ∈ a :: l, next p = some b ∧ prev b = some p ∧
      Seg (Function.update next p (some c)) (Function.update prev c (some p)) a l c := by
  induction l generalizing a with
  | nil =>
    exact ⟨a, List.mem_singleton_self a, h.1, h.2, Function.update_self .., Function.update_self ..⟩
  | cons x l ih =>
    obtain ⟨⟨h1, h2⟩, h3⟩ := h
    obtain ⟨ha, hnodup⟩ := List.nodup_cons.1 hnodup
    obtain ⟨p, hp, g1, g2, g3⟩ := ih h3 hnodup fun hmem => hc (List.mem_cons_of_mem _ hmem)
    have hap : a ≠ p := fun e => ha (e ▸ hp)
    have hxc : x ≠ c := fun e => hc (e ▸ List.mem_cons_self)
    refine ⟨p, List.mem_cons_of_mem _ hp, g1, g2, ⟨?_, ?_⟩, g3⟩
    · rw [Function.update_of_ne hap]
      exact h1
    · rw [Function.update_of_ne hxc]
      exact h2

namespace IsRing

/-- **Taking a cell out of a ring.** -/
theorem unlink (h : IsRing next prev d l) (ha : a ∈ l) : ∃ p n,
    prev a = some p ∧ next a = some n ∧ p ≠ a ∧ n ≠ a ∧ p ∈ d :: l ∧ n ∈ d :: l ∧
      IsRing (Function.update next p (some n)) (Function.update prev n (some p)) d (l.erase a) := by
  obtain ⟨l₁, l₂, rfl⟩ := List.append_of_mem ha
  have hnodup := h.nodup
  obtain ⟨h1, h2⟩ := Seg.append_iff.1 h.seg
  rw [← List.cons_append, List.nodup_append] at hnodup
  obtain ⟨hd1, ha2, hdisj⟩ := hnodup
  obtain ⟨ha2, hd2⟩ := List.nodup_cons.1 ha2
  have ha1 : a ∉ d :: l₁ := fun hmem => hdisj a hmem a List.mem_cons_self rfl
  have herase : (l₁ ++ a :: l₂).erase a = l₁ ++ l₂ := by
    rw [List.erase_append_right _ fun hmem => ha1 (List.mem_cons_of_mem _ hmem),
      List.erase_cons_head]
  have hnew : (d :: (l₁ ++ l₂)).Nodup := by
    rw [← List.cons_append, List.nodup_append]
    exact ⟨hd1, hd2, fun x hx y hy => hdisj x hx y (List.mem_cons_of_mem _ hy)⟩
  have hin : ∀ x ∈ d :: l₁, x ∈ d :: (l₁ ++ a :: l₂) := fun x hx => by
    rw [← List.cons_append]
    exact List.mem_append_left _ hx
  rw [herase]
  cases l₂ with
  | nil =>
    -- the cell behind `a` is the sentinel
    obtain ⟨p, hp, g1, g2, g3⟩ := h1.retarget hd1 (c := d) (List.nodup_cons.1 hd1).1
    refine ⟨p, d, g2, h2.1, fun e => ha1 (e ▸ hp), fun e => ha1 (e ▸ List.mem_cons_self), hin p hp,
      List.mem_cons_self, hnew, ?_⟩
    rw [List.append_nil]
    exact g3
  | cons n l₂ =>
    have hn1 : n ∉ d :: l₁ := fun hmem =>
      hdisj n hmem n (List.mem_cons_of_mem _ List.mem_cons_self) rfl
    obtain ⟨p, hp, g1, g2, g3⟩ := h1.retarget hd1 (c := n) fun hmem =>
      hn1 (List.mem_cons_of_mem _ hmem)
    obtain ⟨hn2, -⟩ := List.nodup_cons.1 hd2
    have hp2 : p ∉ n :: l₂ := fun hmem => hdisj p hp p (List.mem_cons_of_mem _ hmem) rfl
    refine ⟨p, n, g2, h2.1.1, fun e => ha1 (e ▸ hp), fun e => ha2 (e ▸ List.mem_cons_self),
      hin p hp, by simp, hnew, Seg.append_iff.2 ⟨g3, ?_⟩⟩
    refine h2.2.congr (fun x hx => ?_) fun x hx => ?_
    · have hxp : x ≠ p := fun e => hp2 (e ▸ hx)
      exact Function.update_of_ne hxp ..
    have hxn : x ≠ n := by
      rcases hx with hx | rfl
      · exact fun e => hn2 (e ▸ hx)
      · exact fun e => hn1 (e ▸ List.mem_cons_self)
    exact Function.update_of_ne hxn ..

/-- **Putting a cell in front of the sentinel.** -/
theorem append (h : IsRing next prev d l) (ha : a ∉ d :: l) : ∃ p, prev d = some p ∧ p ∈ d :: l ∧
    IsRing (Function.update (Function.update next a (some d)) p (some a))
      (Function.update (Function.update prev a (some p)) d (some a)) d (l ++ [a]) := by
  have hal : a ∉ l := fun hmem => ha (List.mem_cons_of_mem _ hmem)
  have had : d ≠ a := fun e => ha (e ▸ List.mem_cons_self)
  have hseg : Seg (Function.update next a (some d)) prev d l d := by
    refine h.seg.congr (fun x hx => ?_) fun _ _ => rfl
    have hxa : x ≠ a := fun e => ha (e ▸ hx)
    exact Function.update_of_ne hxa ..
  obtain ⟨p, hp, -, g2, g3⟩ := hseg.retarget h.nodup hal
  have hpa : a ≠ p := fun e => ha (e ▸ hp)
  refine ⟨p, g2, hp, ?_, Seg.append_iff.2 ⟨g3.congr (fun _ _ => rfl) fun x hx => ?_, ?_, ?_⟩⟩
  · rw [← List.cons_append, List.nodup_append]
    refine ⟨h.nodup, List.nodup_singleton a, fun x hx y hy e => ha ?_⟩
    rw [← List.mem_singleton.1 hy, ← e]
    exact hx
  · have hxd : x ≠ d := by
      rcases hx with hx | rfl
      · exact fun e => (List.nodup_cons.1 h.nodup).1 (e ▸ hx)
      · exact had.symm
    exact Function.update_of_ne hxd ..
  · rw [Function.update_of_ne hpa, Function.update_self]
  · exact Function.update_self ..

end IsRing

end Yangkv.Lib
