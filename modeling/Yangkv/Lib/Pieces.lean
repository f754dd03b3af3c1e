import Mathlib.Data.List.Forall2

/-!
# Strings that have lost their ends

`Begins cut xs` says that string by string `cut` has a front part of `xs`. What is left of
the strings is then in their order, and nothing comes twice.

* `exists_begins`: this is how a front part of the whole is cut.
* `Begins.trans`: the ends may be lost one after the other.
-/

namespace Yangkv.Lib

variable {α : Type*} {xs ys zs : List (List α)} {s d : List α}

/-- Each string begins the one at its place. -/
abbrev Begins : List (List α) → List (List α) → Prop := List.Forall₂ (· <+: ·)

theorem Begins.trans (h : Begins xs ys) (h' : Begins ys zs) : Begins xs zs := by
  induction h generalizing zs with
  | nil => exact h'
  | cons hx _ ih =>
    cases h' with
    | cons hy h' => exact .cons (hx.trans hy) (ih h')

theorem Begins.concat (h : Begins xs ys) (hs : s <+: d) : Begins (xs ++ [s]) (ys ++ [d]) :=
  List.rel_append h (.cons hs .nil)

/-- **A front part of the whole is cut from front parts of the strings.** -/
theorem exists_begins (h : s <+: xs.flatten) : ∃ cut, Begins cut xs ∧ s = cut.flatten := by
  induction xs generalizing s with
  | nil => exact ⟨[], .nil, List.prefix_nil.1 h⟩
  | cons x xs ih =>
    have hs : s = x.take s.length ++ xs.flatten.take (s.length - x.length) := by
      rw [← List.take_append]
      exact List.prefix_iff_eq_take.1 h
    obtain ⟨cut, hcut, hflat⟩ := ih (List.take_prefix (s.length - x.length) xs.flatten)
    refine ⟨x.take s.length :: cut, .cons (List.take_prefix ..) hcut, ?_⟩
    rw [List.flatten_cons, ← hflat]
    exact hs

end Yangkv.Lib
