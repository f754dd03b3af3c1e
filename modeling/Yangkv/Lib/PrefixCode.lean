import Mathlib.Data.List.Basic

/-!
# Prefix codes

A code is read off the front of any word it begins: what is behind it does not matter.

* `SelfDelimiting.of_read`: a code that some reader takes off is one.
* `SelfDelimiting.flatMap_inj`: a list of codes, one behind the other, is read in one
  way only.
-/

namespace Yangkv.Lib

variable {α β : Type*} {P : α → Prop} {encode : α → List β}

/-- The codes of those with `P` are told from each other, and from anything behind them. -/
def SelfDelimiting (P : α → Prop) (encode : α → List β) : Prop :=
  ∀ ⦃a b : α⦄, P a → P b → ∀ ⦃s t : List β⦄, encode a ++ s = encode b ++ t → a = b ∧ s = t

namespace SelfDelimiting

theorem of_read {read : List β → Option (α × List β)}
    (h : ∀ a, P a → ∀ s, read (encode a ++ s) = some (a, s)) : SelfDelimiting P encode := by
  intro a b ha hb s t heq
  have hread := h a ha s
  rw [heq, h b hb t, Option.some.injEq, Prod.mk.injEq] at hread
  exact ⟨hread.1.symm, hread.2.symm⟩

/-- **Codes one behind the other are read in one way.** -/
theorem flatMap_inj (h : SelfDelimiting P encode) (hne : ∀ a, P a → encode a ≠ []) {as bs : List α}
    (ha : ∀ a ∈ as, P a) (hb : ∀ b ∈ bs, P b) (heq : as.flatMap encode = bs.flatMap encode) :
    as = bs := by
  induction as generalizing bs with
  | nil =>
    cases bs with
    | nil => rfl
    | cons b bs =>
      rw [List.flatMap_nil, List.flatMap_cons] at heq
      exact absurd (List.append_eq_nil_iff.1 heq.symm).1 (hne b (hb b List.mem_cons_self))
  | cons a as ih =>
    cases bs with
    | nil =>
      rw [List.flatMap_nil, List.flatMap_cons] at heq
      exact absurd (List.append_eq_nil_iff.1 heq).1 (hne a (ha a List.mem_cons_self))
    | cons b bs =>
      rw [List.flatMap_cons, List.flatMap_cons] at heq
      obtain ⟨hab, hrest⟩ := h (ha a List.mem_cons_self) (hb b List.mem_cons_self) heq
      have hbs := ih (fun x hx => ha x (List.mem_cons_of_mem _ hx))
        (fun x hx => hb x (List.mem_cons_of_mem _ hx)) hrest
      rw [hab, hbs]

end SelfDelimiting

end Yangkv.Lib
