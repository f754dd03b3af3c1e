import Mathlib.Order.Nat

/-!
# Functions with fuel

A loop without a bound is run with fuel, and has no result when the fuel ends. It
returns `a` when every large enough amount of fuel gives `a`; it hangs when no
amount gives anything.
-/

namespace Yangkv.Lib

variable {α : Type*}

/-- `f` returns `a`. -/
def Returns (f : ℕ → Option α) (a : α) : Prop := ∃ n, ∀ fuel, n ≤ fuel → f fuel = some a

/-- No fuel is enough. -/
def Hangs (f : ℕ → Option α) : Prop := ∀ fuel, f fuel = none

theorem Returns.unique {f : ℕ → Option α} {a b : α} (ha : Returns f a) (hb : Returns f b) : a = b := by
  obtain ⟨m, hm⟩ := ha
  obtain ⟨n, hn⟩ := hb
  have h := hm (max m n) (Nat.le_max_left _ _)
  rw [hn _ (Nat.le_max_right _ _)] at h
  exact (Option.some.inj h).symm

theorem Hangs.not_returns {f : ℕ → Option α} (h : Hangs f) (a : α) : ¬ Returns f a := by
  rintro ⟨n, hn⟩
  have := hn n (Nat.le_refl n)
  rw [h n] at this
  cases this

end Yangkv.Lib
