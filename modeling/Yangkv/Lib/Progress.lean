import Yangkv.Lib.Machine

/-!
# What a machine can still reach

`CanReach M G s P` says that some run of steps that meet `G` leads from `s` to a state
with `P`: from `s` on, nothing stands in the way of `P` for good.

* `CanReach.trans`: one goal after the other.
* `CanReach.measure`: a goal that comes nearer each time is reached.
-/

namespace Yangkv.Lib.Machine

variable {σ ι ε : Type*} {M : Machine σ ι ε} {G : σ → ι → Prop} {P Q I : σ → Prop} {s s' : σ} {l : ι}

def CanReach (M : Machine σ ι ε) (G : σ → ι → Prop) (s : σ) (P : σ → Prop) : Prop :=
  ∃ h s', M.Exec G s h s' ∧ P s'

namespace CanReach

theorem refl (hp : P s) : M.CanReach G s P := ⟨[], s, .start, hp⟩

theorem step (hg : G s l) (hs : M.step s l = some s') (hp : M.CanReach G s' P) : M.CanReach G s P := by
  obtain ⟨h, s'', hx, hp⟩ := hp
  have hone : M.Exec G s ([] ++ (M.event s l).toList) s' := .next .start hg hs
  exact ⟨_, s'', hone.append hx, hp⟩

theorem trans (hp : M.CanReach G s P) (hq : ∀ s', P s' → M.CanReach G s' Q) : M.CanReach G s Q := by
  obtain ⟨h, s', hx, hs'⟩ := hp
  obtain ⟨h', s'', hy, hs''⟩ := hq s' hs'
  exact ⟨h ++ h', s'', hx.append hy, hs''⟩

theorem mono (hp : M.CanReach G s P) (hpq : ∀ s', P s' → Q s') : M.CanReach G s Q :=
  hp.trans fun s' hs' => refl (hpq s' hs')

/-- What every step keeps, holds there too. -/
theorem keep (hp : M.CanReach G s P) (hi : I s)
    (hstep : ∀ s l s', I s → G s l → M.step s l = some s' → I s') :
    M.CanReach G s fun s' => I s' ∧ P s' := by
  obtain ⟨h, s', hx, hs'⟩ := hp
  exact ⟨h, s', hx, hx.invariant hi hstep, hs'⟩

/-- **The measure rule.** -/
theorem measure (μ : σ → ℕ)
    (hstep : ∀ s, I s → ¬ P s → M.CanReach G s fun s' => I s' ∧ μ s' < μ s) (hi : I s) :
    M.CanReach G s fun s' => I s' ∧ P s' := by
  induction hn : μ s using Nat.strongRecOn generalizing s with
  | ind n ih =>
    by_cases hp : P s
    · exact refl ⟨hi, hp⟩
    · refine (hstep s hi hp).trans fun s' ⟨hi', hlt⟩ => ?_
      rw [hn] at hlt
      exact ih (μ s') hlt hi' rfl

end CanReach

end Yangkv.Lib.Machine
