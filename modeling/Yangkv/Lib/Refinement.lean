import Mathlib.Data.List.Basic
import Yangkv.Lib.Machine

/-!
# Refinement by histories

An abstract model reads the events of a history one after the other and has no next
state where an event is not allowed. A machine refines it if every history of the
machine is read to the end, and the two states then correspond.

* `follow_append`, `follow_split`: a history is read in parts.
* `Exec.refines`: a correspondence that every step keeps holds after every run.
-/

namespace Yangkv.Lib

variable {σ ι ε τ : Type*}

/-- The state of the abstract model after a history. -/
def follow (next : τ → ε → Option τ) (a : τ) (h : List ε) : Option τ := h.foldlM next a

variable {next : τ → ε → Option τ} {a b c : τ} {h h' : List ε}

@[simp] theorem follow_nil : follow next a [] = some a := rfl

theorem follow_singleton (e : ε) : follow next a [e] = next a e := by
  unfold follow
  rw [List.foldlM_cons]
  exact bind_pure _

theorem follow_cons {e : ε} :
    follow next a (e :: h) = some c ↔ ∃ b, next a e = some b ∧ follow next b h = some c := by
  unfold follow
  rw [List.foldlM_cons]
  exact Option.bind_eq_some_iff

theorem follow_append (h1 : follow next a h = some b) (h2 : follow next b h' = some c) :
    follow next a (h ++ h') = some c := by
  unfold follow at *
  rw [List.foldlM_append, h1]
  exact h2

theorem follow_split (hr : follow next a (h ++ h') = some c) :
    ∃ b, follow next a h = some b ∧ follow next b h' = some c := by
  unfold follow at *
  rw [List.foldlM_append] at hr
  exact Option.bind_eq_some_iff.1 hr

/-- **The refinement rule.** -/
theorem Machine.Exec.refines {M : Machine σ ι ε} {G : σ → ι → Prop} {R : τ → σ → Prop}
    {s₀ s : σ} {a₀ : τ} {hist : List ε} (h0 : R a₀ s₀)
    (hstep : ∀ a s l s', R a s → G s l → M.step s l = some s' →
      ∃ a', follow next a (M.event s l).toList = some a' ∧ R a' s')
    (hx : M.Exec G s₀ hist s) : ∃ a, follow next a₀ hist = some a ∧ R a s := by
  refine hx.induct (I := fun h s => ∃ a, follow next a₀ h = some a ∧ R a s) ⟨a₀, rfl, h0⟩ ?_
  intro h s l s' ⟨a, ha, hR⟩ hg hs
  obtain ⟨a', ha', hR'⟩ := hstep a s l s' hR hg hs
  exact ⟨a', follow_append ha ha', hR'⟩

end Yangkv.Lib
