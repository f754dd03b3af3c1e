import Mathlib.Logic.Function.Basic
import Yangkv.Lib.Refinement

/-!
# Atomic objects

The operations of an atomic object are called by a thread, take effect in one instant, and
return. A machine implements the object if its history, with an act where an operation takes
effect, is read to the end by `Atomic.next`.

* `follow_value`: the object is what its operations make of it, in the order of the effects.
* `effect_once`: between a call and its return lies one effect of the thread, that of the call.
-/

namespace Yangkv.Lib

/-- Where a thread is in an operation. -/
inductive Atomic.Phase (ω ρ : Type*)
  | idle
  | called (op : ω)
  /-- the effect is done -/
  | done (result : ρ)
  deriving DecidableEq

/-- What happens to the object. -/
inductive Act (τ ω ρ : Type*)
  | call (t : τ) (op : ω)
  | effect (t : τ) (op : ω)
  | ret (t : τ) (result : ρ)
  deriving DecidableEq

structure Atomic (τ α ω ρ : Type*) where
  value : α
  phase : τ → Atomic.Phase ω ρ

variable {τ α ω ρ : Type*}

/-- Who does it. -/
def Act.thread : Act τ ω ρ → τ
  | .call t _ | .effect t _ | .ret t _ => t

/-- The operations that took effect, in order. -/
def effects (h : List (Act τ ω ρ)) : List ω :=
  h.filterMap fun
    | .effect _ op => some op
    | _ => none

/-- The acts of `t` in `h` are effects. -/
def Within (t : τ) (h : List (Act τ ω ρ)) : Prop := ∀ a ∈ h, a.thread = t → ∃ op, a = .effect t op

theorem Within.tail {t : τ} {a : Act τ ω ρ} {h : List (Act τ ω ρ)} (hw : Within t (a :: h)) :
    Within t h := fun b hb => hw b (List.mem_cons_of_mem _ hb)

namespace Atomic

variable [DecidableEq τ] [DecidableEq ω] [DecidableEq ρ] {apply : α → ω → α × ρ}
  {s s' : Atomic τ α ω ρ} {t : τ} {op : ω} {r : ρ} {h : List (Act τ ω ρ)} {a : Act τ ω ρ}

def next (apply : α → ω → α × ρ) (s : Atomic τ α ω ρ) : Act τ ω ρ → Option (Atomic τ α ω ρ)
  | .call t op =>
    if s.phase t = .idle then some { s with phase := Function.update s.phase t (.called op) } else none
  | .effect t op =>
    if s.phase t = .called op then
      some ⟨(apply s.value op).1, Function.update s.phase t (.done (apply s.value op).2)⟩
    else none
  | .ret t r =>
    if s.phase t = .done r then some { s with phase := Function.update s.phase t .idle } else none

theorem follow_call (hp : s.phase t = .idle) : follow (next apply) s [.call t op] =
    some { s with phase := Function.update s.phase t (.called op) } := by
  rw [follow_singleton, next, if_pos hp]

theorem follow_effect (hp : s.phase t = .called op) : follow (next apply) s [.effect t op] =
    some ⟨(apply s.value op).1, Function.update s.phase t (.done (apply s.value op).2)⟩ := by
  rw [follow_singleton, next, if_pos hp]

theorem follow_ret (hp : s.phase t = .done r) : follow (next apply) s [.ret t r] =
    some { s with phase := Function.update s.phase t .idle } := by
  rw [follow_singleton, next, if_pos hp]

/-- **The value is that of the effects.** -/
theorem follow_value (hr : follow (next apply) s h = some s') :
    s'.value = (effects h).foldl (fun v op => (apply v op).1) s.value := by
  induction h generalizing s with
  | nil =>
    rw [follow_nil, Option.some.injEq] at hr
    rw [← hr]
    rfl
  | cons a h ih =>
    obtain ⟨s₁, h1, h2⟩ := follow_cons.1 hr
    rw [ih h2]
    cases a <;> simp only [next] at h1 <;> split at h1 <;> cases h1 <;> rfl

/-- A step of another thread. -/
theorem next_phase (hn : next apply s a = some s') (ht : a.thread ≠ t) : s'.phase t = s.phase t := by
  cases a <;> simp only [next] at hn <;> split at hn <;> cases hn <;>
    exact Function.update_of_ne (Ne.symm ht) _ _

theorem follow_other (hr : follow (next apply) s h = some s') (ht : ∀ a ∈ h, a.thread ≠ t) :
    s'.phase t = s.phase t := by
  induction h generalizing s with
  | nil =>
    rw [follow_nil, Option.some.injEq] at hr
    rw [hr]
  | cons a h ih =>
    obtain ⟨s₁, h1, h2⟩ := follow_cons.1 hr
    have hrest := ih h2 fun b hb => ht b (List.mem_cons_of_mem _ hb)
    rw [hrest, next_phase h1 (ht a List.mem_cons_self)]

/-- After its effect a thread has nothing left but to return. -/
theorem follow_done (hp : s.phase t = .done r) (hw : Within t h)
    (hr : follow (next apply) s h = some s') : ∀ a ∈ h, a.thread ≠ t := by
  induction h generalizing s with
  | nil => exact fun a ha => absurd ha List.not_mem_nil
  | cons a h ih =>
    obtain ⟨s₁, h1, h2⟩ := follow_cons.1 hr
    have hne : a.thread ≠ t := by
      intro ht
      obtain ⟨op, rfl⟩ := hw a List.mem_cons_self ht
      rw [next, hp, if_neg (by simp)] at h1
      cases h1
    intro b hb
    obtain rfl | hb := List.mem_cons.1 hb
    · exact hne
    · exact ih ((next_phase h1 hne).trans hp) hw.tail h2 b hb

/-- A thread that was called does nothing, or its operation takes effect, once. -/
theorem follow_called (hp : s.phase t = .called op) (hw : Within t h)
    (hr : follow (next apply) s h = some s') : (∀ a ∈ h, a.thread ≠ t) ∨
      ∃ h₁ h₂, h = h₁ ++ .effect t op :: h₂ ∧ (∀ a ∈ h₁, a.thread ≠ t) ∧
        ∀ a ∈ h₂, a.thread ≠ t := by
  induction h generalizing s with
  | nil => exact .inl fun a ha => absurd ha List.not_mem_nil
  | cons a h ih =>
    obtain ⟨s₁, h1, h2⟩ := follow_cons.1 hr
    by_cases ht : a.thread = t
    · obtain ⟨op', rfl⟩ := hw a List.mem_cons_self ht
      simp only [next, hp, Phase.called.injEq] at h1
      split at h1
      · rename_i hop
        subst hop
        cases h1
        have hrest := follow_done (Function.update_self ..) hw.tail h2
        exact .inr ⟨[], h, rfl, fun a ha => absurd ha List.not_mem_nil, hrest⟩
      · cases h1
    · rcases ih ((next_phase h1 ht).trans hp) hw.tail h2 with h3 | ⟨h₁, h₂, rfl, h3, h4⟩
      · exact .inl (List.forall_mem_cons.2 ⟨ht, h3⟩)
      · exact .inr ⟨a :: h₁, h₂, rfl, List.forall_mem_cons.2 ⟨ht, h3⟩, h4⟩

/-- **One effect for each call**, between it and the return, with the result of the operation on the
value there. -/
theorem effect_once {h₁ h₂ h₃ : List (Act τ ω ρ)}
    (hr : follow (next apply) s (h₁ ++ .call t op :: (h₂ ++ .ret t r :: h₃)) = some s')
    (hw : Within t h₂) : ∃ l₁ l₂, h₂ = l₁ ++ .effect t op :: l₂ ∧
      (∀ a ∈ l₁, a.thread ≠ t) ∧ (∀ a ∈ l₂, a.thread ≠ t) ∧
      r = (apply ((effects (h₁ ++ l₁)).foldl (fun v op => (apply v op).1) s.value) op).2 := by
  obtain ⟨s₁, hr₁, hr⟩ := follow_split hr
  obtain ⟨s₂, h1, hr⟩ := follow_cons.1 hr
  obtain ⟨s₃, h2, hr⟩ := follow_split hr
  obtain ⟨s₄, h3, -⟩ := follow_cons.1 hr
  have hcall : s₂.phase t = .called op ∧ s₂.value = s₁.value := by
    simp only [next] at h1
    split at h1
    · cases h1
      exact ⟨Function.update_self .., rfl⟩
    · cases h1
  have hret : s₃.phase t = .done r := by
    by_contra hp
    rw [next, if_neg hp] at h3
    cases h3
  rcases follow_called hcall.1 hw h2 with h4 | ⟨l₁, l₂, rfl, h4, h5⟩
  · rw [follow_other h2 h4, hcall.1] at hret
    cases hret
  · refine ⟨l₁, l₂, rfl, h4, h5, ?_⟩
    obtain ⟨s₅, h6, h7⟩ := follow_split h2
    obtain ⟨s₆, h8, h9⟩ := follow_cons.1 h7
    have hvalue : s₅.value = (effects (h₁ ++ l₁)).foldl (fun v op => (apply v op).1) s.value := by
      rw [follow_value h6, hcall.2, follow_value hr₁, effects, effects, effects, List.filterMap_append,
        List.foldl_append]
    have heffect : s₆.phase t = .done (apply s₅.value op).2 := by
      simp only [next] at h8
      split at h8
      · cases h8
        exact Function.update_self ..
      · cases h8
    rw [follow_other h9 h5, heffect, Phase.done.injEq] at hret
    rw [← hret, hvalue]

end Atomic

end Yangkv.Lib
