import Mathlib.Data.List.Basic

/-!
# Labelled machines and their runs

A machine takes one step per label, and a label that cannot be taken in a state
gives no step. Every interleaving of several threads is a list of labels. A step
may show an event; the events of a run, in order, are its history.

* `Exec G s₀ h s`: a run from `s₀` to `s` with history `h`, each of whose steps
  meets `G`.
* `Exec.induct`: an invariant of history and state that holds at the start and is
  kept by every step holds after every run.
* `Exec.split`: a run that shows an event is a run up to the step that shows it,
  that step, and a run after it.
* `exec_sound`, `exec_check`: evaluating a list of labels gives a run, whose steps meet `G`
  where the evaluation checked it.
-/

namespace Yangkv.Lib

/-- `step s l` is the state after the step `l`, `event s l` what the step shows. -/
structure Machine (σ ι ε : Type*) where
  step : σ → ι → Option σ
  event : σ → ι → Option ε

namespace Machine

variable {σ ι ε : Type*} (M : Machine σ ι ε)

/-- `s` is reached from `s₀` with history `h` by steps that meet `G`. -/
inductive Exec (G : σ → ι → Prop) (s₀ : σ) : List ε → σ → Prop
  | start : Exec G s₀ [] s₀
  | next {h s l s'} : Exec G s₀ h s → G s l → M.step s l = some s' →
      Exec G s₀ (h ++ (M.event s l).toList) s'

/-- Every step is allowed. -/
abbrev Any : σ → ι → Prop := fun _ _ => True

instance (s : σ) (l : ι) : Decidable (Any s l) := inferInstanceAs (Decidable True)

variable {M} {G G' : σ → ι → Prop} {s₀ s s' : σ} {h h' : List ε}

/-- **The invariant rule.** -/
theorem Exec.induct {I : List ε → σ → Prop} (h0 : I [] s₀)
    (hstep : ∀ h s l s', I h s → G s l → M.step s l = some s' → I (h ++ (M.event s l).toList) s')
    (hx : M.Exec G s₀ h s) : I h s := by
  induction hx with
  | start => exact h0
  | next _ hg hs ih => exact hstep _ _ _ _ ih hg hs

/-- The invariant rule for a property of states alone. -/
theorem Exec.invariant {I : σ → Prop} (h0 : I s₀)
    (hstep : ∀ s l s', I s → G s l → M.step s l = some s' → I s')
    (hx : M.Exec G s₀ h s) : I s :=
  hx.induct (I := fun _ s => I s) h0 fun _ s l s' hi hg hs => hstep s l s' hi hg hs

theorem Exec.mono (hG : ∀ s l, G s l → G' s l) (hx : M.Exec G s₀ h s) : M.Exec G' s₀ h s := by
  induction hx with
  | start => exact .start
  | next _ hg hs ih => exact .next ih (hG _ _ hg) hs

/-- In a run that keeps `I`, more may be said of each step. -/
theorem Exec.strengthen {I : σ → Prop} (h0 : I s₀)
    (hstep : ∀ s l s', I s → G s l → M.step s l = some s' → I s')
    (hG : ∀ s l, I s → G s l → G' s l) (hx : M.Exec G s₀ h s) : M.Exec G' s₀ h s := by
  induction hx with
  | start => exact .start
  | next hp hg hs ih => exact .next ih (hG _ _ (hp.invariant h0 hstep) hg) hs

theorem Exec.append (hx : M.Exec G s₀ h s) (hy : M.Exec G s h' s') : M.Exec G s₀ (h ++ h') s' := by
  induction hy with
  | start => simpa using hx
  | next _ hg hs ih => rw [← List.append_assoc]; exact .next ih hg hs

/-- **A run splits at each event it shows.** -/
theorem Exec.split {h₁ h₂ : List ε} {e : ε} (hx : M.Exec G s₀ (h₁ ++ e :: h₂) s) :
    ∃ s₁ l s₂, M.Exec G s₀ h₁ s₁ ∧ G s₁ l ∧ M.step s₁ l = some s₂ ∧ M.event s₁ l = some e ∧
      M.Exec G s₂ h₂ s := by
  generalize hh : h₁ ++ e :: h₂ = h at hx
  induction hx generalizing h₂ with
  | start => simp at hh
  | @next h t l t' hp hg hs ih =>
    cases he : M.event t l with
    | none =>
      rw [he, Option.toList_none, List.append_nil] at hh
      obtain ⟨s₁, l₁, s₂, a, b, c, d, f⟩ := ih hh
      have := Exec.next f hg hs
      rw [he, Option.toList_none, List.append_nil] at this
      exact ⟨s₁, l₁, s₂, a, b, c, d, this⟩
    | some e' =>
      rw [he, Option.toList_some] at hh
      rcases List.eq_nil_or_concat h₂ with rfl | ⟨g, x, rfl⟩
      · -- the event is the one this last step shows
        obtain ⟨rfl, h2⟩ := List.append_inj' hh rfl
        simp only [List.cons.injEq, and_true] at h2
        subst h2
        exact ⟨t, l, t', hp, hg, hs, he, .start⟩
      · rw [List.concat_eq_append, ← List.cons_append, ← List.append_assoc] at hh
        obtain ⟨h1, h2⟩ := List.append_inj' hh rfl
        simp only [List.cons.injEq, and_true] at h2
        subst h2
        obtain ⟨s₁, l₁, s₂, a, b, c, d, f⟩ := ih h1
        have := Exec.next f hg hs
        rw [he, Option.toList_some] at this
        rw [List.concat_eq_append]
        exact ⟨s₁, l₁, s₂, a, b, c, d, this⟩

/-- `M`, whose steps also show what `ev` says of them. -/
def track {δ : Type*} (M : Machine σ ι ε) (ev : σ → ι → Option δ) :
    Machine σ ι (Option ε × Option δ) :=
  ⟨M.step, fun s l => some (M.event s l, ev s l)⟩

/-- The state after a list of labels whose steps meet `G`, with the history. -/
def exec (M : Machine σ ι ε) (G : σ → ι → Prop) [∀ s l, Decidable (G s l)] :
    σ → List ι → Option (List ε × σ)
  | s, [] => some ([], s)
  | s, l :: ls =>
    if G s l then (M.step s l).bind fun s' =>
      (exec M G s' ls).map fun r => ((M.event s l).toList ++ r.1, r.2)
    else none

variable [∀ s l, Decidable (G s l)]

theorem exec_cons {l : ι} {ls : List ι} {r : List ε × σ} (hr : M.exec G s (l :: ls) = some r) :
    G s l ∧ ∃ s' r', M.step s l = some s' ∧ M.exec G s' ls = some r' ∧
      r = ((M.event s l).toList ++ r'.1, r'.2) := by
  unfold exec at hr
  split at hr
  · rename_i hg
    obtain ⟨s', hs, hr⟩ := Option.bind_eq_some_iff.1 hr
    obtain ⟨r', hr', rfl⟩ := Option.map_eq_some_iff.1 hr
    exact ⟨hg, s', r', hs, hr', rfl⟩
  · cases hr

/-- **What a list of labels evaluates to is a run.** -/
theorem exec_sound {ls : List ι} {r : List ε × σ} (hr : M.exec G s ls = some r) :
    M.Exec G s r.1 r.2 := by
  induction ls generalizing s r with
  | nil => simp only [exec, Option.some.injEq] at hr; subst hr; exact .start
  | cons l ls ih =>
    obtain ⟨hg, s', r', hs, hr', rfl⟩ := exec_cons hr
    have h1 : M.Exec G s ([] ++ (M.event s l).toList) s' := .next .start hg hs
    exact h1.append (ih hr')

/-- A history that evaluates is the history of a run. -/
theorem exec_history {ls : List ι} (hr : (M.exec G s ls).map Prod.fst = some h) :
    ∃ s', M.Exec G s h s' := by
  obtain ⟨r, hr', rfl⟩ := Option.map_eq_some_iff.1 hr
  exact ⟨r.2, exec_sound hr'⟩

/-- What evaluates to true at the end of a list of labels holds at the end of a run. -/
theorem exec_check {ls : List ι} {P : List ε × σ → Prop} [DecidablePred P]
    (hr : (M.exec G s ls).map (fun r => decide (P r)) = some true) :
    ∃ h s', M.Exec G s h s' ∧ P (h, s') := by
  obtain ⟨r, hexec, hb⟩ := Option.map_eq_some_iff.1 hr
  exact ⟨r.1, r.2, exec_sound hexec, of_decide_eq_true hb⟩

end Machine

end Yangkv.Lib
