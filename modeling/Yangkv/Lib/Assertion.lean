import Mathlib.Data.List.Induction

/-!
# Loops whose steps assert something

A step that fails an assertion gives no result. `Yields r P t` says that `r` can only
end in `t`, and that no assertion fails where `P` holds.

* `Yields.bind`: one computation after another.
* `Yields.foldlM`: a loop over a list, from what holds after each part of it.
* `foldlM_of_steps`: a loop none of whose assertions fails.
* `update_mem_snoc`: a loop that changes a function at the elements of the list.
-/

namespace Yangkv.Lib

variable {α β γ : Type*}

/-- The result is `t`, or an assertion has failed, which none does where `P` holds. -/
def Yields (r : Option β) (P : Prop) (t : β) : Prop := r = some t ∨ r = none ∧ ¬P

namespace Yields

variable {r : Option β} {P Q R : Prop} {t : β} {u : γ}

theorem eq_of_some {b : β} (h : Yields r P t) (hb : r = some b) : b = t := by
  rcases h with h | h
  · rw [h, Option.some.injEq] at hb
    exact hb.symm
  · rw [h.1] at hb
    cases hb

theorem eq_some (h : Yields r P t) (hP : P) : r = some t := h.resolve_right fun hn => hn.2 hP

theorem mono (h : Yields r P t) (hQ : Q → P) : Yields r Q t :=
  h.imp_right fun hn => ⟨hn.1, fun hq => hn.2 (hQ hq)⟩

theorem bind {k : β → Option γ} (h : Yields r P t) (hk : Yields (k t) Q u) (hP : R → P)
    (hQ : R → Q) : Yields (r.bind k) R u := by
  rcases h with h | h
  · rw [h, Option.bind_some]
    exact hk.mono hQ
  · exact .inr ⟨by rw [h.1, Option.bind_none], fun hR => h.2 (hP hR)⟩

/-- **The loop rule.** `state l` and `P l` are the state and the condition after the elements
`l`. -/
theorem foldlM {l : List α} (step : β → α → Option β) (state : List α → β) (P : List α → Prop)
    (hP : ∀ l a, P (l ++ [a]) → P l)
    (hstep : ∀ done a, (done ++ [a]) <+: l →
      Yields (step (state done) a) (P (done ++ [a])) (state (done ++ [a]))) :
    Yields (l.foldlM step (state [])) (P l) (state l) := by
  induction l using List.reverseRecOn with
  | nil => exact .inl rfl
  | append_singleton l a ih =>
    have hl := ih fun done x hd => hstep done x (hd.trans (List.prefix_append l [a]))
    have ha : Yields ([a].foldlM step (state l)) (P (l ++ [a])) (state (l ++ [a])) := by
      rw [List.foldlM_cons, Option.bind_eq_bind]
      exact (hstep l a (List.prefix_refl _)).bind (.inl rfl) id fun _ => trivial
    rw [List.foldlM_append]
    exact hl.bind ha (hP l a) id

end Yields

theorem foldlM_of_steps {l : List α} (step : β → α → Option β) (state : List α → β)
    (hstep : ∀ done a, (done ++ [a]) <+: l → step (state done) a = some (state (done ++ [a]))) :
    l.foldlM step (state []) = some (state l) :=
  (Yields.foldlM step state (fun _ => True) (fun _ _ _ => trivial)
    fun done a hd => .inl (hstep done a hd)).eq_some trivial

/-- The next element of a list without repetitions. -/
theorem next_of_prefix {l done : List α} {a : α} (hl : l.Nodup) (h : (done ++ [a]) <+: l) :
    a ∈ l ∧ a ∉ done := by
  have hnodup := (List.nodup_append.1 (hl.sublist h.sublist)).2.2
  exact ⟨h.subset (List.mem_append_right _ (List.mem_singleton_self a)), fun ha =>
    hnodup a ha a (List.mem_singleton_self a) rfl⟩

theorem update_mem_snoc [DecidableEq α] {l : List α} {a : α} {g h : α → β} :
    Function.update (fun y => if y ∈ l then g y else h y) a (g a) =
      fun y => if y ∈ l ++ [a] then g y else h y := by
  funext y
  by_cases hy : y = a
  · subst hy
    simp
  · simp [hy]

end Yangkv.Lib
