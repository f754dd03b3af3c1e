import Mathlib.Data.Int.ModEq
import Mathlib.Data.List.Nodup
import Mathlib.Data.List.Range

/-!
# A counter that wraps around

`arc M v k` are the `k` numbers that a counter modulo `M` gives out after `v`.

* `arc_nodup_iff`: a counter repeats itself after one whole turn.
* `arc_disjoint_iff`: two counters give out no common number if each of them stops before
  it comes to the start of the other.
-/

namespace Yangkv.Lib

/-- The `k` numbers after `v`. -/
def arc (M v k : ℕ) : List ℕ := (List.range k).map fun i => (v + 1 + i) % M

variable {M v w k l : ℕ}

@[simp] theorem arc_zero : arc M v 0 = [] := rfl

theorem arc_succ : arc M v (k + 1) = arc M v k ++ [(v + 1 + k) % M] := by
  unfold arc
  rw [List.range_succ, List.map_append, List.map_singleton]

theorem mem_arc {x : ℕ} : x ∈ arc M v k ↔ ∃ i < k, (v + 1 + i) % M = x := by
  simp [arc]

/-- Numbers less than a turn apart are different. -/
theorem mod_ne_of_lt {a b : ℕ} (hab : a < b) (hba : b < a + M) : a % M ≠ b % M := by
  intro h
  have hdvd := (Nat.modEq_iff_dvd' hab.le).1 h
  have hle := Nat.le_of_dvd (by omega) hdvd
  omega

theorem arc_nodup_iff (hM : 0 < M) : (arc M v k).Nodup ↔ k ≤ M := by
  unfold arc
  rw [List.nodup_map_iff_inj_on List.nodup_range]
  constructor
  · intro hinj
    by_contra hk
    have hturn := hinj 0 (List.mem_range.2 (by omega)) M (List.mem_range.2 (by omega))
      (Nat.add_mod_right ..).symm
    omega
  · intro hk i hi j hj heq
    rw [List.mem_range] at hi hj
    rcases Nat.lt_trichotomy i j with hlt | rfl | hlt
    · exact absurd heq (mod_ne_of_lt (by omega) (by omega))
    · rfl
    · exact absurd heq.symm (mod_ne_of_lt (by omega) (by omega))

/-- How far it is from one number to another. -/
def ahead (M v w : ℕ) : ℕ := (w + M - v) % M

theorem ahead_spec (hv : v < M) : (v + 1 + ahead M v w) % M = (w + 1) % M := by
  have hsum : v + 1 + (w + M - v) = w + 1 + M := by omega
  unfold ahead
  rw [Nat.add_mod_mod, hsum, Nat.add_mod_right]

theorem ahead_eq (hvw : v < w) (hw : w < M) : ahead M v w = w - v ∧ ahead M w v = v + M - w := by
  have hturn : w + M - v = w - v + M := by omega
  constructor
  · unfold ahead
    rw [hturn, Nat.add_mod_right, Nat.mod_eq_of_lt (by omega)]
  · unfold ahead
    rw [Nat.mod_eq_of_lt (by omega)]

theorem ahead_self : ahead M v v = 0 := by
  unfold ahead
  rw [Nat.add_sub_cancel_left, Nat.mod_self]

/-- **Two counters** of which both are used. -/
theorem arc_disjoint_iff (hv : v < M) (hw : w < M) :
    (arc M v k).Disjoint (arc M w l) ↔
      k = 0 ∨ l = 0 ∨ k ≤ ahead M v w ∧ l ≤ ahead M w v := by
  constructor
  · intro hdisj
    by_contra hno
    push Not at hno
    obtain ⟨hk, hl, hclose⟩ := hno
    rcases Nat.lt_or_ge (ahead M v w) k with hlt | hle
    · refine hdisj (mem_arc.2 ⟨_, hlt, rfl⟩) (mem_arc.2 ⟨0, Nat.pos_of_ne_zero hl, ?_⟩)
      rw [ahead_spec hv, Nat.add_zero]
    · refine hdisj (mem_arc.2 ⟨0, Nat.pos_of_ne_zero hk, ?_⟩) (mem_arc.2 ⟨_, hclose hle, rfl⟩)
      rw [ahead_spec hw, Nat.add_zero]
  · rintro (rfl | rfl | ⟨hk, hl⟩) x hx hy
    · cases hx
    · cases hy
    · obtain ⟨i, hi, rfl⟩ := mem_arc.1 hx
      obtain ⟨j, hj, heq⟩ := mem_arc.1 hy
      rcases Nat.lt_trichotomy v w with hlt | rfl | hlt
      · obtain ⟨hvw, hwv⟩ := ahead_eq hlt hw
        exact absurd heq.symm (mod_ne_of_lt (by omega) (by omega))
      · rw [ahead_self] at hk
        omega
      · obtain ⟨hwv, hvw⟩ := ahead_eq hlt hv
        exact absurd heq (mod_ne_of_lt (by omega) (by omega))

end Yangkv.Lib
