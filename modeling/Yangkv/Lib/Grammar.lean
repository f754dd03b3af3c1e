import Mathlib.Computability.Language
import Mathlib.Order.CompletePartialOrder
import Yangkv.Lib.Varint

/-!
# Readers of languages

A reader takes a word of a language off the front of a string and gives the value the
word stands for. Since it is a function, no string has two words of the language at its
front, and a sequence of words splits in one way only.

* `Parses.bind`: one reader after the other reads the product of their languages.
* `Parses.mem_kstar`, `Parses.forall_kstar`: sequences of words, word by word.
* `Varint.parses_decode`: the words of the base-128 code.
-/

namespace Yangkv.Lib

open Computability

variable {α β γ : Type*}

/-- `p` takes the words of `L a` off the front of a string, and gives `a`. -/
def Parses (p : List α → Option (β × List α)) (L : β → Language α) : Prop :=
  ∀ xs a rest, p xs = some (a, rest) ↔ ∃ w ∈ L a, xs = w ++ rest

namespace Parses

variable {p : List α → Option (β × List α)} {L : β → Language α} {xs rest w : List α} {a : β}

theorem append (h : Parses p L) (hw : w ∈ L a) (rest : List α) : p (w ++ rest) = some (a, rest) :=
  (h _ _ _).2 ⟨w, hw, rfl⟩

theorem exists_word (h : Parses p L) (hp : p xs = some (a, rest)) : ∃ w ∈ L a, xs = w ++ rest :=
  (h _ _ _).1 hp

/-- The same words with other values. -/
theorem map (h : Parses p L) (f : β → γ) :
    Parses (fun xs => (p xs).map fun r => (f r.1, r.2)) fun c => ⨆ a, ⨆ _ : f a = c, L a := by
  intro xs c rest
  simp only [Option.map_eq_some_iff, Language.mem_iSup, Prod.exists, Prod.mk.injEq]
  constructor
  · rintro ⟨a, _, hp, hc, rfl⟩
    obtain ⟨w, hw, rfl⟩ := h.exists_word hp
    exact ⟨w, ⟨a, hc, hw⟩, rfl⟩
  · rintro ⟨w, ⟨a, hc, hw⟩, rfl⟩
    exact ⟨a, rest, h.append hw rest, hc, rfl⟩

/-- The words whose values pass a test. -/
theorem filter (h : Parses p L) (q : β → Prop) [DecidablePred q] :
    Parses (fun xs => (p xs).filter fun r => q r.1) fun a => ⨆ _ : q a, L a := by
  intro xs a rest
  simp only [Option.filter_eq_some_iff, Language.mem_iSup, decide_eq_true_eq]
  constructor
  · rintro ⟨hp, hq⟩
    obtain ⟨w, hw, rfl⟩ := h.exists_word hp
    exact ⟨w, ⟨hq, hw⟩, rfl⟩
  · rintro ⟨w, ⟨hq, hw⟩, rfl⟩
    exact ⟨h.append hw rest, hq⟩

/-- **One reader after the other.** -/
theorem bind (h : Parses p L) {q : β → List α → Option (γ × List α)} {M : β → γ → Language α}
    (hq : ∀ a, Parses (q a) (M a)) :
    Parses (fun xs => (p xs).bind fun r => q r.1 r.2) fun c => ⨆ a, L a * M a c := by
  intro xs c rest
  simp only [Option.bind_eq_some_iff, Language.mem_iSup, Prod.exists]
  constructor
  · rintro ⟨a, mid, hp, hr⟩
    obtain ⟨w, hw, rfl⟩ := h.exists_word hp
    obtain ⟨w', hw', rfl⟩ := (hq a).exists_word hr
    exact ⟨w ++ w', ⟨a, Language.append_mem_mul hw hw'⟩, (List.append_assoc _ _ _).symm⟩
  · rintro ⟨_, ⟨a, w, hw, w', hw', rfl⟩, rfl⟩
    refine ⟨a, w' ++ rest, ?_, (hq a).append hw' rest⟩
    simpa only [List.append_assoc] using h.append hw (w' ++ rest)

/-- The words without their values. -/
theorem forget (h : Parses p L) :
    Parses (fun xs => (p xs).map fun r => ((), r.2)) fun _ => ⨆ a, L a := by
  intro xs u rest
  rw [h.map fun _ => ()]
  simp only [iSup_pos]

/-- Two readers in turn, without values. -/
theorem seq {p q : List α → Option (Unit × List α)} {L M : Language α} (h : Parses p fun _ => L)
    (hq : Parses q fun _ => M) : Parses (fun xs => (p xs).bind fun r => q r.2) fun _ => L * M := by
  intro xs u rest
  rw [h.bind fun _ => hq]
  simp only [iSup_const]

theorem of_eq (h : Parses p L) {p' : List α → Option (β × List α)} {L' : β → Language α}
    (hp : ∀ xs, p' xs = p xs) (hL : ∀ a, L' a = L a) : Parses p' L' := by
  intro xs a rest
  rw [hp, hL, h]

/-- The reader that never reads. -/
theorem nothing : Parses (fun _ : List α => (none : Option (β × List α))) fun _ => 0 := by
  intro xs a rest
  constructor
  · intro h
    cases h
  · rintro ⟨w, hw, -⟩
    exact absurd hw (Language.notMem_zero w)

end Parses

/-! ## Sequences of words -/

theorem mem_kstar_iff {L : Language α} {xs : List α} :
    xs ∈ L∗ ↔ xs = [] ∨ ∃ w ∈ L, ∃ rest ∈ L∗, xs = w ++ rest := by
  nth_rewrite 1 [← Language.one_add_self_mul_kstar_eq_kstar L]
  rw [Language.mem_add, Language.mem_one, Language.mem_mul]
  simp only [eq_comm]

namespace Parses

variable {p : List α → Option (Unit × List α)} {L : Language α} {xs rest : List α}

/-- A sequence of words is empty, or one word and a sequence. -/
theorem mem_kstar (h : Parses p fun _ => L) :
    xs ∈ L∗ ↔ xs = [] ∨ ∃ rest, p xs = some ((), rest) ∧ rest ∈ L∗ := by
  rw [mem_kstar_iff]
  refine or_congr_right ⟨?_, ?_⟩
  · rintro ⟨w, hw, rest, hrest, rfl⟩
    exact ⟨rest, h.append hw rest, hrest⟩
  · rintro ⟨rest, hp, hrest⟩
    obtain ⟨w, hw, rfl⟩ := h.exists_word hp
    exact ⟨w, hw, rest, hrest, rfl⟩

theorem forall_word (h : Parses p fun _ => L) {P : List α → Prop} :
    (∀ w ∈ L, ∀ rest, xs = w ++ rest → P rest) ↔ ∀ rest, p xs = some ((), rest) → P rest := by
  constructor
  · intro hP rest hp
    obtain ⟨w, hw, rfl⟩ := h.exists_word hp
    exact hP w hw rest rfl
  · rintro hP w hw rest rfl
    exact hP rest (h.append hw rest)

/-- What may be left behind a sequence of words at the front of a string. -/
theorem forall_kstar (h : Parses p fun _ => L) {P : List α → Prop} :
    (∀ ws ∈ L∗, ∀ rest, xs = ws ++ rest → P rest) ↔
      P xs ∧ ∀ xs', p xs = some ((), xs') → ∀ ws ∈ L∗, ∀ rest, xs' = ws ++ rest → P rest := by
  constructor
  · intro hP
    refine ⟨hP [] (Language.nil_mem_kstar L) xs rfl, fun xs' hp ws hws rest hx => ?_⟩
    obtain ⟨w, hw, rfl⟩ := h.exists_word hp
    refine hP (w ++ ws) (mem_kstar_iff.2 (.inr ⟨w, hw, ws, hws, rfl⟩)) rest ?_
    rw [hx, List.append_assoc]
  · rintro ⟨hnil, hcons⟩ ws hws rest rfl
    obtain rfl | ⟨w, hw, ws', hws', rfl⟩ := mem_kstar_iff.1 hws
    · exact hnil
    · refine hcons (ws' ++ rest) ?_ ws' hws' rest rfl
      simpa only [List.append_assoc] using h.append hw (ws' ++ rest)

end Parses

/-! ## The base-128 code -/

namespace Varint

theorem length_of_decode {k n : ℕ} {w : Bytes} (h : decode k w = some (n, [])) : w.length ≤ k := by
  induction k generalizing n w with
  | zero => cases h
  | succ k ih =>
    cases w with
    | nil => cases h
    | cons b w =>
      rw [decode] at h
      split at h
      case isTrue => cases h; exact Nat.succ_le_succ (Nat.zero_le k)
      case isFalse =>
        obtain ⟨⟨m, _⟩, hm, hr⟩ := Option.map_eq_some_iff.1 h
        cases hr
        exact Nat.succ_le_succ (ih hm)

/-- The words that `decode k` reads as `n`. -/
def word (k n : ℕ) : Language UInt8 := {w | decode k w = some (n, [])}

theorem parses_decode (k : ℕ) : Parses (decode k) (word k) := by
  intro bs n rest
  change _ ↔ ∃ w, decode k w = some (n, []) ∧ bs = w ++ rest
  induction k generalizing bs n with
  | zero => simp only [decode, reduceCtorEq, false_and, exists_false]
  | succ k ih =>
    constructor
    · intro h
      cases bs with
      | nil => cases h
      | cons b bs =>
        rw [decode] at h
        split at h
        case isTrue hb =>
          cases h
          exact ⟨[b], by rw [decode, if_pos hb], rfl⟩
        case isFalse hb =>
          obtain ⟨⟨m, _⟩, hm, hr⟩ := Option.map_eq_some_iff.1 h
          cases hr
          obtain ⟨w, hw, rfl⟩ := (ih bs m).1 hm
          exact ⟨b :: w, by rw [decode, if_neg hb, hw, Option.map_some], rfl⟩
    · rintro ⟨w, hw, rfl⟩
      cases w with
      | nil => cases hw
      | cons b w =>
        rw [decode] at hw
        rw [List.cons_append, decode]
        split at hw
        case isTrue hb =>
          cases hw
          rw [if_pos hb, List.nil_append]
        case isFalse hb =>
          obtain ⟨⟨m, _⟩, hm, hr⟩ := Option.map_eq_some_iff.1 hw
          cases hr
          rw [if_neg hb, (ih _ _).2 ⟨w, hm, rfl⟩, Option.map_some]

end Varint

end Yangkv.Lib
