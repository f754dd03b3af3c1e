import Mathlib.Data.Fin.Basic
import Mathlib.Data.List.Induction
import Mathlib.Data.List.Nodup
import Yangkv.Spec.BloomFilter

/-!
# The Bloom filter over restarts

* `InSlots`: the slots of the strings that have been inserted.
* `Consistent`: the slots are these, and the file and the stream list each of them once.
* `Consistent.insert`, `Consistent.restart`: `Insert` and `Recover` keep this.
* `found_after_restarts`: so every inserted string is found, however often the filter
  has been restarted.
-/

namespace Yangkv

open Lib

namespace BloomFilter

variable {b : BloomFilter} {s : Saved} {str : Bytes} {strs : List Bytes} {i : Fin kMaxSize}

/-- A slot of one of the strings. -/
def InSlots (strs : List Bytes) (i : Fin kMaxSize) : Prop :=
  ∃ str ∈ strs, str ≠ [] ∧ ∃ seed ∈ SeedSet, hashVal str seed = i

/-- The text with the given indices. -/
def textOf (idxs : List (Fin kMaxSize)) : List Char := spaced (idxs.map Fin.val)

/-- The file with what is still in the stream. -/
def Lists (s : Saved) (idxs : List (Fin kMaxSize)) : Prop :=
  ∃ text out, s.file = some text ∧ s.filter.fout = some out ∧ text ++ out = textOf idxs

/-- They list the filled slots, each of them once. -/
def AllSaved (s : Saved) : Prop :=
  ∃ idxs, Lists s idxs ∧ idxs.Nodup ∧ ∀ i, i ∈ idxs ↔ s.filter.Slot_ i = true

/-- What holds at any time when `strs` have been inserted. -/
structure Consistent (s : Saved) (strs : List Bytes) : Prop where
  slots : ∀ i, s.filter.Slot_ i = true ↔ InSlots strs i
  saved : AllSaved s

/-! ## `Insert` -/

theorem insertSeed_slot {seed : UInt64} :
    (insertSeed str b seed).Slot_ i = true ↔ b.Slot_ i = true ∨ hashVal str seed = i := by
  unfold insertSeed
  dsimp only
  by_cases hfull : b.Slot_ (hashVal str seed) = true
  · rw [if_pos hfull]
    refine ⟨.inl, fun h => h.elim id ?_⟩
    rintro rfl
    exact hfull
  · rw [if_neg hfull]
    dsimp only
    rw [Function.update_apply]
    by_cases hi : i = hashVal str seed
    · simp [hi]
    · simp [hi, Ne.symm hi]

theorem foldl_insertSeed_slot {seeds : List UInt64} :
    (seeds.foldl (insertSeed str) b).Slot_ i = true ↔
      b.Slot_ i = true ∨ ∃ seed ∈ seeds, hashVal str seed = i := by
  induction seeds generalizing b with
  | nil => simp
  | cons seed seeds ih =>
    rw [List.foldl_cons, ih, insertSeed_slot, or_assoc, List.exists_mem_cons_iff]

theorem insert_slot : (b.insert str).Slot_ i = true ↔
    b.Slot_ i = true ∨ str ≠ [] ∧ ∃ seed ∈ SeedSet, hashVal str seed = i := by
  unfold insert
  by_cases hempty : str = []
  · simp [hempty]
  · rw [if_neg hempty, foldl_insertSeed_slot]
    simp [hempty]

/-- A newly filled slot is appended to the stream. -/
theorem insertSeed_saved {seed : UInt64} {file : Option (List Char)} (h : AllSaved ⟨b, file⟩) :
    AllSaved ⟨insertSeed str b seed, file⟩ := by
  obtain ⟨idxs, ⟨text, out, hfile, hout, htext⟩, hnodup, hmem⟩ := h
  by_cases hfull : b.Slot_ (hashVal str seed) = true
  · have hsame : insertSeed str b seed = b := if_pos hfull
    rw [hsame]
    exact ⟨idxs, ⟨text, out, hfile, hout, htext⟩, hnodup, hmem⟩
  · have hnew : insertSeed str b seed =
        { fout := b.fout.map fun out => out ++ ' ' :: Nat.toDigits 10 (hashVal str seed)
          Slot_ := Function.update b.Slot_ (hashVal str seed) true } := if_neg hfull
    refine ⟨idxs ++ [hashVal str seed], ⟨text, out ++ ' ' :: Nat.toDigits 10 (hashVal str seed),
      hfile, ?_, ?_⟩, ?_, fun i => ?_⟩
    · change b.fout = some out at hout
      rw [hnew, hout]
      rfl
    · rw [← List.append_assoc, htext, textOf, textOf, List.map_append, spaced_append]
      simp [spaced]
    · rw [List.nodup_append]
      refine ⟨hnodup, List.nodup_singleton _, fun x hx y hy => ?_⟩
      rw [List.mem_singleton.1 hy]
      rintro rfl
      exact hfull ((hmem _).1 hx)
    · have hslot : i ∈ idxs ↔ b.Slot_ i = true := hmem i
      rw [List.mem_append, List.mem_singleton, hslot, insertSeed_slot, eq_comm (a := i)]

theorem foldl_insertSeed_saved {seeds : List UInt64} {file : Option (List Char)}
    (h : AllSaved ⟨b, file⟩) : AllSaved ⟨seeds.foldl (insertSeed str) b, file⟩ := by
  induction seeds generalizing b with
  | nil => exact h
  | cons seed seeds ih => exact ih (insertSeed_saved h)

theorem Consistent.insert (h : Consistent s strs) (str : Bytes) :
    Consistent { s with filter := s.filter.insert str } (strs ++ [str]) := by
  constructor
  case slots =>
    intro i
    change (s.filter.insert str).Slot_ i = true ↔ _
    rw [insert_slot, h.slots]
    unfold InSlots
    simp only [List.mem_append, List.mem_singleton, or_and_right, exists_or, exists_eq_left]
  case saved =>
    unfold BloomFilter.insert
    by_cases hempty : str = []
    · rw [if_pos hempty]
      exact h.saved
    · rw [if_neg hempty]
      exact foldl_insertSeed_saved h.saved

/-! ## `Recover` -/

/-- The indices in the text. -/
theorem indices_textOf (idxs : List (Fin kMaxSize)) :
    indices (textOf idxs) = idxs.map fun i => (i.val : ℤ) := by
  have hsmall : ∀ n ∈ idxs.map Fin.val, n < 2 ^ 31 := by
    intro n hn
    obtain ⟨i, -, rfl⟩ := List.mem_map.1 hn
    have hi := i.isLt
    unfold kMaxSize at hi
    omega
  have hlen : (idxs.map Fin.val).length ≤ (textOf idxs).length := by
    unfold textOf
    generalize idxs.map Fin.val = ns
    induction ns with
    | nil => exact le_rfl
    | cons n ns ih =>
      have htext : spaced (n :: ns) = ' ' :: (Nat.toDigits 10 n ++ spaced ns) := rfl
      rw [htext, List.length_cons, List.length_cons, List.length_append]
      omega
  unfold indices
  rw [textOf] at hlen ⊢
  rw [readInts_spaced hsmall hlen, List.map_map]
  rfl

theorem foldlM_fill (idxs : List (Fin kMaxSize)) (Slot_ : Fin kMaxSize → Bool) :
    ∃ Slot_', (idxs.map fun i => (i.val : ℤ)).foldlM fill Slot_ = some Slot_' ∧
      ∀ i, Slot_' i = true ↔ Slot_ i = true ∨ i ∈ idxs := by
  induction idxs generalizing Slot_ with
  | nil => exact ⟨Slot_, rfl, by simp⟩
  | cons j idxs ih =>
    obtain ⟨Slot_', hfold, hslot⟩ := ih (Function.update Slot_ j true)
    have hrange : (0 : ℤ) ≤ j.val ∧ (j.val : ℤ) < kMaxSize :=
      ⟨Int.natCast_nonneg _, Int.ofNat_lt.2 j.isLt⟩
    have hfill : fill Slot_ (j.val : ℤ) = some (Function.update Slot_ j true) := dif_pos hrange
    refine ⟨Slot_', ?_, fun i => ?_⟩
    · rw [List.map_cons, List.foldlM_cons, hfill]
      exact hfold
    · rw [hslot, Function.update_apply, List.mem_cons]
      by_cases hi : i = j
      · simp [hi]
      · simp [hi]

theorem close_eq {idxs : List (Fin kMaxSize)} (h : Lists s idxs) : close s = some (textOf idxs) := by
  obtain ⟨text, out, hfile, hout, htext⟩ := h
  unfold close
  rw [hout, hfile]
  exact congrArg some htext

/-- **`Recover`** after `close` fills the same slots; its assertion holds. -/
theorem Consistent.restart (h : Consistent s strs) :
    ∃ s', recover (close s) = some s' ∧ Consistent s' strs := by
  obtain ⟨idxs, hlists, hnodup, hmem⟩ := h.saved
  obtain ⟨Slot_, hfold, hslot⟩ := foldlM_fill idxs fun _ => false
  have hsame : ∀ i, Slot_ i = true ↔ i ∈ idxs := by
    intro i
    rw [hslot]
    simp
  refine ⟨⟨⟨some [], Slot_⟩, some (textOf idxs)⟩, ?_, fun i => ?_, idxs, ?_, hnodup, fun i =>
    (hsame i).symm⟩
  · rw [close_eq hlists, recover, indices_textOf, hfold]
    rfl
  · exact (hsame i).trans ((hmem i).trans (h.slots i))
  · exact ⟨textOf idxs, [], rfl, rfl, List.append_nil _⟩

/-! ## Histories -/

theorem first_consistent (begin : First) : ∃ s, first begin = some s ∧ Consistent s [] := by
  have hempty : Consistent ⟨⟨some [], fun _ => false⟩, some []⟩ [] := by
    constructor
    case slots => exact fun i => by simp [InSlots]
    case saved => exact ⟨[], ⟨[], [], rfl, rfl, rfl⟩, List.nodup_nil, by simp⟩
  cases begin with
  | init file => exact ⟨_, rfl, hempty⟩
  | recover => exact ⟨_, rfl, hempty⟩

theorem run_consistent (begin : First) (calls : List Call) :
    ∃ s, run begin calls = some s ∧ Consistent s (inserted calls) := by
  induction calls using List.reverseRecOn with
  | nil =>
    obtain ⟨s, hs, h⟩ := first_consistent begin
    refine ⟨s, ?_, h⟩
    rw [run, hs]
    rfl
  | append_singleton calls c ih =>
    obtain ⟨s, hs, h⟩ := ih
    have hrun : run begin (calls ++ [c]) = call s c := by
      obtain ⟨s₀, hfirst, hfold⟩ := Option.bind_eq_some_iff.1 hs
      rw [run, hfirst, Option.bind_eq_bind, Option.bind_some, List.foldlM_append, hfold,
        Option.bind_eq_bind, Option.bind_some, List.foldlM_cons]
      simp only [List.foldlM_nil, bind_pure]
    rw [hrun]
    cases c with
    | insert str =>
      refine ⟨_, rfl, ?_⟩
      have hin : inserted (calls ++ [.insert str]) = inserted calls ++ [str] := by
        simp [inserted]
      rw [hin]
      exact h.insert str
    | restart =>
      obtain ⟨s', hs', h'⟩ := h.restart
      have hin : inserted (calls ++ [.restart]) = inserted calls := by
        simp [inserted]
      rw [hin]
      exact ⟨s', hs', h'⟩

theorem Consistent.query (h : Consistent s strs) (hstr : str ∈ strs) (hne : str ≠ []) :
    s.filter.query str = true := by
  unfold BloomFilter.query
  rw [if_neg hne, List.all_eq_true]
  intro seed hseed
  exact (h.slots _).2 ⟨str, hstr, hne, seed, hseed, rfl⟩

/-- **No false negatives**, over any number of restarts: the slots are those of the strings that
have been inserted, `close` leaves exactly their indices in the file, each of them once and in range,
and `Query` finds every string. -/
theorem found_after_restarts (begin : First) (calls : List Call) :
    ∃ s, run begin calls = some s ∧ (∀ i, s.filter.Slot_ i = true ↔ InSlots (inserted calls) i) ∧
      (∃ text, close s = some text ∧ (indices text).Nodup ∧
        (∀ z ∈ indices text, 0 ≤ z ∧ z < kMaxSize) ∧
        ∀ i : Fin kMaxSize, (i.val : ℤ) ∈ indices text ↔ s.filter.Slot_ i = true) ∧
      ∀ str ∈ inserted calls, str ≠ [] → s.filter.query str = true := by
  obtain ⟨s, hs, h⟩ := run_consistent begin calls
  obtain ⟨idxs, hlists, hnodup, hmem⟩ := h.saved
  have hinj : Function.Injective fun i : Fin kMaxSize => (i.val : ℤ) :=
    Nat.cast_injective.comp Fin.val_injective
  refine ⟨s, hs, h.slots, ⟨textOf idxs, close_eq hlists, ?_, ?_, fun i => ?_⟩, fun str hstr hne =>
    h.query hstr hne⟩
  · rw [indices_textOf]
    exact hnodup.map hinj
  · rw [indices_textOf]
    intro z hz
    obtain ⟨i, -, rfl⟩ := List.mem_map.1 hz
    exact ⟨Int.natCast_nonneg _, Int.ofNat_lt.2 i.isLt⟩
  · rw [indices_textOf, List.mem_map_of_injective hinj, hmem]

end BloomFilter

end Yangkv
