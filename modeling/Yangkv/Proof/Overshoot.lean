import Mathlib.Algebra.Order.BigOperators.Group.Finset
import Mathlib.Data.Fintype.Card
import Yangkv.Proof.AppendMoves
import Yangkv.Proof.Wakeup

/-!
# How full a version gets

A writer that comes back from `Wait` appends without another test, so a version may hold
more than `kMaxFrozenList` lists. Who was woken once may append once, and only a broadcast
wakes more than one writer.

* `CountOk.step`: the lists of the version and the writers that will append without a test
  are together bounded, more closely between `AppendVersion` and the broadcast.
* `list_count_sharp`: without spurious wake-ups a version never holds more than
  `kMaxFrozenList + 2 * kMaxWriter - 1` lists; it may hold as many, and with spurious
  wake-ups any number.
-/

namespace Yangkv

open Lib Machine

namespace VersionSet

variable {L : Type} {compact : (Fin kMaxWriter → List L) → VersionEdit → VersionEdit}
  {s s' : VersionSet L} {l : Label L} {hist : List (Event L)} {w w' : Fin kMaxWriter} {list : L}

/-! ## Lists and credits -/

/-- Awake and behind the test, the writer will append one list without another test. -/
def credit : AppendPc L → ℕ
  | .woken _ | .resumed _ => 1
  | _ => 0

theorem credit_le (pc : AppendPc L) : credit pc ≤ 1 := by
  cases pc <;> simp [credit]

def credits (s : VersionSet L) : ℕ := ∑ w, credit (s.writer w)

/-- The credits without those of one writer. -/
theorem credits_others (s : VersionSet L) (w : Fin kMaxWriter) :
    ∃ n, n ≤ kMaxWriter - 1 ∧ s.credits = credit (s.writer w) + n ∧
      ∀ pc, ∑ w', credit (Function.update s.writer w pc w') = credit pc + n := by
  refine ⟨∑ w' ∈ Finset.univ.erase w, credit (s.writer w'), ?_,
    (Finset.add_sum_erase _ _ (Finset.mem_univ w)).symm, fun pc => ?_⟩
  · have hcard : (Finset.univ.erase w).card = kMaxWriter - 1 := by
      rw [Finset.card_erase_of_mem (Finset.mem_univ w), Finset.card_univ, Fintype.card_fin]
    have hle := Finset.sum_le_card_nsmul (Finset.univ.erase w) (fun w' => credit (s.writer w')) 1
      fun w' _ => credit_le _
    rw [hcard, Nat.nsmul_eq_mul, Nat.mul_one] at hle
    exact hle
  · rw [← Finset.add_sum_erase _ _ (Finset.mem_univ w), Function.update_self]
    congr 1
    refine Finset.sum_congr rfl fun w' hw' => ?_
    rw [Function.update_of_ne (Finset.ne_of_mem_erase hw')]

/-- How many lists a version may hold together with those to be appended without a test. -/
def limit : CompactPc L → ℕ
  | .broadcast => kMaxFrozenList + (kMaxWriter - 1)
  | _ => kMaxFrozenList + (kMaxWriter - 1) + kMaxWriter

/-- The bound on the version, and on what will be appended to it without a test. -/
structure CountOk (s : VersionSet L) : Prop where
  lock : LockOk s
  count : s.current_.list_count_ + s.credits ≤ limit s.compacter

theorem credits_le (s : VersionSet L) : s.credits ≤ kMaxWriter := by
  have hle := Finset.sum_le_card_nsmul Finset.univ (fun w => credit (s.writer w)) 1 fun w _ => credit_le _
  simpa [credits] using hle

theorem le_limit (pc : CompactPc L) : kMaxFrozenList + (kMaxWriter - 1) ≤ limit pc := by
  unfold limit
  split <;> omega

theorem CountOk.step_writer (h : CountOk s) (hm : Move s l s') (hg : NoSpurious s l) : CountOk s' := by
  refine ⟨h.lock.step_writer hm, ?_⟩
  have hcount := h.count
  -- a writer goes on to `pc` without an append
  have goOn : ∀ {w : Fin kMaxWriter} {pc : AppendPc L}, credit pc ≤ credit (s.writer w) →
      s.current_.list_count_ + ∑ w', credit (Function.update s.writer w pc w') ≤ limit s.compacter := by
    intro w pc hpc
    obtain ⟨n, -, hold, hn⟩ := s.credits_others w
    rw [hn pc]
    omega
  cases hm with
  | call hw | enter hw | full hw | room hw | sleep hw | leave hw | resume hw =>
    refine goOn ?_
    rw [hw]
    exact Nat.le_refl _
  | wake => exact hg.elim
  | @append w list hw =>
    obtain ⟨n, hle, hold, hn⟩ := s.credits_others w
    have hlimit := le_limit s.compacter
    show s.current_.list_count_ + 1 + ∑ w', credit (Function.update s.writer w .appended w') ≤
      limit s.compacter
    rw [hn]
    have hdone : credit (.appended : AppendPc L) = 0 := rfl
    obtain hw | hw := hw
    · -- the append was paid for
      have hpaid : credit (s.writer w) = 1 := by rw [hw]; rfl
      omega
    · -- there was room, and only the others have credit
      have hroom := isFull_false.1 (h.lock.cleared w list hw)
      omega

theorem CountOk.step_compacter (h : CountOk s) : CountOk (s.compacterStep compact) := by
  refine ⟨h.lock.step_compacter, ?_⟩
  have hcount := h.count
  have hcredits := s.credits_le
  unfold VersionSet.compacterStep
  cases hp : s.compacter with
  | test =>
    rw [hp] at hcount
    show s.current_.list_count_ + s.credits ≤ limit (if s.current_.isFull then .compact else .test)
    split <;> exact hcount
  | compact | apply =>
    rw [hp] at hcount
    exact hcount
  | appendVersion merged v =>
    have hv := h.lock.fresh merged v hp
    show v.list_count_ + s.credits ≤ limit .broadcast
    rw [hv]
    simp only [limit]
    have : kMaxWriter ≤ kMaxFrozenList := by decide
    omega
  | broadcast =>
    rw [hp] at hcount
    have hnew : ({ s with writer := fun w => awake (s.writer w), compacter := .test } :
        VersionSet L).credits ≤ kMaxWriter := credits_le _
    simp only [limit] at hcount ⊢
    show s.current_.list_count_ + _ ≤ _
    omega

/-- **Every step keeps the bound.** -/
theorem CountOk.step (h : CountOk s) (hg : NoSpurious s l) (hs : s.step compact l = some s') :
    CountOk s' := by
  by_cases hl : l = .compacter
  · subst hl
    cases hs
    exact h.step_compacter
  · exact h.step_writer (step_move hl hs) hg

theorem start_countOk : CountOk (start : VersionSet L) := by
  refine ⟨start_lockOk, ?_⟩
  have hcredits := (start : VersionSet L).credits_le
  show 0 + (start : VersionSet L).credits ≤ limit .test
  simp only [limit]
  omega

theorem list_count_le (hx : (machine compact).Exec NoSpurious start hist s) :
    s.current_.list_count_ ≤ kMaxFrozenList + 2 * kMaxWriter - 1 := by
  have h : CountOk s := hx.invariant start_countOk fun s l s' hi hg hs => hi.step hg hs
  have hcount := h.count
  have hlimit : limit s.compacter ≤ kMaxFrozenList + (kMaxWriter - 1) + kMaxWriter := by
    unfold limit
    split <;> omega
  have hpos : 1 ≤ kMaxWriter := by decide
  omega

/-! ## Runs -/

/-- A writer freezes a list. -/
def freezes (w : Fin kMaxWriter) (list : ℕ) : List (Label ℕ) :=
  .call w list :: List.replicate 4 (.writer w)

/-- A writer calls and goes to sleep. -/
def sleeps (w : Fin kMaxWriter) : List (Label ℕ) := .call w 0 :: List.replicate 3 (.writer w)

/-- A writer that is awake comes back from `Wait`, and appends. -/
def resumes (w : Fin kMaxWriter) : List (Label ℕ) := List.replicate 3 (.writer w)

/-- Three writers stay in `Wait` after their wake-up until the next version is full. They append to
it, all four go to sleep before the broadcast, and all four append to it once more. -/
def crowd : List (Label ℕ) :=
  fillUp ++ [0, 1, 2, 3].flatMap sleeps ++ List.replicate 5 .compacter ++
    resumes 3 ++ (List.range 9).flatMap (freezes 3) ++ List.replicate 4 .compacter ++
    (List.range 10).flatMap (freezes 3) ++ [0, 1, 2].flatMap resumes ++
    [0, 1, 2, 3].flatMap sleeps ++ [.compacter] ++ [0, 1, 2, 3].flatMap resumes

instance (s : VersionSet ℕ) (l : Label ℕ) : Decidable (NoSpurious s l) :=
  match l with
  | .call _ _ | .compacter | .writer _ => instDecidableTrue
  | .wake _ => instDecidableFalse

/-- A spurious wake-up lets the writer append to the full version and go back to sleep. -/
theorem wakes_again {s : VersionSet ℕ} (hw : s.writer 0 = .waiting 0) (hl : s.compact_lock_ = none)
    (hf : s.current_.isFull = true) : (machine (noTable ℕ)).CanReach Any s fun s' =>
      s'.writer 0 = .waiting 0 ∧ s'.compact_lock_ = none ∧
        s'.current_ = s.current_.appendList 0 0 := by
  have all : ∀ {s : VersionSet ℕ} {P : VersionSet ℕ → Prop},
      (machine (noTable ℕ)).CanReach NoSpurious s P → (machine (noTable ℕ)).CanReach Any s P := by
    rintro s P ⟨h, s', hx, hp⟩
    exact ⟨h, s', hx.mono fun _ _ _ => trivial, hp⟩
  have hwake : (machine (noTable ℕ)).step s (.wake 0) = some (s.setWriter 0 (.woken 0)) := by
    simp only [machine, step, hw]
  have hback := all (@woken_appends ℕ (noTable ℕ) (s.setWriter 0 (.woken 0)) 0 0 setWriter_self hl)
  refine .step trivial hwake (hback.trans ?_)
  rintro s₁ rfl
  set s₁ := (s.setWriter 0 (.woken 0)).after 0 .idle (s.current_.appendList 0 0)
  have hcall : (machine (noTable ℕ)).step s₁ (.call 0 0) = some (s₁.setWriter 0 (.called 0)) := by
    simp only [machine, step, s₁, after_writer_self]
  have hasleep := all (@called_sleeps ℕ (noTable ℕ) (s₁.setWriter 0 (.called 0)) 0 0 setWriter_self rfl
    (isFull_appendList hf 0))
  refine .step trivial hcall (hasleep.mono ?_)
  rintro _ rfl
  exact ⟨after_writer_self, rfl, rfl⟩

theorem wakes_often (n : ℕ) : ∃ h s, (machine (noTable ℕ)).Exec Machine.Any start h s ∧
    s.writer 0 = .waiting 0 ∧ s.compact_lock_ = none ∧ kMaxFrozenList + n ≤ s.current_.list_count_ := by
  induction n with
  | zero =>
    have hr : ((machine (noTable ℕ)).exec Machine.Any start (fillUp ++ sleeps 0)).map
        (fun r => (r.2.writer 0, r.2.compact_lock_, r.2.current_.list_count_)) =
        some (.waiting 0, none, kMaxFrozenList) := by decide +kernel
    obtain ⟨r, hr, he⟩ := Option.map_eq_some_iff.1 hr
    simp only [Prod.mk.injEq] at he
    obtain ⟨h1, h2, h3⟩ := he
    exact ⟨r.1, r.2, Machine.exec_sound hr, h1, h2, by omega⟩
  | succ n ih =>
    obtain ⟨h, s, hx, h1, h2, h3⟩ := ih
    have hf : s.current_.isFull = true := decide_eq_true (by omega)
    obtain ⟨h', s', hx', g1, g2, g3⟩ := wakes_again h1 h2 hf
    refine ⟨h ++ h', s', hx.append hx', g1, g2, ?_⟩
    rw [g3]
    show _ ≤ s.current_.list_count_ + 1
    omega

/-- **How full a version gets.** Without spurious wake-ups the lists of the current version never
exceed `kMaxFrozenList` by more than `2 * kMaxWriter - 1`, whatever the lists and the tables are; a
run with that many exists. With spurious wake-ups there is no bound at all. -/
theorem list_count_sharp (L : Type) :
    (∀ (compact : (Fin kMaxWriter → List L) → VersionEdit → VersionEdit) hist s,
      (machine compact).Exec NoSpurious start hist s →
        s.current_.list_count_ ≤ kMaxFrozenList + 2 * kMaxWriter - 1) ∧
    (∃ hist s, (machine (noTable ℕ)).Exec NoSpurious start hist s ∧
      s.current_.list_count_ = kMaxFrozenList + 2 * kMaxWriter - 1) ∧
    ∀ n, ∃ hist s, (machine (noTable ℕ)).Exec Machine.Any start hist s ∧ n ≤ s.current_.list_count_ := by
  refine ⟨fun compact hist s hx => list_count_le hx, ?_, fun n => ?_⟩
  · have hr : ((machine (noTable ℕ)).exec NoSpurious start crowd).map (·.2.current_.list_count_) =
        some (kMaxFrozenList + 2 * kMaxWriter - 1) := by decide +kernel
    obtain ⟨r, hr, he⟩ := Option.map_eq_some_iff.1 hr
    exact ⟨r.1, r.2, Machine.exec_sound hr, he⟩
  · obtain ⟨h, s, hx, -, -, hle⟩ := wakes_often n
    exact ⟨h, s, hx, by omega⟩

end VersionSet

end Yangkv
