import Yangkv.Proof.AppendMoves
import Yangkv.Proof.Wakeup

/-!
# What a lost wake-up costs

A writer may sleep although its version has room and the broadcast is over. It is the only
one then, and it is not lost for good: once the others have filled the version, the next
compaction wakes it.

* `SleepersOk.step`: with room in the version and no broadcast to come, one writer at most is
  asleep or on the way to it.
* `one_sleeper`: so in every state of every run.
* `call_can_return`: from every state of every run each `AppendFrozenList`
  can still return, without a spurious wake-up.
-/

namespace Yangkv

open Lib Machine

/-- The broadcast comes next. -/
def CompactPc.broadcasting {L : Type} : CompactPc L → Bool
  | .broadcast => true
  | _ => false

namespace VersionSet

variable {L : Type} {compact : (Fin kMaxWriter → List L) → VersionEdit → VersionEdit}
  {s s' : VersionSet L} {l : Label L} {hist : List (Event L)} {w w' : Fin kMaxWriter} {list : L}

/-! ## One at a time -/

structure SleepersOk (s : VersionSet L) : Prop where
  lock : LockOk s
  alone : s.current_.isFull = false → s.compacter ≠ .broadcast →
    ∀ w w', Sleepy (s.writer w) → Sleepy (s.writer w') → w = w'

theorem start_sleepersOk : SleepersOk (start : VersionSet L) :=
  ⟨start_lockOk, fun _ _ _ _ h => False.elim h⟩

theorem SleepersOk.step_writer (h : SleepersOk s) (hm : Move s l s') : SleepersOk s' := by
  refine ⟨h.lock.step_writer hm, fun hf hb => ?_⟩
  -- a writer that is no more asleep than before
  have goOn : ∀ {w : Fin kMaxWriter} {pc : AppendPc L}, s.current_.isFull = false →
      s.compacter ≠ .broadcast → (Sleepy pc → Sleepy (s.writer w)) →
      ∀ w₁ w₂, Sleepy (Function.update s.writer w pc w₁) → Sleepy (Function.update s.writer w pc w₂) →
        w₁ = w₂ := by
    intro w pc hf hb hpc w₁ w₂ h₁ h₂
    have sleepy : ∀ w', Sleepy (Function.update s.writer w pc w') → Sleepy (s.writer w') := by
      intro w' hw'
      rcases update_writer (P := Sleepy) hw' with ⟨-, hold⟩ | ⟨rfl, hnew⟩
      · exact hold
      · exact hpc hnew
    exact h.alone hf hb w₁ w₂ (sleepy w₁ h₁) (sleepy w₂ h₂)
  cases hm with
  | call | enter | resume | room | leave | wake => exact goOn hf hb False.elim
  | full hw hfull =>
    have hf : s.current_.isFull = false := hf
    rw [hfull] at hf
    cases hf
  | sleep hw => exact goOn hf hb fun _ => by rw [hw]; trivial
  | @append w list =>
    have hroom : s.current_.isFull = false := by
      by_contra hfull
      rw [Bool.not_eq_false] at hfull
      have hf : (s.current_.appendList list w).isFull = false := hf
      rw [isFull_appendList hfull w] at hf
      cases hf
    exact goOn hroom hb False.elim

theorem SleepersOk.step_compacter (h : SleepersOk s) : SleepersOk (s.compacterStep compact) := by
  refine ⟨h.lock.step_compacter, ?_⟩
  unfold VersionSet.compacterStep
  cases hp : s.compacter with
  | test | compact | apply =>
    intro hf _
    exact h.alone hf (by rw [hp]; simp)
  | appendVersion => exact fun _ hb => absurd rfl hb
  | broadcast =>
    -- who is not asleep yet has the mutex
    intro _ _ w₁ w₂ h₁ h₂
    have holds : ∀ w, Sleepy (awake (s.writer w)) → Holds (s.writer w) := by
      intro w hw
      cases ht : s.writer w with
      | tested => trivial
      | _ =>
        rw [ht] at hw
        exact hw.elim
    exact h.lock.alone (holds w₁ h₁) (holds w₂ h₂)

/-- **Every step keeps the sleepers few.** -/
theorem SleepersOk.step (h : SleepersOk s) (hs : s.step compact l = some s') : SleepersOk s' := by
  by_cases hl : l = .compacter
  · subst hl
    cases hs
    exact h.step_compacter
  · exact h.step_writer (step_move hl hs)

/-- **A lost wake-up hits one writer.** In every run, where the version has room and no broadcast is
under way, at most one writer sleeps in `Wait` or is about to. -/
theorem one_sleeper (hx : (machine compact).Exec Any start hist s)
    (hf : s.current_.isFull = false) (hb : s.compacter ≠ .broadcast) (hw : Sleepy (s.writer w))
    (hw' : Sleepy (s.writer w')) : w = w' :=
  (hx.invariant start_sleepersOk fun _ _ _ h _ hs => h.step hs).alone hf hb w w' hw hw'

/-- Writer 0 has gone to sleep after the broadcast. -/
theorem asleep_too_late : ∃ hist s, (machine (noTable ℕ)).Exec Any start hist s ∧
    s.writer 0 = .waiting 10 ∧ s.current_.isFull = false ∧ s.compacter ≠ .broadcast := by
  have hr : ((machine (noTable ℕ)).exec Any start sleepTooLate).map
      (fun r => (r.2.writer 0, r.2.current_.isFull,
        r.2.compacter.broadcasting)) =
      some (.waiting 10, false, false) := by decide +kernel
  obtain ⟨r, hr, he⟩ := Option.map_eq_some_iff.1 hr
  simp only [Prod.mk.injEq] at he
  obtain ⟨h1, h2, h3⟩ := he
  refine ⟨r.1, r.2, exec_sound hr, h1, h2, fun hb => ?_⟩
  rw [hb] at h3
  cases h3

theorem one_sleeper_asleep : ∃ hist s, (machine (noTable ℕ)).Exec Any start hist s ∧
    ∀ w, Sleepy (s.writer w) ↔ w = 0 := by
  obtain ⟨hist, s, hx, hw, hf, hb⟩ := asleep_too_late
  have hzero : Sleepy (s.writer 0) := by
    rw [hw]
    trivial
  refine ⟨hist, s, hx, fun w => ⟨fun h => one_sleeper hx hf hb h hzero, ?_⟩⟩
  rintro rfl
  exact hzero

/-! ## On to the return -/

/-- How far the compacter is from its broadcast. -/
def CompactPc.left : CompactPc L → ℕ
  | .test => 4
  | .compact => 3
  | .apply _ _ => 2
  | .appendVersion _ _ => 1
  | .broadcast => 0

theorem by_compacter {P : VersionSet L → Prop}
    (hp : (machine compact).CanReach NoSpurious (s.compacterStep compact) P) :
    (machine compact).CanReach NoSpurious s P :=
  have hg : NoSpurious s .compacter := trivial
  .step hg rfl hp

/-- **A full version is replaced, and the sleepers wake.** -/
theorem compacter_wakes (hc : s.compacter = .test → s.current_.isFull = true) :
    (machine compact).CanReach NoSpurious s fun s' =>
      s'.compact_lock_ = s.compact_lock_ ∧ s'.writer = fun w => awake (s.writer w) := by
  have hbroadcast := CanReach.measure (M := machine compact) (G := NoSpurious) (s := s)
    (I := fun s' => s'.compact_lock_ = s.compact_lock_ ∧ s'.writer = s.writer ∧
      (s'.compacter = .test → s'.current_.isFull = true))
    (P := fun s' => s'.compacter = .broadcast) (fun s' => CompactPc.left s'.compacter) ?_
    ⟨rfl, rfl, hc⟩
  · refine hbroadcast.trans ?_
    rintro s' ⟨⟨hl, hw, -⟩, hb⟩
    refine by_compacter (.refl ?_)
    simp only [compacterStep, hb, hl, hw, and_self]
  · rintro s' ⟨hl, hw, hc⟩ hb
    refine by_compacter (.refl ?_)
    cases hp : s'.compacter with
    | broadcast => exact absurd hp hb
    | test => simp [compacterStep, hp, hc hp, hl, hw, CompactPc.left]
    | compact | apply | appendVersion => simp [compacterStep, hp, hl, hw, CompactPc.left]

/-- The mutex is free, and who had it before sleeps or is out. -/
structure Freed (s s' : VersionSet L) : Prop where
  lock : s'.compact_lock_ = none
  compacter : s'.compacter = s.compacter
  other : ∀ w, ¬ Holds (s.writer w) → s'.writer w = s.writer w
  own : ∀ w, Holds (s.writer w) → s'.writer w = .idle ∨ ∃ list, s'.writer w = .waiting list

theorem after_freed (h : LockOk s) (hw : Holds (s.writer w)) {pc : AppendPc L} {v : Version L}
    (hpc : pc = .idle ∨ ∃ list, pc = .waiting list) : Freed s (s.after w pc v) := by
  refine ⟨rfl, rfl, fun w' hw' => after_writer_of_ne ?_, fun w' hw' => ?_⟩
  · rintro rfl
    exact hw' hw
  · obtain rfl := h.alone hw hw'
    rw [after_writer_self]
    exact hpc

theorem mutex_freed (h : LockOk s) : (machine compact).CanReach NoSpurious s (Freed s) := by
  cases hl : s.compact_lock_ with
  | none =>
    refine .refl ⟨hl, rfl, fun _ _ => rfl, fun w hw => ?_⟩
    rw [(h.mutex w).1 hw] at hl
    cases hl
  | some w =>
    have hw := (h.mutex w).2 hl
    -- the writer gives the mutex back at `pc`
    have back : ∀ {pc : AppendPc L} {v : Version L}, (pc = .idle ∨ ∃ list, pc = .waiting list) →
        (machine compact).CanReach NoSpurious s (· = s.after w pc v) →
        (machine compact).CanReach NoSpurious s (Freed s) := by
      intro pc v hpc hr
      refine hr.mono ?_
      rintro _ rfl
      exact after_freed h hw hpc
    cases hp : s.writer w with
    | idle | called | waiting | woken =>
      rw [hp] at hw
      exact hw.elim
    | locked list =>
      cases hf : s.current_.isFull with
      | true => exact back (.inr ⟨list, rfl⟩) (locked_sleeps hp hf)
      | false => exact back (.inl rfl) (locked_appends hp hf)
    | tested list => exact back (.inr ⟨list, rfl⟩) (tested_sleeps hp)
    | resumed list => exact back (.inl rfl) (resumed_appends (.inl hp))
    | cleared list => exact back (.inl rfl) (resumed_appends (.inr hp))
    | appended => exact back (.inl rfl) (appended_leaves hp)

/-- A writer that is awake, or will be woken, returns. -/
theorem woken_returns (h : LockOk s) (hw : s.writer w = .woken list) :
    (machine compact).CanReach NoSpurious s (·.writer w = .idle) := by
  refine (mutex_freed h).trans fun s' hs' => ?_
  have hw' : s'.writer w = .woken list := (hs'.other w (by rw [hw]; exact id)).trans hw
  refine (woken_appends hw' hs'.lock).mono ?_
  rintro _ rfl
  exact after_writer_self

theorem woken_in_time (h : LockOk s) (hw : s.writer w = .waiting list)
    (hc : s.compacter = .test → s.current_.isFull = true) :
    (machine compact).CanReach NoSpurious s (·.writer w = .idle) := by
  refine ((compacter_wakes hc).keep h fun _ _ _ hi _ hs => hi.step hs).trans ?_
  rintro s' ⟨h', -, hwoken⟩
  have hw' : s'.writer w = .woken list := by
    rw [hwoken]
    show awake (s.writer w) = _
    rw [hw]
    rfl
  exact woken_returns h' hw'

/-- A writer is asleep, with nobody inside `AppendFrozenList` and the compacter at its test. -/
structure Asleep (w : Fin kMaxWriter) (list : L) (s : VersionSet L) : Prop where
  ok : SleepersOk s
  lock : s.compact_lock_ = none
  compacter : s.compacter = .test
  waiting : s.writer w = .waiting list

/-- Another writer appends a list. -/
theorem Asleep.append (h : Asleep w list s) (hne : w' ≠ w) (hf : s.current_.isFull = false) :
    (machine compact).CanReach NoSpurious s fun s' =>
      Asleep w list s' ∧ s'.current_.list_count_ = s.current_.list_count_ + 1 := by
  have hsleepy : ¬ Sleepy (s.writer w') := by
    intro hs
    refine hne (h.ok.alone hf ?_ w' w hs ?_)
    · rw [h.compacter]
      simp
    · rw [h.waiting]
      trivial
  have hholds : ¬ Holds (s.writer w') := by
    intro hw'
    have hl := (h.ok.lock.mutex w').1 hw'
    rw [h.lock] at hl
    cases hl
  -- after the call of `w'`
  have done : ∀ {s₁ : VersionSet L} {list' : L}, SleepersOk s₁ → s₁.compacter = .test →
      s₁.writer w = .waiting list → s₁.current_ = s.current_ →
      (machine compact).CanReach NoSpurious s₁
        (· = s₁.after w' .idle (s₁.current_.appendList list' w')) →
      (machine compact).CanReach NoSpurious s₁ fun s' =>
        Asleep w list s' ∧ s'.current_.list_count_ = s.current_.list_count_ + 1 := by
    intro s₁ list' hok hc hw hcur hr
    refine (hr.keep hok fun _ _ _ hi _ hs => hi.step hs).mono ?_
    rintro _ ⟨hok', rfl⟩
    refine ⟨⟨hok', rfl, hc, (after_writer_of_ne (Ne.symm hne)).trans hw⟩, ?_⟩
    show s₁.current_.list_count_ + 1 = _
    rw [hcur]
  cases hp : s.writer w' with
  | idle =>
    have hcall : s.step compact (.call w' list) = some (s.setWriter w' (.called list)) := by
      simp only [step, hp]
    have hg : NoSpurious s (.call w' list) := trivial
    have hother : (s.setWriter w' (.called list)).writer w = .waiting list :=
      (Function.update_of_ne (Ne.symm hne) ..).trans h.waiting
    exact .step hg hcall (done (h.ok.step hcall) h.compacter hother rfl
      (called_appends setWriter_self h.lock hf))
  | called list' => exact done h.ok h.compacter h.waiting rfl (called_appends hp h.lock hf)
  | woken list' => exact done h.ok h.compacter h.waiting rfl (woken_appends hp h.lock)
  | waiting | tested =>
    rw [hp] at hsleepy
    exact absurd trivial hsleepy
  | locked | resumed | cleared | appended =>
    rw [hp] at hholds
    exact absurd trivial hholds

/-- **The others fill the version.** -/
theorem Asleep.filled (h : Asleep w list s) (hne : w' ≠ w) :
    (machine compact).CanReach NoSpurious s fun s' =>
      Asleep w list s' ∧ s'.current_.isFull = true := by
  refine CanReach.measure (fun s' => kMaxFrozenList - s'.current_.list_count_) ?_ h
  intro s₁ h₁ hf
  rw [Bool.not_eq_true] at hf
  refine (h₁.append hne hf).mono ?_
  rintro s₂ ⟨h₂, hcount⟩
  have hroom := isFull_false.1 hf
  exact ⟨h₂, by omega⟩

theorem sleeper_returns (h : SleepersOk s) (hw : s.writer w = .waiting list) (hne : w' ≠ w) :
    (machine compact).CanReach NoSpurious s (·.writer w = .idle) := by
  by_cases hc : s.compacter = .test → s.current_.isFull = true
  · exact woken_in_time h.lock hw hc
  · push Not at hc
    refine ((mutex_freed h.lock).keep h fun _ _ _ hi _ hs => hi.step hs).trans ?_
    rintro s₁ ⟨h₁, hs₁⟩
    have hw₁ : s₁.writer w = .waiting list := (hs₁.other w (by rw [hw]; exact id)).trans hw
    have hasleep : Asleep w list s₁ := ⟨h₁, hs₁.lock, hs₁.compacter.trans hc.1, hw₁⟩
    refine (hasleep.filled hne).trans ?_
    rintro s₂ ⟨h₂, hf⟩
    exact woken_in_time h₂.ok.lock h₂.waiting fun _ => hf

/-- **Every call can return.** From every state of every run, also one with lost wake-ups, each writer
can still get out of `AppendFrozenList` without a spurious wake-up. -/
theorem call_can_return (hx : (machine compact).Exec Any start hist s) (w : Fin kMaxWriter) :
    (machine compact).CanReach NoSpurious s (·.writer w = .idle) := by
  have h : SleepersOk s := hx.invariant start_sleepersOk fun _ _ _ h _ hs => h.step hs
  have hother : ∃ w', w' ≠ w := by
    revert w
    decide
  obtain ⟨w', hne⟩ := hother
  -- asleep, or where a step of the mutex's owner leads
  have settled : ∀ {s : VersionSet L}, SleepersOk s →
      (s.writer w = .idle ∨ ∃ list, s.writer w = .waiting list) →
      (machine compact).CanReach NoSpurious s (·.writer w = .idle) := by
    rintro s h (hw | ⟨list, hw⟩)
    · exact .refl hw
    · exact sleeper_returns h hw hne
  refine ((mutex_freed h.lock).keep h fun _ _ _ hi _ hs => hi.step hs).trans ?_
  rintro s₁ ⟨h₁, hs₁⟩
  by_cases hin : Holds (s.writer w)
  · exact settled h₁ (hs₁.own w hin)
  · cases hp : s₁.writer w with
    | idle => exact settled h₁ (.inl hp)
    | waiting list => exact settled h₁ (.inr ⟨list, hp⟩)
    | woken list => exact woken_returns h₁.lock hp
    | called list =>
      cases hf : s₁.current_.isFull with
      | true =>
        refine ((called_sleeps hp hs₁.lock hf).keep h₁ fun _ _ _ hi _ hs => hi.step hs).trans ?_
        rintro _ ⟨h₂, rfl⟩
        exact settled h₂ (.inr ⟨list, after_writer_self⟩)
      | false =>
        refine (called_appends hp hs₁.lock hf).mono ?_
        rintro _ rfl
        exact after_writer_self
    | locked | tested | resumed | cleared | appended =>
      have hl := (h₁.lock.mutex w).1 (by rw [hp]; trivial)
      rw [hs₁.lock] at hl
      cases hl

theorem call_can_return_asleep : ∃ hist s, (machine (noTable ℕ)).Exec Any start hist s ∧
    s.writer 0 = .waiting 10 ∧ s.current_.isFull = false ∧
    (machine (noTable ℕ)).CanReach NoSpurious s (·.writer 0 = .idle) := by
  obtain ⟨hist, s, hx, hw, hf, -⟩ := asleep_too_late
  exact ⟨hist, s, hx, hw, hf, call_can_return hx 0⟩

end VersionSet

end Yangkv
