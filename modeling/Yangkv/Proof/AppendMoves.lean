import Yangkv.Lib.Progress
import Yangkv.Proof.Freeze

/-!
# The steps of `AppendFrozenList`

* `step_move`: what a step of a writer can be.
* `LockOk.step`: one writer at a time is inside, and who has seen room still has it.
* `entered_appends`, `entered_sleeps`, `woken_appends`: a writer that finds the mutex free
  appends its list and leaves, or goes to sleep.
-/

namespace Yangkv

open Lib Machine

namespace VersionSet

/-- What a step of a writer can be. -/
inductive Move {L : Type} (s : VersionSet L) : Label L → VersionSet L → Prop
  | call {w list} : s.writer w = .idle → Move s (.call w list) (s.setWriter w (.called list))
  | enter {w list} : s.writer w = .called list → s.compact_lock_ = none →
      Move s (.writer w) { s.setWriter w (.locked list) with compact_lock_ := some w }
  | resume {w list} : s.writer w = .woken list → s.compact_lock_ = none →
      Move s (.writer w) { s.setWriter w (.resumed list) with compact_lock_ := some w }
  | full {w list} : s.writer w = .locked list → s.current_.isFull = true →
      Move s (.writer w) (s.setWriter w (.tested list))
  | room {w list} : s.writer w = .locked list → s.current_.isFull = false →
      Move s (.writer w) (s.setWriter w (.cleared list))
  | sleep {w list} : s.writer w = .tested list →
      Move s (.writer w) { s.setWriter w (.waiting list) with compact_lock_ := none }
  | append {w list} : s.writer w = .resumed list ∨ s.writer w = .cleared list →
      Move s (.writer w) (s.appendList w list)
  | leave {w} : s.writer w = .appended →
      Move s (.writer w) { s.setWriter w .idle with compact_lock_ := none }
  | wake {w list} : s.writer w = .waiting list → Move s (.wake w) (s.setWriter w (.woken list))

variable {L : Type} {compact : (Fin kMaxWriter → List L) → VersionEdit → VersionEdit}
  {s s' : VersionSet L} {l : Label L} {w w' : Fin kMaxWriter} {list : L}

theorem lock_some {pc : AppendPc L} (h : s.lock w pc = some s') :
    s.compact_lock_ = none ∧ s' = { s.setWriter w pc with compact_lock_ := some w } := by
  unfold VersionSet.lock at h
  split at h
  · rename_i hl
    exact ⟨hl, (Option.some.inj h).symm⟩
  · cases h

theorem step_move (hl : l ≠ .compacter) (hs : s.step compact l = some s') : Move s l s' := by
  cases l with
  | compacter => exact absurd rfl hl
  | call w list =>
    simp only [VersionSet.step] at hs
    split at hs
    · rename_i hw
      cases hs
      exact .call hw
    · cases hs
  | wake w =>
    simp only [VersionSet.step] at hs
    split at hs
    · rename_i list hw
      cases hs
      exact .wake hw
    · cases hs
  | writer w =>
    have hs : s.writerStep w = some s' := hs
    unfold VersionSet.writerStep at hs
    cases hw : s.writer w with
    | idle | waiting =>
      rw [hw] at hs
      cases hs
    | called list =>
      rw [hw] at hs
      obtain ⟨hlock, rfl⟩ := lock_some hs
      exact .enter hw hlock
    | woken list =>
      rw [hw] at hs
      obtain ⟨hlock, rfl⟩ := lock_some hs
      exact .resume hw hlock
    | locked list =>
      simp only [hw, Option.some.injEq] at hs
      subst hs
      cases hf : s.current_.isFull with
      | true => exact .full hw hf
      | false => exact .room hw hf
    | tested list =>
      rw [hw] at hs
      cases hs
      exact .sleep hw
    | resumed list =>
      rw [hw] at hs
      cases hs
      exact .append (.inl hw)
    | cleared list =>
      rw [hw] at hs
      cases hs
      exact .append (.inr hw)
    | appended =>
      rw [hw] at hs
      cases hs
      exact .leave hw

/-! ## The mutex -/

/-- Who is at a place with the mutex has it, and who has seen room still has it. -/
structure LockOk (s : VersionSet L) : Prop where
  mutex : ∀ w, Holds (s.writer w) ↔ s.compact_lock_ = some w
  cleared : ∀ w list, s.writer w = .cleared list → s.current_.isFull = false
  fresh : ∀ merged v, s.compacter = .appendVersion merged v → v.list_count_ = 0

theorem start_lockOk : LockOk (start : VersionSet L) := by
  refine ⟨fun w => ⟨False.elim, fun h => ?_⟩, fun _ _ h => ?_, fun _ _ h => ?_⟩
  · cases h
  · cases h
  · cases h

theorem LockOk.alone (h : LockOk s) (hw : Holds (s.writer w)) (hw' : Holds (s.writer w')) :
    w = w' := by
  have h1 := (h.mutex w).1 hw
  rw [(h.mutex w').1 hw'] at h1
  exact (Option.some.inj h1).symm

/-- A writer moves on, and may take the mutex or give it back. -/
theorem LockOk.move (h : LockOk s) {pc : AppendPc L} {lock : Option (Fin kMaxWriter)}
    (hown : Holds pc ↔ lock = some w)
    (hother : ∀ w', w' ≠ w → (lock = some w' ↔ s.compact_lock_ = some w'))
    (hc : ∀ list, pc = .cleared list → s.current_.isFull = false) :
    LockOk { s.setWriter w pc with compact_lock_ := lock } := by
  refine ⟨fun w' => ?_, fun w' list hw' => ?_, h.fresh⟩
  · show Holds (Function.update s.writer w pc w') ↔ lock = some w'
    by_cases hne : w' = w
    · rw [hne, Function.update_self]
      exact hown
    · rw [Function.update_of_ne hne, h.mutex w', hother w' hne]
  · rcases update_writer (P := fun pc => pc = .cleared list) hw' with ⟨-, hw'⟩ | ⟨-, hw'⟩
    · exact h.cleared w' list hw'
    · exact hc list hw'

theorem LockOk.step_writer (h : LockOk s) (hm : Move s l s') : LockOk s' := by
  -- who is not at a place with the mutex does not have it
  have without : ∀ {w : Fin kMaxWriter}, ¬ Holds (s.writer w) → ¬ s.compact_lock_ = some w :=
    fun hw hl => hw ((h.mutex _).2 hl)
  cases hm with
  | @call w _ hw | @wake w _ hw =>
    have hnot : ¬ s.compact_lock_ = some w := without (by rw [hw]; exact id)
    exact h.move ⟨False.elim, hnot⟩ (fun _ _ => Iff.rfl) fun _ hc => by cases hc
  | @enter w _ hw hn | @resume w _ hw hn =>
    refine h.move ⟨fun _ => rfl, fun _ => trivial⟩ (fun w' hne => ?_) fun _ hc => by cases hc
    have hne : w ≠ w' := Ne.symm hne
    simp [hn, hne]
  | full hw hf =>
    have hheld := (h.mutex _).1 (by rw [hw]; trivial)
    exact h.move ⟨fun _ => hheld, fun _ => trivial⟩ (fun _ _ => Iff.rfl) fun _ hc => by cases hc
  | room hw hf =>
    have hheld := (h.mutex _).1 (by rw [hw]; trivial)
    exact h.move ⟨fun _ => hheld, fun _ => trivial⟩ (fun _ _ => Iff.rfl) fun _ _ => hf
  | @sleep w _ hw | @leave w hw =>
    have hheld := (h.mutex w).1 (by rw [hw]; trivial)
    refine h.move ⟨False.elim, fun he => by cases he⟩ (fun w' hne => ?_) fun _ hc => by cases hc
    have hne : w ≠ w' := Ne.symm hne
    simp [hheld, hne]
  | @append w list hw =>
    have hin : Holds (s.writer w) := by
      obtain hw | hw := hw <;> rw [hw] <;> trivial
    refine ⟨fun w' => ?_, fun w' list' hw' => ?_, h.fresh⟩
    · show Holds (Function.update s.writer w .appended w') ↔ s.compact_lock_ = some w'
      by_cases hne : w' = w
      · rw [hne, Function.update_self]
        exact ⟨fun _ => (h.mutex w).1 hin, fun _ => trivial⟩
      · rw [Function.update_of_ne hne]
        exact h.mutex w'
    · -- nobody else is between its test and its `AppendList`
      rcases update_writer (P := fun pc => pc = .cleared list') hw' with ⟨hne, hw'⟩ | ⟨-, hw'⟩
      · exact absurd (h.alone (by rw [hw']; trivial) hin) hne
      · cases hw'

theorem holds_awake (pc : AppendPc L) : Holds (awake pc) ↔ Holds pc := by
  cases pc <;> exact Iff.rfl

theorem LockOk.step_compacter (h : LockOk s) : LockOk (s.compacterStep compact) := by
  unfold VersionSet.compacterStep
  cases hp : s.compacter with
  | test =>
    refine ⟨h.mutex, h.cleared, fun merged v hc => ?_⟩
    have hc : (if s.current_.isFull then CompactPc.compact else .test) = .appendVersion merged v := hc
    split at hc <;> cases hc
  | compact => exact ⟨h.mutex, h.cleared, fun _ _ hc => by cases hc⟩
  | apply merged edit =>
    refine ⟨h.mutex, h.cleared, fun _ _ hc => ?_⟩
    cases hc
    rfl
  | appendVersion merged v =>
    refine ⟨h.mutex, fun _ _ _ => ?_, fun _ _ hc => by cases hc⟩
    have hv := h.fresh merged v hp
    exact isFull_false.2 (by rw [hv]; decide)
  | broadcast =>
    refine ⟨fun w => (holds_awake _).trans (h.mutex w), fun w list hw => h.cleared w list ?_,
      fun _ _ hc => by cases hc⟩
    have hw : awake (s.writer w) = .cleared list := hw
    cases hx : s.writer w <;> rw [hx] at hw <;> cases hw
    rfl

theorem LockOk.step (h : LockOk s) (hs : s.step compact l = some s') : LockOk s' := by
  by_cases hl : l = .compacter
  · subst hl
    cases hs
    exact h.step_compacter
  · exact h.step_writer (step_move hl hs)

/-- No writer wakes by itself. -/
def NoSpurious (_ : VersionSet L) : Label L → Prop
  | .wake _ => False
  | _ => True

/-! ## Going through -/

/-- The writer is at `pc`, and the mutex is free. -/
def after (s : VersionSet L) (w : Fin kMaxWriter) (pc : AppendPc L) (v : Version L) : VersionSet L :=
  { s.setWriter w pc with compact_lock_ := none, current_ := v }

@[simp] theorem setWriter_self {pc : AppendPc L} : (s.setWriter w pc).writer w = pc :=
  Function.update_self ..

@[simp] theorem after_writer_self {pc : AppendPc L} {v : Version L} :
    (s.after w pc v).writer w = pc := Function.update_self ..

theorem after_writer_of_ne {pc : AppendPc L} {v : Version L} (h : w' ≠ w) :
    (s.after w pc v).writer w' = s.writer w' := Function.update_of_ne h ..

/-- A step of the writer before it leaves. -/
theorem after_step {pc pc' : AppendPc L} {v v' : Version L} {lock : Option (Fin kMaxWriter)} :
    after { s.setWriter w pc' with compact_lock_ := lock, current_ := v' } w pc v = s.after w pc v := by
  simp only [after, setWriter, Function.update_idem]

/-- A step of a writer on the way to `P`. -/
theorem by_writer {P : VersionSet L → Prop} (hs : (machine compact).step s (.writer w) = some s')
    (hp : (machine compact).CanReach NoSpurious s' P) : (machine compact).CanReach NoSpurious s P :=
  have hg : NoSpurious s (.writer w) := trivial
  .step hg hs hp

theorem appended_leaves (hw : s.writer w = .appended) :
    (machine compact).CanReach NoSpurious s (· = s.after w .idle s.current_) := by
  have hs : (machine compact).step s (.writer w) = some (s.after w .idle s.current_) := by
    show s.writerStep w = _
    simp only [writerStep, hw]
    rfl
  exact by_writer hs (.refl rfl)

theorem resumed_appends (hw : s.writer w = .resumed list ∨ s.writer w = .cleared list) :
    (machine compact).CanReach NoSpurious s
      (· = s.after w .idle (s.current_.appendList list w)) := by
  have hs : (machine compact).step s (.writer w) = some (s.appendList w list) := by
    show s.writerStep w = _
    obtain hw | hw := hw <;> simp only [writerStep, hw]
  refine by_writer hs ((appended_leaves (Function.update_self ..)).mono ?_)
  rintro _ rfl
  exact after_step

/-- **A writer woken from `Wait` appends its list**, once the mutex is free. -/
theorem woken_appends (hw : s.writer w = .woken list) (hl : s.compact_lock_ = none) :
    (machine compact).CanReach NoSpurious s
      (· = s.after w .idle (s.current_.appendList list w)) := by
  have hs : (machine compact).step s (.writer w) =
      some { s.setWriter w (.resumed list) with compact_lock_ := some w } := by
    show s.writerStep w = _
    simp only [writerStep, hw, lock, hl, if_true]
  refine by_writer hs ((resumed_appends (.inl (Function.update_self ..))).mono ?_)
  rintro _ rfl
  exact after_step

/-- A writer that has the mutex appends its list where there is room. -/
theorem locked_appends (hw : s.writer w = .locked list) (hf : s.current_.isFull = false) :
    (machine compact).CanReach NoSpurious s
      (· = s.after w .idle (s.current_.appendList list w)) := by
  have hs : (machine compact).step s (.writer w) = some (s.setWriter w (.cleared list)) := by
    show s.writerStep w = _
    simp only [writerStep, hw, hf, Bool.false_eq_true, if_false]
  refine by_writer hs ((resumed_appends (.inr (Function.update_self ..))).mono ?_)
  rintro _ rfl
  exact after_step

theorem tested_sleeps (hw : s.writer w = .tested list) :
    (machine compact).CanReach NoSpurious s (· = s.after w (.waiting list) s.current_) := by
  have hs : (machine compact).step s (.writer w) = some (s.after w (.waiting list) s.current_) := by
    show s.writerStep w = _
    simp only [writerStep, hw]
    rfl
  exact by_writer hs (.refl rfl)

/-- It goes to sleep where there is none. -/
theorem locked_sleeps (hw : s.writer w = .locked list) (hf : s.current_.isFull = true) :
    (machine compact).CanReach NoSpurious s (· = s.after w (.waiting list) s.current_) := by
  have hs : (machine compact).step s (.writer w) = some (s.setWriter w (.tested list)) := by
    show s.writerStep w = _
    simp only [writerStep, hw, hf, if_true]
  refine by_writer hs ((tested_sleeps setWriter_self).mono ?_)
  rintro _ rfl
  exact after_step

theorem called_enters (hw : s.writer w = .called list) (hl : s.compact_lock_ = none) :
    (machine compact).step s (.writer w) =
      some { s.setWriter w (.locked list) with compact_lock_ := some w } := by
  show s.writerStep w = _
  simp only [writerStep, hw, lock, hl, if_true]

/-- **A call in which the version has room appends its list.** -/
theorem called_appends (hw : s.writer w = .called list) (hl : s.compact_lock_ = none)
    (hf : s.current_.isFull = false) :
    (machine compact).CanReach NoSpurious s
      (· = s.after w .idle (s.current_.appendList list w)) := by
  refine by_writer (called_enters hw hl) ((locked_appends (Function.update_self ..) ?_).mono ?_)
  · exact hf
  · rintro _ rfl
    exact after_step

/-- **A call in which the version is full goes to sleep.** -/
theorem called_sleeps (hw : s.writer w = .called list) (hl : s.compact_lock_ = none)
    (hf : s.current_.isFull = true) :
    (machine compact).CanReach NoSpurious s (· = s.after w (.waiting list) s.current_) := by
  refine by_writer (called_enters hw hl) ((locked_sleeps (Function.update_self ..) ?_).mono ?_)
  · exact hf
  · rintro _ rfl
    exact after_step

end VersionSet

end Yangkv
