import Yangkv.Proof.Freeze

/-!
# No lost wake-up

The compacter replaces the version and broadcasts without the mutex. A writer
between its test of `isFull` and its sleep is not woken by a broadcast that comes
first: it goes to sleep although the version it waits for is already there.

* `WakeOk.step`: a writer that sleeps, or is about to, has a full version or a
  broadcast still to come.
* `no_lost_wakeup`: all runs in which no broadcast comes between the test of a
  writer and its sleep.
* `lost_of_tested`: a broadcast that does come in between loses the wake-up.
* `wakeup_lost`: a run in which it does.
-/

namespace Yangkv

open Lib

namespace VersionSet

variable {L : Type} {compact : (Fin kMaxWriter → List L) → VersionEdit → VersionEdit}
  {s s' : VersionSet L} {l : Label L} {hist : List (Event L)} {w w' : Fin kMaxWriter} {list : L}

/-- A writer sleeps in `Wait`, the current version is not full, and the compacter has already
executed the broadcast that followed installing it. -/
def LostWakeup (s : VersionSet L) : Prop :=
  (∃ w list, s.writer w = .waiting list) ∧ s.current_.isFull = false ∧ s.compacter ≠ .broadcast

/-- The broadcast does not come after the test of a writer that found the version before it full,
and before its sleep. -/
def WakesAll (s : VersionSet L) : Label L → Prop
  | .compacter => s.compacter = .broadcast →
      ∀ w list, s.writer w = .tested list → s.current_.isFull = true
  | _ => True

/-- Asleep, or on the way to it. -/
def Sleepy : AppendPc L → Prop
  | .tested _ | .waiting _ => True
  | _ => False

/-- A writer that sleeps or is about to has a full version or a broadcast still to come. -/
def WakeOk (s : VersionSet L) : Prop :=
  ∀ w, Sleepy (s.writer w) → s.current_.isFull = true ∨ s.compacter = .broadcast

theorem WakeOk.not_lost (h : WakeOk s) : ¬ LostWakeup s := by
  rintro ⟨⟨w, list, hw⟩, hf, hb⟩
  rcases h w (by rw [hw]; trivial) with ht | ht
  · rw [ht] at hf; cases hf
  · exact hb ht

/-- A writer moves on within the version it found. -/
theorem WakeOk.move (h : WakeOk s) {pc : AppendPc L} (lock : Option (Fin kMaxWriter))
    (hpc : Sleepy pc → Sleepy (s.writer w) ∨ s.current_.isFull = true) :
    WakeOk { s.setWriter w pc with compact_lock_ := lock } := by
  intro w' hw'
  rcases update_writer (P := Sleepy) hw' with ⟨-, hw'⟩ | ⟨-, hs⟩
  · exact h w' hw'
  · rcases hpc hs with hs | hf
    · exact h w hs
    · exact .inl hf

/-- A version does not get less full by an append. -/
theorem isFull_appendList {v : Version L} (h : v.isFull = true) (idx : Fin kMaxWriter) :
    (v.appendList list idx).isFull = true := by
  have hle : kMaxFrozenList ≤ v.list_count_ := of_decide_eq_true h
  exact decide_eq_true (Nat.le_succ_of_le hle)

theorem WakeOk.append (h : WakeOk s) : WakeOk (s.appendList w list) := by
  intro w' hw'
  rcases update_writer (P := Sleepy) hw' with ⟨-, hw'⟩ | ⟨-, hs⟩
  · exact (h w' hw').imp_left fun hf => isFull_appendList hf w
  · exact hs.elim

theorem WakeOk.lock (h : WakeOk s) {pc : AppendPc L} (hpc : ¬ Sleepy pc)
    (hs : s.lock w pc = some s') : WakeOk s' := by
  unfold VersionSet.lock at hs
  split at hs
  · cases hs; exact h.move _ fun hp => absurd hp hpc
  · cases hs

theorem WakeOk.writerStep (h : WakeOk s) (hs : s.writerStep w = some s') : WakeOk s' := by
  unfold VersionSet.writerStep at hs
  cases hw : s.writer w with
  | idle | waiting => rw [hw] at hs; cases hs
  | called list | woken list => rw [hw] at hs; exact h.lock id hs
  | locked list =>
    -- it goes to sleep only if it finds the version full
    rw [hw] at hs
    cases hs
    refine h.move s.compact_lock_ fun hp => .inr ?_
    by_contra hf
    rw [if_neg hf] at hp
    exact hp
  | tested list =>
    rw [hw] at hs
    cases hs
    exact h.move none fun _ => .inl (by rw [hw]; trivial)
  | resumed list | cleared list => rw [hw] at hs; cases hs; exact h.append
  | appended => rw [hw] at hs; cases hs; exact h.move none fun hp => hp.elim

theorem WakeOk.compacterStep (h : WakeOk s) (hg : WakesAll s (.compacter : Label L)) :
    WakeOk (s.compacterStep compact) := by
  have hfull : s.compacter ≠ .broadcast → ∀ w, Sleepy (s.writer w) → s.current_.isFull = true :=
    fun hne w hw => (h w hw).resolve_right hne
  unfold VersionSet.compacterStep
  cases hp : s.compacter with
  | test | compact | apply =>
    exact fun w hw => .inl (hfull (by rw [hp]; simp) w hw)
  -- the version may have room now, but the broadcast is the next step
  | appendVersion => exact fun _ _ => .inr rfl
  | broadcast =>
    -- the sleepers are woken; who is on the way to sleep has a full version
    intro w hw
    have hw : Sleepy (awake (s.writer w)) := hw
    cases ht : s.writer w with
    | tested list => exact .inl (hg hp w list ht)
    | _ => rw [ht] at hw; exact hw.elim

/-- **Every step keeps the invariant.** -/
theorem WakeOk.step (h : WakeOk s) (hg : WakesAll s l) (hs : s.step compact l = some s') :
    WakeOk s' := by
  cases l with
  | writer w => exact h.writerStep hs
  | compacter => cases hs; exact h.compacterStep hg
  | call w list =>
    simp only [VersionSet.step] at hs
    split at hs
    · cases hs; exact h.move s.compact_lock_ fun hp => hp.elim
    · cases hs
  | wake w =>
    simp only [VersionSet.step] at hs
    split at hs
    · cases hs; exact h.move s.compact_lock_ fun hp => hp.elim
    · cases hs

/-- **No lost wake-up** in a run in which no broadcast comes between the test of a writer and its
sleep. -/
theorem no_lost_wakeup (hx : (machine compact).Exec WakesAll start hist s) : ¬ LostWakeup s := by
  have h0 : WakeOk (start : VersionSet L) := fun _ hw => False.elim hw
  exact (hx.invariant h0 fun _ _ _ hi hg hs => hi.step hg hs).not_lost

/-- A broadcast that comes between the test of a writer and its sleep, with room in the version
that it announces, is a wake-up lost as soon as the writer goes on. -/
theorem lost_of_tested (hb : s.compacter = .broadcast) (hw : s.writer w = .tested list)
    (hf : s.current_.isFull = false) :
    ∃ s₁ s₂, s.step compact .compacter = some s₁ ∧ s₁.step compact (.writer w) = some s₂ ∧
      LostWakeup s₂ := by
  have h1 : (s.compacterStep compact).writer w = .tested list := by
    simp only [VersionSet.compacterStep, hb, hw, awake]
  have h2 : (s.compacterStep compact).compacter = .test := by
    simp only [VersionSet.compacterStep, hb]
  have h3 : (s.compacterStep compact).current_ = s.current_ := by
    simp only [VersionSet.compacterStep, hb]
  refine ⟨_, { (s.compacterStep compact).setWriter w (.waiting list) with compact_lock_ := none },
    rfl, by simp only [VersionSet.step, VersionSet.writerStep, h1], ⟨w, list, ?_⟩, ?_, ?_⟩
  · simp [setWriter]
  · simpa [setWriter, h3] using hf
  · simp [setWriter, h2]

/-! ## Two runs -/

instance (s : VersionSet ℕ) (l : Label ℕ) : Decidable (WakesAll s l) :=
  match l with
  | .call _ _ | .wake _ | .writer _ => instDecidableTrue
  | .compacter =>
    match h : s.compacter with
    | .broadcast => decidable_of_iff
        (∀ w, (match s.writer w with | .tested _ => true | _ => false) = true →
          s.current_.isFull = true)
        ⟨fun hd _ w _ hw => hd w (by rw [hw]), fun hd w hw => by
          cases ht : s.writer w with
          | tested list => exact hd h w list ht
          | _ => rw [ht] at hw; cases hw⟩
    | .test | .compact | .apply _ _ | .appendVersion _ _ =>
      isTrue fun hb => by rw [h] at hb; cases hb

theorem no_lost_wakeup_waitForRoom : ∃ hist s, (machine (noTable ℕ)).Exec WakesAll start hist s ∧
    appendedBy 0 hist = List.range 11 ∧ ¬ LostWakeup s := by
  have hr : ((machine (noTable ℕ)).exec WakesAll start waitForRoom).map (fun r => appendedBy 0 r.1) =
      some (List.range 11) := by decide +kernel
  obtain ⟨r, hr, ha⟩ := Option.map_eq_some_iff.1 hr
  have hx := Machine.exec_sound hr
  exact ⟨r.1, r.2, hx, ha, no_lost_wakeup hx⟩

/-- Writer 0 finds a full version, the compacter replaces it and broadcasts, and only then the
writer goes to sleep. -/
def sleepTooLate : List (Label ℕ) :=
  fillUp ++ .call 0 10 :: List.replicate 2 (.writer 0) ++ List.replicate 5 .compacter ++
    [.writer 0]

/-- **A broadcast before the sleep is lost.** -/
theorem wakeup_lost : ∃ hist s, (machine (noTable ℕ)).Exec Machine.Any start hist s ∧
    (∃ merged, .replaced merged ∈ hist) ∧ LostWakeup s := by
  have hr : ((machine (noTable ℕ)).exec Machine.Any start sleepTooLate).map
      (fun r => (mergedFor 0 r.1, r.2.writer 0, r.2.current_.isFull,
        (match r.2.compacter with | .broadcast => true | _ => false))) =
      some (List.range 10, .waiting 10, false, false) := by decide +kernel
  obtain ⟨r, hr, he⟩ := Option.map_eq_some_iff.1 hr
  simp only [Prod.mk.injEq] at he
  obtain ⟨h1, h2, h3, h4⟩ := he
  obtain ⟨merged, hm, -⟩ := mem_mergedFor.1 (show 0 ∈ mergedFor 0 r.1 by rw [h1]; decide)
  refine ⟨r.1, r.2, Machine.exec_sound hr, ⟨merged, hm⟩, ⟨0, 10, h2⟩, h3, fun hb => ?_⟩
  rw [hb] at h4
  cases h4

end VersionSet

end Yangkv
