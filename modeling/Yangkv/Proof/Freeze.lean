import Yangkv.Spec.Freeze

/-!
# No frozen list is lost

While no writer that comes back from `Wait` finds the version still full, the lists
appended so far are, for each writer, those merged by the compactions that replaced
a version, followed by those in the current version. `Wait` is called once and its
condition not tested again, so a writer woken spuriously, or behind another woken
one, appends to a full version: its list may come after the lists were merged and
before the version is replaced.

* `FreezeOk.step`: what one step of a writer or of the compacter preserves.
* `no_list_lost`: all runs in which a resumed writer finds room.
* `list_lost`: a run with a spurious wake-up loses a list.
-/

namespace Yangkv

open Lib

namespace VersionSet

variable {L : Type} {compact : (Fin kMaxWriter → List L) → VersionEdit → VersionEdit}
  {s s' : VersionSet L} {l : Label L} {hist : List (Event L)} {w w' : Fin kMaxWriter}

/-- The lists that writer `w` has appended. -/
def appendedBy (w : Fin kMaxWriter) (hist : List (Event L)) : List L :=
  hist.filterMap fun
    | .appended w' list => if w' = w then some list else none
    | .replaced _ => none

/-- The lists of writer `w` merged by the compactions that replaced a version. -/
def mergedFor (w : Fin kMaxWriter) (hist : List (Event L)) : List L :=
  hist.flatMap fun
    | .appended _ _ => []
    | .replaced merged => merged w

/-- The current version is not over-full, and every appended list is in it or was merged by the
compaction that replaced its version. -/
def NoListLost (hist : List (Event L)) (s : VersionSet L) : Prop :=
  s.current_.list_count_ ≤ kMaxFrozenList ∧ ∀ w list, .appended w list ∈ hist →
    list ∈ s.current_.list_ w ∨ ∃ merged, .replaced merged ∈ hist ∧ list ∈ merged w

/-- A writer back from `Wait` finds room when it appends. -/
def FindsRoom (s : VersionSet L) : Label L → Prop
  | .writer w => ∀ list, s.writer w = .resumed list → s.current_.isFull = false
  | _ => True

/-- The place is one with the mutex. -/
def Holds : AppendPc L → Prop
  | .locked _ | .tested _ | .resumed _ | .cleared _ | .appended => True
  | _ => False

/-- From the test on, the version stays full, and what was merged is what it holds. -/
def CompactOk (v : Version L) : CompactPc L → Prop
  | .test | .broadcast => True
  | .compact => v.isFull = true
  | .apply merged _ => v.isFull = true ∧ merged = v.list_
  | .appendVersion merged v' =>
    v.isFull = true ∧ merged = v.list_ ∧ v'.list_ = (fun _ => []) ∧ v'.list_count_ = 0

/-- The invariant of the writers and the compacter. -/
structure FreezeOk (hist : List (Event L)) (s : VersionSet L) : Prop where
  mutex : ∀ w, Holds (s.writer w) → s.compact_lock_ = some w
  cleared : ∀ w list, s.writer w = .cleared list → s.current_.isFull = false
  count : s.current_.list_count_ ≤ kMaxFrozenList
  compacter : CompactOk s.current_ s.compacter
  kept : ∀ w, appendedBy w hist = mergedFor w hist ++ s.current_.list_ w

theorem isFull_false {v : Version L} : v.isFull = false ↔ v.list_count_ < kMaxFrozenList := by
  simp [Version.isFull]

/-- With a version that is not full, the compacter is not in a compaction. -/
theorem CompactOk.of_room {v v' : Version L} {pc : CompactPc L} (h : CompactOk v pc)
    (hf : v.isFull = false) : CompactOk v' pc := by
  cases pc with
  | test | broadcast => trivial
  | compact => rw [CompactOk, hf] at h; cases h
  | apply | appendVersion => rw [CompactOk, hf] at h; cases h.1

theorem start_ok : FreezeOk [] (start : VersionSet L) :=
  ⟨fun _ h => h.elim, fun _ _ h => (nomatch h), Nat.zero_le _, trivial, fun _ => rfl⟩

/-- Who has the mutex is the only one at a place with it. -/
theorem FreezeOk.alone (h : FreezeOk hist s) (hw : Holds (s.writer w)) (hw' : Holds (s.writer w')) :
    w = w' := by
  have h1 := h.mutex w hw
  rw [h.mutex w' hw'] at h1
  exact (Option.some.inj h1).symm

theorem update_writer {f : Fin kMaxWriter → AppendPc L} {pc : AppendPc L} {P : AppendPc L → Prop}
    (h : P (Function.update f w pc w')) : w' ≠ w ∧ P (f w') ∨ w' = w ∧ P pc := by
  rcases eq_or_ne w' w with rfl | hne
  · rw [Function.update_self] at h; exact .inr ⟨rfl, h⟩
  · rw [Function.update_of_ne hne] at h; exact .inl ⟨hne, h⟩

/-- A writer takes the mutex. -/
theorem FreezeOk.lock (h : FreezeOk hist s) {pc : AppendPc L} (hpc : ∀ list, pc ≠ .cleared list)
    (hs : s.lock w pc = some s') : FreezeOk hist s' := by
  unfold VersionSet.lock at hs
  split at hs
  · rename_i hl
    cases hs
    refine ⟨fun w' hw' => ?_, fun w' list hw' => ?_, h.count, h.compacter, h.kept⟩
    · rcases update_writer (P := Holds) hw' with ⟨-, hw'⟩ | ⟨rfl, -⟩
      · rw [h.mutex w' hw'] at hl; cases hl
      · rfl
    · rcases update_writer (P := fun pc => pc = .cleared list) hw' with ⟨-, hw'⟩ | ⟨-, hw'⟩
      · exact h.cleared w' list hw'
      · exact absurd hw' (hpc list)
  · cases hs

/-- A writer gives the mutex back. -/
theorem FreezeOk.unlock (h : FreezeOk hist s) (hw : Holds (s.writer w)) {pc : AppendPc L}
    (hpc : ¬ Holds pc) : FreezeOk hist { s.setWriter w pc with compact_lock_ := none } := by
  refine ⟨fun w' hw' => ?_, fun w' list hw' => ?_, h.count, h.compacter, h.kept⟩
  · rcases update_writer (P := Holds) hw' with ⟨hne, hw'⟩ | ⟨-, hw'⟩
    · exact absurd (h.alone hw' hw) hne
    · exact absurd hw' hpc
  · rcases update_writer (P := fun pc => pc = .cleared list) hw' with ⟨-, hw'⟩ | ⟨-, hw'⟩
    · exact h.cleared w' list hw'
    · subst hw'; exact absurd trivial hpc

/-- A writer moves on, with or without the mutex as before. -/
theorem FreezeOk.move (h : FreezeOk hist s) {pc : AppendPc L} (hpc : Holds pc → Holds (s.writer w))
    (hc : ∀ list, pc = .cleared list → s.current_.isFull = false) :
    FreezeOk hist (s.setWriter w pc) := by
  refine ⟨fun w' hw' => ?_, fun w' list hw' => ?_, h.count, h.compacter, h.kept⟩
  · rcases update_writer (P := Holds) hw' with ⟨-, hw'⟩ | ⟨hww, hh⟩
    · exact h.mutex w' hw'
    · subst hww; exact h.mutex w' (hpc hh)
  · rcases update_writer (P := fun pc => pc = .cleared list) hw' with ⟨-, hw'⟩ | ⟨-, hw'⟩
    · exact h.cleared w' list hw'
    · exact hc list hw'

theorem appendedBy_snoc (w w' : Fin kMaxWriter) (hist : List (Event L)) (list : L) :
    appendedBy w (hist ++ [.appended w' list]) =
      appendedBy w hist ++ if w' = w then [list] else [] := by
  unfold appendedBy
  rw [List.filterMap_append]
  by_cases hw : w' = w <;> simp [hw]

theorem mergedFor_append (w : Fin kMaxWriter) (hist hist' : List (Event L)) :
    mergedFor w (hist ++ hist') = mergedFor w hist ++ mergedFor w hist' := List.flatMap_append

/-- A writer with the mutex appends to a version with room. -/
theorem FreezeOk.append (h : FreezeOk hist s) (hw : Holds (s.writer w))
    (hf : s.current_.isFull = false) (list : L) :
    FreezeOk (hist ++ [.appended w list]) (s.appendList w list) := by
  refine ⟨fun w' hw' => ?_, fun w' list' hw' => ?_, isFull_false.1 hf, h.compacter.of_room hf,
    fun w' => ?_⟩
  · rcases update_writer (P := Holds) hw' with ⟨-, hw'⟩ | ⟨rfl, -⟩
    · exact h.mutex w' hw'
    · exact h.mutex w' hw
  · -- nobody else is between its test and its `AppendList`
    rcases update_writer (P := fun pc => pc = .cleared list') hw' with ⟨hne, hw'⟩ | ⟨-, hw'⟩
    · exact absurd (h.alone (by rw [hw']; trivial) hw) hne
    · cases hw'
  · rw [appendedBy_snoc, mergedFor_append, h.kept]
    show _ = _ ++ [] ++ Function.update s.current_.list_ w (s.current_.list_ w ++ [list]) w'
    rw [List.append_nil, List.append_assoc, Function.update_apply]
    congr 1
    by_cases hww : w' = w
    · subst hww; rw [if_pos rfl, if_pos rfl]
    · rw [if_neg (Ne.symm hww), if_neg hww, List.append_nil]

theorem FreezeOk.writerStep (h : FreezeOk hist s) (hg : FindsRoom s (.writer w))
    (hs : s.writerStep w = some s') :
    FreezeOk (hist ++ (s.event (.writer w)).toList) s' := by
  unfold VersionSet.writerStep at hs
  have hev : ∀ {hist'}, s.event (.writer w) = none → FreezeOk hist' s' →
      hist' = hist → FreezeOk (hist ++ (s.event (.writer w)).toList) s' := by
    rintro _ hn h' rfl
    rw [hn, Option.toList_none, List.append_nil]; exact h'
  cases hw : s.writer w with
  | idle | waiting => rw [hw] at hs; cases hs
  | called list =>
    rw [hw] at hs
    exact hev (by simp only [event, hw]) (h.lock (by simp) hs) rfl
  | woken list =>
    rw [hw] at hs
    exact hev (by simp only [event, hw]) (h.lock (by simp) hs) rfl
  | locked list =>
    rw [hw] at hs
    refine hev (by simp only [event, hw]) ?_ rfl
    cases hs
    refine h.move (fun _ => by rw [hw]; trivial) fun list' hc => ?_
    by_contra hf
    rw [Bool.not_eq_false] at hf
    rw [if_pos hf] at hc
    cases hc
  | tested list =>
    rw [hw] at hs
    cases hs
    exact hev (by simp only [event, hw]) (h.unlock (by rw [hw]; trivial) id) rfl
  | resumed list =>
    -- back from `Wait` the writer does not test again: here the condition is needed
    rw [hw] at hs
    cases hs
    have he : s.event (.writer w) = some (.appended w list) := by simp only [event, hw]
    rw [he]
    exact h.append (by rw [hw]; trivial) (hg list hw) list
  | cleared list =>
    -- the room it has seen is there still
    rw [hw] at hs
    cases hs
    have he : s.event (.writer w) = some (.appended w list) := by simp only [event, hw]
    rw [he]
    exact h.append (by rw [hw]; trivial) (h.cleared w list hw) list
  | appended =>
    rw [hw] at hs
    cases hs
    exact hev (by simp only [event, hw]) (h.unlock (by rw [hw]; trivial) id) rfl

theorem FreezeOk.compacterStep (h : FreezeOk hist s) :
    FreezeOk (hist ++ (s.event .compacter).toList) (s.compacterStep compact) := by
  have hc := h.compacter
  unfold VersionSet.compacterStep
  cases hp : s.compacter with
  | test =>
    have he : s.event .compacter = none := by simp only [event, hp]
    rw [he, Option.toList_none, List.append_nil]
    refine ⟨h.mutex, h.cleared, h.count, ?_, h.kept⟩
    show CompactOk s.current_ (if s.current_.isFull then .compact else .test)
    split
    · assumption
    · trivial
  | compact =>
    have he : s.event .compacter = none := by simp only [event, hp]
    rw [he, Option.toList_none, List.append_nil]
    rw [hp] at hc
    exact ⟨h.mutex, h.cleared, h.count, ⟨hc, rfl⟩, h.kept⟩
  | apply merged edit =>
    have he : s.event .compacter = none := by simp only [event, hp]
    rw [he, Option.toList_none, List.append_nil]
    rw [hp] at hc
    exact ⟨h.mutex, h.cleared, h.count, ⟨hc.1, hc.2, rfl, rfl⟩, h.kept⟩
  | appendVersion merged v =>
    have he : s.event .compacter = some (.replaced merged) := by simp only [event, hp]
    rw [he]
    rw [hp] at hc
    obtain ⟨-, rfl, hl, hn⟩ := hc
    refine ⟨h.mutex, fun _ _ _ => ?_, ?_, trivial, fun w => ?_⟩
    · exact isFull_false.2 (by rw [hn]; decide)
    · show v.list_count_ ≤ _
      rw [hn]; exact Nat.zero_le _
    · -- what the old version held is what was merged
      have hk := h.kept w
      show appendedBy w (hist ++ [.replaced s.current_.list_]) =
        mergedFor w (hist ++ [.replaced s.current_.list_]) ++ v.list_ w
      rw [hl, List.append_nil, mergedFor_append, appendedBy, List.filterMap_append]
      show appendedBy w hist ++ [] = _ ++ (s.current_.list_ w ++ [])
      rw [List.append_nil, List.append_nil, hk]
  | broadcast =>
    -- who is woken has neither the mutex nor seen room
    have he : s.event .compacter = none := by simp only [event, hp]
    rw [he, Option.toList_none, List.append_nil]
    refine ⟨fun w hw => h.mutex w ?_, fun w list hw => h.cleared w list ?_, h.count, trivial, h.kept⟩
    · have hw : Holds (awake (s.writer w)) := hw
      cases hx : s.writer w <;> rw [hx] at hw <;> exact hw
    · have hw : awake (s.writer w) = .cleared list := hw
      cases hx : s.writer w <;> rw [hx] at hw <;> cases hw; rfl

/-- **Every step keeps the invariant.** -/
theorem FreezeOk.step (h : FreezeOk hist s) (hg : FindsRoom s l)
    (hs : s.step compact l = some s') : FreezeOk (hist ++ (s.event l).toList) s' := by
  cases l with
  | writer w => exact h.writerStep hg hs
  | compacter => cases hs; exact h.compacterStep
  | call w list =>
    simp only [VersionSet.step] at hs
    split at hs
    · cases hs
      simp only [event, Option.toList_none, List.append_nil]
      exact h.move False.elim fun _ hc => by cases hc
    · cases hs
  | wake w =>
    simp only [VersionSet.step] at hs
    split at hs
    · cases hs
      simp only [event, Option.toList_none, List.append_nil]
      exact h.move False.elim fun _ hc => by cases hc
    · cases hs

theorem mem_appendedBy {list : L} : list ∈ appendedBy w hist ↔ .appended w list ∈ hist := by
  unfold appendedBy
  rw [List.mem_filterMap]
  constructor
  · rintro ⟨ev, h1, h2⟩
    cases ev with
    | appended w' list' =>
      simp only [Option.ite_none_right_eq_some, Option.some.injEq] at h2
      obtain ⟨rfl, rfl⟩ := h2
      exact h1
    | replaced => cases h2
  · exact fun h => ⟨_, h, if_pos rfl⟩

theorem mem_mergedFor {list : L} :
    list ∈ mergedFor w hist ↔ ∃ merged, .replaced merged ∈ hist ∧ list ∈ merged w := by
  unfold mergedFor
  rw [List.mem_flatMap]
  constructor
  · rintro ⟨ev, h1, h2⟩
    cases ev with
    | appended => cases h2
    | replaced merged => exact ⟨merged, h1, h2⟩
  · rintro ⟨merged, h1, h2⟩
    exact ⟨_, h1, h2⟩

theorem FreezeOk.noListLost (h : FreezeOk hist s) : NoListLost hist s := by
  refine ⟨h.count, fun w list hin => ?_⟩
  have hmem := mem_appendedBy.2 hin
  rw [h.kept, List.mem_append] at hmem
  rcases hmem with hmem | hmem
  · exact .inr (mem_mergedFor.1 hmem)
  · exact .inl hmem

/-- **No frozen list is lost** in a run in which every writer back from `Wait` finds room: the
version never holds more than `kMaxFrozenList` lists, and each list appended is merged once, by
the compaction that replaces its version, or still in the current one. -/
theorem no_list_lost (hx : (machine compact).Exec FindsRoom start hist s) :
    NoListLost hist s ∧ ∀ w, appendedBy w hist = mergedFor w hist ++ s.current_.list_ w := by
  have h := hx.induct (I := FreezeOk) start_ok fun _ _ _ _ hi hg hs => hi.step hg hs
  exact ⟨h.noListLost, h.kept⟩

/-! ## Two runs -/

/-- A compaction that finds nothing worth noting in an edit. -/
def noTable (L : Type) : (Fin kMaxWriter → List L) → VersionEdit → VersionEdit := fun _ edit => edit

/-- Writer 0 freezes ten lists. -/
def fillUp : List (Label ℕ) :=
  (List.range 10).flatMap fun n => .call 0 n :: List.replicate 4 (.writer 0)

/-- It waits with the next one, the compacter merges the ten and wakes it. -/
def waitForRoom : List (Label ℕ) :=
  fillUp ++ .call 0 10 :: List.replicate 3 (.writer 0) ++ List.replicate 5 .compacter ++
    List.replicate 2 (.writer 0)

instance (s : VersionSet ℕ) (l : Label ℕ) : Decidable (FindsRoom s l) :=
  match l with
  | .call _ _ | .wake _ | .compacter => instDecidableTrue
  | .writer w =>
    match h : s.writer w with
    | .resumed _ => decidable_of_iff (s.current_.isFull = false)
      ⟨fun hf _ _ => hf, fun hf => hf _ h⟩
    | .idle | .called _ | .locked _ | .tested _ | .waiting _ | .woken _ | .cleared _ | .appended =>
      isTrue fun _ hr => by rw [h] at hr; cases hr

theorem no_list_lost_waitForRoom : ∃ hist s, (machine (noTable ℕ)).Exec FindsRoom start hist s ∧
    appendedBy 0 hist = List.range 11 ∧ NoListLost hist s := by
  have hr : ((machine (noTable ℕ)).exec FindsRoom start waitForRoom).map (fun r => appendedBy 0 r.1) =
      some (List.range 11) := by decide +kernel
  obtain ⟨r, hr, ha⟩ := Option.map_eq_some_iff.1 hr
  have hx := Machine.exec_sound hr
  exact ⟨r.1, r.2, hx, ha, (no_list_lost hx).1⟩

/-- Writer 0 wakes while its ten lists are merged, and appends to the version about to be
replaced. -/
def wakeTooEarly : List (Label ℕ) :=
  fillUp ++ .call 0 10 :: List.replicate 3 (.writer 0) ++ List.replicate 2 .compacter ++ .wake 0 ::
    List.replicate 3 (.writer 0) ++ List.replicate 2 .compacter

/-- **A spurious wake-up loses a list.** -/
theorem list_lost : ∃ hist s, (machine (noTable ℕ)).Exec Machine.Any start hist s ∧
    ¬ NoListLost hist s := by
  have hr : ((machine (noTable ℕ)).exec Machine.Any start wakeTooEarly).map
      (fun r => (appendedBy 0 r.1, mergedFor 0 r.1, r.2.current_.list_ 0)) =
      some (List.range 11, List.range 10, []) := by decide +kernel
  obtain ⟨r, hr, he⟩ := Option.map_eq_some_iff.1 hr
  simp only [Prod.mk.injEq] at he
  obtain ⟨h1, h2, h3⟩ := he
  refine ⟨r.1, r.2, Machine.exec_sound hr, fun h => ?_⟩
  rcases h.2 0 10 (mem_appendedBy.1 (by rw [h1]; decide)) with hin | hin
  · rw [h3] at hin; cases hin
  · have := mem_mergedFor.2 hin
    rw [h2] at this
    exact absurd this (by decide)

end VersionSet

end Yangkv
