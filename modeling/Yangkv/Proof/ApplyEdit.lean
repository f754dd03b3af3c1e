import Yangkv.Proof.BuilderSave
import Yangkv.Proof.VersionList

/-!
# `Version::apply` and the builder on one edit

* `built_numbers`: the builder takes the deleted numbers away and adds the new ones, at
  each level.
* `applied_numbers`: `Version::apply` adds the new numbers of level 0.
* `applied_eq_built_iff`: so they agree on the edits of level 0 that delete no file.
-/

namespace Yangkv

open Lib

namespace VersionList

variable {s s' : VersionList} {v curr : ℕ} {c n : VersionNode} {level : Fin kMaxLevel}
  {edit : FullVersionEdit FileMetaData}

/-- The numbers that an edit adds to a level. -/
def addedNumbers (edit : FullVersionEdit FileMetaData) (level : Fin kMaxLevel) : Finset ℕ :=
  ((VersionSet.Builder.addsTo edit.new_files_ level).map (·.number)).toFinset

/-- The numbers that it deletes from a level. -/
def deletedNumbers (edit : FullVersionEdit FileMetaData) (level : Fin kMaxLevel) : Finset ℕ :=
  (edit.deleted_files_.filter fun it => (ofLex it).1 = (level : ℕ)).image fun it => (ofLex it).2

theorem mem_addedNumbers {x : ℕ} :
    x ∈ addedNumbers edit level ↔ ∃ it ∈ edit.new_files_, it.1 = level ∧ it.2.number = x := by
  simp only [addedNumbers, VersionSet.Builder.addsTo, List.mem_toFinset, List.mem_map,
    List.mem_filter, decide_eq_true_eq]
  constructor
  · rintro ⟨d, ⟨it, ⟨hit, hlevel⟩, rfl⟩, rfl⟩
    exact ⟨it, hit, hlevel, rfl⟩
  · rintro ⟨it, hit, hlevel, rfl⟩
    exact ⟨it.2, ⟨it, ⟨hit, hlevel⟩, rfl⟩, rfl⟩

theorem mem_deletedNumbers {x : ℕ} :
    x ∈ deletedNumbers edit level ↔ toLex ((level : ℕ), x) ∈ edit.deleted_files_ := by
  simp only [deletedNumbers, Finset.mem_image, Finset.mem_filter]
  constructor
  · rintro ⟨it, ⟨hit, hlevel⟩, rfl⟩
    rw [← hlevel]
    exact hit
  · intro h
    exact ⟨_, ⟨h, rfl⟩, rfl⟩

theorem numbersAt_eq (hn : s.version v = some n) : s.numbersAt v level =
    (((n.files_ level).filterMap s.dataAt).map (·.number)).toFinset := by
  unfold numbersAt
  rw [hn]
  rfl

/-- The levels of an edit are in range, and the numbers that it adds are new. -/
structure NewNumbers (s : VersionList) (curr : ℕ) (edit : FullVersionEdit FileMetaData) :
    Prop where
  deleted : ∀ it ∈ edit.deleted_files_, (ofLex it).1 < kMaxLevel
  added : ∀ it ∈ edit.new_files_, it.1 < kMaxLevel
  nodup : (edit.new_files_.map (·.2.number)).Nodup
  new : ∀ it ∈ edit.new_files_, ∀ level, it.2.number ∉ s.numbersAt curr level

theorem NewNumbers.editsOk (h : NewNumbers s curr edit) : VersionSet.Builder.EditsOk [edit] := by
  constructor
  case deleted =>
    intro e he
    rw [List.mem_singleton.1 he]
    exact h.deleted
  case added =>
    intro e he
    rw [List.mem_singleton.1 he]
    exact h.added
  case distinct =>
    intro level
    have hsub : ((edit.new_files_.filter (·.1 = level)).map (·.2.number)).Nodup :=
      h.nodup.sublist (List.filter_sublist.map _)
    rw [List.flatMap_singleton, VersionSet.Builder.addsTo, List.map_map]
    exact hsub

theorem addFiles_nextVersion (edit : VersionEdit)
    (hlt : ∀ f, (s.file f).isSome → f < s.nextFile) :
    (s.addFiles edit).1.nextVersion = s.nextVersion := by
  obtain ⟨file, nextFile, hsame⟩ := (addFiles_added hlt edit).1.same
  rw [hsame]

/-- The objects with those of the files of an edit. -/
theorem addFiles_next (hlt : ∀ f, (s.file f).isSome → f < s.nextFile)
    (hcurr : curr < s.nextVersion) (hc : s.version curr = some c)
    (hfiles : ∀ f ∈ c.files, (s.file f).isSome) {s₁ : VersionList}
    (hs₁ : s₁ = (s.addFiles edit.toEdit).1.newVersion) :
    s₁.version curr = some c ∧ s₁.version s.nextVersion = some .new ∧
      (∀ f, (s₁.file f).isSome → f < s₁.nextFile) ∧ ∀ f ∈ c.files, s₁.file f = s.file f := by
  obtain ⟨hadded, hlt₁⟩ := addFiles_added hlt edit.toEdit
  obtain ⟨file, nextFile, hsame⟩ := hadded.same
  have hversion : s₁.version = Function.update s.version s.nextVersion (some .new) := by
    rw [hs₁, hsame]
    rfl
  have hfile : s₁.file = (s.addFiles edit.toEdit).1.file := by
    rw [hs₁]
    rfl
  have hnext : s₁.nextFile = (s.addFiles edit.toEdit).1.nextFile := by
    rw [hs₁]
    rfl
  refine ⟨?_, ?_, ?_, fun f hf => ?_⟩
  · rw [hversion, Function.update_of_ne hcurr.ne]
    exact hc
  · rw [hversion, Function.update_self]
  · rw [hfile, hnext]
    exact hlt₁
  · rw [hfile]
    exact hadded.old f (hlt f (hfiles f hf))

/-! ## The builder -/

/-- A delete counts unless the edit adds the number, too. -/
theorem survives_opsOf {x : ℕ} :
    VersionSet.Builder.Survives (VersionSet.Builder.opsOf edit) level x ↔
      x ∈ addedNumbers edit level ∨ x ∉ deletedNumbers edit level := by
  unfold VersionSet.Builder.Survives VersionSet.Builder.opsOf
  rw [lastFor_append, mem_addedNumbers, mem_deletedNumbers]
  set adds := edit.new_files_.map fun it => ((it.1, it.2.number), false) with hadds
  set dels := edit.deletedFiles.map fun it => (ofLex it, true) with hdels
  cases hadd : lastFor Prod.fst ((level : ℕ), x) adds with
  | some op =>
    obtain ⟨hmem, hkey⟩ := lastFor_mem hadd
    obtain ⟨it, hit, rfl⟩ := List.mem_map.1 hmem
    obtain ⟨hlevel, hnumber⟩ := Prod.mk.inj hkey
    exact ⟨fun _ => .inl ⟨it, hit, hlevel, hnumber⟩, fun _ => by simp⟩
  | none =>
    have hnot : ¬ ∃ it ∈ edit.new_files_, it.1 = level ∧ it.2.number = x := by
      rintro ⟨it, hit, hlevel, hnumber⟩
      exact lastFor_eq_none.1 hadd _ (List.mem_map_of_mem hit) (Prod.ext hlevel hnumber)
    rw [Option.none_or, or_iff_right hnot]
    cases hdel : lastFor Prod.fst ((level : ℕ), x) dels with
    | some op =>
      obtain ⟨hmem, hkey⟩ := lastFor_mem hdel
      obtain ⟨it, hit, rfl⟩ := List.mem_map.1 hmem
      have hin : toLex ((level : ℕ), x) ∈ edit.deleted_files_ := by
        rw [← hkey]
        exact (Finset.mem_sort _).1 hit
      simp [hin]
    | none =>
      have hnotin : toLex ((level : ℕ), x) ∉ edit.deleted_files_ := fun hin =>
        lastFor_eq_none.1 hdel _ (List.mem_map_of_mem ((Finset.mem_sort _).2 hin)) rfl
      simp [hnotin]

/-- The numbers of the edited version. -/
theorem editedFiles_numbers (hc : s.version curr = some c) :
    ((VersionSet.Builder.editedFiles s c [edit] level).map (·.number)).toFinset =
      (s.numbersAt curr level \ deletedNumbers edit level) ∪ addedNumbers edit level := by
  ext x
  rw [numbersAt_eq hc, Finset.mem_union, Finset.mem_sdiff]
  unfold VersionSet.Builder.editedFiles addedNumbers
  simp only [List.flatMap_singleton, List.mem_toFinset, List.mem_map, List.mem_filter,
    List.mem_append, decide_eq_true_eq, survives_opsOf]
  constructor
  · rintro ⟨d, ⟨hd, hsurvives⟩, rfl⟩
    rcases hd with hd | hd
    · rcases hsurvives with hadd | hdel
      · exact .inr (by simpa [addedNumbers] using hadd)
      · exact .inl ⟨⟨d, hd, rfl⟩, hdel⟩
    · exact .inr ⟨d, hd, rfl⟩
  · rintro (⟨⟨d, hd, rfl⟩, hdel⟩ | ⟨d, hd, rfl⟩)
    · exact ⟨d, ⟨.inl hd, .inr hdel⟩, rfl⟩
    · exact ⟨d, ⟨.inr hd, .inl (List.mem_toFinset.2 (List.mem_map_of_mem hd))⟩, rfl⟩

open VersionSet.Builder in
/-- **The builder** takes the deleted files away and adds the new ones. -/
theorem built_numbers (hlt : ∀ f, (s.file f).isSome → f < s.nextFile)
    (hcurr : curr < s.nextVersion) (hc : s.version curr = some c)
    (hfiles : ∀ f ∈ c.files, (s.file f).isSome) (hedit : NewNumbers s curr edit) :
    ((∀ level, InOrder s.bySmallestKey (c.files_ level)) →
      (∀ level, ∀ d ∈ editedFiles s c [edit] level, Ranged d) →
      (∀ level, level ≠ 0 → (editedFiles s c [edit] level).Pairwise Apart) →
        (s.built curr edit).isSome) ∧
    ∀ b, s.built curr edit = some b → ∀ level, b.heap.numbersAt s.nextVersion level =
      (s.numbersAt curr level \ deletedNumbers edit level) ∪ addedNumbers edit level := by
  obtain ⟨s₁, hs₁⟩ : ∃ s₁, s₁ = (s.addFiles edit.toEdit).1.newVersion := ⟨_, rfl⟩
  obtain ⟨hc₁, hn₁, hlt₁, hold⟩ := addFiles_next hlt hcurr hc hfiles hs₁
  obtain ⟨b, hb, rfl, h⟩ := hedit.editsOk.applied hc₁ hlt₁
  have hlevel : ∀ level, ∀ f ∈ c.files_ level, f ∈ c.files := fun level f hf =>
    List.mem_flatMap.2 ⟨level, List.mem_finRange level, hf⟩
  have hin : ∀ level, ∀ f ∈ c.files_ level, f < s₁.nextFile ∧ (s₁.file f).isSome := by
    intro level f hf
    have hsome : (s₁.file f).isSome := by
      rw [hold f (hlevel level f hf)]
      exact hfiles f (hlevel level f hf)
    exact ⟨hlt₁ f hsome, hsome⟩
  have hdata : ∀ level, ∀ f ∈ c.files_ level, s₁.dataAt f = s.dataAt f := fun level f hf =>
    congrArg (Option.map _) (hold f (hlevel level f hf))
  have hedited : ∀ level, editedFiles s₁ c [edit] level = editedFiles s c [edit] level := by
    intro level
    unfold editedFiles
    rw [List.filterMap_congr (hdata level)]
  have hbuilt : s.built b.base_ edit = b.saveTo s.nextVersion := by
    have hone : ((new s₁ b.base_).bind fun b => b.apply edit) = some b := by
      rw [← hb]
      simp only [List.foldlM_cons, List.foldlM_nil, bind_pure]
    change ((new (s.addFiles edit.toEdit).1.newVersion b.base_).bind fun b₁ =>
      (b₁.apply edit).bind fun b₂ => b₂.saveTo (s.addFiles edit.toEdit).1.nextVersion) = _
    rw [← hs₁, addFiles_nextVersion edit.toEdit hlt, ← Option.bind_assoc, hone, Option.bind_some]
  obtain ⟨hversion, hyields⟩ := h.saveTo hin hn₁ rfl hcurr.ne'
  rw [hbuilt]
  refine ⟨fun hsorted hranged hapart => ?_, fun b' hb' level => ?_⟩
  · have hno := h.noOverlap (fun level f hf => (hin level f hf).1)
      (fun level => VersionList.inOrder_congr (hdata level) (hsorted level))
      (fun level d hd => hranged level d (hedited level ▸ hd))
      (fun level h0 => (hedited level).symm ▸ hapart level h0)
    rw [hyields.eq_some hno]
    rfl
  · rw [hyields.eq_of_some hb', ← editedFiles_numbers hc, ← hedited]
    have hperm := h.edited_perm fun f hf => (hin level f hf).1
    have hself : (b.saving s.nextVersion { VersionNode.new with
        files_ := b.savedFiles c }).heap.version s.nextVersion =
        some { VersionNode.new with files_ := b.savedFiles c } := Function.update_self ..
    rw [numbersAt_eq hself, saving_dataAt]
    exact List.toFinset_eq_of_perm _ _ (hperm.map _)

/-! ## `Version::apply` -/

/-- `ref` on each of the files, which may come more than once. -/
theorem foldlM_refFile_data {fs : List ℕ} (hsome : ∀ f ∈ fs, (s.file f).isSome) :
    ∃ s', fs.foldlM refFile s = some s' ∧ s'.version = s.version ∧ s'.dataAt = s.dataAt := by
  induction fs generalizing s with
  | nil => exact ⟨s, rfl, rfl, rfl⟩
  | cons f fs ih =>
    obtain ⟨o, ho⟩ := Option.isSome_iff_exists.1 (hsome f List.mem_cons_self)
    set s₁ : VersionList := { s with
      file := Function.update s.file f (some { o with refs := o.refs + 1 }) } with hs₁
    have hfile : ∀ g, (s₁.file g).isSome = (s.file g).isSome := by
      intro g
      by_cases hg : g = f
      · rw [hs₁, hg, ho]
        simp
      · simp [hs₁, hg]
    have hdata : s₁.dataAt = s.dataAt := by
      funext g
      unfold dataAt
      by_cases hg : g = f
      · simp [hs₁, hg, ho]
      · simp [hs₁, hg]
    obtain ⟨s', hs', hversion, hdata'⟩ := ih (s := s₁) fun g hg => by
      rw [hfile]
      exact hsome g (List.mem_cons_of_mem _ hg)
    refine ⟨s', ?_, hversion, hdata'.trans hdata⟩
    rw [List.foldlM_cons, refFile_eq ho]
    exact hs'

theorem version_apply_files {L : Type} (w cur : Version L) (files : List (ℕ × FileMetaData)) :
    (w.apply cur ⟨files⟩).files_ level =
      cur.files_ level ++ if level = 0 then VersionSet.Builder.addsTo files 0 else [] := by
  unfold Version.apply
  simp only
  generalize cur.files_ = files_
  induction files generalizing files_ with
  | nil => simp [VersionSet.Builder.addsTo]
  | cons it files ih =>
    rw [List.foldl_cons, ih]
    unfold VersionSet.Builder.addsTo
    by_cases hit : it.1 = 0
    · by_cases hl : level = 0
      · simp [hit, hl]
      · simp [hit, hl]
    · simp [hit]

/-- **`Version::apply`** adds the files of level 0. -/
theorem applied_numbers (hlt : ∀ f, (s.file f).isSome → f < s.nextFile)
    (hcurr : curr < s.nextVersion) (hc : s.version curr = some c)
    (hfiles : ∀ f ∈ c.files, (s.file f).isSome) (edit : FullVersionEdit FileMetaData) :
    ∃ s', s.applied curr edit = some s' ∧ ∀ level, s'.numbersAt s.nextVersion level =
      s.numbersAt curr level ∪ if level = 0 then addedNumbers edit 0 else ∅ := by
  obtain ⟨s₁, hs₁⟩ : ∃ s₁, s₁ = (s.addFiles edit.toEdit).1.newVersion := ⟨_, rfl⟩
  obtain ⟨hc₁, hn₁, -, hold⟩ := addFiles_next hlt hcurr hc hfiles hs₁
  obtain ⟨hadded, -⟩ := addFiles_added hlt edit.toEdit
  set es := (s.addFiles edit.toEdit).2 with hes
  set m : VersionNode := { VersionNode.new with files_ := pushFiles c.files_ es } with hm
  have hsome : ∀ f ∈ m.files, ((s₁.setVersion s.nextVersion m).file f).isSome := by
    intro f hf
    change (s₁.file f).isSome = true
    rcases List.mem_append.1 ((pushFiles_perm c.files_ es).subset hf) with hf | hf
    · rw [hold f hf]
      exact hfiles f hf
    · obtain ⟨p, hp, rfl⟩ := List.mem_map.1 hf
      rw [hs₁]
      exact (hadded.fresh p (List.mem_of_mem_filter hp)).2
  obtain ⟨s', hs', hversion, hdata⟩ := foldlM_refFile_data hsome
  refine ⟨s', ?_, fun level => ?_⟩
  · change (s.addFiles edit.toEdit).1.newVersion.apply (s.addFiles edit.toEdit).1.nextVersion
      curr es = some s'
    rw [← hs₁, addFiles_nextVersion edit.toEdit hlt, apply, hc₁, Option.bind_eq_bind,
      Option.bind_some, hn₁]
    exact hs'
  · have hv : s'.version s.nextVersion = some m := by
      rw [hversion]
      exact Function.update_self ..
    have hdata₁ : s'.dataAt = (s.addFiles edit.toEdit).1.dataAt := by
      rw [hdata, hs₁]
      rfl
    have hfiles₁ : (c.files_ level).filterMap (s.addFiles edit.toEdit).1.dataAt =
        (c.files_ level).filterMap s.dataAt := by
      refine List.filterMap_congr fun f hf => ?_
      have hf' := List.mem_flatMap.2 ⟨level, List.mem_finRange level, hf⟩
      exact congrArg (Option.map _) (hadded.old f (hlt f (hfiles f hf')))
    have hpush := congrFun (filterMap_pushFiles hadded.data c.files_) level
    rw [version_apply_files] at hpush
    simp only [hfiles₁] at hpush
    rw [numbersAt_eq hv, numbersAt_eq hc, hdata₁, hpush, List.map_append, List.toFinset_append]
    split
    · rfl
    · rfl

/-! ## The two of them -/

/-- **`Version::apply` and the builder give the same files** to every level if and only if the edit
deletes no file of the version and adds its files to level 0. -/
theorem applied_eq_built_iff (hlt : ∀ f, (s.file f).isSome → f < s.nextFile)
    (hcurr : curr < s.nextVersion) (hc : s.version curr = some c)
    (hfiles : ∀ f ∈ c.files, (s.file f).isSome) (hedit : NewNumbers s curr edit) :
    ∃ s', s.applied curr edit = some s' ∧
      ((∀ level, InOrder s.bySmallestKey (c.files_ level)) →
        (∀ level, ∀ d ∈ VersionSet.Builder.editedFiles s c [edit] level,
          VersionSet.Builder.Ranged d) →
        (∀ level, level ≠ 0 → (VersionSet.Builder.editedFiles s c [edit] level).Pairwise
          VersionSet.Builder.Apart) → (s.built curr edit).isSome) ∧
      ∀ b, s.built curr edit = some b →
        (∀ level, b.heap.numbersAt s.nextVersion level =
          (s.numbersAt curr level \ deletedNumbers edit level) ∪ addedNumbers edit level) ∧
        ((∀ level, s'.numbersAt s.nextVersion level = b.heap.numbersAt s.nextVersion level) ↔
          (∀ it ∈ edit.new_files_, it.1 = 0) ∧
            ∀ level, Disjoint (s.numbersAt curr level) (deletedNumbers edit level)) := by
  obtain ⟨s', hs', happlied⟩ := applied_numbers hlt hcurr hc hfiles edit
  obtain ⟨hsome, hbuilt⟩ := built_numbers hlt hcurr hc hfiles hedit
  refine ⟨s', hs', hsome, fun b hb => ⟨hbuilt b hb, ?_⟩⟩
  have hnew : ∀ level lv x, x ∈ addedNumbers edit lv → x ∉ s.numbersAt curr level := by
    intro level lv x hx
    obtain ⟨it, hit, -, rfl⟩ := mem_addedNumbers.1 hx
    exact hedit.new it hit level
  simp only [happlied, hbuilt b hb]
  constructor
  · intro heq
    refine ⟨fun it hit => ?_, fun level => Finset.disjoint_left.2 fun x hx hdel => ?_⟩
    · by_contra h0
      set level : Fin kMaxLevel := ⟨it.1, hedit.added it hit⟩ with hlevel
      have hl : level ≠ 0 := fun e => h0 (congrArg Fin.val e)
      have hx : it.2.number ∈ addedNumbers edit level := mem_addedNumbers.2 ⟨it, hit, rfl, rfl⟩
      have hin := Finset.mem_union_right (s.numbersAt curr level \ deletedNumbers edit level) hx
      rw [← heq level, if_neg hl, Finset.union_empty] at hin
      exact hnew level level _ hx hin
    · have hin := Finset.mem_union_left (if level = 0 then addedNumbers edit 0 else ∅) hx
      rw [heq level, Finset.mem_union, Finset.mem_sdiff] at hin
      rcases hin with hin | hin
      · exact hin.2 hdel
      · exact hnew level level x hin hx
  · rintro ⟨hzero, hdisj⟩ level
    rw [Finset.sdiff_eq_self_of_disjoint (hdisj level)]
    by_cases hl : level = 0
    · rw [if_pos hl, hl]
    · have hempty : addedNumbers edit level = ∅ := by
        refine Finset.eq_empty_of_forall_notMem fun x hx => ?_
        obtain ⟨it, hit, hlevel, -⟩ := mem_addedNumbers.1 hx
        exact hl (Fin.ext (hlevel.symm.trans (hzero it hit)))
      rw [if_neg hl, hempty]

/-! ## A list of versions with one file -/

/-- A file for the keys from `first` to `last`. -/
def fileOf (first last : UInt8) (number : ℕ) : FileMetaData :=
  ⟨⟨⟨[first], 0⟩, ⟨[], 0⟩, 0, false⟩, ⟨⟨[last], 0⟩, ⟨[], 0⟩, 0, false⟩, 1, number⟩

/-- Version 1 lists a file with the number 7 at level 0. -/
def oneFile : VersionList :=
  { initial with
    version := fun v => [{ VersionNode.new with ref_ := 1 }, { VersionNode.new with
      ref_ := 1
      files_ := fun level => if level = 0 then [0] else [] }][v]?
    file := fun f => [⟨fileOf 97 99 7, 1, none⟩][f]?
    nextVersion := 2
    nextFile := 1 }

/-- The number 7 is deleted from the first level, and the number 8 added to the second one. -/
def moveEdit (level level' : ℕ) : FullVersionEdit FileMetaData where
  log_number_ := fun _ => 0
  prev_log_number_ := 0
  next_file_number_ := 0
  last_sequence_ := 0
  has_comparator_ := false
  has_log_number_ := false
  has_prev_log_number_ := false
  has_next_file_number_ := false
  has_last_sequence_ := false
  deleted_files_ := {toLex (level, 7)}
  new_files_ := [(level', fileOf 98 100 8)]

theorem oneFile_lt (f : ℕ) (hf : (oneFile.file f).isSome) : f < oneFile.nextFile := by
  simpa [oneFile] using hf

theorem oneFile_numbersAt : ∀ level, oneFile.numbersAt 1 level = if level = 0 then {7} else ∅ := by
  decide

theorem oneFile_sorted (hc : oneFile.version 1 = some c) (level : Fin kMaxLevel) :
    InOrder oneFile.bySmallestKey (c.files_ level) := by
  cases hc
  simp only
  split
  · exact List.pairwise_singleton _ 0
  · exact .nil

theorem moveEdit_new {l l' : ℕ} (hl : l < kMaxLevel) (hl' : l' < kMaxLevel) :
    NewNumbers oneFile 1 (moveEdit l l') := by
  constructor
  case deleted => simpa [moveEdit] using hl
  case added => simpa [moveEdit] using hl'
  case nodup => simp [moveEdit]
  case new =>
    intro it hit level
    rw [oneFile_numbersAt, List.mem_singleton.1 hit]
    split
    · simp [fileOf]
    · simp

theorem moveEdit_ops {l l' : ℕ} : [moveEdit l l'].flatMap VersionSet.Builder.opsOf =
    [((l, 7), true), ((l', 8), false)] := by
  simp [moveEdit, VersionSet.Builder.opsOf, FullVersionEdit.deletedFiles, fileOf]

/-- A file is added to level 0, and a number that is not there is deleted. -/
theorem applied_eq_built_added : ∃ s' b, oneFile.applied 1 (moveEdit 1 0) = some s' ∧
    oneFile.built 1 (moveEdit 1 0) = some b ∧
      ∀ level, s'.numbersAt 2 level = b.heap.numbersAt 2 level := by
  obtain ⟨c, hc⟩ : ∃ c, oneFile.version 1 = some c := ⟨_, rfl⟩
  have hedited : ∀ level, VersionSet.Builder.editedFiles oneFile c [moveEdit 1 0] level =
      if level = 0 then [fileOf 97 99 7, fileOf 98 100 8] else [] := by
    cases hc
    unfold VersionSet.Builder.editedFiles
    rw [moveEdit_ops]
    decide
  obtain ⟨s', hs', hsome, hbuilt⟩ := applied_eq_built_iff oneFile_lt (by decide) hc
    (by cases hc; decide) (moveEdit_new (l := 1) (by decide) (show 0 < kMaxLevel by decide))
  obtain ⟨b, hb⟩ := Option.isSome_iff_exists.1 (hsome (oneFile_sorted hc)
    (by
      simp only [hedited]
      unfold VersionSet.Builder.Ranged
      decide)
    (fun level h0 => by
      rw [hedited, if_neg h0]
      exact .nil))
  refine ⟨s', b, hs', hb, (hbuilt b hb).2.2 ⟨by simp [moveEdit], ?_⟩⟩
  decide

/-- A file is moved from level 0 to level 1; `Version::apply` leaves it where it was. -/
theorem applied_keeps_deleted : NewNumbers oneFile 1 (moveEdit 0 1) ∧
    ∃ s' b, oneFile.applied 1 (moveEdit 0 1) = some s' ∧
      oneFile.built 1 (moveEdit 0 1) = some b ∧
      s'.numbersAt 2 0 = {7} ∧ b.heap.numbersAt 2 0 = ∅ ∧
      s'.numbersAt 2 1 = ∅ ∧ b.heap.numbersAt 2 1 = {8} := by
  obtain ⟨c, hc⟩ : ∃ c, oneFile.version 1 = some c := ⟨_, rfl⟩
  have hfiles : ∀ f ∈ c.files, (oneFile.file f).isSome := by
    cases hc
    decide
  have hnew : NewNumbers oneFile 1 (moveEdit 0 1) := moveEdit_new (by decide) (by decide)
  have hedited : ∀ level, VersionSet.Builder.editedFiles oneFile c [moveEdit 0 1] level =
      if level = 1 then [fileOf 98 100 8] else [] := by
    cases hc
    unfold VersionSet.Builder.editedFiles
    rw [moveEdit_ops]
    decide
  obtain ⟨s', hs', happlied⟩ := applied_numbers oneFile_lt (by decide) hc hfiles (moveEdit 0 1)
  obtain ⟨hsome, hbuilt⟩ := built_numbers oneFile_lt (by decide) hc hfiles hnew
  obtain ⟨b, hb⟩ := Option.isSome_iff_exists.1 (hsome (oneFile_sorted hc)
    (by
      simp only [hedited]
      unfold VersionSet.Builder.Ranged
      decide)
    (fun level _ => by
      rw [hedited]
      split
      · exact List.pairwise_singleton _ _
      · exact .nil))
  refine ⟨hnew, s', b, hs', hb, (happlied 0).trans ?_, (hbuilt b hb 0).trans ?_,
    (happlied 1).trans ?_, (hbuilt b hb 1).trans ?_⟩
  · decide
  · decide
  · decide
  · decide

end VersionList

end Yangkv
