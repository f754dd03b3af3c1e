import Mathlib.Data.List.Chain
import Yangkv.Proof.BuilderSave

/-!
# The files that `Get` looks for

From level 1 on, `Get` stops at the first file of a level that may hold the key. The assertion
of `MaybeAddFile` compares each file with the one before it; in a version that has passed it
no second file of the level is in the range.

* `Disjoint.take_one`: of files one after the other at most one may hold a key.
* `saveTo_disjoint`: this is how every version from `SaveTo` has its files.
* `search_complete`: so its `search_list` is every file that may hold the key, and stays so when
  `Version::apply` adds files to it.
-/

namespace Yangkv

open Lib

/-! ## Files one after the other -/

/-- The file ends before the other one begins. -/
def FileMetaData.Before (d e : FileMetaData) : Prop :=
  sliceCompare d.largest.key.bytes e.smallest.key.bytes = .lt

/-- From level 1 on, every file ends before the later ones begin. -/
def Disjoint (files_ : Fin kMaxLevel → List FileMetaData) : Prop :=
  ∀ lv, lv ≠ 0 → (files_ lv).Pairwise FileMetaData.Before

/-- A key in one file is not in a later one. -/
theorem FileMetaData.Before.not_mayInFile {d e : FileMetaData} {key : Bytes} (h : d.Before e)
    (hd : d.mayInFile key = true) : e.mayInFile key = false := by
  unfold FileMetaData.Before at h
  rw [sliceCompare_eq] at h
  simp only [FileMetaData.mayInFile, Bool.and_eq_true] at hd
  have hlt : compare key e.smallest.key.bytes = .lt := by
    exact Std.TransCmp.lt_of_isLE_of_lt hd.2 h
  simp only [FileMetaData.mayInFile, hlt]
  rfl

/-- **At most one of the files may hold the key.** -/
theorem take_one_of_before {files : List FileMetaData} (h : files.Pairwise FileMetaData.Before)
    (key : Bytes) : (files.filter (·.mayInFile key)).take 1 = files.filter (·.mayInFile key) := by
  induction files with
  | nil => rfl
  | cons d files ih =>
    obtain ⟨hd, hfiles⟩ := List.pairwise_cons.1 h
    cases hmay : d.mayInFile key with
    | false =>
      rw [List.filter_cons_of_neg (by rw [hmay]; simp)]
      exact ih hfiles
    | true =>
      have hnone : files.filter (·.mayInFile key) = [] := by
        refine List.filter_eq_nil_iff.2 fun e he => ?_
        rw [(hd e he).not_mayInFile hmay]
        simp
      rw [List.filter_cons_of_pos (by rw [hmay]), hnone]
      rfl

namespace Version

variable {L : Type} {v : Version L}

/-- All files that may hold the key, level by level. -/
def mayHold (v : Version L) (key : Bytes) : List FileMetaData :=
  (List.finRange kMaxLevel).flatMap fun lv => (v.files_ lv).filter (·.mayInFile key)

theorem searchList_of_disjoint (h : Disjoint v.files_) (key : Bytes) :
    v.searchList key = v.mayHold key := by
  unfold searchList mayHold
  congr 1
  funext lv
  by_cases hlv : lv = 0
  · rw [if_pos hlv]
  · rw [if_neg hlv, take_one_of_before (h lv hlv)]

/-- `apply` adds to level 0 only. -/
theorem apply_files {edit : VersionEdit} {lv : Fin kMaxLevel} (hlv : lv ≠ 0) {curr : Version L} :
    (v.apply curr edit).files_ lv = curr.files_ lv := by
  have hfold : ∀ (its : List (ℕ × FileMetaData)) (files_ : Fin kMaxLevel → List FileMetaData),
      its.foldl (fun (files : Fin kMaxLevel → List FileMetaData) it =>
        if it.1 = 0 then Function.update files 0 (files 0 ++ [it.2]) else files) files_ lv =
          files_ lv := by
    intro its
    induction its with
    | nil => exact fun _ => rfl
    | cons it its ih =>
      intro files_
      rw [List.foldl_cons, ih]
      split
      · exact Function.update_of_ne hlv ..
      · rfl
  exact hfold edit.new_files_ curr.files_

theorem apply_disjoint {curr : Version L} (h : Disjoint curr.files_) (edit : VersionEdit) :
    Disjoint (v.apply curr edit).files_ := by
  intro lv hlv
  rw [apply_files hlv]
  exact h lv hlv

end Version

namespace VersionSet.Builder

variable {b b' : Builder} {v : ℕ} {c n m : VersionNode} {level : Fin kMaxLevel}

/-! ## What the assertion leaves -/

/-- The data of the files. -/
def data (b : Builder) (fs : List ℕ) : List FileMetaData := fs.filterMap b.heap.dataAt

theorem data_append (fs gs : List ℕ) : b.data (fs ++ gs) = b.data fs ++ b.data gs :=
  List.filterMap_append

/-- From level 1 on, each file ends before the next one begins. -/
def Chained (b : Builder) (level : Fin kMaxLevel) (fs : List ℕ) : Prop :=
  level = 0 ∨ (b.data fs).IsChain FileMetaData.Before

/-- The last file of a level, where all of them are there. -/
theorem getLast?_data {fs : List ℕ} (hfs : ∀ f ∈ fs, (b.heap.file f).isSome) :
    (b.data fs).getLast? = fs.getLast?.bind b.heap.dataAt := by
  induction fs using List.reverseRecOn with
  | nil => rfl
  | append_singleton fs f _ =>
    obtain ⟨o, ho⟩ := Option.isSome_iff_exists.1 (hfs f (by simp))
    have hdata : b.heap.dataAt f = some o.data := by
      unfold VersionList.dataAt
      rw [ho, Option.map_some]
    have hone : b.data [f] = [o.data] := by
      unfold data
      rw [List.filterMap_cons_some hdata]
      rfl
    rw [data_append, hone, List.getLast?_append]
    simp [hdata]

theorem maybeAddFile_chained {f : ℕ} (hf : (b.heap.file f).isSome)
    (hm : ∀ g ∈ m.files_ level, (b.heap.file g).isSome) (hc : b.Chained level (m.files_ level))
    (hs : maybeAddFile v level (b.saving v m) f = some b') :
    b.Chained level (m.files_ level ++ b.kept level [f]) := by
  obtain ⟨o, ho⟩ := Option.isSome_iff_exists.1 hf
  have hdata : b.heap.dataAt f = some o.data := by
    unfold VersionList.dataAt
    rw [ho, Option.map_some]
  by_cases hdel : o.data.number ∈ (b.levels_ level).deleted_files
  · have hkept : b.kept level [f] = [] := by simp [kept, hdata, hdel]
    rw [hkept, List.append_nil]
    exact hc
  · have hkept : b.kept level [f] = [f] := by simp [kept, hdata, hdel]
    have hfile : (b.saving v m).heap.file f =
        some { o with refs := o.refs + m.files.count f } := congrArg (Option.map _) ho
    have hversion : (b.saving v m).heap.version v = some m := Function.update_self ..
    unfold maybeAddFile at hs
    rw [hfile, Option.bind_eq_bind, Option.bind_some, if_neg (by exact hdel), hversion,
      Option.bind_eq_bind, Option.bind_some] at hs
    have hover : mustNotOverlap (b.saving v m).heap level (m.files_ level) o.data = true := by
      by_contra hover
      rw [if_neg hover] at hs
      cases hs
    rw [hkept]
    by_cases h0 : level = 0
    · exact .inl h0
    refine .inr ?_
    have hone : b.data [f] = [o.data] := by
      unfold data
      rw [List.filterMap_cons_some hdata]
      rfl
    rw [data_append, hone]
    refine List.isChain_append.2 ⟨hc.resolve_left h0, List.isChain_singleton _, ?_⟩
    intro d hd e he
    rw [getLast?_data hm] at hd
    cases he
    -- the assertion is about the last file
    have hd : (m.files_ level).getLast?.bind (b.saving v m).heap.dataAt = some d := by
      rw [saving_dataAt]
      exact hd
    unfold mustNotOverlap at hover
    rw [hd] at hover
    show sliceCompare d.largest.key.bytes o.data.smallest.key.bytes = .lt
    simpa [h0] using hover

/-- One level, file by file. -/
theorem foldlM_chained {fs : List ℕ} (hfs : ∀ f ∈ fs, (b.heap.file f).isSome)
    (hm : ∀ g ∈ m.files_ level, (b.heap.file g).isSome) (hc : b.Chained level (m.files_ level))
    (hs : fs.foldlM (maybeAddFile v level) (b.saving v m) = some b') :
    b.Chained level (m.files_ level ++ b.kept level fs) := by
  induction fs generalizing m with
  | nil =>
    have hnil : b.kept level [] = [] := rfl
    rw [hnil, List.append_nil]
    exact hc
  | cons f fs ih =>
    have hf := hfs f List.mem_cons_self
    rw [List.foldlM_cons] at hs
    obtain ⟨b₁, hone, hs⟩ := Option.bind_eq_some_iff.1 hs
    have hchain := maybeAddFile_chained hf hm hc hone
    have hb₁ := (maybeAddFile_yields hf).eq_of_some hone
    subst hb₁
    have hkept : b.kept level (f :: fs) = b.kept level [f] ++ b.kept level fs :=
      List.filter_append [f] fs
    have hself : (m.push level (b.kept level [f])).files_ level =
        m.files_ level ++ b.kept level [f] := VersionNode.push_self
    rw [hkept, ← List.append_assoc, ← hself]
    refine ih (fun g hg => hfs g (List.mem_cons_of_mem _ hg)) ?_ ?_ hs
    · rw [hself]
      intro g hg
      obtain hg | hg := List.mem_append.1 hg
      · exact hm g hg
      · obtain rfl := List.mem_singleton.1 (List.mem_of_mem_filter hg)
        exact hf
    · rw [hself]
      exact hchain

/-- Level by level. -/
theorem levels_chained (hc : b.heap.version b.base_ = some c) (hv : v ≠ b.base_)
    (hfiles : ∀ level, ∀ f ∈ upperMerge b.heap.bySmallestKey (c.files_ level)
      (b.levels_ level).added_files, (b.heap.file f).isSome)
    (hbase : ∀ level, ∀ f ∈ c.files_ level, (b.heap.file f).isSome)
    (hadded : ∀ level, ∀ f ∈ (b.levels_ level).added_files, (b.heap.file f).isSome)
    {levels : List (Fin kMaxLevel)} (hnodup : levels.Nodup)
    (hempty : ∀ level ∈ levels, m.files_ level = [])
    (hs : levels.foldlM (fun (b : Builder) level => (b.heap.version b.base_).bind fun base =>
      saveLevel v level b (base.files_ level) (b.levels_ level).added_files) (b.saving v m) =
        some b') : ∀ level ∈ levels, b.Chained level (b.savedFiles c level) := by
  induction levels generalizing m with
  | nil => exact fun _ h => absurd h List.not_mem_nil
  | cons level levels ih =>
    obtain ⟨hnew, hnodup⟩ := List.nodup_cons.1 hnodup
    rw [List.foldlM_cons] at hs
    obtain ⟨b₁, hone, hs⟩ := Option.bind_eq_some_iff.1 hs
    have hversion : (b.saving v m).heap.version b.base_ = some c :=
      (Function.update_of_ne hv.symm ..).trans hc
    have hone : ((b.saving v m).heap.version b.base_).bind (fun base =>
        saveLevel v level (b.saving v m) (base.files_ level) (b.levels_ level).added_files) =
          some b₁ := hone
    rw [hversion, Option.bind_some, saveLevel_eq (hbase level) (hadded level)] at hone
    have hnil : m.files_ level = [] := hempty level List.mem_cons_self
    have hchain : b.Chained level (b.savedFiles c level) := by
      have h := foldlM_chained (hfiles level) (by rw [hnil]; simp) (.inr (by rw [hnil]; exact .nil))
        hone
      rw [hnil, List.nil_append] at h
      exact h
    have hb₁ := (foldlM_maybeAddFile (hfiles level)).eq_of_some hone
    subst hb₁
    refine List.forall_mem_cons.2 ⟨hchain, ih hnodup (fun lv hlv => ?_) hs⟩
    have hne : lv ≠ level := by
      rintro rfl
      exact hnew hlv
    have hother : (m.push level (b.savedFiles c level)).files_ lv = m.files_ lv :=
      Function.update_of_ne hne ..
    show (m.push level (b.savedFiles c level)).files_ lv = []
    rw [hother]
    exact hempty lv (List.mem_cons_of_mem _ hlv)

/-- With no file that ends before it begins, files in a chain are one after the other. -/
theorem before_of_chain {ds : List FileMetaData} (hranged : ∀ d ∈ ds, Ranged d)
    (hc : ds.IsChain FileMetaData.Before) : ds.Pairwise FileMetaData.Before := by
  induction ds with
  | nil => exact .nil
  | cons d ds ih =>
    have hds := ih (fun e he => hranged e (List.mem_cons_of_mem _ he)) hc.tail
    refine List.pairwise_cons.2 ⟨fun e he => ?_, hds⟩
    cases ds with
    | nil => cases he
    | cons d' ds =>
      have hd : d.Before d' := (List.isChain_cons_cons.1 hc).1
      obtain rfl | he := List.mem_cons.1 he
      · exact hd
      · -- `d` ends before `d'` begins, and that before it ends
        have hd' : d'.Before e := (List.pairwise_cons.1 hds).1 e he
        have hrange := hranged d' (by simp)
        unfold FileMetaData.Before at hd hd' ⊢
        unfold Ranged at hrange
        rw [sliceCompare_eq] at hd hd' hrange ⊢
        have hle : (compare d'.smallest.key.bytes d'.largest.key.bytes).isLE = true := by
          cases hcmp : compare d'.smallest.key.bytes d'.largest.key.bytes with
          | gt => exact absurd hcmp hrange
          | lt | eq => rfl
        exact Std.TransCmp.lt_trans (Std.TransCmp.lt_of_lt_of_isLE hd hle) hd'

/-- **What `SaveTo` leaves has its files one after the other.** -/
theorem saveTo_disjoint (hc : b.heap.version b.base_ = some c) (hn : b.heap.version v = some n)
    (hempty : n.files_ = fun _ => []) (hv : v ≠ b.base_)
    (hbase : ∀ level, ∀ f ∈ c.files_ level, (b.heap.file f).isSome)
    (hadded : ∀ level, ∀ f ∈ (b.levels_ level).added_files, (b.heap.file f).isSome)
    (hs : b.saveTo v = some b')
    (hranged : ∀ level, ∀ d ∈ b.data (b.savedFiles c level), Ranged d) :
    Disjoint fun level => b.data (b.savedFiles c level) := by
  intro level h0
  have hfiles : ∀ level, ∀ f ∈ upperMerge b.heap.bySmallestKey (c.files_ level)
      (b.levels_ level).added_files, (b.heap.file f).isSome := by
    intro level f hf
    obtain hf | hf := List.mem_append.1 (upperMerge_perm.subset hf)
    · exact hbase level f hf
    · exact hadded level f hf
  have hs : (List.finRange kMaxLevel).foldlM (fun (b : Builder) level =>
      (b.heap.version b.base_).bind fun base =>
        saveLevel v level b (base.files_ level) (b.levels_ level).added_files) (b.saving v n) =
          some b' := by
    rw [saving_self hn hempty]
    exact hs
  have hchain := levels_chained hc hv hfiles hbase hadded (List.nodup_finRange kMaxLevel)
    (fun level _ => by rw [hempty]) hs level (List.mem_finRange level)
  exact before_of_chain (hranged level) (hchain.resolve_left h0)

/-- **The search loses no file.** Take any version, any edits applied to it by a builder whose
`SaveTo` comes through, and any edits that `Version::apply` adds after that: if no file ends before
it begins, the `search_list` of every key is all files that may hold it. -/
theorem search_complete (hc : b.heap.version b.base_ = some c) (hn : b.heap.version v = some n)
    (hempty : n.files_ = fun _ => []) (hv : v ≠ b.base_)
    (hbase : ∀ level, ∀ f ∈ c.files_ level, (b.heap.file f).isSome)
    (hadded : ∀ level, ∀ f ∈ (b.levels_ level).added_files, (b.heap.file f).isSome)
    (hs : b.saveTo v = some b') :
    ∃ m, b'.heap.version v = some m ∧ ((∀ level, ∀ d ∈ b'.data (m.files_ level), Ranged d) →
      ∀ (saved : Version SkipList), (saved.files_ = fun level => b'.data (m.files_ level)) →
        ∀ (edits : List VersionEdit) key,
          let w := edits.foldl (fun w edit => Version.new.apply w edit) saved
          w.searchList key = w.mayHold key) := by
  have hb' := (saveTo_yields hc hn hempty hv hbase hadded).eq_of_some hs
  have hversion : b'.heap.version v = some { n with files_ := b.savedFiles c } := by
    rw [hb']
    exact Function.update_self ..
  have hdata : b'.data = b.data := by
    funext fs
    unfold data
    rw [hb', saving_dataAt]
  refine ⟨_, hversion, fun hranged saved hsaved edits key => ?_⟩
  rw [hdata] at hranged hsaved
  have hdisjoint : Disjoint saved.files_ := by
    rw [hsaved]
    exact saveTo_disjoint hc hn hempty hv hbase hadded hs hranged
  have hall : ∀ w : Version SkipList, Disjoint w.files_ →
      Disjoint (edits.foldl (fun w edit => Version.new.apply w edit) w).files_ := by
    induction edits with
    | nil => exact fun _ h => h
    | cons edit edits ih => exact fun w h => ih _ (Version.apply_disjoint h edit)
  exact Version.searchList_of_disjoint (hall saved hdisjoint) key

/-- A builder on a version with one file at level 1, which is to get another one. -/
def twoFiles : Builder :=
  let entry : UInt8 → Entry := fun k => ⟨⟨[k], 0⟩, ⟨[], 0⟩, 0, false⟩
  let heap : VersionList := { VersionList.initial with
    version := fun v => [{ VersionNode.new with ref_ := 1 },
      { VersionNode.new with
        ref_ := 2
        files_ := fun level => if level = 1 then [0] else [] }, VersionNode.new][v]?
    file := fun f => [⟨⟨entry 97, entry 99, 1, 1⟩, 1, none⟩, ⟨⟨entry 100, entry 102, 1, 2⟩, 1, none⟩][f]?
    nextVersion := 3
    nextFile := 2 }
  ⟨heap, 1, fun level => ⟨∅, if level = 1 then [1] else []⟩⟩

theorem search_complete_twoFiles : ∃ b' m, twoFiles.saveTo 2 = some b' ∧
    b'.heap.version 2 = some m ∧ (b'.data (m.files_ 1)).map (·.number) = [1, 2] ∧
    ∀ (saved : Version SkipList), (saved.files_ = fun level => b'.data (m.files_ level)) →
      ∀ key, saved.searchList key = saved.mayHold key := by
  have hcheck : (twoFiles.saveTo 2).any (fun b' => (b'.heap.version 2).any fun m =>
      (b'.data (m.files_ 1)).map (·.number) = [1, 2] ∧
        ∀ level, ∀ d ∈ b'.data (m.files_ level),
          sliceCompare d.smallest.key.bytes d.largest.key.bytes ≠ .gt) = true := by decide +kernel
  obtain ⟨b', hs, hcheck⟩ := (Option.any_eq_true _ _).1 hcheck
  obtain ⟨m, hm, hcheck⟩ := (Option.any_eq_true _ _).1 hcheck
  obtain ⟨hnumbers, hranged⟩ := of_decide_eq_true hcheck
  obtain ⟨m', hm', hall⟩ := search_complete (b := twoFiles) rfl rfl rfl (by decide) (by decide)
    (by decide) hs
  cases hm.symm.trans hm'
  exact ⟨b', m, hs, hm, hnumbers, fun saved hsaved => hall hranged saved hsaved []⟩

end VersionSet.Builder

end Yangkv
