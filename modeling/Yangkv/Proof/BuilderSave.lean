import Mathlib.Data.List.Flatten
import Yangkv.Lib.Assertion
import Yangkv.Proof.BuilderApply

/-!
# What `SaveTo` and `~Builder` leave

* `saveLevel_eq`: the loop over the added files goes through the merge of the two sequences.
* `saveTo_yields`: at each level `SaveTo` keeps what has not been deleted of that merge.
* `saves`: the version and the counts of the files when the builder is gone.
-/

namespace Yangkv

open Lib

/-- The version with more files at a level. -/
def VersionNode.push (m : VersionNode) (level : Fin kMaxLevel) (fs : List ℕ) : VersionNode :=
  { m with files_ := Function.update m.files_ level (m.files_ level ++ fs) }

namespace VersionNode

variable {m : VersionNode} {level : Fin kMaxLevel}

theorem push_self {fs : List ℕ} : (m.push level fs).files_ level = m.files_ level ++ fs :=
  Function.update_self ..

theorem push_nil : m.push level [] = m := by
  unfold push
  rw [List.append_nil, Function.update_eq_self]

theorem push_push {fs gs : List ℕ} : (m.push level fs).push level gs = m.push level (fs ++ gs) := by
  unfold push
  simp only [Function.update_self, Function.update_idem, List.append_assoc]

theorem push_files {f : ℕ} : (m.push level [f]).files.Perm (m.files ++ [f]) :=
  VersionList.flatMap_update_perm (List.nodup_finRange kMaxLevel) (List.mem_finRange level) ..

end VersionNode

namespace VersionSet.Builder

variable {b : Builder} {s : VersionList} {v : ℕ} {c n m : VersionNode} {level : Fin kMaxLevel}

/-! ## Saving -/

/-- Not deleted. -/
def kept (b : Builder) (level : Fin kMaxLevel) (fs : List ℕ) : List ℕ :=
  fs.filter fun f => (b.heap.dataAt f).all fun d => d.number ∉ (b.levels_ level).deleted_files

/-- The first file ends before the second one begins. -/
def EndsBefore (b : Builder) (f g : ℕ) : Prop :=
  ∀ d ∈ b.heap.dataAt f, ∀ e ∈ b.heap.dataAt g,
    sliceCompare d.largest.key.bytes e.smallest.key.bytes = .lt

/-- From level 1 on, the files do not overlap. -/
def NoOverlap (b : Builder) (level : Fin kMaxLevel) (fs : List ℕ) : Prop :=
  level = 0 ∨ fs.Pairwise b.EndsBefore

/-- The builder when `v` has become `m`, which refers to its files. -/
def saving (b : Builder) (v : ℕ) (m : VersionNode) : Builder :=
  { b with
    heap := { b.heap.setVersion v m with
      file := fun f => (b.heap.file f).map fun o =>
        { o with refs := o.refs + m.files.count f } } }

theorem saving_dataAt : (b.saving v m).heap.dataAt = b.heap.dataAt := by
  funext f
  exact Option.map_map ..

theorem saving_bySmallestKey : (b.saving v m).heap.bySmallestKey = b.heap.bySmallestKey := by
  funext f g
  exact VersionList.bySmallestKey_congr (congrFun saving_dataAt f) (congrFun saving_dataAt g)

/-- Nothing has been saved yet. -/
theorem saving_self (hn : b.heap.version v = some n) (hempty : n.files_ = fun _ => []) :
    b.saving v n = b := by
  have hnil : n.files = [] := by
    unfold VersionNode.files
    rw [hempty]
    exact List.flatMap_eq_nil_iff.2 fun _ _ => rfl
  have hfile : (fun f => (b.heap.file f).map fun o => { o with refs := o.refs + n.files.count f }) =
      b.heap.file := by
    funext f
    rw [hnil]
    exact Option.map_id' ..
  have hversion : Function.update b.heap.version v (some n) = b.heap.version := by
    rw [← hn, Function.update_eq_self]
  unfold saving VersionList.setVersion
  rw [hfile, hversion]

/-- One more file and its reference. -/
theorem saving_push {f : ℕ} {o : FileObject} (ho : b.heap.file f = some o) :
    ({ b with
      heap := ((b.saving v m).heap.setFile f
        { o with refs := o.refs + m.files.count f + 1 }).setVersion v (m.push level [f]) } :
      Builder) = b.saving v (m.push level [f]) := by
  have hfile : Function.update (b.saving v m).heap.file f
      (some { o with refs := o.refs + m.files.count f + 1 }) =
      (b.saving v (m.push level [f])).heap.file := by
    funext g
    change _ = (b.heap.file g).map fun o =>
      { o with refs := o.refs + (m.push level [f]).files.count g }
    rw [VersionNode.push_files.count_eq, List.count_append]
    by_cases hg : g = f
    · subst hg
      rw [Function.update_self, ho, List.count_singleton_self]
      rfl
    · rw [Function.update_of_ne hg, List.count_eq_zero_of_not_mem fun h =>
        hg (List.mem_singleton.1 h)]
      rfl
  have hversion : Function.update (b.saving v m).heap.version v (some (m.push level [f])) =
      (b.saving v (m.push level [f])).heap.version := Function.update_idem ..
  unfold VersionList.setVersion VersionList.setFile
  rw [hfile, hversion]
  rfl

theorem maybeAddFile_yields {f : ℕ} (hf : (b.heap.file f).isSome) :
    Yields (maybeAddFile v level (b.saving v m) f)
      (b.NoOverlap level (m.files_ level ++ b.kept level [f]))
      (b.saving v (m.push level (b.kept level [f]))) := by
  obtain ⟨o, ho⟩ := Option.isSome_iff_exists.1 hf
  have hdata : b.heap.dataAt f = some o.data := by
    unfold VersionList.dataAt
    rw [ho, Option.map_some]
  have hfile : (b.saving v m).heap.file f =
      some { o with refs := o.refs + m.files.count f } := congrArg (Option.map _) ho
  have hversion : (b.saving v m).heap.version v = some m := Function.update_self ..
  unfold maybeAddFile
  rw [hfile, Option.bind_eq_bind, Option.bind_some]
  by_cases hdel : o.data.number ∈ (b.levels_ level).deleted_files
  · have hkept : b.kept level [f] = [] := by simp [kept, hdata, hdel]
    rw [if_pos (by exact hdel), hkept, VersionNode.push_nil]
    exact .inl rfl
  · have hkept : b.kept level [f] = [f] := by simp [kept, hdata, hdel]
    rw [if_neg (by exact hdel), hversion, Option.bind_eq_bind, Option.bind_some, hkept]
    by_cases hover : mustNotOverlap (b.saving v m).heap level (m.files_ level) o.data = true
    · rw [if_pos hover]
      exact .inl (congrArg some (saving_push ho))
    · rw [if_neg hover]
      refine .inr ⟨rfl, fun hno => hover ?_⟩
      unfold mustNotOverlap
      rw [saving_dataAt]
      rcases hno with h0 | hpair
      · rw [h0]
        rfl
      cases hlast : (m.files_ level).getLast?.bind b.heap.dataAt with
      | none => simp
      | some last =>
        obtain ⟨g, hg, hgd⟩ := Option.bind_eq_some_iff.1 hlast
        have hends := (List.pairwise_append.1 hpair).2.2 g (List.mem_of_getLast? hg) f
          (List.mem_singleton_self f)
        simp [hends last hgd o.data hdata]

/-- One level, file by file. -/
theorem foldlM_maybeAddFile {fs : List ℕ} (hfs : ∀ f ∈ fs, (b.heap.file f).isSome) :
    Yields (fs.foldlM (maybeAddFile v level) (b.saving v m))
      (b.NoOverlap level (m.files_ level ++ b.kept level fs))
      (b.saving v (m.push level (b.kept level fs))) := by
  have happ : ∀ done f, b.kept level (done ++ [f]) = b.kept level done ++ b.kept level [f] :=
    fun done f => List.filter_append ..
  have hstep : ∀ done f, (done ++ [f]) <+: fs →
      Yields (maybeAddFile v level (b.saving v (m.push level (b.kept level done))) f)
        (b.NoOverlap level (m.files_ level ++ b.kept level (done ++ [f])))
        (b.saving v (m.push level (b.kept level (done ++ [f])))) := by
    intro done f hprefix
    have hf : f ∈ fs := hprefix.subset (List.mem_append_right _ (List.mem_singleton_self f))
    have hone : Yields (maybeAddFile v level (b.saving v (m.push level (b.kept level done))) f) _ _ :=
      maybeAddFile_yields (hfs f hf)
    rw [happ, ← List.append_assoc, ← VersionNode.push_self, ← VersionNode.push_push]
    exact hone
  have h := Yields.foldlM (maybeAddFile v level)
    (fun done => b.saving v (m.push level (b.kept level done)))
    (fun done => b.NoOverlap level (m.files_ level ++ b.kept level done))
    (fun done f hno => hno.imp_right fun hp => by
      rw [happ, ← List.append_assoc] at hp
      exact (List.pairwise_append.1 hp).1) hstep
  have hnil : m.push level (b.kept level []) = m := VersionNode.push_nil
  rwa [hnil] at h

/-- **The loop of `SaveTo`** goes through the merge of the base files with the added ones. -/
theorem saveLevel_eq {base added : List ℕ} (hbase : ∀ f ∈ base, (b.heap.file f).isSome)
    (hadded : ∀ f ∈ added, (b.heap.file f).isSome) :
    saveLevel v level (b.saving v m) base added =
      (upperMerge b.heap.bySmallestKey base added).foldlM (maybeAddFile v level)
        (b.saving v m) := by
  induction added generalizing base m with
  | nil =>
    unfold saveLevel upperMerge
    rfl
  | cons f added ih =>
    set smaller := fun g => !b.heap.bySmallestKey f g with hsmaller
    have hstep : saveLevel v level (b.saving v m) base (f :: added) =
        ((base.takeWhile smaller).foldlM (maybeAddFile v level) (b.saving v m)).bind fun b' =>
          (b'.maybeAddFile v level f).bind fun b' =>
            saveLevel v level b' (base.dropWhile smaller) added := by
      rw [saveLevel, saving_bySmallestKey]
      rfl
    have hmerge : (upperMerge b.heap.bySmallestKey base (f :: added)).foldlM (maybeAddFile v level)
          (b.saving v m) =
        ((base.takeWhile smaller).foldlM (maybeAddFile v level) (b.saving v m)).bind fun b' =>
          (b'.maybeAddFile v level f).bind fun b' =>
            (upperMerge b.heap.bySmallestKey (base.dropWhile smaller) added).foldlM
              (maybeAddFile v level) b' := by
      rw [upperMerge, List.foldlM_append]
      simp only [List.foldlM_cons]
      rfl
    rw [hstep, hmerge]
    have hfront : Yields ((base.takeWhile smaller).foldlM (maybeAddFile v level) (b.saving v m)) _ _ :=
      foldlM_maybeAddFile fun g hg => hbase g (List.takeWhile_subset smaller hg)
    rcases hfront with hfront | hfront
    · rw [hfront, Option.bind_some, Option.bind_some]
      have hone : Yields (maybeAddFile v level
          (b.saving v (m.push level (b.kept level (base.takeWhile smaller)))) f) _ _ :=
        maybeAddFile_yields (hadded f List.mem_cons_self)
      rcases hone with hone | hone
      · rw [hone, Option.bind_some, Option.bind_some]
        exact ih (fun g hg => hbase g ((List.dropWhile_suffix _).subset hg)) fun g hg =>
          hadded g (List.mem_cons_of_mem _ hg)
      · rw [hone.1, Option.bind_none, Option.bind_none]
    · rw [hfront.1, Option.bind_none, Option.bind_none]

/-- What `SaveTo` puts at a level. -/
def savedFiles (b : Builder) (c : VersionNode) (level : Fin kMaxLevel) : List ℕ :=
  b.kept level (upperMerge b.heap.bySmallestKey (c.files_ level) (b.levels_ level).added_files)

/-- **`SaveTo`** into an empty version. -/
theorem saveTo_yields (hc : b.heap.version b.base_ = some c) (hn : b.heap.version v = some n)
    (hempty : n.files_ = fun _ => []) (hv : v ≠ b.base_)
    (hbase : ∀ level, ∀ f ∈ c.files_ level, (b.heap.file f).isSome)
    (hadded : ∀ level, ∀ f ∈ (b.levels_ level).added_files, (b.heap.file f).isSome) :
    Yields (b.saveTo v) (∀ level, b.NoOverlap level (b.savedFiles c level))
      (b.saving v { n with files_ := b.savedFiles c }) := by
  set node : List (Fin kMaxLevel) → VersionNode := fun done =>
    { n with files_ := fun level => if level ∈ done then b.savedFiles c level else [] } with hnode
  have hstep : ∀ done level, (done ++ [level]) <+: List.finRange kMaxLevel →
      Yields (((b.saving v (node done)).heap.version b.base_).bind fun base =>
          saveLevel v level (b.saving v (node done)) (base.files_ level)
            (b.levels_ level).added_files)
        (∀ lv ∈ done ++ [level], b.NoOverlap lv (b.savedFiles c lv))
        (b.saving v (node (done ++ [level]))) := by
    intro done level hprefix
    have hnodup := (List.nodup_finRange kMaxLevel).sublist hprefix.sublist
    have hnew : level ∉ done := fun hmem =>
      (List.nodup_append.1 hnodup).2.2 level hmem level (List.mem_singleton_self level) rfl
    have hversion : (b.saving v (node done)).heap.version b.base_ = some c :=
      (Function.update_of_ne hv.symm ..).trans hc
    have hfiles : (node done).files_ level = [] := if_neg hnew
    have hpush : (node done).push level (b.savedFiles c level) = node (done ++ [level]) := by
      rw [VersionNode.push, hfiles, List.nil_append, hnode]
      simp only [VersionNode.mk.injEq, true_and]
      funext lv
      by_cases hlv : lv = level
      · subst hlv
        rw [Function.update_self, if_pos (by simp)]
      · simp [hlv]
    rw [hversion, Option.bind_some, saveLevel_eq (hbase level) (hadded level), ← hpush]
    refine (foldlM_maybeAddFile fun f hf => ?_).mono fun hno => ?_
    · rcases List.mem_append.1 (upperMerge_perm.subset hf) with hf | hf
      · exact hbase level f hf
      · exact hadded level f hf
    · rw [hfiles]
      exact hno level (by simp)
  have h := Yields.foldlM (fun (b : Builder) level => (b.heap.version b.base_).bind fun base =>
      saveLevel v level b (base.files_ level) (b.levels_ level).added_files)
    (fun done => b.saving v (node done))
    (fun done => ∀ level ∈ done, b.NoOverlap level (b.savedFiles c level))
    (fun done level hno lv hlv => hno lv (List.mem_append_left _ hlv)) hstep
  have hnil : node [] = n := by
    change ({ n with files_ := fun _ => [] } : VersionNode) = n
    rw [← hempty]
  have hall : node (List.finRange kMaxLevel) = { n with files_ := b.savedFiles c } := by
    simp only [hnode, List.mem_finRange, if_true]
  simp only [hnil, hall, saving_self hn hempty] at h
  exact h.mono fun hno level _ => hno level

/-! ## The end of the builder -/

theorem unrefAdded_eq {f : ℕ} {o : FileObject} (ho : s.file f = some o) :
    unrefAdded s f = some { s with
      file := Function.update s.file f
        (if o.refs ≤ 1 then none else some { o with refs := o.refs - 1 }) } := by
  rw [unrefAdded, ho, Option.map_some]
  split
  · rfl
  · rfl

/-- The loop of `~Builder`. -/
theorem foldlM_unrefAdded {fs : List ℕ} (hnodup : fs.Nodup) (hsome : ∀ f ∈ fs, (s.file f).isSome) :
    fs.foldlM unrefAdded s = some { s with
      file := fun f => if f ∈ fs then (s.file f).bind fun o =>
        if o.refs ≤ 1 then none else some { o with refs := o.refs - 1 } else s.file f } := by
  set lower : ℕ → Option FileObject := fun f => (s.file f).bind fun o =>
    if o.refs ≤ 1 then none else some { o with refs := o.refs - 1 } with hlower
  have h := foldlM_of_steps unrefAdded
    (fun done => { s with file := fun f => if f ∈ done then lower f else s.file f })
    fun done f hd => by
      obtain ⟨hf, hnew⟩ := next_of_prefix hnodup hd
      obtain ⟨o, ho⟩ := Option.isSome_iff_exists.1 (hsome f hf)
      have hlow : lower f = if o.refs ≤ 1 then none else some { o with refs := o.refs - 1 } := by
        rw [hlower]
        simp only [ho, Option.bind_some]
      refine (unrefAdded_eq ((if_neg hnew).trans ho)).trans ?_
      rw [← hlow]
      exact congrArg (fun file => some { s with file }) update_mem_snoc
  simpa only [List.not_mem_nil, if_false] using h

/-- `Unref` of a version that has other references. -/
theorem unref_of_two_le (hv : v ≠ VersionList.dummy_versions_) (hn : s.version v = some n)
    (href : 2 ≤ n.ref_) : s.unref v = some (s.setVersion v { n with ref_ := n.ref_ - 1 }) := by
  have hpos : 1 ≤ n.ref_ := by omega
  have hone : n.ref_ ≠ 1 := by omega
  rw [VersionList.unref, hn, Option.bind_eq_bind, Option.bind_some, if_pos ⟨hv, hpos⟩, if_neg hone]

/-! ## The saved files -/

variable {ops : List ((ℕ × ℕ) × Bool)} {adds : List (ℕ × FileMetaData)}

theorem savedFiles_perm : (b.savedFiles c level).Perm
    (b.kept level (c.files_ level) ++ b.kept level (b.levels_ level).added_files) := by
  unfold savedFiles kept
  rw [← List.filter_append]
  exact upperMerge_perm.filter _

theorem Applied.dataAt_old (h : Applied s b ops adds) {f : ℕ} (hf : f < s.nextFile) :
    b.heap.dataAt f = s.dataAt f := congrArg (Option.map _) (h.old f hf)

/-- What is kept of any files. -/
theorem Applied.kept_data (h : Applied s b ops adds) {fs : List ℕ} :
    (b.kept level fs).filterMap b.heap.dataAt =
      (fs.filterMap b.heap.dataAt).filter fun d => Survives ops level d.number := by
  unfold kept
  rw [List.filterMap_filter, List.filter_filterMap]
  refine List.filterMap_congr fun f _ => ?_
  cases hd : b.heap.dataAt f with
  | none => simp
  | some d => simp [Option.filter, h.deleted]

theorem Applied.kept_old (h : Applied s b ops adds) {fs : List ℕ}
    (hfs : ∀ f ∈ fs, f < s.nextFile ∧ (s.file f).isSome) : b.kept level fs =
      fs.filter fun f => (s.dataAt f).any fun d => Survives ops level d.number := by
  refine List.filter_congr fun f hf => ?_
  obtain ⟨o, ho⟩ := Option.isSome_iff_exists.1 (hfs f hf).2
  have hd : s.dataAt f = some o.data := by
    unfold VersionList.dataAt
    rw [ho, Option.map_some]
  rw [h.dataAt_old (hfs f hf).1, hd]
  simp [h.deleted]

/-- The smallest key of a file is not behind the largest one. -/
def Ranged (d : FileMetaData) : Prop :=
  sliceCompare d.smallest.key.bytes d.largest.key.bytes ≠ .gt

/-- The ranges of the two files have no key in common. -/
def Apart (d e : FileMetaData) : Prop :=
  sliceCompare d.largest.key.bytes e.smallest.key.bytes = .lt ∨
    sliceCompare e.largest.key.bytes d.smallest.key.bytes = .lt

theorem Apart.symm {d e : FileMetaData} (h : Apart d e) : Apart e d := Or.symm h

/-- Of two files in order, it is the first one that ends before the other begins. -/
theorem Apart.lt {d e : FileMetaData} (h : Apart d e) (he : Ranged e)
    (hde : e.bySmallestKey d = false) :
    sliceCompare d.largest.key.bytes e.smallest.key.bytes = .lt := by
  refine h.resolve_right fun hlt => ?_
  rw [FileMetaData.bySmallestKey_false] at hde
  unfold Ranged at he
  rw [sliceCompare_eq] at hlt he
  have hle : (compare d.smallest.key.bytes e.smallest.key.bytes).isLE :=
    Ordering.isLE_left_of_isLE_then hde
  have hle' : (compare e.smallest.key.bytes e.largest.key.bytes).isLE := by
    rwa [Ordering.isLE_iff_ne_gt]
  have hlt' := Std.TransCmp.lt_of_isLE_of_lt (Std.TransCmp.isLE_trans hle hle') hlt
  have hself : compare d.smallest.key.bytes d.smallest.key.bytes = .eq := Std.ReflCmp.compare_self
  rw [hself] at hlt'
  cases hlt'

theorem noOverlap_of_apart {fs : List ℕ} (hsorted : InOrder b.heap.bySmallestKey fs)
    (hranged : ∀ d ∈ fs.filterMap b.heap.dataAt, Ranged d)
    (hapart : (fs.filterMap b.heap.dataAt).Pairwise Apart) : fs.Pairwise b.EndsBefore := by
  rw [List.pairwise_filterMap] at hapart
  refine (List.Pairwise.and hsorted hapart).imp_of_mem fun {f g} _ hg hfg d hd e he => ?_
  obtain ⟨horder, hap⟩ := hfg
  unfold VersionList.bySmallestKey at horder
  rw [Option.mem_def] at hd he
  rw [hd, he] at horder
  exact (hap d hd e he).lt (hranged e (List.mem_filterMap.2 ⟨g, hg, he⟩)) horder

/-! ## The edited version -/

/-- The base files and the added files of a level for whose number the last operation, if any, is
not a delete. -/
def editedFiles (s : VersionList) (c : VersionNode) (edits : List (FullVersionEdit FileMetaData))
    (level : Fin kMaxLevel) : List FileMetaData :=
  ((c.files_ level).filterMap s.dataAt ++ addsTo (edits.flatMap (·.new_files_)) level).filter
    fun d => Survives (edits.flatMap opsOf) level d.number

/-- `m` is the edited version of `c`, and `s'` what has become of the objects of `s`. -/
structure Saved (s s' : VersionList) (c m : VersionNode)
    (edits : List (FullVersionEdit FileMetaData)) : Prop where
  files : ∀ level, ((m.files_ level).filterMap s'.dataAt).Perm (editedFiles s c edits level)
  sorted : ∀ level, InOrder s'.bySmallestKey (m.files_ level)
  /-- the base files are the same objects -/
  base : ∀ level, ((m.files_ level).filter (· < s.nextFile)).Perm ((c.files_ level).filter fun f =>
    (s.dataAt f).any fun d => Survives (edits.flatMap opsOf) level d.number)
  nodup : c.files.Nodup → m.files.Nodup
  /-- a reference more for each time that the file is listed -/
  old : ∀ f < s.nextFile,
    s'.file f = (s.file f).map fun o => { o with refs := o.refs + m.files.count f }
  /-- an added file that does not survive has been deleted -/
  new : ∀ f ≥ s.nextFile, (s'.file f).map (·.refs) = if f ∈ m.files then some 1 else none

theorem Applied.edited_perm {edits : List (FullVersionEdit FileMetaData)}
    (h : Applied s b (edits.flatMap opsOf) (edits.flatMap (·.new_files_)))
    (hfs : ∀ f ∈ c.files_ level, f < s.nextFile) :
    ((b.savedFiles c level).filterMap b.heap.dataAt).Perm (editedFiles s c edits level) := by
  have hbase : (c.files_ level).filterMap b.heap.dataAt = (c.files_ level).filterMap s.dataAt :=
    List.filterMap_congr fun f hf => h.dataAt_old (hfs f hf)
  have hadded := (h.added level).filterMap id
  rw [List.filterMap_map, List.filterMap_map, Function.id_comp, Function.id_comp,
    List.filterMap_some] at hadded
  refine (savedFiles_perm.filterMap _).trans ?_
  rw [List.filterMap_append, h.kept_data, h.kept_data, ← List.filter_append, hbase]
  exact (hadded.append_left _).filter _

theorem Applied.savedFiles_sorted (h : Applied s b ops adds)
    (hfs : ∀ f ∈ c.files_ level, f < s.nextFile)
    (hsorted : InOrder s.bySmallestKey (c.files_ level)) :
    InOrder b.heap.bySmallestKey (b.savedFiles c level) := by
  have hbase : InOrder b.heap.bySmallestKey (c.files_ level) :=
    VersionList.inOrder_congr (fun f hf => h.dataAt_old (hfs f hf)) hsorted
  exact (upperMerge_sorted b.heap.bySmallestKey_comparator hbase (h.sorted level)).sublist
    List.filter_sublist

/-- The kept files of the base and the kept new ones. -/
def keptOld (b : Builder) (c : VersionNode) : List ℕ :=
  (List.finRange kMaxLevel).flatMap fun level => b.kept level (c.files_ level)

def keptNew (b : Builder) : List ℕ :=
  (List.finRange kMaxLevel).flatMap fun level => b.kept level (b.levels_ level).added_files

theorem flatMap_savedFiles :
    ((List.finRange kMaxLevel).flatMap (b.savedFiles c)).Perm (b.keptOld c ++ b.keptNew) :=
  (List.Perm.flatMap_left _ fun _ _ => savedFiles_perm).trans
    (List.flatMap_append_perm _ _ _).symm

theorem keptOld_sublist : (b.keptOld c).Sublist c.files :=
  List.Sublist.flatMap_right _ fun _ _ => List.filter_sublist

theorem keptNew_sublist : b.keptNew.Sublist b.allAdded :=
  List.Sublist.flatMap_right _ fun _ _ => List.filter_sublist

/-- A file when the builder has given back its references. -/
def released (b : Builder) (v : ℕ) (m : VersionNode) (f : ℕ) : Option FileObject :=
  if f ∈ b.allAdded then ((b.saving v m).heap.file f).bind fun o =>
    if o.refs ≤ 1 then none else some { o with refs := o.refs - 1 }
  else (b.saving v m).heap.file f

/-- The objects after `~Builder`. -/
theorem Applied.destroy (h : Applied s b ops adds)
    (hc : b.heap.version b.base_ = some { c with ref_ := c.ref_ + 1 })
    (hbase : b.base_ ≠ VersionList.dummy_versions_) (hpos : 1 ≤ c.ref_) (hv : v ≠ b.base_) :
    ∃ s', (b.saving v m).destroy = some s' ∧
      s'.version = Function.update (Function.update b.heap.version v (some m)) b.base_ (some c) ∧
      s'.file = b.released v m := by
  have hsome : ∀ f ∈ b.allAdded, ((b.saving v m).heap.file f).isSome := by
    intro f hf
    have hf' := ((h.objects f).1 hf).2
    exact Option.isSome_map.trans hf'
  have hversion : (b.saving v m).heap.version b.base_ = some { c with ref_ := c.ref_ + 1 } :=
    (Function.update_of_ne hv.symm ..).trans hc
  change ∃ s', ((b.allAdded.foldlM unrefAdded (b.saving v m).heap).bind fun heap =>
    heap.unref b.base_) = some s' ∧ _
  rw [foldlM_unrefAdded h.nodup hsome, Option.bind_some]
  refine ⟨_, unref_of_two_le (n := { c with ref_ := c.ref_ + 1 }) hbase ?_ ?_, rfl, rfl⟩
  · exact hversion
  · exact Nat.succ_le_succ hpos

/-- A file that the builder has added, after `~Builder`. -/
theorem Applied.released_new (h : Applied s b ops adds) (hold : ∀ f ∈ c.files, f < s.nextFile)
    (hm : m.files.Perm (b.keptOld c ++ b.keptNew)) {f : ℕ} (hf : f ∈ b.allAdded) :
    b.released v m f = if f ∈ m.files then b.heap.file f else none := by
  obtain ⟨⟨data, refs, allowed_seeks⟩, ho, hone⟩ := Option.map_eq_some_iff.1 (h.one f hf)
  change refs = 1 at hone
  subst hone
  have hge := ((h.objects f).1 hf).1
  have hfile : (b.saving v m).heap.file f = some ⟨data, 1 + m.files.count f, allowed_seeks⟩ :=
    congrArg (Option.map _) ho
  have hnot : f ∉ b.keptOld c := fun hmem => Nat.not_lt.2 hge (hold f (keptOld_sublist.subset hmem))
  have hcount : m.files.count f = if f ∈ m.files then 1 else 0 := by
    rw [hm.count_eq, List.count_append, List.count_eq_zero_of_not_mem hnot, Nat.zero_add,
      (h.nodup.sublist keptNew_sublist).count]
    simp only [hm.mem_iff, List.mem_append, hnot, false_or]
  rw [released, if_pos hf, hfile, Option.bind_some, hcount, ho]
  by_cases hmem : f ∈ m.files
  · simp [hmem]
  · simp [hmem]

theorem Applied.saved {edits : List (FullVersionEdit FileMetaData)} {s' : VersionList}
    (h : Applied s b (edits.flatMap opsOf) (edits.flatMap (·.new_files_)))
    (hfiles : ∀ f ∈ c.files, f < s.nextFile ∧ (s.file f).isSome)
    (hsorted : ∀ level, InOrder s.bySmallestKey (c.files_ level)) (hm : m.files_ = b.savedFiles c)
    (hs' : s'.file = b.released v m) : Saved s s' c m edits := by
  have hlevel : ∀ level, ∀ f ∈ c.files_ level, f < s.nextFile ∧ (s.file f).isSome :=
    fun level f hf => hfiles f (List.mem_flatMap.2 ⟨level, List.mem_finRange level, hf⟩)
  have hperm : m.files.Perm (b.keptOld c ++ b.keptNew) := by
    unfold VersionNode.files
    rw [hm]
    exact flatMap_savedFiles
  have hmem : ∀ level, ∀ f ∈ m.files_ level, f ∈ m.files := fun level f hf =>
    List.mem_flatMap.2 ⟨level, List.mem_finRange level, hf⟩
  have hnew : ∀ f ∈ b.allAdded, s'.file f = if f ∈ m.files then b.heap.file f else none :=
    fun f hf => by
      rw [hs']
      exact h.released_new (fun f hf => (hfiles f hf).1) hperm hf
  have hkeep : ∀ f, f ∉ b.allAdded → s'.file f = (b.saving v m).heap.file f := by
    intro f hf
    rw [hs']
    exact if_neg hf
  have hdata : ∀ level, ∀ f ∈ m.files_ level, s'.dataAt f = b.heap.dataAt f := by
    intro level f hf
    by_cases hadd : f ∈ b.allAdded
    · unfold VersionList.dataAt
      rw [hnew f hadd, if_pos (hmem level f hf)]
    · rw [VersionList.dataAt, hkeep f hadd]
      exact congrFun saving_dataAt f
  have hnotadded : ∀ f < s.nextFile, f ∉ b.allAdded := fun f hf hadd =>
    Nat.not_lt.2 ((h.objects f).1 hadd).1 hf
  constructor
  case files =>
    intro level
    rw [List.filterMap_congr (hdata level), hm]
    exact h.edited_perm fun f hf => (hlevel level f hf).1
  case sorted =>
    intro level
    refine VersionList.inOrder_congr (hdata level) ?_
    rw [hm]
    exact h.savedFiles_sorted (fun f hf => (hlevel level f hf).1) (hsorted level)
  case base =>
    intro level
    have hfirst : (b.kept level (c.files_ level)).filter (· < s.nextFile) =
        b.kept level (c.files_ level) := List.filter_eq_self.2 fun f hf =>
      decide_eq_true (hlevel level f (List.mem_of_mem_filter hf)).1
    have hsecond : (b.kept level (b.levels_ level).added_files).filter (· < s.nextFile) = [] :=
      List.filter_eq_nil_iff.2 fun f hf hlt =>
        hnotadded f (of_decide_eq_true hlt) (mem_allAdded (List.mem_of_mem_filter hf))
    rw [hm, ← h.kept_old (hlevel level)]
    refine (savedFiles_perm.filter _).trans ?_
    rw [List.filter_append, hfirst, hsecond, List.append_nil]
  case nodup =>
    intro hnodup
    rw [hperm.nodup_iff, List.nodup_append]
    refine ⟨hnodup.sublist keptOld_sublist, h.nodup.sublist keptNew_sublist, ?_⟩
    rintro f hf g hg rfl
    exact hnotadded f (hfiles f (keptOld_sublist.subset hf)).1 (keptNew_sublist.subset hg)
  case old =>
    intro f hf
    rw [hkeep f (hnotadded f hf), ← h.old f hf]
    rfl
  case new =>
    intro f hf
    by_cases hadd : f ∈ b.allAdded
    · rw [hnew f hadd]
      split
      · exact h.one f hadd
      · rfl
    · have hnone : b.heap.file f = none := by
        rw [← Option.not_isSome_iff_eq_none]
        exact fun hsome => hadd ((h.objects f).2 ⟨hf, hsome⟩)
      have hnotin : f ∉ m.files := by
        intro hin
        rcases List.mem_append.1 (hperm.subset hin) with hin | hin
        · exact Nat.not_lt.2 hf (hfiles f (keptOld_sublist.subset hin)).1
        · exact hadd (keptNew_sublist.subset hin)
      have hfile : (b.saving v m).heap.file f = none := congrArg (Option.map _) hnone
      rw [hkeep f hadd, hfile, if_neg hnotin, Option.map_none]

theorem Applied.noOverlap {edits : List (FullVersionEdit FileMetaData)}
    (h : Applied s b (edits.flatMap opsOf) (edits.flatMap (·.new_files_)))
    (hold : ∀ level, ∀ f ∈ c.files_ level, f < s.nextFile)
    (hsorted : ∀ level, InOrder s.bySmallestKey (c.files_ level))
    (hranged : ∀ level, ∀ d ∈ editedFiles s c edits level, Ranged d)
    (hapart : ∀ level, level ≠ 0 → (editedFiles s c edits level).Pairwise Apart)
    (level : Fin kMaxLevel) : b.NoOverlap level (b.savedFiles c level) := by
  have hperm : ((b.savedFiles c level).filterMap b.heap.dataAt).Perm
    (editedFiles s c edits level) := h.edited_perm (hold level)
  by_cases h0 : level = 0
  · exact .inl h0
  · refine .inr (noOverlap_of_apart (h.savedFiles_sorted (hold level) (hsorted level))
      (fun d hd => hranged level d (hperm.subset hd)) ?_)
    exact (hperm.pairwise_iff fun hde => hde.symm).2 (hapart level h0)

/-- `SaveTo` of what the builder holds after the edits. -/
theorem Applied.saveTo (h : Applied (s.setVersion b.base_ { c with ref_ := c.ref_ + 1 }) b ops adds)
    (hold : ∀ level, ∀ f ∈ c.files_ level, f < s.nextFile ∧ (s.file f).isSome)
    (hn : s.version v = some n) (hempty : n.files_ = fun _ => []) (hv : v ≠ b.base_) :
    b.heap.version = Function.update s.version b.base_ (some { c with ref_ := c.ref_ + 1 }) ∧
      Yields (b.saveTo v) (∀ level, b.NoOverlap level (b.savedFiles c level))
        (b.saving v { n with files_ := b.savedFiles c }) := by
  have hversion : b.heap.version =
      Function.update s.version b.base_ (some { c with ref_ := c.ref_ + 1 }) := by
    obtain ⟨file, nextFile, hsame⟩ := h.same
    rw [hsame]
    rfl
  have hbc : b.heap.version b.base_ = some { c with ref_ := c.ref_ + 1 } := by
    rw [hversion, Function.update_self]
  have hbn : b.heap.version v = some n := by rw [hversion, Function.update_of_ne hv, hn]
  have hyields := saveTo_yields hbc hbn hempty hv
    (fun level f hf => by
      rw [h.old f (hold level f hf).1]
      exact (hold level f hf).2)
    (fun level f hf => ((h.objects f).1 (mem_allAdded hf)).2)
  exact ⟨hversion, hyields⟩

/-- **The builder computes the edited version**, its files sorted, and leaves one reference to
each added file and one more to each kept file of the base. -/
theorem saves {base : ℕ} {edits : List (FullVersionEdit FileMetaData)}
    (hlt : ∀ f, (s.file f).isSome → f < s.nextFile)
    (hbase : base ≠ VersionList.dummy_versions_) (hc : s.version base = some c) (hpos : 1 ≤ c.ref_)
    (hfiles : ∀ f ∈ c.files, (s.file f).isSome)
    (hsorted : ∀ level, InOrder s.bySmallestKey (c.files_ level))
    (hn : s.version v = some n) (hempty : n.files_ = fun _ => []) (hv : v ≠ base)
    (hedits : EditsOk edits) :
    ∃ b, ((new s base).bind fun b => edits.foldlM apply b) = some b ∧
      ((∀ level, ∀ d ∈ editedFiles s c edits level, Ranged d) →
        (∀ level, level ≠ 0 → (editedFiles s c edits level).Pairwise Apart) →
          (b.saveTo v).isSome) ∧
      ∀ b', b.saveTo v = some b' → ∃ s' files_, b'.destroy = some s' ∧
        s'.version = Function.update s.version v (some { n with files_ }) ∧
        Saved s s' c { n with files_ } edits := by
  obtain ⟨b, hb, rfl, h⟩ := hedits.applied hc hlt
  set c' : VersionNode := { c with ref_ := c.ref_ + 1 } with hc'
  have hold : ∀ level, ∀ f ∈ c.files_ level, f < s.nextFile ∧ (s.file f).isSome :=
    fun level f hf => by
      have hsome := hfiles f (List.mem_flatMap.2 ⟨level, List.mem_finRange level, hf⟩)
      exact ⟨hlt f hsome, hsome⟩
  obtain ⟨hversion, hyields⟩ := h.saveTo hold hn hempty hv
  refine ⟨b, hb, fun hranged hapart => ?_, fun b' hb' => ?_⟩
  · rw [hyields.eq_some (h.noOverlap (fun level f hf => (hold level f hf).1) hsorted hranged hapart)]
    rfl
  · rw [hyields.eq_of_some hb']
    have hbc : b.heap.version b.base_ = some c' := by rw [hversion, Function.update_self]
    obtain ⟨s', hs', hver, hfile⟩ := h.destroy (m := { n with files_ := b.savedFiles c }) hbc hbase
      hpos hv
    refine ⟨s', b.savedFiles c, hs', ?_, ?_⟩
    · rw [hver, hversion, Function.update_comm hv, Function.update_idem, ← hc, Function.update_eq_self]
    · have hsaved := h.saved (c := c) (fun f hf => ⟨hlt f (hfiles f hf), hfiles f hf⟩) hsorted rfl
        hfile
      exact ⟨hsaved.files, hsaved.sorted, hsaved.base, hsaved.nodup, hsaved.old, hsaved.new⟩

/-- The only file of a base version is replaced. -/
theorem saves_replaced : ∃ (s : VersionList) (c : VersionNode)
    (edit : FullVersionEdit FileMetaData), s.version 1 = some c ∧ c.files_ 1 = [0] ∧
      edit.deleted_files_ = {toLex (1, 1)} ∧ edit.new_files_.map Prod.fst = [1] ∧
      ∃ b, ((new s 1).bind fun b => [edit].foldlM apply b) = some b ∧ (b.saveTo 2).isSome ∧
        ∀ b', b.saveTo 2 = some b' → ∃ s' files_, b'.destroy = some s' ∧
          s'.version = Function.update s.version 2 (some { VersionNode.new with files_ }) ∧
          Saved s s' c { VersionNode.new with files_ } [edit] := by
  set entry : UInt8 → Entry := fun k => ⟨⟨[k], 0⟩, ⟨[], 0⟩, 0, false⟩ with hentry
  set d : FileMetaData := ⟨entry 97, entry 99, 1, 1⟩ with hd
  set e : FileMetaData := ⟨entry 98, entry 100, 1, 2⟩ with he
  set c : VersionNode := { VersionNode.new with
    ref_ := 1
    files_ := fun level => if level = 1 then [0] else [] } with hc
  set s : VersionList := { VersionList.initial with
    version := fun v => [{ VersionNode.new with ref_ := 1 }, c, VersionNode.new][v]?
    file := fun f => [⟨d, 1, none⟩][f]?
    nextVersion := 3
    nextFile := 1 } with hs
  set edit : FullVersionEdit FileMetaData := ⟨fun _ => 0, 0, 0, 0, false, false, false, false, false,
    {toLex (1, 1)}, [(1, e)]⟩ with hedit
  have hops : [edit].flatMap opsOf = [((1, 1), true), ((1, 2), false)] := by
    simp [hedit, opsOf, FullVersionEdit.deletedFiles, he]
  have hedited : ∀ level, editedFiles s c [edit] level = if level = 1 then [e] else [] := by
    unfold editedFiles
    rw [hops]
    decide
  have hlt : ∀ f, (s.file f).isSome → f < s.nextFile := by
    intro f hf
    simpa [hs] using hf
  have hfiles : ∀ f ∈ c.files, (s.file f).isSome := by decide
  have hsorted : ∀ level, InOrder s.bySmallestKey (c.files_ level) := by
    intro level
    simp only [hc]
    split
    · exact List.pairwise_singleton _ 0
    · exact .nil
  have hedits : EditsOk [edit] := by
    constructor
    case deleted => simp [hedit, kMaxLevel]
    case added => simp [hedit, kMaxLevel]
    case distinct =>
      intro level
      by_cases hl : level = 1
      · simp [hedit, addsTo, hl]
      · simp [hedit, addsTo, Ne.symm hl]
  have hbase : 1 ≠ VersionList.dummy_versions_ := by decide
  obtain ⟨b, hb, hsome, hall⟩ := saves (v := 2) hlt hbase rfl le_rfl hfiles hsorted rfl rfl
    (by decide) hedits
  refine ⟨s, c, edit, rfl, rfl, rfl, rfl, b, hb, hsome (fun level x hx => ?_) fun level _ => ?_, hall⟩
  · rw [hedited] at hx
    split at hx
    · rw [List.mem_singleton.1 hx]
      unfold Ranged
      decide
    · cases hx
  · rw [hedited]
    split
    · exact List.pairwise_singleton _ e
    · exact .nil

end VersionSet.Builder

end Yangkv
