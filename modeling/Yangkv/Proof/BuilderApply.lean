import Yangkv.Lib.LastWrite
import Yangkv.Proof.Block
import Yangkv.Proof.VersionCounts
import Yangkv.Spec.VersionBuilder

/-!
# What the builder of versions holds after the edits

* `FileMetaData.bySmallestKey_iff`: the comparator compares the smallest keys and then the
  numbers.
* `Survives`: how the deletes and adds of the edits are read.
* `EditsOk.applied`: after any number of edits, the builder knows the deleted numbers and has the
  added files as new objects, in order.
-/

namespace Yangkv

open Lib

/-! ## The comparator -/

/-- The order of `BySmallestKey`. -/
def FileMetaData.keyCompare : FileMetaData → FileMetaData → Ordering :=
  compareLex (compareOn fun d => d.smallest.key.bytes) (compareOn fun d => d.number)

instance : Std.TransCmp FileMetaData.keyCompare := by
  unfold FileMetaData.keyCompare
  infer_instance

theorem FileMetaData.bySmallestKey_iff (d1 d2 : FileMetaData) :
    d1.bySmallestKey d2 = true ↔ d1.keyCompare d2 = .lt := by
  unfold bySmallestKey keyCompare compareLex compareOn
  rw [sliceCompare_eq]
  cases compare d1.smallest.key.bytes d2.smallest.key.bytes with
  | lt => simp
  | gt => simp
  | eq => simp [Nat.compare_eq_lt]

theorem FileMetaData.bySmallestKey_false (d1 d2 : FileMetaData) :
    d2.bySmallestKey d1 = false ↔ (d1.keyCompare d2).isLE = true := by
  rw [← Bool.not_eq_true, bySmallestKey_iff, ← Std.OrientedCmp.isGE_iff_isLE]
  cases d2.keyCompare d1 <;> simp

/-- Two files with different numbers are not equivalent. -/
theorem FileMetaData.bySmallestKey_total {d1 d2 : FileMetaData} (h : d1.number ≠ d2.number) :
    d1.bySmallestKey d2 = true ∨ d2.bySmallestKey d1 = true := by
  have hswap : compare d2.smallest.key.bytes d1.smallest.key.bytes =
      (compare d1.smallest.key.bytes d2.smallest.key.bytes).swap := Std.OrientedCmp.eq_swap
  unfold bySmallestKey
  rw [sliceCompare_eq, sliceCompare_eq, hswap]
  cases compare d1.smallest.key.bytes d2.smallest.key.bytes with
  | lt => exact .inl rfl
  | gt => exact .inr rfl
  | eq => simpa using Nat.lt_or_gt_of_ne h

namespace VersionList

variable {s s' : VersionList}

theorem bySmallestKey_comparator (s : VersionList) : Comparator s.bySmallestKey := by
  constructor
  case asymm =>
    intro f g h
    unfold bySmallestKey at h ⊢
    cases hf : s.dataAt f with
    | none =>
      cases hg : s.dataAt g with
      | none => rfl
      | some => rfl
    | some df =>
      cases hg : s.dataAt g with
      | none => rw [hf, hg] at h; cases h
      | some dg =>
        rw [hf, hg] at h
        simp only at h ⊢
        rw [FileMetaData.bySmallestKey_false]
        rw [FileMetaData.bySmallestKey_iff] at h
        rw [h]
        rfl
  case trans =>
    intro f g k hgf hkg
    unfold bySmallestKey at *
    cases hf : s.dataAt f with
    | none =>
      cases hk : s.dataAt k <;> rfl
    | some df =>
      cases hg : s.dataAt g with
      | none => rw [hf, hg] at hgf; cases hgf
      | some dg =>
        cases hk : s.dataAt k with
        | none => rw [hg, hk] at hkg; cases hkg
        | some dk =>
          rw [hf, hg] at hgf
          rw [hg, hk] at hkg
          simp only [FileMetaData.bySmallestKey_false] at hgf hkg ⊢
          exact Std.TransCmp.isLE_trans hgf hkg

theorem bySmallestKey_congr {f g : ℕ} (hf : s'.dataAt f = s.dataAt f) (hg : s'.dataAt g = s.dataAt g) :
    s'.bySmallestKey f g = s.bySmallestKey f g := by
  unfold bySmallestKey
  rw [hf, hg]

theorem inOrder_congr {fs : List ℕ} (h : ∀ f ∈ fs, s'.dataAt f = s.dataAt f)
    (hs : InOrder s.bySmallestKey fs) : InOrder s'.bySmallestKey fs :=
  hs.imp_of_mem fun hf hg hfg => (bySmallestKey_congr (h _ hg) (h _ hf)).trans hfg

end VersionList

namespace VersionSet.Builder

variable {s : VersionList} {b : Builder} {ops : List ((ℕ × ℕ) × Bool)}
  {adds : List (ℕ × FileMetaData)}

/-! ## What an edit does -/

/-- The operations of an edit on the file numbers of the levels: whether they delete. -/
def opsOf (edit : FullVersionEdit FileMetaData) : List ((ℕ × ℕ) × Bool) :=
  edit.deletedFiles.map (fun it => (ofLex it, true)) ++
    edit.new_files_.map fun it => ((it.1, it.2.number), false)

/-- The last operation on the number, if any, is not a delete. -/
def Survives (ops : List ((ℕ × ℕ) × Bool)) (level number : ℕ) : Prop :=
  (lastFor Prod.fst (level, number) ops).map Prod.snd ≠ some true

instance (level number : ℕ) : Decidable (Survives ops level number) :=
  inferInstanceAs (Decidable (_ ≠ _))

/-- The files added to a level. -/
def addsTo (adds : List (ℕ × FileMetaData)) (level : ℕ) : List FileMetaData :=
  (adds.filter (·.1 = level)).map Prod.snd

theorem survives_snoc {level number : ℕ} {key : ℕ × ℕ} {del : Bool} :
    Survives (ops ++ [(key, del)]) level number ↔
      if key = (level, number) then del = false else Survives ops level number := by
  unfold Survives
  rw [lastFor_snoc]
  by_cases h : key = (level, number)
  · simp [h]
  · simp [h]

/-! ## `Apply` -/

def allAdded (b : Builder) : List ℕ :=
  (List.finRange kMaxLevel).flatMap fun level => (b.levels_ level).added_files

/-- What the builder holds after the operations `ops`, which have added `adds`. -/
structure Applied (s : VersionList) (b : Builder) (ops : List ((ℕ × ℕ) × Bool))
    (adds : List (ℕ × FileMetaData)) : Prop where
  same : ∃ file nextFile, b.heap = { s with file, nextFile }
  old : ∀ f < s.nextFile, b.heap.file f = s.file f
  le : s.nextFile ≤ b.heap.nextFile
  lt : ∀ f, (b.heap.file f).isSome → f < b.heap.nextFile
  deleted : ∀ (level : Fin kMaxLevel) number,
    number ∈ (b.levels_ level).deleted_files ↔ ¬ Survives ops level number
  added : ∀ level : Fin kMaxLevel, ((b.levels_ level).added_files.map b.heap.dataAt).Perm
    ((addsTo adds level).map some)
  /-- the new objects, each of them with the one reference of the builder -/
  objects : ∀ f, f ∈ b.allAdded ↔ s.nextFile ≤ f ∧ (b.heap.file f).isSome
  one : ∀ f ∈ b.allAdded, (b.heap.file f).map (·.refs) = some 1
  nodup : b.allAdded.Nodup
  sorted : ∀ level, InOrder b.heap.bySmallestKey (b.levels_ level).added_files

theorem setLevel_levels {level lv : Fin kMaxLevel} {st : LevelState} :
    (b.setLevel level st).levels_ lv = if lv = level then st else b.levels_ lv :=
  Function.update_apply ..

/-- The set of deleted numbers after one more operation. -/
theorem Applied.deleted_snoc (h : Applied s b ops adds) {b' : Builder} {level number : ℕ}
    {del : Bool} (hl : level < kMaxLevel) {st : LevelState}
    (hb' : ∀ lv, b'.levels_ lv = if lv = ⟨level, hl⟩ then st else b.levels_ lv)
    (hself : number ∈ st.deleted_files ↔ del = true)
    (hother : ∀ x, x ≠ number →
      (x ∈ st.deleted_files ↔ x ∈ (b.levels_ ⟨level, hl⟩).deleted_files))
    (lv : Fin kMaxLevel) (x : ℕ) : x ∈ (b'.levels_ lv).deleted_files ↔
      ¬ Survives (ops ++ [((level, number), del)]) lv x := by
  rw [survives_snoc, hb']
  by_cases hlv : lv = ⟨level, hl⟩
  · subst hlv
    rw [if_pos rfl]
    by_cases hx : x = number
    · subst hx
      simp [hself]
    · have hne : (level, number) ≠ (level, x) := fun e => hx (Prod.mk.inj e).2.symm
      rw [if_neg hne, hother x hx]
      exact h.deleted _ x
  · have hne : (level, number) ≠ ((lv : ℕ), x) := fun e => hlv (Fin.ext (Prod.mk.inj e).1.symm)
    rw [if_neg hlv, if_neg hne]
    exact h.deleted lv x

theorem Applied.deleteFile (h : Applied s b ops adds) {level number : ℕ} (hl : level < kMaxLevel) :
    ∃ b', b.deleteFile level number = some b' ∧ b'.base_ = b.base_ ∧
      Applied s b' (ops ++ [((level, number), true)]) adds := by
  set st := b.levels_ ⟨level, hl⟩ with hst
  set b' := b.setLevel ⟨level, hl⟩ { st with deleted_files := insert number st.deleted_files }
    with hb'
  have hadded : ∀ lv, (b'.levels_ lv).added_files = (b.levels_ lv).added_files := by
    intro lv
    rw [hb', setLevel_levels]
    split
    · rename_i hlv
      rw [hlv]
    · rfl
  have hall : b'.allAdded = b.allAdded := by
    unfold allAdded
    simp only [hadded]
  refine ⟨b', dif_pos hl, rfl, ?_⟩
  constructor
  case same => exact h.same
  case old => exact h.old
  case le => exact h.le
  case lt => exact h.lt
  case deleted =>
    exact h.deleted_snoc hl (fun _ => setLevel_levels) (by simp) fun x hx => by simp [hx, hst]
  case added => exact fun lv => by rw [hadded]; exact h.added lv
  case objects => rw [hall]; exact h.objects
  case one => rw [hall]; exact h.one
  case nodup => rw [hall]; exact h.nodup
  case sorted => exact fun lv => by rw [hadded]; exact h.sorted lv

theorem addsTo_append (adds : List (ℕ × FileMetaData)) (level lv : ℕ) (d : FileMetaData) :
    addsTo (adds ++ [(level, d)]) lv = addsTo adds lv ++ if level = lv then [d] else [] := by
  unfold addsTo
  rw [List.filter_append, List.map_append]
  by_cases h : level = lv
  · simp [h]
  · simp [h]

theorem mem_allAdded {level : Fin kMaxLevel} {f : ℕ} (hf : f ∈ (b.levels_ level).added_files) :
    f ∈ b.allAdded :=
  List.mem_flatMap.2 ⟨level, List.mem_finRange level, hf⟩

/-- The objects with the copy of an added file. -/
def withCopy (heap : VersionList) (d : FileMetaData) : VersionList :=
  { heap.setFile heap.nextFile ⟨d, 1, some (allowedSeeks d.file_size)⟩ with
    nextFile := heap.nextFile + 1 }

theorem withCopy_file {heap : VersionList} {d : FileMetaData} {f : ℕ} :
    (withCopy heap d).file f = if f = heap.nextFile then
      some ⟨d, 1, some (allowedSeeks d.file_size)⟩ else heap.file f := Function.update_apply ..

theorem withCopy_dataAt {heap : VersionList} {d : FileMetaData} {f : ℕ} :
    (withCopy heap d).dataAt f = if f = heap.nextFile then some d else heap.dataAt f := by
  unfold VersionList.dataAt
  rw [withCopy_file]
  split
  · rfl
  · rfl

theorem Applied.ne_next (h : Applied s b ops adds) {f : ℕ} (hf : f ∈ b.allAdded) :
    f ≠ b.heap.nextFile :=
  (h.lt f ((h.objects f).1 hf).2).ne

/-- No file of the set is equivalent to the new one. -/
theorem Applied.insert_perm (h : Applied s b ops adds) {level : Fin kMaxLevel} {d : FileMetaData}
    (hnew : ∀ d' ∈ addsTo adds level, d'.number ≠ d.number) :
    (insertBy (withCopy b.heap d).bySmallestKey b.heap.nextFile
      (b.levels_ level).added_files).Perm (b.heap.nextFile :: (b.levels_ level).added_files) := by
  refine insertBy_perm fun f hf => ?_
  have hmem := (h.added level).mem_iff.1 (List.mem_map.2 ⟨f, hf, rfl⟩)
  obtain ⟨d', hd', hfd⟩ := List.mem_map.1 hmem
  unfold VersionList.bySmallestKey
  rw [withCopy_dataAt, withCopy_dataAt, if_neg (h.ne_next (mem_allAdded hf)), if_pos rfl, ← hfd]
  exact FileMetaData.bySmallestKey_total (hnew d' hd')

theorem Applied.addFile (h : Applied s b ops adds) {level : ℕ} (hl : level < kMaxLevel)
    {d : FileMetaData} (hnew : ∀ d' ∈ addsTo adds level, d'.number ≠ d.number) :
    ∃ b', b.addFile level d = some b' ∧ b'.base_ = b.base_ ∧
      Applied s b' (ops ++ [((level, d.number), false)]) (adds ++ [(level, d)]) := by
  set f := b.heap.nextFile with hf
  set st := b.levels_ ⟨level, hl⟩ with hst
  set st' : LevelState := ⟨st.deleted_files.erase d.number,
    insertBy (withCopy b.heap d).bySmallestKey f st.added_files⟩ with hst'
  set b' : Builder := { b with heap := withCopy b.heap d }.setLevel ⟨level, hl⟩ st' with hb'
  have hlevel : ∀ lv, b'.levels_ lv = if lv = ⟨level, hl⟩ then st' else b.levels_ lv := fun lv =>
    setLevel_levels
  have hfile : ∀ g, b'.heap.file g = if g = f then
      some ⟨d, 1, some (allowedSeeks d.file_size)⟩ else b.heap.file g := fun g => withCopy_file
  have hdata : ∀ lv, ∀ g ∈ (b.levels_ lv).added_files, b'.heap.dataAt g = b.heap.dataAt g :=
    fun lv g hg => withCopy_dataAt.trans (if_neg (h.ne_next (mem_allAdded hg)))
  have hself : b'.heap.dataAt f = some d := withCopy_dataAt.trans (if_pos rfl)
  have hperm : (insertBy (withCopy b.heap d).bySmallestKey f st.added_files).Perm
      (f :: st.added_files) := h.insert_perm hnew
  have hall : b'.allAdded.Perm (b.allAdded ++ [f]) := by
    refine VersionList.flatMap_perm_of_eq (List.nodup_finRange _) (List.mem_finRange ⟨level, hl⟩)
      (fun lv hlv => by rw [hlevel, if_neg hlv]) ?_
    rw [hlevel, if_pos rfl]
    exact hperm.trans (List.perm_append_singleton f _).symm
  have hfmem : ∀ g, g ∈ b'.allAdded ↔ g ∈ b.allAdded ∨ g = f := by
    intro g
    rw [hall.mem_iff, List.mem_append, List.mem_singleton]
  refine ⟨b', dif_pos hl, rfl, ?_⟩
  constructor
  case same =>
    obtain ⟨file, nextFile, hsame⟩ := h.same
    refine ⟨b'.heap.file, f + 1, ?_⟩
    change withCopy b.heap d = { s with file := (withCopy b.heap d).file, nextFile := f + 1 }
    rw [hf, hsame]
    rfl
  case old =>
    intro g hg
    rw [hfile, if_neg (hg.trans_le h.le).ne]
    exact h.old g hg
  case le => exact h.le.trans (Nat.le_succ _)
  case lt =>
    intro g hg
    change g < f + 1
    rw [hfile] at hg
    split at hg
    · omega
    · have hlt := h.lt g hg
      omega
  case deleted =>
    exact h.deleted_snoc hl hlevel (by simp [hst']) fun x hx => by simp [hst', hst, hx]
  case added =>
    intro lv
    rw [addsTo_append, hlevel]
    by_cases hlv : lv = ⟨level, hl⟩
    · subst hlv
      rw [if_pos rfl, if_pos rfl, List.map_append]
      refine (hperm.map _).trans ?_
      rw [List.map_cons, List.map_congr_left (hdata _), hself]
      exact ((h.added ⟨level, hl⟩).cons _).trans (List.perm_append_singleton _ _).symm
    · rw [if_neg hlv, if_neg fun e => hlv (Fin.ext e.symm), List.append_nil,
        List.map_congr_left (hdata lv)]
      exact h.added lv
  case objects =>
    intro g
    rw [hfmem, h.objects, hfile]
    by_cases hg : g = f
    · rw [if_pos hg, hg]
      exact ⟨fun _ => ⟨h.le, rfl⟩, fun _ => .inr rfl⟩
    · rw [if_neg hg]
      simp [hg]
  case one =>
    intro g hg
    rw [hfile]
    by_cases hgf : g = f
    · rw [if_pos hgf]
      rfl
    · rw [if_neg hgf]
      exact h.one g (((hfmem g).1 hg).resolve_right hgf)
  case nodup =>
    rw [hall.nodup_iff, List.nodup_append]
    refine ⟨h.nodup, List.nodup_singleton f, fun g hg x hx => ?_⟩
    rw [List.mem_singleton.1 hx]
    exact h.ne_next hg
  case sorted =>
    intro lv
    have hkeep : InOrder b'.heap.bySmallestKey (b.levels_ lv).added_files :=
      VersionList.inOrder_congr (hdata lv) (h.sorted lv)
    rw [hlevel]
    by_cases hlv : lv = ⟨level, hl⟩
    · rw [if_pos hlv]
      rw [hlv] at hkeep
      exact insertBy_sorted (withCopy b.heap d).bySmallestKey_comparator hkeep
    · rw [if_neg hlv]
      exact hkeep

/-- The first loop of `Apply`. -/
theorem Applied.deleteFiles (h : Applied s b ops adds) {dels : List (ℕ ×ₗ ℕ)}
    (hl : ∀ it ∈ dels, (ofLex it).1 < kMaxLevel) :
    ∃ b', dels.foldlM (fun b it => b.deleteFile (ofLex it).1 (ofLex it).2) b = some b' ∧
      b'.base_ = b.base_ ∧ Applied s b' (ops ++ dels.map fun it => (ofLex it, true)) adds := by
  induction dels generalizing b ops with
  | nil => exact ⟨b, rfl, rfl, by rwa [List.map_nil, List.append_nil]⟩
  | cons it dels ih =>
    obtain ⟨b₁, hb₁, hbase₁, h₁⟩ := h.deleteFile (hl it List.mem_cons_self)
    obtain ⟨b₂, hb₂, hbase₂, h₂⟩ := ih h₁ fun x hx => hl x (List.mem_cons_of_mem _ hx)
    refine ⟨b₂, ?_, hbase₂.trans hbase₁, ?_⟩
    · rw [List.foldlM_cons, hb₁]
      exact hb₂
    · rwa [List.append_assoc] at h₂

/-- The second loop of `Apply`. -/
theorem Applied.addFiles (h : Applied s b ops adds) {files : List (ℕ × FileMetaData)}
    (hl : ∀ it ∈ files, it.1 < kMaxLevel)
    (hnew : ∀ level, ((addsTo (adds ++ files) level).map (·.number)).Nodup) :
    ∃ b', files.foldlM (fun b it => b.addFile it.1 it.2) b = some b' ∧ b'.base_ = b.base_ ∧
      Applied s b' (ops ++ files.map fun it => ((it.1, it.2.number), false)) (adds ++ files) := by
  induction files generalizing b ops adds with
  | nil => exact ⟨b, rfl, rfl, by rwa [List.map_nil, List.append_nil, List.append_nil]⟩
  | cons it files ih =>
    have hsplit : adds ++ it :: files = (adds ++ [it]) ++ files := by simp
    have hdiff : ∀ d ∈ addsTo adds it.1, d.number ≠ it.2.number := by
      intro d hd e
      have hnodup := hnew it.1
      rw [hsplit, addsTo, List.filter_append, List.map_append, List.map_append,
        List.nodup_append] at hnodup
      have hone := hnodup.1
      rw [← addsTo, addsTo_append, if_pos rfl, List.map_append, List.nodup_append] at hone
      exact hone.2.2 _ (List.mem_map_of_mem hd) _ (List.mem_singleton_self _) e
    obtain ⟨b₁, hb₁, hbase₁, h₁⟩ := h.addFile (hl it List.mem_cons_self) hdiff
    obtain ⟨b₂, hb₂, hbase₂, h₂⟩ := ih h₁ (fun x hx => hl x (List.mem_cons_of_mem _ hx))
      (hsplit ▸ hnew)
    refine ⟨b₂, ?_, hbase₂.trans hbase₁, ?_⟩
    · rw [List.foldlM_cons, hb₁]
      exact hb₂
    · rw [hsplit]
      rwa [List.append_assoc] at h₂

/-- What is assumed of the edits: the levels are in range, and the number of an added file is
new to its level. -/
structure EditsOk (edits : List (FullVersionEdit FileMetaData)) : Prop where
  deleted : ∀ edit ∈ edits, ∀ it ∈ edit.deleted_files_, (ofLex it).1 < kMaxLevel
  added : ∀ edit ∈ edits, ∀ it ∈ edit.new_files_, it.1 < kMaxLevel
  distinct : ∀ level, ((addsTo (edits.flatMap (·.new_files_)) level).map (·.number)).Nodup

theorem addsTo_append_left {adds' : List (ℕ × FileMetaData)} {level : ℕ}
    (h : ((addsTo (adds ++ adds') level).map (·.number)).Nodup) :
    ((addsTo adds level).map (·.number)).Nodup := by
  rw [addsTo, List.filter_append, List.map_append, List.map_append, List.nodup_append] at h
  exact h.1

/-- **All the edits.** -/
theorem Applied.edits (h : Applied s b ops adds) {edits : List (FullVersionEdit FileMetaData)}
    (hdel : ∀ edit ∈ edits, ∀ it ∈ edit.deleted_files_, (ofLex it).1 < kMaxLevel)
    (hadd : ∀ edit ∈ edits, ∀ it ∈ edit.new_files_, it.1 < kMaxLevel)
    (hnew : ∀ level,
      ((addsTo (adds ++ edits.flatMap (·.new_files_)) level).map (·.number)).Nodup) :
    ∃ b', edits.foldlM apply b = some b' ∧ b'.base_ = b.base_ ∧
      Applied s b' (ops ++ edits.flatMap opsOf) (adds ++ edits.flatMap (·.new_files_)) := by
  induction edits generalizing b ops adds with
  | nil => exact ⟨b, rfl, rfl, by rwa [List.flatMap_nil, List.flatMap_nil, List.append_nil,
      List.append_nil]⟩
  | cons edit edits ih =>
    have hnew' : ∀ level, ((addsTo ((adds ++ edit.new_files_) ++ edits.flatMap (·.new_files_))
        level).map (·.number)).Nodup := by
      intro level
      rw [List.append_assoc, ← List.flatMap_cons]
      exact hnew level
    have hdels : ∀ it ∈ edit.deletedFiles, (ofLex it).1 < kMaxLevel := fun it hit =>
      hdel edit List.mem_cons_self it ((Finset.mem_sort _).1 hit)
    obtain ⟨b₁, hb₁, hbase₁, h₁⟩ := h.deleteFiles hdels
    obtain ⟨b₂, hb₂, hbase₂, h₂⟩ := h₁.addFiles (hadd edit List.mem_cons_self) fun level =>
      addsTo_append_left (hnew' level)
    obtain ⟨b₃, hb₃, hbase₃, h₃⟩ := ih h₂ (fun e he => hdel e (List.mem_cons_of_mem _ he))
      (fun e he => hadd e (List.mem_cons_of_mem _ he)) hnew'
    refine ⟨b₃, ?_, (hbase₃.trans hbase₂).trans hbase₁, ?_⟩
    · rw [List.foldlM_cons, apply, hb₁, Option.bind_eq_bind, Option.bind_some, hb₂,
        Option.bind_some, hb₃]
    · rw [List.flatMap_cons, List.flatMap_cons, ← List.append_assoc adds]
      rwa [List.append_assoc ops, List.append_assoc ops] at h₃

/-- A fresh builder. -/
theorem Applied.fresh {base : ℕ} {c : VersionNode} (hc : s.version base = some c)
    (hlt : ∀ f, (s.file f).isSome → f < s.nextFile) :
    ∃ b, new s base = some b ∧ b.base_ = base ∧
      Applied (s.setVersion base { c with ref_ := c.ref_ + 1 }) b [] [] := by
  refine ⟨⟨s.setVersion base { c with ref_ := c.ref_ + 1 }, base, fun _ => ⟨∅, []⟩⟩, ?_, rfl, ?_⟩
  · rw [new, VersionList.ref, hc]
    rfl
  have hnil : ((List.finRange kMaxLevel).flatMap fun _ => ([] : List ℕ)) = [] :=
    List.flatMap_eq_nil_iff.2 fun _ _ => rfl
  have hnone : ∀ f, f ∉ (List.finRange kMaxLevel).flatMap fun _ => ([] : List ℕ) := by
    intro f hf
    rw [hnil] at hf
    cases hf
  constructor
  case same => exact ⟨_, _, rfl⟩
  case old => exact fun _ _ => rfl
  case le => exact le_rfl
  case lt => exact hlt
  case deleted => exact fun level number => by simp [Survives, lastFor]
  case added => exact fun _ => .nil
  case objects =>
    refine fun f => ⟨fun hf => (hnone f hf).elim, fun hf => ?_⟩
    exact absurd (hlt f hf.2) (Nat.not_lt.2 hf.1)
  case one => exact fun f hf => (hnone f hf).elim
  case nodup => exact hnil ▸ List.nodup_nil
  case sorted => exact fun _ => .nil

/-- **`Apply` of the edits** after the constructor. -/
theorem EditsOk.applied {base : ℕ} {c : VersionNode} {edits : List (FullVersionEdit FileMetaData)}
    (h : EditsOk edits) (hc : s.version base = some c)
    (hlt : ∀ f, (s.file f).isSome → f < s.nextFile) :
    ∃ b, ((new s base).bind fun b => edits.foldlM apply b) = some b ∧ b.base_ = base ∧
      Applied (s.setVersion base { c with ref_ := c.ref_ + 1 }) b (edits.flatMap opsOf)
        (edits.flatMap (·.new_files_)) := by
  obtain ⟨b₀, hb₀, hbase₀, h₀⟩ := Applied.fresh hc hlt
  obtain ⟨b, hb, hbase, h₁⟩ := h₀.edits h.deleted h.added h.distinct
  exact ⟨b, by rw [hb₀, Option.bind_some, hb], hbase.trans hbase₀, h₁⟩

end VersionSet.Builder

end Yangkv
