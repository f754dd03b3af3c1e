import Mathlib.Data.List.Induction
import Yangkv.Proof.VersionCounts

/-!
# The list of versions over whole runs

* `install_ok`: a compaction puts a version at the end of the ring, and its files are
  those of `Version.apply`.
* `Inv.next`: every allowed step succeeds and keeps the ring and the counts.
* `versions_counted`: so they hold after every run.
-/

namespace Yangkv

open Lib

namespace VersionList

variable {s s' : VersionList} {v : ℕ} {n : VersionNode} {vs rs : List ℕ} {apps : List (ℕ × ℕ)}

/-! ## Installing -/

theorem addFile_lt (hlt : ∀ f, (s.file f).isSome → f < s.nextFile) (o : FileObject) (f : ℕ)
    (hf : ((s.setFile s.nextFile o).file f).isSome) : f < s.nextFile + 1 := by
  change (Function.update s.file s.nextFile _ f).isSome at hf
  by_cases hne : f = s.nextFile
  · exact hne ▸ Nat.lt_succ_self _
  · rw [Function.update_of_ne hne] at hf
    exact (hlt f hf).trans (Nat.lt_succ_self _)

/-- The new objects of an edit have no references yet. -/
theorem FilesOk.addFile (h : FilesOk s vs) (d : FileMetaData) :
    FilesOk { s.setFile s.nextFile ⟨d, 0, none⟩ with nextFile := s.nextFile + 1 } vs := by
  have hother : ∀ f, f ≠ s.nextFile →
      Function.update s.file s.nextFile (some ⟨d, 0, none⟩) f = s.file f := fun f hf =>
    Function.update_of_ne hf ..
  have hlisted : ∀ w ∈ vs, s.nextFile ∉ s.filesAt w := fun w hw hmem =>
    (h.lt _ (h.isSome w hw _ hmem)).ne rfl
  constructor
  case nodup => exact h.nodup
  case isSome =>
    intro w hw f hf
    have hne : f ≠ s.nextFile := fun e => hlisted w hw (e ▸ hf)
    change (Function.update s.file s.nextFile _ f).isSome
    rw [hother f hne]
    exact h.isSome w hw f hf
  case refs =>
    intro f o ho
    change Function.update s.file s.nextFile _ f = some o at ho
    by_cases hf : f = s.nextFile
    · subst hf
      rw [Function.update_self, Option.some.injEq] at ho
      subst ho
      exact (List.countP_eq_zero.2 fun w hw hin => hlisted w hw (of_decide_eq_true hin)).symm
    · rw [hother f hf] at ho
      exact h.refs f o ho
  case lt => exact addFile_lt h.lt _
  case zeroed => exact fun f hf => ⟨(h.zeroed f hf).1.trans (Nat.lt_succ_self _), (h.zeroed f hf).2⟩

/-- What `AddFile` has made of `s` and of an empty edit. -/
structure Added (s s' : VersionList) (edit : List (ℕ × ℕ)) (files : List (ℕ × FileMetaData)) :
    Prop where
  same : ∃ file nextFile, s' = { s with file, nextFile }
  nodup : (edit.map Prod.snd).Nodup
  fresh : ∀ p ∈ edit, s.nextFile ≤ p.2 ∧ (s'.file p.2).isSome
  le : s.nextFile ≤ s'.nextFile
  old : ∀ f < s.nextFile, s'.file f = s.file f
  data : edit.map (fun p => (p.1, s'.dataAt p.2)) = files.map fun it => (it.1, some it.2)

theorem Added.next {t : VersionList} {edit : List (ℕ × ℕ)} {files : List (ℕ × FileMetaData)}
    (h : Added s t edit files) (hlt : ∀ f, (t.file f).isSome → f < t.nextFile) (level : ℕ)
    (d : FileMetaData) :
    Added s { t.setFile t.nextFile ⟨d, 0, none⟩ with nextFile := t.nextFile + 1 }
      (edit ++ [(level, t.nextFile)]) (files ++ [(level, d)]) := by
  obtain ⟨file, nextFile, rfl⟩ := h.same
  have hlt : ∀ p ∈ edit, p.2 < nextFile := fun p hp => hlt _ (h.fresh p hp).2
  have hle : s.nextFile ≤ nextFile := h.le
  refine ⟨⟨_, _, rfl⟩, ?_, fun p hp => ?_, hle.trans (Nat.le_succ _), fun f hf => ?_, ?_⟩
  · rw [List.map_append, List.nodup_append]
    refine ⟨h.nodup, List.nodup_singleton _, fun f hf g hg => ?_⟩
    obtain ⟨p, hp, rfl⟩ := List.mem_map.1 hf
    rw [List.mem_singleton.1 hg]
    exact (hlt p hp).ne
  · change s.nextFile ≤ p.2 ∧ (Function.update file nextFile _ p.2).isSome
    rcases List.mem_append.1 hp with hp | hp
    · rw [Function.update_of_ne (hlt p hp).ne]
      exact h.fresh p hp
    · rw [List.mem_singleton.1 hp, Function.update_self]
      exact ⟨hle, rfl⟩
  · change Function.update file nextFile _ f = s.file f
    rw [Function.update_of_ne (hf.trans_le hle).ne]
    exact h.old f hf
  · rw [List.map_append, List.map_append, ← h.data]
    refine congrArg₂ _ (List.map_congr_left fun p hp => ?_) ?_
    · change (p.1, (Function.update file nextFile _ p.2).map _) = _
      rw [Function.update_of_ne (hlt p hp).ne]
      rfl
    · change [(level, (Function.update file nextFile _ nextFile).map _)] = _
      rw [Function.update_self]
      rfl

theorem addFiles_added (hlt : ∀ f, (s.file f).isSome → f < s.nextFile) (edit : VersionEdit) :
    Added s (s.addFiles edit).1 (s.addFiles edit).2 edit.new_files_ ∧
      ∀ f, ((s.addFiles edit).1.file f).isSome → f < (s.addFiles edit).1.nextFile := by
  unfold addFiles
  generalize edit.new_files_ = files
  induction files using List.reverseRecOn with
  | nil =>
    exact ⟨⟨⟨_, _, rfl⟩, List.nodup_nil, fun _ hp => (List.not_mem_nil hp).elim, le_rfl,
      fun _ _ => rfl, rfl⟩, hlt⟩
  | append_singleton files it ih =>
    rw [List.foldl_append]
    exact ⟨ih.1.next ih.2 it.1 it.2, addFile_lt ih.2 _⟩

theorem addFiles_ok (h : FilesOk s vs) (edit : VersionEdit) : FilesOk (s.addFiles edit).1 vs := by
  unfold addFiles
  induction edit.new_files_ using List.reverseRecOn with
  | nil => exact h
  | append_singleton files it ih =>
    rw [List.foldl_append]
    exact ih.addFile it.2

/-- The files that `apply` gives to a version. -/
theorem pushFiles_perm (files_ : Fin kMaxLevel → List ℕ) (edit : List (ℕ × ℕ)) :
    ((List.finRange kMaxLevel).flatMap (pushFiles files_ edit)).Perm
      ((List.finRange kMaxLevel).flatMap files_ ++
        (edit.filter (·.1 = 0)).map Prod.snd) := by
  induction edit generalizing files_ with
  | nil => rw [List.filter_nil, List.map_nil, List.append_nil]; rfl
  | cons p edit ih =>
    unfold pushFiles at ih ⊢
    rw [List.foldl_cons]
    by_cases hp : p.1 = 0
    · rw [if_pos hp, List.filter_cons_of_pos (by simpa using hp), List.map_cons]
      refine (ih _).trans ?_
      have hfirst := flatMap_update_perm (List.nodup_finRange kMaxLevel) (List.mem_finRange 0)
        files_ p.2
      refine (hfirst.append_right _).trans ?_
      rw [List.append_assoc]
      rfl
    · rw [if_neg hp, List.filter_cons_of_neg (by simpa using hp)]
      exact ih files_

/-- **`new Version` and `apply`**: the new version counts as one that lists its files. -/
theorem apply_ok {c : ℕ} {edit : List (ℕ × ℕ)} (h : HeapOk s vs apps) (hc : c ∈ vs)
    (hn : s.version c = some n) (hnodup : (edit.map Prod.snd).Nodup)
    (hsome : ∀ p ∈ edit, (s.file p.2).isSome)
    (hnew : ∀ p ∈ edit, p.2 ∉ n.files ∧ p.2 ∉ s.zeroed) :
    s.newVersion.apply s.nextVersion c edit =
        some (s.withVersion { VersionNode.new with files_ := pushFiles n.files_ edit }) ∧
      HeapOk (s.withVersion { VersionNode.new with files_ := pushFiles n.files_ edit })
        (vs ++ [s.nextVersion]) apps := by
  set m : VersionNode := { VersionNode.new with files_ := pushFiles n.files_ edit } with hm
  have hcn : c ≠ s.nextVersion := (h.nodes.lt c ((h.nodes.mem c).1 hc).2).ne
  have hfiles := filesAt_eq hn
  have hperm : m.files.Perm (n.files ++ (edit.filter (·.1 = 0)).map Prod.snd) :=
    pushFiles_perm n.files_ edit
  have hin : ∀ f ∈ m.files, f ∈ n.files ∨ ∃ p ∈ edit, p.2 = f := by
    intro f hf
    rcases List.mem_append.1 (hperm.mem_iff.1 hf) with hf | hf
    · exact .inl hf
    · obtain ⟨p, hp, hpf⟩ := List.mem_map.1 hf
      exact .inr ⟨p, (List.mem_filter.1 hp).1, hpf⟩
  have hmnodup : m.files.Nodup := by
    rw [hperm.nodup_iff, List.nodup_append]
    refine ⟨hfiles ▸ h.files.nodup c hc, (List.filter_sublist.map _).nodup hnodup, ?_⟩
    intro f hf g hg e
    subst e
    obtain ⟨p, hp, rfl⟩ := List.mem_map.1 hg
    exact (hnew p (List.mem_filter.1 hp).1).1 hf
  have hmsome : ∀ f ∈ m.files, (s.file f).isSome := by
    intro f hf
    rcases hin f hf with hf | ⟨p, hp, rfl⟩
    · exact h.files.isSome c hc f (hfiles ▸ hf)
    · exact hsome p hp
  have hmzero : ∀ f ∈ s.zeroed, f ∉ m.files := by
    intro f hz hf
    rcases hin f hf with hf | ⟨p, hp, rfl⟩
    · exact (h.files.zeroed f hz).2 c hc (hfiles ▸ hf)
    · exact (hnew p hp).2 hz
  refine ⟨?_, h.withVersion hmnodup hmsome hmzero rfl⟩
  have hcur : s.newVersion.version c = some n := by
    rw [← hn]
    exact Function.update_of_ne hcn ..
  have hself : s.newVersion.version s.nextVersion = some .new := Function.update_self ..
  have hver : (s.newVersion.setVersion s.nextVersion m).version =
      Function.update s.version s.nextVersion (some m) := Function.update_idem ..
  unfold apply
  simp only [hcur, hself, Option.bind_eq_bind, Option.bind_some]
  rw [← hm, foldlM_refFile (s := s.newVersion.setVersion s.nextVersion m) hmnodup hmsome, hver]
  rfl

theorem appendVersion_eq {s₁ : VersionList} (hn : s.version v = some n) (h0 : n.ref_ = 0)
    (hne : s.current_ ≠ some v)
    (hunref : (match s.current_ with
      | some c => s.unref c
      | none => some s) = some s₁) :
    s.appendVersion v =
      (({ s₁ with current_ := some v } : VersionList).ref v).bind (·.link v) := by
  unfold appendVersion
  rw [hn, Option.bind_eq_bind, Option.bind_some, if_pos ⟨h0, hne⟩]
  cases hc : s.current_ with
  | none =>
    rw [hc] at hunref
    cases hunref
    rfl
  | some c =>
    rw [hc] at hunref
    simp only at hunref
    simp only [hunref]
    rfl

theorem install_eq {c : ℕ} {s₁ s₂ : VersionList} {edit : VersionEdit} {e : List (ℕ × ℕ)}
    (hadd : s.addFiles edit = (s₁, e)) (hc : s₁.current_ = some c)
    (happly : s₁.newVersion.apply s₁.nextVersion c e = some s₂) :
    s.install edit = s₂.appendVersion s₁.nextVersion := by
  unfold install
  simp only [hadd, hc, Option.bind_eq_bind, Option.bind_some, happly]

/-- `apply` on the addresses and on what the objects say. -/
theorem filterMap_pushFiles {data : ℕ → Option FileMetaData} {edit : List (ℕ × ℕ)}
    {files : List (ℕ × FileMetaData)}
    (h : edit.map (fun p => (p.1, data p.2)) = files.map fun it => (it.1, some it.2))
    (files_ : Fin kMaxLevel → List ℕ) :
    (fun lv => (pushFiles files_ edit lv).filterMap data) =
      ((Version.new : Version SkipList).apply
        ⟨fun _ => [], 0, fun lv => (files_ lv).filterMap data⟩ ⟨files⟩).files_ := by
  induction edit generalizing files files_ with
  | nil =>
    obtain rfl : files = [] := List.map_eq_nil_iff.1 h.symm
    rfl
  | cons p edit ih =>
    obtain ⟨it, files, rfl⟩ : ∃ it rest, files = it :: rest :=
      List.exists_cons_of_ne_nil fun e => by rw [e] at h; cases h
    simp only [List.map_cons, List.cons.injEq, Prod.mk.injEq] at h
    obtain ⟨⟨hlevel, hdata⟩, h⟩ := h
    have hpush : pushFiles files_ (p :: edit) = pushFiles
        (if p.1 = 0 then Function.update files_ 0 (files_ 0 ++ [p.2]) else files_) edit := rfl
    rw [hpush, ih h]
    unfold Version.apply
    simp only [List.foldl_cons, hlevel]
    congr 1
    funext lv
    by_cases h0 : it.1 = 0
    · simp only [if_pos h0, Function.update_apply]
      by_cases hlv : lv = 0
      · simp only [if_pos hlv, List.filterMap_append, List.filterMap_cons, hdata, List.filterMap_nil]
      · simp only [if_neg hlv]
    · simp only [if_neg h0]

theorem dataAt_withVersion (s : VersionList) (m : VersionNode) :
    (s.withVersion m).dataAt = s.dataAt :=
  dataAt_map (φ := fun o => { o with refs := o.refs + 1 }) (fun _ => rfl) rfl

/-- The files of a version, by what their objects say. -/
def filesView (s : VersionList) (v : ℕ) : Fin kMaxLevel → List FileMetaData := fun lv =>
  ((s.version v).elim [] fun n => n.files_ lv).filterMap s.dataAt

/-- **`install`**: the version that was current loses a reference, and the new one is at the end of
the ring. Its files are those that `Version.apply` gives. -/
theorem install_ok {c : ℕ} (h : HeapOk s vs apps)
    (hring : IsRing s.next_ s.prev_ dummy_versions_ vs) (hc : s.current_ = some c) (hcv : c ∈ vs)
    (hn : s.version c = some n) (hpos : 1 ≤ n.ref_) (edit : VersionEdit) :
    ∃ s' m, s.install edit = some s' ∧
      HeapOk s' (afterUnref vs c n.ref_ ++ [s.nextVersion]) apps ∧
      IsRing s'.next_ s'.prev_ dummy_versions_ (afterUnref vs c n.ref_ ++ [s.nextVersion]) ∧
      s'.version = Function.update (Function.update s.version c
          (if n.ref_ = 1 then none else some { n with ref_ := n.ref_ - 1 })) s.nextVersion (some m) ∧
      m.ref_ = 1 ∧ s'.current_ = some s.nextVersion ∧ s'.nextVersion = s.nextVersion + 1 ∧
      s'.filesView s.nextVersion =
        ((Version.new : Version SkipList).apply ⟨fun _ => [], 0, s.filesView c⟩ edit).files_ := by
  set v := s.nextVersion with hv
  have hlt : ∀ w ∈ vs, w ≠ v := fun w hw => (h.nodes.lt w ((h.nodes.mem w).1 hw).2).ne
  -- `AddFile`
  have hfiles := addFiles_ok h.files edit
  obtain ⟨hadded, -⟩ := addFiles_added h.files.lt edit
  generalize hadd : s.addFiles edit = r at hfiles hadded
  obtain ⟨s₁, e⟩ := r
  dsimp only at hfiles hadded
  obtain ⟨file, nextFile, rfl⟩ := hadded.same
  have h₁ : HeapOk { s with file, nextFile } vs apps :=
    ⟨h.nodes.congr (fun _ => rfl) rfl, hfiles, h.lists.congr (fun _ _ => rfl) rfl rfl rfl rfl⟩
  have hfresh : ∀ p ∈ e, p.2 ∉ n.files ∧ p.2 ∉ s.zeroed := by
    intro p hp
    obtain ⟨hge, -⟩ := hadded.fresh p hp
    refine ⟨fun hin => ?_, fun hin => ?_⟩
    · have hold := h.files.lt _ (h.files.isSome c hcv p.2 (filesAt_eq hn ▸ hin))
      omega
    · have hold := (h.files.zeroed p.2 hin).1
      omega
  -- `new Version` and `apply`
  obtain ⟨happly, h₂⟩ := apply_ok h₁ hcv hn hadded.nodup (fun p hp => (hadded.fresh p hp).2) hfresh
  set m : VersionNode := { VersionNode.new with files_ := pushFiles n.files_ e } with hm
  set s₂ := ({ s with file, nextFile } : VersionList).withVersion m with hs₂
  have hn₂ : s₂.version c = some n := by
    rw [← hn]
    exact Function.update_of_ne (hlt c hcv) ..
  have hm₂ : s₂.version v = some m := Function.update_self ..
  -- the reference of `current_` to the old version
  have hring₂ : IsRing s₂.next_ s₂.prev_ dummy_versions_ vs := hring
  obtain ⟨s₃, hunref, h₃, hring₃, hver₃, -, hnext₃, hdata₃⟩ := unref_ok h₂ hring₂
    (fun r hr => List.mem_append_left _ hr) hcv hn₂ hpos
  have hafter : afterUnref (vs ++ [v]) c n.ref_ = afterUnref vs c n.ref_ ++ [v] := by
    unfold afterUnref
    split
    · exact List.erase_append_left _ hcv
    · rfl
  have hm₃ : s₃.version v = some m := by
    rw [hver₃, Function.update_of_ne (hlt c hcv).symm]
    exact hm₂
  -- the new version
  obtain ⟨s₄, hattach, h₄, hring₄, hver₄, hcur₄, hnext₄, hdata₄⟩ := attach_ok (hafter ▸ h₃) hring₃ hm₃
  have hne : s₂.current_ ≠ some v := fun e => hlt c hcv (Option.some.inj (hc.symm.trans e))
  have heq : s.install edit = some s₄ := by
    refine (install_eq hadd hc happly).trans ((appendVersion_eq hm₂ rfl hne ?_).trans hattach)
    rw [show s₂.current_ = some c from hc]
    exact hunref
  refine ⟨s₄, { m with ref_ := m.ref_ + 1 }, heq, h₄, hring₄, ?_, rfl, hcur₄,
    by rw [hnext₄, hnext₃]; rfl, ?_⟩
  · rw [hver₄, hver₃]
    change Function.update (Function.update (Function.update s.version v (some m)) c _) v _ = _
    rw [Function.update_comm (hlt c hcv), Function.update_idem,
      Function.update_comm (hlt c hcv).symm]
  · have hdata : s₄.dataAt = ({ s with file, nextFile } : VersionList).dataAt := by
      rw [hdata₄, hdata₃, hs₂, dataAt_withVersion]
    have hnew : s₄.version v = some { m with ref_ := m.ref_ + 1 } := by
      rw [hver₄, Function.update_self]
    have hold : s.filesView c = fun lv => (n.files_ lv).filterMap s₄.dataAt := by
      funext lv
      unfold filesView
      rw [hn]
      refine List.filterMap_congr fun f hf => ?_
      -- an object that was there before `AddFile`
      have hin : f ∈ s.filesAt c := by
        rw [filesAt_eq hn]
        exact List.mem_flatMap.2 ⟨lv, List.mem_finRange lv, hf⟩
      rw [hdata]
      exact (congrArg (Option.map _) (hadded.old f (h.files.lt f (h.files.isSome c hcv f hin)))).symm
    unfold filesView at hold ⊢
    rw [hnew, hold]
    exact filterMap_pushFiles (hdata ▸ hadded.data) n.files_

/-! ## Runs -/

/-- The versions that have been installed, the first of them by the constructor. -/
def installed (h : List Event) : List ℕ :=
  1 :: h.filterMap fun
    | .installed v => some v
    | _ => none

/-- The lists that have been appended, each with its version. -/
def appended (h : List Event) : List (ℕ × ℕ) :=
  h.filterMap fun
    | .appended id v => some (id, v)
    | _ => none

/-- What holds after a run, with the versions `vs` in the ring. -/
structure Inv (h : List Event) (s : Holders) (vs : List ℕ) : Prop where
  heap : HeapOk s.set vs (appended h)
  ring : IsRing s.set.next_ s.set.prev_ dummy_versions_ vs
  order : vs.Sublist (installed h)
  installed_lt : ∀ v ∈ installed h, v < s.set.nextVersion
  installed_nodup : (installed h).Nodup
  current : ∃ init c, vs = init ++ [c] ∧ s.set.current_ = some c
  ref_ : ∀ v n, v ∈ vs → s.set.version v = some n →
    n.ref_ = s.held v + if s.set.current_ = some v then 1 else 0
  pos : ∀ v n, v ∈ vs → s.set.version v = some n → 1 ≤ n.ref_
  held : ∀ v, v ∉ vs → s.held v = 0

/-- The constructor succeeds, and its version is the current one. -/
theorem create_ok : ∃ s, create = some s ∧ Inv [] ⟨s, fun _ => 0⟩ [1] := by
  have hver : ∀ v, v ≠ dummy_versions_ → initial.version v = none := by
    intro v hv
    change Function.update (fun _ => none) dummy_versions_ _ v = none
    rw [Function.update_of_ne hv]
  have hring : IsRing initial.next_ initial.prev_ dummy_versions_ [] := .nil rfl rfl
  have hnodes : NodesOk initial [] := by
    refine ⟨List.nodup_nil, fun v => ?_, rfl, fun v hv => ?_⟩
    · refine ⟨fun hv => (List.not_mem_nil hv).elim, fun ⟨hv, hsome⟩ => ?_⟩
      rw [hver v hv] at hsome
      cases hsome
    · by_contra hlt
      have hv0 : v ≠ dummy_versions_ := fun e => hlt (e ▸ Nat.zero_lt_one)
      rw [hver v hv0] at hv
      cases hv
  have hfiles : FilesOk initial [] := by
    refine ⟨by simp, by simp, fun _ _ h => ?_, fun _ h => ?_, fun _ h => ?_⟩ <;> cases h
  have hlists : ListsOk initial [] [] := by
    refine ⟨List.nodup_nil, by simp, by simp, by simp, by simp, List.nodup_nil, fun id => ?_⟩
    simp [initial]
  have hheap : HeapOk initial.newVersion ([] ++ [1]) [] := by
    rw [newVersion_eq]
    exact (HeapOk.mk hnodes hfiles hlists).withVersion List.nodup_nil (fun _ h => by cases h)
      (fun _ h => by cases h) rfl
  have hn : initial.newVersion.version 1 = some .new := rfl
  obtain ⟨s', heq, hheap', hring', hver', hcur, hnext, -⟩ := attach_ok hheap hring hn
  refine ⟨s', ?_, hheap', hring', List.Sublist.refl _, ?_, ?_, ⟨[], 1, rfl, hcur⟩, ?_, ?_, ?_⟩
  · have hnull : initial.newVersion.current_ = none := rfl
    exact (appendVersion_eq hn rfl (fun e => by rw [hnull] at e; cases e) rfl).trans heq
  · intro v hv
    rw [hnext, List.mem_singleton.1 hv]
    exact Nat.one_lt_two
  · exact List.nodup_singleton 1
  · intro v n hv hvn
    rw [List.mem_singleton.1 hv, hver', Function.update_self, Option.some.injEq] at hvn
    rw [← hvn, List.mem_singleton.1 hv, if_pos hcur]
    rfl
  · intro v n hv hvn
    rw [List.mem_singleton.1 hv, hver', Function.update_self, Option.some.injEq] at hvn
    rw [← hvn]
    exact Nat.succ_pos _
  · exact fun _ _ => rfl

section

variable {h : List Event} {s : Holders}

theorem Inv.node (hi : Inv h s vs) (hv : v ∈ vs) : ∃ n, s.set.version v = some n :=
  Option.isSome_iff_exists.1 ((hi.heap.nodes.mem v).1 hv).2

theorem Inv.ref (hi : Inv h s vs) (hv : v ∈ vs) : ∃ set, s.set.ref v = some set ∧
    Inv h ⟨set, Function.update s.held v (s.held v + 1)⟩ vs := by
  obtain ⟨n, hn⟩ := hi.node hv
  refine ⟨s.set.setVersion v { n with ref_ := n.ref_ + 1 }, ?_, ?_⟩
  · unfold VersionList.ref
    rw [hn, Option.map_some]
  have hver : ∀ w, (s.set.setVersion v { n with ref_ := n.ref_ + 1 }).version w =
      if w = v then some { n with ref_ := n.ref_ + 1 } else s.set.version w := fun w =>
    Function.update_apply ..
  constructor
  case heap => exact hi.heap.setRef hn _
  case ring => exact hi.ring
  case order => exact hi.order
  case installed_lt => exact hi.installed_lt
  case installed_nodup => exact hi.installed_nodup
  case current => exact hi.current
  case ref_ =>
    intro w m hw hm
    simp only [hver] at hm
    by_cases hwv : w = v
    · subst hwv
      rw [if_pos rfl, Option.some.injEq] at hm
      have href := hi.ref_ w n hw hn
      simp only [← hm, Function.update_self]
      change n.ref_ + 1 = s.held w + 1 + if s.set.current_ = some w then 1 else 0
      omega
    · rw [if_neg hwv] at hm
      simp only [Function.update_of_ne hwv]
      exact hi.ref_ w m hw hm
  case pos =>
    intro w m hw hm
    simp only [hver] at hm
    split at hm
    · cases hm
      exact Nat.succ_pos _
    · exact hi.pos w m hw hm
  case held =>
    intro w hw
    have hwv : w ≠ v := fun e => hw (e ▸ hv)
    simp only [Function.update_of_ne hwv]
    exact hi.held w hw

/-- The version whose reference a holder gives back is not the last one, or does not die. -/
theorem Inv.unref (hi : Inv h s vs) (hheld : 1 ≤ s.held v) : ∃ set vs', s.set.unref v = some set ∧
    Inv h ⟨set, Function.update s.held v (s.held v - 1)⟩ vs' := by
  have hv : v ∈ vs := by
    by_contra hv
    have h0 := hi.held v hv
    omega
  obtain ⟨n, hn⟩ := hi.node hv
  have href := hi.ref_ v n hv hn
  obtain ⟨set, heq, hheap, hring, hver, hcur, hnext, -⟩ :=
    unref_ok hi.heap hi.ring (fun _ hr => hr) hv hn (hi.pos v n hv hn)
  have hmem : ∀ w ∈ afterUnref vs v n.ref_, w ∈ vs ∧ (w = v → n.ref_ ≠ 1) :=
    fun w hw => (mem_afterUnref hi.heap.nodes.nodup).1 hw
  refine ⟨set, _, heq, hheap, hring, ?_, ?_, hi.installed_nodup, ?_, fun w m hw hm => ?_,
    fun w m hw hm => ?_, fun w hw => ?_⟩
  · exact (afterUnref_sublist vs v n.ref_).trans hi.order
  · rw [hnext]
    exact hi.installed_lt
  · obtain ⟨init, c, rfl, hc⟩ := hi.current
    unfold afterUnref
    rw [hcur]
    split
    · rename_i hone
      -- the reference of `current_` is not one that is held
      have hvc : v ≠ c := by
        intro e
        rw [hc, if_pos (e ▸ rfl)] at href
        omega
      have hin : v ∈ init := by
        rcases List.mem_append.1 hv with hin | hin
        · exact hin
        · exact (hvc (List.mem_singleton.1 hin)).elim
      exact ⟨init.erase v, c, List.erase_append_left _ hin, hc⟩
    · exact ⟨init, c, rfl, hc⟩
  · obtain ⟨hin, hone⟩ := hmem w hw
    simp only [hver, Function.update_apply] at hm
    simp only [Function.update_apply, hcur]
    split at hm
    · rename_i hwv
      subst hwv
      rw [if_neg (hone rfl), Option.some.injEq] at hm
      rw [if_pos rfl, ← hm]
      change n.ref_ - 1 = _
      omega
    · rename_i hwv
      rw [if_neg hwv]
      exact hi.ref_ w m hin hm
  · obtain ⟨hin, hone⟩ := hmem w hw
    simp only [hver, Function.update_apply] at hm
    split at hm
    · rename_i hwv
      subst hwv
      have hpos := hi.pos w n hin hn
      rw [if_neg (hone rfl), Option.some.injEq] at hm
      rw [← hm]
      change 1 ≤ n.ref_ - 1
      have hne := hone rfl
      omega
    · exact hi.pos w m hin hm
  · rw [mem_afterUnref hi.heap.nodes.nodup] at hw
    simp only [Function.update_apply]
    split
    · rename_i hwv
      subst hwv
      have hone : n.ref_ = 1 := by
        by_contra hone
        exact hw ⟨hv, fun _ => hone⟩
      omega
    · rename_i hwv
      exact hi.held w fun hin => hw ⟨hin, fun e => (hwv e).elim⟩

theorem installed_append_installed : installed (h ++ [.installed v]) = installed h ++ [v] := by
  simp [installed]

theorem appended_append_appended {id : ℕ} :
    appended (h ++ [.appended id v]) = appended h ++ [(id, v)] := by
  simp [appended]

theorem Inv.append (hi : Inv h s vs) (list : SkipList) (idx : Fin kMaxWriter) : ∃ set c,
    s.set.current_ = some c ∧ s.set.appendList c list idx = some set ∧
      Inv (h ++ [.appended s.set.nextList c]) ⟨set, s.held⟩ vs := by
  obtain ⟨init, c, hvs, hc⟩ := hi.current
  have hv : c ∈ vs := hvs ▸ List.mem_append_right _ (List.mem_singleton_self c)
  obtain ⟨n, hn⟩ := hi.node hv
  obtain ⟨set, m, heq, hheap, hver, href, hnext, hprev, hcur, hnv⟩ :=
    appendList_ok hi.heap hv hn list idx
  have hinst : installed (h ++ [.appended s.set.nextList c]) = installed h := by simp [installed]
  -- the node has the same count as before
  have hold : ∀ w x, set.version w = some x → ∃ y, s.set.version w = some y ∧ x.ref_ = y.ref_ := by
    intro w x hx
    rw [hver, Function.update_apply] at hx
    split at hx
    · rename_i hwc
      cases hx
      exact ⟨n, hwc ▸ hn, href⟩
    · exact ⟨x, hx, rfl⟩
  refine ⟨set, c, hc, heq, ?_⟩
  constructor
  case heap => rw [appended_append_appended]; exact hheap
  case ring => rw [hnext, hprev]; exact hi.ring
  case order => rw [hinst]; exact hi.order
  case installed_lt => rw [hinst, hnv]; exact hi.installed_lt
  case installed_nodup => rw [hinst]; exact hi.installed_nodup
  case current => exact ⟨init, c, hvs, hcur.trans hc⟩
  case ref_ =>
    intro w x hw hx
    obtain ⟨y, hy, hxy⟩ := hold w x hx
    rw [hxy, hcur]
    exact hi.ref_ w y hw hy
  case pos =>
    intro w x hw hx
    obtain ⟨y, hy, hxy⟩ := hold w x hx
    rw [hxy]
    exact hi.pos w y hw hy
  case held => exact hi.held

theorem Inv.install (hi : Inv h s vs) (edit : VersionEdit) : ∃ set vs',
    s.set.install edit = some set ∧
      Inv (h ++ [.installed s.set.nextVersion]) ⟨set, s.held⟩ vs' := by
  obtain ⟨init, c, hvs, hc⟩ := hi.current
  have hcv : c ∈ vs := hvs ▸ List.mem_append_right _ (List.mem_singleton_self c)
  obtain ⟨n, hn⟩ := hi.node hcv
  have href := hi.ref_ c n hcv hn
  rw [if_pos hc] at href
  obtain ⟨set, m, heq, hheap, hring, hver, hone, hcur, hnext, -⟩ :=
    install_ok hi.heap hi.ring hc hcv hn (hi.pos c n hcv hn) edit
  set v := s.set.nextVersion with hv
  have hlt : ∀ w ∈ vs, w ≠ v := fun w hw => (hi.heap.nodes.lt w ((hi.heap.nodes.mem w).1 hw).2).ne
  have hinst : installed (h ++ [.installed v]) = installed h ++ [v] := installed_append_installed
  have happ : appended (h ++ [.installed v]) = appended h := by simp [appended]
  have hnode : ∀ w x, w ∈ afterUnref vs c n.ref_ ++ [v] → set.version w = some x →
      x.ref_ = s.held w + (if some v = some w then 1 else 0) ∧ 1 ≤ x.ref_ := by
    intro w x hw hx
    rw [hver, Function.update_apply] at hx
    split at hx
    · -- the new version, which nobody holds
      rename_i hwv
      have h0 : s.held w = 0 := hi.held w fun hin => hlt w hin hwv
      cases hx
      rw [if_pos (congrArg some hwv.symm), h0, hone]
      exact ⟨rfl, le_rfl⟩
    · rename_i hwv
      obtain ⟨hin, hdead⟩ := (mem_afterUnref hi.heap.nodes.nodup).1
        (show w ∈ afterUnref vs c n.ref_ by simpa [hwv] using hw)
      rw [if_neg fun e => hwv (Option.some.inj e).symm]
      rw [Function.update_apply] at hx
      split at hx
      · -- the old one, when it is held
        rename_i hwc
        subst hwc
        have hne := hdead rfl
        rw [if_neg hne, Option.some.injEq] at hx
        rw [← hx]
        dsimp only
        omega
      · rename_i hwc
        have hold := hi.ref_ w x hin hx
        rw [hc, if_neg fun e => hwc (Option.some.inj e).symm] at hold
        exact ⟨hold, hi.pos w x hin hx⟩
  refine ⟨set, afterUnref vs c n.ref_ ++ [v], heq, ?_⟩
  constructor
  case heap => rw [happ]; exact hheap
  case ring => exact hring
  case order =>
    rw [hinst]
    exact ((afterUnref_sublist vs c n.ref_).trans hi.order).append (List.Sublist.refl _)
  case installed_lt =>
    intro w hw
    rw [hinst] at hw
    rw [hnext]
    rcases List.mem_append.1 hw with hw | hw
    · exact (hi.installed_lt w hw).trans (Nat.lt_succ_self _)
    · rw [List.mem_singleton.1 hw]
      exact Nat.lt_succ_self _
  case installed_nodup =>
    rw [hinst, List.nodup_append]
    refine ⟨hi.installed_nodup, List.nodup_singleton v, fun w hw x hx => ?_⟩
    rw [List.mem_singleton.1 hx]
    exact (hi.installed_lt w hw).ne
  case current => exact ⟨_, v, rfl, hcur⟩
  case ref_ =>
    intro w x hw hx
    simp only [hcur]
    exact (hnode w x hw hx).1
  case pos => exact fun w x hw hx => (hnode w x hw hx).2
  case held =>
    intro w hw
    have hout : ¬ (w ∈ vs ∧ (w = c → n.ref_ ≠ 1)) := fun hin =>
      hw (List.mem_append_left _ ((mem_afterUnref hi.heap.nodes.nodup).2 hin))
    change s.held w = 0
    by_cases hwc : w = c
    · -- the old version has died, so that it was not held
      subst hwc
      have hdead : n.ref_ = 1 := by
        by_contra hdead
        exact hout ⟨hcv, fun _ => hdead⟩
      omega
    · exact hi.held w fun hin => hout ⟨hin, fun e => (hwc e).elim⟩

/-- **Every step** that is allowed succeeds and keeps the counts. -/
theorem Inv.next {l : Label} (hi : Inv h s vs) (hl : Allowed s l) : ∃ s' vs',
    machine.step s l = some s' ∧ Inv (h ++ (machine.event s l).toList) s' vs' := by
  cases l with
  | install edit =>
    obtain ⟨set, vs', heq, hi'⟩ := hi.install edit
    refine ⟨_, vs', ?_, hi'⟩
    change (s.set.install edit).map _ = _
    rw [heq]
    rfl
  | append list idx =>
    obtain ⟨set, c, hc, heq, hi'⟩ := hi.append list idx
    have hev : machine.event s (.append list idx) = some (.appended s.set.nextList c) := by
      change s.set.current_.map _ = _
      rw [hc]
      rfl
    refine ⟨⟨set, s.held⟩, vs, ?_, by rw [hev]; exact hi'⟩
    change (s.set.current_.bind fun c => (s.set.appendList c list idx).bind _) = _
    rw [hc, Option.bind_some, heq]
    rfl
  | ref v =>
    have hv : v ∈ vs := by
      obtain ⟨hne, n, hn, -⟩ : s.set.Live v := hl
      exact (hi.heap.nodes.mem v).2 ⟨hne, by rw [hn]; rfl⟩
    obtain ⟨set, heq, hi'⟩ := hi.ref hv
    refine ⟨_, vs, ?_, by simpa [machine, Holders.event] using hi'⟩
    change (s.set.ref v).map _ = _
    rw [heq]
    rfl
  | unref v =>
    obtain ⟨set, vs', heq, hi'⟩ := hi.unref hl
    refine ⟨_, vs', ?_, by simpa [machine, Holders.event] using hi'⟩
    change (s.set.unref v).map _ = _
    rw [heq]
    rfl

/-- The ring of versions and the three kinds of counts. -/
structure Counted (h : List Event) (s : VersionList) (vs : List ℕ) : Prop where
  /-- the ring, linked both ways -/
  ring : IsRing s.next_ s.prev_ dummy_versions_ vs
  /-- its versions are those with a reference -/
  live : ∀ v, v ∈ vs ↔ s.Live v
  /-- in the order in which they were installed, `current_` last -/
  order : vs.Sublist (installed h) ∧ (installed h).Nodup
  current : ∃ c, s.current_ = some c ∧ vs.getLast? = some c
  refs : ∀ f o, s.file f = some o → o.refs = vs.countP (f ∈ s.filesAt ·)
  /-- the `refs` of a file that one of them lists have not been 0 since it was listed first -/
  listed : ∀ v ∈ vs, ∀ f ∈ s.filesAt v, (∃ o, s.file f = some o ∧ 0 < o.refs) ∧ f ∉ s.zeroed
  /-- a list has been released exactly if the version it was appended to has died, and once -/
  released : ∀ id v, (id, v) ∈ appended h → (id ∈ s.deleted ↔ v ∉ vs)
  once : s.deleted.Nodup

theorem Inv.counted (hi : Inv h s vs) : Counted h s.set vs := by
  constructor
  case ring => exact hi.ring
  case live =>
    intro v
    constructor
    · intro hv
      obtain ⟨n, hn⟩ := hi.node hv
      exact ⟨((hi.heap.nodes.mem v).1 hv).1, n, hn, hi.pos v n hv hn⟩
    · rintro ⟨hne, n, hn, -⟩
      exact (hi.heap.nodes.mem v).2 ⟨hne, by rw [hn]; rfl⟩
  case order => exact ⟨hi.order, hi.installed_nodup⟩
  case current =>
    obtain ⟨init, c, rfl, hc⟩ := hi.current
    exact ⟨c, hc, List.getLast?_concat⟩
  case refs => exact hi.heap.files.refs
  case listed =>
    intro v hv f hf
    obtain ⟨o, ho⟩ := Option.isSome_iff_exists.1 (hi.heap.files.isSome v hv f hf)
    refine ⟨⟨o, ho, ?_⟩, fun hz => (hi.heap.files.zeroed f hz).2 v hv hf⟩
    rw [hi.heap.files.refs f o ho]
    exact List.countP_pos_iff.2 ⟨v, hv, decide_eq_true hf⟩
  case released =>
    intro id v hid
    rw [hi.heap.lists.deleted]
    constructor
    · rintro ⟨w, hw, hdead⟩
      exact hi.heap.lists.unique hw hid ▸ hdead
    · exact fun hdead => ⟨v, hid, hdead⟩
  case once => exact hi.heap.lists.deleted_nodup

end

/-- **The ring and the counts after every run.** The constructor succeeds, and from there no step of
a compaction, of an `AppendList` or of one who holds a version fails. -/
theorem versions_counted : ∃ s₀, create = some s₀ ∧ ∀ h s,
    machine.Exec Allowed ⟨s₀, fun _ => 0⟩ h s →
      (∃ vs, Counted h s.set vs) ∧ ∀ l, Allowed s l → (machine.step s l).isSome := by
  obtain ⟨s₀, hcreate, h0⟩ := create_ok
  refine ⟨s₀, hcreate, fun h s hx => ?_⟩
  obtain ⟨vs, hi⟩ : ∃ vs, Inv h s vs := by
    refine hx.induct (I := fun h s => ∃ vs, Inv h s vs) ⟨_, h0⟩ fun h s l s' ⟨vs, hi⟩ hl hs => ?_
    obtain ⟨s'', vs', hs'', hi'⟩ := hi.next hl
    rw [hs, Option.some.injEq] at hs''
    subst hs''
    exact ⟨vs', hi'⟩
  refine ⟨⟨vs, hi.counted⟩, fun l hl => ?_⟩
  obtain ⟨s', -, hs', -⟩ := hi.next hl
  rw [hs']
  rfl

/-- A version that is held while the next one is installed. -/
theorem versions_counted_held : ∃ s₀ h s, create = some s₀ ∧
    machine.Exec Allowed ⟨s₀, fun _ => 0⟩ h s ∧ h = [.installed 2] ∧ ∃ vs, Counted h s.set vs := by
  obtain ⟨s₀, hcreate, hall⟩ := versions_counted
  have hlive : Allowed ⟨s₀, fun _ => 0⟩ (.ref 1) := by
    cases hcreate
    exact ⟨by decide, _, rfl, le_rfl⟩
  obtain ⟨s₁, h₁⟩ := Option.isSome_iff_exists.1 ((hall [] _ .start).2 (.ref 1) hlive)
  have hx₁ := Machine.Exec.next .start hlive h₁
  have hinstall : Allowed s₁ (.install ⟨[]⟩) := trivial
  obtain ⟨s₂, h₂⟩ := Option.isSome_iff_exists.1 ((hall _ s₁ hx₁).2 _ hinstall)
  have hx₂ := hx₁.next hinstall h₂
  have hnext : s₁.set.nextVersion = 2 := by
    cases hcreate
    cases h₁
    rfl
  refine ⟨s₀, _, s₂, hcreate, hx₂, ?_, (hall _ s₂ hx₂).1⟩
  change [] ++ [] ++ [Event.installed s₁.set.nextVersion] = _
  rw [hnext]
  rfl

end VersionList

end Yangkv
