import Mathlib.Data.List.Count
import Yangkv.Lib.Assertion
import Yangkv.Lib.LinkedRing
import Yangkv.Spec.VersionList

/-!
# The counts of versions, lists and files

What the calls on the list of versions do to the objects. `vs` are the versions that
have not been deleted, in the ring or about to be put there.

* `FilesOk`: the `refs` of a file is the number of versions that list it.
* `ListsOk`: a list has its one reference while the version it was appended to is there.
* `unref_ok`: `Unref`, which deletes the version with its last reference.
* `HeapOk.withVersion`, `attach_ok`: a new version, first outside the ring and then at
  its end.
* `appendList_ok`: a new list.
-/

namespace Yangkv

open Lib

namespace VersionList

variable {s s' : VersionList} {v : ℕ} {n : VersionNode} {vs rs : List ℕ} {apps : List (ℕ × ℕ)}

/-- The files that a version lists, none if it has been deleted. -/
def filesAt (s : VersionList) (v : ℕ) : List ℕ := (s.version v).elim [] VersionNode.files

def listsAt (s : VersionList) (v : ℕ) : List ℕ := (s.version v).elim [] VersionNode.lists

theorem filesAt_congr (h : s'.version v = s.version v) : s'.filesAt v = s.filesAt v := by
  unfold filesAt
  rw [h]

theorem listsAt_congr (h : s'.version v = s.version v) : s'.listsAt v = s.listsAt v := by
  unfold listsAt
  rw [h]

theorem filesAt_eq (h : s.version v = some n) : s.filesAt v = n.files := by
  unfold filesAt
  rw [h]
  rfl

theorem listsAt_eq (h : s.version v = some n) : s.listsAt v = n.lists := by
  unfold listsAt
  rw [h]
  rfl

theorem setVersion_version {w : ℕ} :
    (s.setVersion v n).version w = if w = v then some n else s.version w := Function.update_apply ..

theorem setVersion_filesAt {w : ℕ} :
    (s.setVersion v n).filesAt w = if w = v then n.files else s.filesAt w := by
  unfold filesAt
  rw [setVersion_version]
  split
  · rfl
  · rfl

theorem setVersion_listsAt {w : ℕ} :
    (s.setVersion v n).listsAt w = if w = v then n.lists else s.listsAt w := by
  unfold listsAt
  rw [setVersion_version]
  split
  · rfl
  · rfl

theorem setVersion_isSome {w : ℕ} (hv : (s.version v).isSome) :
    ((s.setVersion v n).version w).isSome = (s.version w).isSome := by
  rw [setVersion_version]
  split
  · rename_i hw
    rw [hw, hv]
    rfl
  · rfl

/-- The versions `vs` and the dummy are those that have not been deleted. -/
structure NodesOk (s : VersionList) (vs : List ℕ) : Prop where
  nodup : vs.Nodup
  mem : ∀ v, v ∈ vs ↔ v ≠ dummy_versions_ ∧ (s.version v).isSome
  dummy : (s.version dummy_versions_).isSome
  lt : ∀ v, (s.version v).isSome → v < s.nextVersion

/-- The counts of the files that the versions `vs` list. -/
structure FilesOk (s : VersionList) (vs : List ℕ) : Prop where
  nodup : ∀ v ∈ vs, (s.filesAt v).Nodup
  isSome : ∀ v ∈ vs, ∀ f ∈ s.filesAt v, (s.file f).isSome
  refs : ∀ f o, s.file f = some o → o.refs = vs.countP (f ∈ s.filesAt ·)
  lt : ∀ f, (s.file f).isSome → f < s.nextFile
  zeroed : ∀ f ∈ s.zeroed, f < s.nextFile ∧ ∀ v ∈ vs, f ∉ s.filesAt v

/-- The lists in `apps`, each with the version it was appended to. -/
structure ListsOk (s : VersionList) (vs : List ℕ) (apps : List (ℕ × ℕ)) : Prop where
  apps_nodup : (apps.map Prod.fst).Nodup
  apps_lt : ∀ id v, (id, v) ∈ apps → id < s.nextList ∧ v < s.nextVersion
  nodup : ∀ v ∈ vs, (s.listsAt v).Nodup
  mem : ∀ v ∈ vs, ∀ id, id ∈ s.listsAt v ↔ (id, v) ∈ apps
  /-- a list that has not been released has its one reference -/
  one : ∀ v ∈ vs, ∀ id ∈ s.listsAt v, ∃ l, s.list id = some ⟨l, 1⟩
  deleted_nodup : s.deleted.Nodup
  deleted : ∀ id, id ∈ s.deleted ↔ ∃ v, (id, v) ∈ apps ∧ v ∉ vs

/-! ## Frames -/

theorem NodesOk.isSome (h : NodesOk s vs) (hrs : ∀ v ∈ rs, v ∈ vs) :
    ∀ v ∈ dummy_versions_ :: rs, (s.version v).isSome := by
  intro v hv
  rcases List.mem_cons.1 hv with rfl | hv
  · exact h.dummy
  · exact ((h.mem v).1 (hrs v hv)).2

theorem NodesOk.congr (h : NodesOk s vs) (hv : ∀ v, (s'.version v).isSome = (s.version v).isSome)
    (hn : s'.nextVersion = s.nextVersion) : NodesOk s' vs := by
  refine ⟨h.nodup, fun v => ?_, ?_, fun v hsome => ?_⟩
  · rw [hv]
    exact h.mem v
  · rw [hv]
    exact h.dummy
  · rw [hn]
    exact h.lt v (hv v ▸ hsome)

theorem FilesOk.congr (h : FilesOk s vs) (hv : ∀ v ∈ vs, s'.filesAt v = s.filesAt v)
    (hf : s'.file = s.file) (hn : s'.nextFile = s.nextFile) (hz : s'.zeroed = s.zeroed) :
    FilesOk s' vs := by
  constructor
  case nodup => exact fun v hmem => by rw [hv v hmem]; exact h.nodup v hmem
  case isSome => exact fun v hmem => by rw [hv v hmem, hf]; exact h.isSome v hmem
  case refs =>
    intro f o ho
    rw [hf] at ho
    rw [h.refs f o ho]
    exact List.countP_congr fun v hmem => by rw [hv v hmem]
  case lt => rw [hf, hn]; exact h.lt
  case zeroed =>
    rw [hz, hn]
    exact fun f hmem => ⟨(h.zeroed f hmem).1, fun v hv' => by
      rw [hv v hv']
      exact (h.zeroed f hmem).2 v hv'⟩

theorem ListsOk.congr (h : ListsOk s vs apps) (hv : ∀ v ∈ vs, s'.listsAt v = s.listsAt v)
    (hl : s'.list = s.list) (hn : s'.nextList = s.nextList)
    (hnv : s'.nextVersion = s.nextVersion) (hd : s'.deleted = s.deleted) : ListsOk s' vs apps := by
  constructor
  case apps_nodup => exact h.apps_nodup
  case apps_lt => rw [hn, hnv]; exact h.apps_lt
  case nodup => exact fun v hmem => by rw [hv v hmem]; exact h.nodup v hmem
  case mem => exact fun v hmem => by rw [hv v hmem]; exact h.mem v hmem
  case one => exact fun v hmem => by rw [hv v hmem, hl]; exact h.one v hmem
  case deleted_nodup => rw [hd]; exact h.deleted_nodup
  case deleted => rw [hd]; exact h.deleted

/-- The three kinds of counts. -/
structure HeapOk (s : VersionList) (vs : List ℕ) (apps : List (ℕ × ℕ)) : Prop where
  nodes : NodesOk s vs
  files : FilesOk s vs
  lists : ListsOk s vs apps

/-- They do not depend on links and on which version is the current one. -/
theorem HeapOk.links (h : HeapOk s vs apps) (next_ prev_ : ℕ → Option ℕ) (current_ : Option ℕ) :
    HeapOk { s with next_, prev_, current_ } vs apps :=
  ⟨h.nodes.congr (fun _ => rfl) rfl, h.files.congr (fun _ _ => rfl) rfl rfl rfl,
    h.lists.congr (fun _ _ => rfl) rfl rfl rfl rfl⟩

/-- Nor on the number of references to a version. -/
theorem HeapOk.setRef (h : HeapOk s vs apps) (hv : s.version v = some n) (k : ℕ) :
    HeapOk (s.setVersion v { n with ref_ := k }) vs apps := by
  have hfiles : ∀ w, (s.setVersion v { n with ref_ := k }).filesAt w = s.filesAt w := by
    intro w
    rw [setVersion_filesAt]
    split
    · rename_i hw
      rw [hw, filesAt_eq hv]
      rfl
    · rfl
  have hlists : ∀ w, (s.setVersion v { n with ref_ := k }).listsAt w = s.listsAt w := by
    intro w
    rw [setVersion_listsAt]
    split
    · rename_i hw
      rw [hw, listsAt_eq hv]
      rfl
    · rfl
  have hsome : (s.version v).isSome := by rw [hv]; rfl
  exact ⟨h.nodes.congr (fun _ => setVersion_isSome hsome) rfl,
    h.files.congr (fun w _ => hfiles w) rfl rfl rfl,
    h.lists.congr (fun w _ => hlists w) rfl rfl rfl rfl⟩

/-! ## Loops over files and lists -/

/-- Counting references leaves the rest of the objects. -/
theorem dataAt_map {fs : List ℕ} {φ : FileObject → FileObject} (hφ : ∀ o, (φ o).data = o.data)
    (hf : s'.file = fun f => if f ∈ fs then (s.file f).map φ else s.file f) :
    s'.dataAt = s.dataAt := by
  funext f
  unfold dataAt
  rw [hf]
  dsimp only
  split
  · rw [Option.map_map]
    exact congrArg (Option.map · _) (funext hφ)
  · rfl

theorem refFile_eq {f : ℕ} {o : FileObject} (ho : s.file f = some o) : s.refFile f = some { s with
    file := Function.update s.file f (some { o with refs := o.refs + 1 }) } := by
  rw [refFile, ho]
  rfl

theorem unrefFile_eq {f : ℕ} {o : FileObject} (ho : s.file f = some o) (hrefs : 0 < o.refs) :
    s.unrefFile f = some { s with
      file := Function.update s.file f (some { o with refs := o.refs - 1 })
      zeroed := if o.refs = 1 then s.zeroed ++ [f] else s.zeroed } := by
  rw [unrefFile, ho, Option.bind_eq_bind, Option.bind_some, if_pos hrefs]
  rfl

theorem unrefList_eq {id : ℕ} {l : SkipList} (hl : s.list id = some ⟨l, 1⟩) :
    s.unrefList id = some { s with
      list := Function.update s.list id none
      deleted := s.deleted ++ [id] } := by
  rw [unrefList, hl, Option.bind_eq_bind, Option.bind_some, if_pos le_rfl, if_pos rfl]

/-- `ref` on each of the files. -/
theorem foldlM_refFile {fs : List ℕ} (hnodup : fs.Nodup) (hsome : ∀ f ∈ fs, (s.file f).isSome) :
    fs.foldlM refFile s = some { s with
      file := fun f =>
        if f ∈ fs then (s.file f).map (fun o => { o with refs := o.refs + 1 }) else s.file f } := by
  have h := foldlM_of_steps refFile (fun done => { s with
    file := fun f =>
      if f ∈ done then (s.file f).map (fun o => { o with refs := o.refs + 1 }) else s.file f })
    fun done f hd => by
      obtain ⟨hf, hnew⟩ := next_of_prefix hnodup hd
      obtain ⟨o, ho⟩ := Option.isSome_iff_exists.1 (hsome f hf)
      have hmap : (s.file f).map (fun o => { o with refs := o.refs + 1 }) =
          some { o with refs := o.refs + 1 } := congrArg _ ho
      refine (refFile_eq ((if_neg hnew).trans ho)).trans ?_
      rw [← hmap]
      exact congrArg (fun file => some { s with file }) update_mem_snoc
  simpa only [List.not_mem_nil, if_false] using h

/-- `unref` on each of the files, which are referenced. -/
theorem foldlM_unrefFile {fs : List ℕ} (hnodup : fs.Nodup)
    (hpos : ∀ f ∈ fs, ∃ o, s.file f = some o ∧ 0 < o.refs) : ∃ zeroed,
      fs.foldlM unrefFile s = some { s with
        file := fun f =>
          if f ∈ fs then (s.file f).map (fun o => { o with refs := o.refs - 1 }) else s.file f
        zeroed := s.zeroed ++ zeroed } ∧
      ∀ f ∈ zeroed, f ∈ fs ∧ ∃ o, s.file f = some o ∧ o.refs = 1 := by
  set last : ℕ → Bool := fun f => (s.file f).any (·.refs = 1) with hlast
  have h := foldlM_of_steps unrefFile (fun done => { s with
    file := fun f =>
      if f ∈ done then (s.file f).map (fun o => { o with refs := o.refs - 1 }) else s.file f
    zeroed := s.zeroed ++ done.filter last })
    fun done f hd => by
      obtain ⟨hf, hnew⟩ := next_of_prefix hnodup hd
      obtain ⟨o, ho, hrefs⟩ := hpos f hf
      have hzero : (if o.refs = 1 then s.zeroed ++ done.filter last ++ [f]
          else s.zeroed ++ done.filter last) = s.zeroed ++ (done ++ [f]).filter last := by
        by_cases hone : o.refs = 1
        · simp [hlast, ho, hone]
        · simp [hlast, ho, hone]
      have hmap : (s.file f).map (fun o => { o with refs := o.refs - 1 }) =
          some { o with refs := o.refs - 1 } := congrArg _ ho
      refine (unrefFile_eq ((if_neg hnew).trans ho) hrefs).trans ?_
      rw [hzero, ← hmap]
      exact congrArg (fun file => some { s with
        file
        zeroed := s.zeroed ++ (done ++ [f]).filter last }) update_mem_snoc
  refine ⟨fs.filter last, ?_, fun f hf => ?_⟩
  · simpa only [List.not_mem_nil, if_false, List.filter_nil, List.append_nil] using h
  · obtain ⟨hf, hl⟩ := List.mem_filter.1 hf
    obtain ⟨o, ho, -⟩ := hpos f hf
    exact ⟨hf, o, ho, by simpa [hlast, ho] using hl⟩

/-- `unref` on each of the lists, which have one reference each. -/
theorem foldlM_unrefList {ids : List ℕ} (hnodup : ids.Nodup)
    (hone : ∀ id ∈ ids, ∃ l, s.list id = some ⟨l, 1⟩) :
    ids.foldlM unrefList s = some { s with
      list := fun id => if id ∈ ids then none else s.list id
      deleted := s.deleted ++ ids } := by
  have h := foldlM_of_steps unrefList (fun done => { s with
    list := fun id => if id ∈ done then none else s.list id
    deleted := s.deleted ++ done })
    fun done id hd => by
      obtain ⟨hid, hnew⟩ := next_of_prefix hnodup hd
      obtain ⟨l, hl⟩ := hone id hid
      refine (unrefList_eq ((if_neg hnew).trans hl)).trans ?_
      rw [List.append_assoc]
      exact congrArg (fun list => some { s with list, deleted := s.deleted ++ (done ++ [id]) })
        update_mem_snoc
  simpa only [List.not_mem_nil, if_false, List.append_nil] using h

/-! ## Links -/

theorem setNext_eq {x : ℕ} (hv : (s.version v).isSome) :
    s.setNext v x = some { s with next_ := Function.update s.next_ v (some x) } := by
  obtain ⟨n, hn⟩ := Option.isSome_iff_exists.1 hv
  unfold setNext
  rw [hn, Option.map_some]

theorem setPrev_eq {x : ℕ} (hv : (s.version v).isSome) :
    s.setPrev v x = some { s with prev_ := Function.update s.prev_ v (some x) } := by
  obtain ⟨n, hn⟩ := Option.isSome_iff_exists.1 hv
  unfold setPrev
  rw [hn, Option.map_some]

/-- The first two assignments of `Unref` take a version out of the ring. -/
theorem unlink_ring (h : IsRing s.next_ s.prev_ dummy_versions_ rs)
    (hsome : ∀ w ∈ dummy_versions_ :: rs, (s.version w).isSome) (hv : v ∈ rs) :
    ∃ next_ prev_, s.unlink v = some { s with next_, prev_ } ∧
      IsRing next_ prev_ dummy_versions_ (rs.erase v) := by
  obtain ⟨p, n, hp, hn, hpv, hnv, hpin, hnin, hring⟩ := h.unlink hv
  refine ⟨_, _, ?_, hring⟩
  unfold unlink
  simp only [hp, hn, Option.bind_eq_bind, Option.bind_some, setPrev_eq (hsome n hnin),
    Function.update_of_ne hnv.symm]
  exact setNext_eq (hsome p hpin)

/-- The last four assignments of `AppendVersion` put a version at the end of the ring. -/
theorem link_ring (h : IsRing s.next_ s.prev_ dummy_versions_ rs)
    (hsome : ∀ w ∈ dummy_versions_ :: rs, (s.version w).isSome)
    (hv : v ∉ dummy_versions_ :: rs) (hvsome : (s.version v).isSome) :
    ∃ next_ prev_, s.link v = some { s with next_, prev_ } ∧
      IsRing next_ prev_ dummy_versions_ (rs ++ [v]) := by
  obtain ⟨p, hp, hpin, hring⟩ := h.append hv
  refine ⟨_, _, ?_, hring⟩
  have hpv : v ≠ p := fun e => hv (e ▸ hpin)
  unfold link
  simp only [hp, Option.bind_eq_bind, Option.bind_some, setPrev_eq hvsome]
  rw [setNext_eq (by exact hvsome)]
  simp only [Option.bind_some, Function.update_self]
  rw [setNext_eq (by exact hsome p hpin)]
  simp only [Option.bind_some, Function.update_of_ne hpv, Function.update_self]
  exact setPrev_eq (hsome _ List.mem_cons_self)

/-! ## The end of a version -/

theorem NodesOk.erase (h : NodesOk s vs) (hv : v ∈ vs)
    (hver : s'.version = Function.update s.version v none)
    (hn : s'.nextVersion = s.nextVersion) : NodesOk s' (vs.erase v) := by
  have hnode : ∀ w, w ≠ v → s'.version w = s.version w := by
    intro w hw
    rw [hver, Function.update_of_ne hw]
  constructor
  case nodup => exact h.nodup.erase v
  case mem =>
    intro w
    rw [h.nodup.mem_erase_iff]
    by_cases hw : w = v
    · subst hw
      simp [hver]
    · rw [hnode w hw, h.mem w]
      simp [hw]
  case dummy =>
    rw [hnode _ fun e => ((h.mem v).1 hv).1 e.symm]
    exact h.dummy
  case lt =>
    intro w hw
    rw [hn]
    by_cases hwv : w = v
    · subst hwv
      rw [hver, Function.update_self] at hw
      cases hw
    · exact h.lt w (hnode w hwv ▸ hw)

theorem FilesOk.erase {zeroed : List ℕ} (h : FilesOk s vs) (hv : v ∈ vs)
    (hfiles : ∀ w ∈ vs.erase v, s'.filesAt w = s.filesAt w)
    (hf : s'.file = fun f =>
      if f ∈ s.filesAt v then (s.file f).map (fun o => { o with refs := o.refs - 1 })
      else s.file f)
    (hn : s'.nextFile = s.nextFile) (hz : s'.zeroed = s.zeroed ++ zeroed)
    (hzero : ∀ f ∈ zeroed, f ∈ s.filesAt v ∧ ∃ o, s.file f = some o ∧ o.refs = 1) :
    FilesOk s' (vs.erase v) := by
  have hmem : ∀ w ∈ vs.erase v, w ∈ vs := fun w hw => List.mem_of_mem_erase hw
  have hsome : ∀ f, (s'.file f).isSome = (s.file f).isSome := by
    intro f
    rw [hf]
    dsimp only
    split
    · rw [Option.isSome_map]
    · rfl
  -- the version itself is one of those that are counted
  have hcount : ∀ f, (vs.erase v).countP (f ∈ s'.filesAt ·) =
      vs.countP (f ∈ s.filesAt ·) - if f ∈ s.filesAt v then 1 else 0 := by
    intro f
    rw [List.countP_congr fun w hw => by rw [hfiles w hw], List.countP_erase]
    simp [hv]
  constructor
  case nodup => exact fun w hw => by rw [hfiles w hw]; exact h.nodup w (hmem w hw)
  case isSome =>
    intro w hw f hfw
    rw [hfiles w hw] at hfw
    rw [hsome]
    exact h.isSome w (hmem w hw) f hfw
  case refs =>
    intro f o ho
    rw [hcount]
    rw [hf] at ho
    dsimp only at ho
    split at ho
    · rename_i hfv
      obtain ⟨o', ho', rfl⟩ := Option.map_eq_some_iff.1 ho
      rw [if_pos hfv, ← h.refs f o' ho']
    · rename_i hfv
      rw [if_neg hfv, ← h.refs f o ho]
      rfl
  case lt => exact fun f hfs => by rw [hn]; exact h.lt f (hsome f ▸ hfs)
  case zeroed =>
    intro f hfz
    rw [hn]
    rw [hz] at hfz
    rcases List.mem_append.1 hfz with hfz | hfz
    · refine ⟨(h.zeroed f hfz).1, fun w hw => ?_⟩
      rw [hfiles w hw]
      exact (h.zeroed f hfz).2 w (hmem w hw)
    · obtain ⟨hfv, o, ho, hone⟩ := hzero f hfz
      refine ⟨h.lt f (by rw [ho]; rfl), fun w hw hfw => ?_⟩
      have hpos : 0 < (vs.erase v).countP (f ∈ s'.filesAt ·) :=
        List.countP_pos_iff.2 ⟨w, hw, by simpa using hfw⟩
      rw [hcount, ← h.refs f o ho, hone, if_pos hfv] at hpos
      omega

theorem ListsOk.unique (h : ListsOk s vs apps) {id v w : ℕ} (hv : (id, v) ∈ apps)
    (hw : (id, w) ∈ apps) : v = w := by
  have hinj := List.inj_on_of_nodup_map h.apps_nodup hv hw rfl
  exact congrArg Prod.snd hinj

theorem ListsOk.erase (h : ListsOk s vs apps) (hnodup : vs.Nodup) (hv : v ∈ vs)
    (hlists : ∀ w ∈ vs.erase v, s'.listsAt w = s.listsAt w)
    (hl : s'.list = fun id => if id ∈ s.listsAt v then none else s.list id)
    (hn : s'.nextList = s.nextList) (hnv : s'.nextVersion = s.nextVersion)
    (hd : s'.deleted = s.deleted ++ s.listsAt v) : ListsOk s' (vs.erase v) apps := by
  have hmem : ∀ w ∈ vs.erase v, w ≠ v ∧ w ∈ vs := fun w hw => hnodup.mem_erase_iff.1 hw
  constructor
  case apps_nodup => exact h.apps_nodup
  case apps_lt => rw [hn, hnv]; exact h.apps_lt
  case nodup => exact fun w hw => by rw [hlists w hw]; exact h.nodup w (hmem w hw).2
  case mem => exact fun w hw => by rw [hlists w hw]; exact h.mem w (hmem w hw).2
  case one =>
    intro w hw id hid
    obtain ⟨hne, hin⟩ := hmem w hw
    rw [hlists w hw] at hid
    have hidv : id ∉ s.listsAt v := fun hidv =>
      hne (h.unique ((h.mem w hin id).1 hid) ((h.mem v hv id).1 hidv))
    rw [hl]
    dsimp only
    rw [if_neg hidv]
    exact h.one w hin id hid
  case deleted_nodup =>
    rw [hd, List.nodup_append]
    refine ⟨h.deleted_nodup, h.nodup v hv, fun id hid id' hid' e => ?_⟩
    subst e
    obtain ⟨w, hw, hdead⟩ := (h.deleted id).1 hid
    exact hdead (h.unique hw ((h.mem v hv id).1 hid') ▸ hv)
  case deleted =>
    intro id
    rw [hd, List.mem_append, h.deleted, h.mem v hv]
    constructor
    · rintro (⟨w, hw, hdead⟩ | hid)
      · exact ⟨w, hw, fun hin => hdead (hmem w hin).2⟩
      · exact ⟨v, hid, fun hin => (hmem v hin).1 rfl⟩
    · rintro ⟨w, hw, hdead⟩
      by_cases hwv : w = v
      · exact .inr (hwv ▸ hw)
      · exact .inl ⟨w, hw, fun hin => hdead (hnodup.mem_erase_iff.2 ⟨hwv, hin⟩)⟩

theorem delete_eq (hv : s.version v = some n) (hloop : n.files.foldlM unrefFile s = some s') :
    s.delete v = some { s' with
      version := Function.update s'.version v none
      next_ := Function.update s'.next_ v none
      prev_ := Function.update s'.prev_ v none } := by
  unfold delete
  rw [hv, Option.bind_eq_bind, Option.bind_some, hloop]
  rfl

/-- What `Unref` of the last reference assigns. -/
theorem unref_last_eq (h : HeapOk s vs apps) (hring : IsRing s.next_ s.prev_ dummy_versions_ rs)
    (hrs : ∀ r ∈ rs, r ∈ vs) (hv : v ∈ rs) (hn : s.version v = some n) (hone : n.ref_ = 1) :
    ∃ next_ prev_ zeroed, s.unref v = some { s with
        version := Function.update s.version v none
        next_ := Function.update next_ v none
        prev_ := Function.update prev_ v none
        list := fun id => if id ∈ n.lists then none else s.list id
        file := fun f =>
          if f ∈ n.files then (s.file f).map (fun o => { o with refs := o.refs - 1 }) else s.file f
        deleted := s.deleted ++ n.lists
        zeroed := s.zeroed ++ zeroed } ∧
      IsRing next_ prev_ dummy_versions_ (rs.erase v) ∧
      ∀ f ∈ zeroed, f ∈ n.files ∧ ∃ o, s.file f = some o ∧ o.refs = 1 := by
  have hvs := hrs v hv
  have hv0 : v ≠ dummy_versions_ := ((h.nodes.mem v).1 hvs).1
  have hfiles := filesAt_eq hn
  have hlists := listsAt_eq hn
  set s₁ := s.setVersion v { n with ref_ := n.ref_ - 1 } with hs₁
  have h₁ : HeapOk s₁ vs apps := h.setRef hn _
  have hn₁ : s₁.version v = some { n with ref_ := n.ref_ - 1 } := Function.update_self ..
  have hsome : ∀ w ∈ dummy_versions_ :: rs, (s₁.version w).isSome := h₁.nodes.isSome hrs
  have hnodup : n.lists.Nodup := hlists ▸ h.lists.nodup v hvs
  have hloop := foldlM_unrefList (s := s₁) hnodup (hlists ▸ h.lists.one v hvs)
  set s₂ : VersionList := { s₁ with
    list := fun id => if id ∈ n.lists then none else s₁.list id
    deleted := s₁.deleted ++ n.lists } with hs₂
  obtain ⟨next_, prev_, hunlink, hring₂⟩ := unlink_ring (s := s₂) hring hsome hv
  set s₃ : VersionList := { s₂ with next_, prev_ } with hs₃
  have hfnodup : n.files.Nodup := hfiles ▸ h.files.nodup v hvs
  obtain ⟨zeroed, hunref, hzero⟩ := foldlM_unrefFile (s := s₃) hfnodup fun f hf => by
      obtain ⟨o, ho⟩ := Option.isSome_iff_exists.1 (h.files.isSome v hvs f (hfiles ▸ hf))
      refine ⟨o, ho, ?_⟩
      rw [h.files.refs f o ho]
      exact List.countP_pos_iff.2 ⟨v, hvs, by simpa [hfiles] using hf⟩
  refine ⟨next_, prev_, zeroed, ?_, hring₂, hzero⟩
  unfold unref
  simp only [hn, Option.bind_eq_bind, Option.bind_some]
  rw [if_pos ⟨hv0, hone.ge⟩, if_pos hone, hloop, Option.bind_some, hunlink, Option.bind_some,
    delete_eq (s := s₃) hn₁ hunref]
  simp only [hs₃, hs₂, hs₁, setVersion, Function.update_idem]

/-- **`Unref` of the last reference** deletes the version, and each of its lists. -/
theorem unref_last (h : HeapOk s vs apps) (hring : IsRing s.next_ s.prev_ dummy_versions_ rs)
    (hrs : ∀ r ∈ rs, r ∈ vs) (hv : v ∈ rs) (hn : s.version v = some n) (hone : n.ref_ = 1) :
    ∃ s', s.unref v = some s' ∧ HeapOk s' (vs.erase v) apps ∧
      IsRing s'.next_ s'.prev_ dummy_versions_ (rs.erase v) ∧
      s'.version = Function.update s.version v none ∧ s'.current_ = s.current_ ∧
      s'.nextVersion = s.nextVersion ∧ s'.dataAt = s.dataAt := by
  have hvs := hrs v hv
  have hfiles := filesAt_eq hn
  have hlists := listsAt_eq hn
  obtain ⟨next_, prev_, zeroed, heq, hring', hzero⟩ := unref_last_eq h hring hrs hv hn hone
  rw [← hfiles] at hzero
  have hother : ∀ w ∈ vs.erase v, Function.update s.version v none w = s.version w := fun w hw =>
    Function.update_of_ne (h.nodes.nodup.mem_erase_iff.1 hw).1 ..
  have hv0 := ((h.nodes.mem v).1 hvs).1
  refine ⟨_, heq, ⟨h.nodes.erase hvs rfl rfl, ?_, ?_⟩, ?_, rfl, rfl, rfl,
    dataAt_map (φ := fun o => { o with refs := o.refs - 1 }) (fun _ => rfl) rfl⟩
  · exact h.files.erase hvs (fun w hw => filesAt_congr (hother w hw)) (by rw [hfiles]) rfl rfl hzero
  · exact h.lists.erase h.nodes.nodup hvs (fun w hw => listsAt_congr (hother w hw)) (by rw [hlists])
      rfl rfl (by rw [hlists])
  · -- the links of the deleted version are not part of the ring
    have hne : ∀ w ∈ dummy_versions_ :: rs.erase v, w ≠ v := by
      intro w hw
      rcases List.mem_cons.1 hw with rfl | hw
      · exact hv0.symm
      · exact ((List.nodup_cons.1 hring.nodup).2.mem_erase_iff.1 hw).1
    exact hring'.congr (fun w hw => Function.update_of_ne (hne w hw) ..)
      fun w hw => Function.update_of_ne (hne w hw) ..

/-- The versions that are left when one of them has lost a reference of `k`. -/
def afterUnref (l : List ℕ) (v k : ℕ) : List ℕ := if k = 1 then l.erase v else l

theorem mem_afterUnref {l : List ℕ} {k w : ℕ} (h : l.Nodup) :
    w ∈ afterUnref l v k ↔ w ∈ l ∧ (w = v → k ≠ 1) := by
  unfold afterUnref
  by_cases hk : k = 1
  · rw [if_pos hk, h.mem_erase_iff]
    exact ⟨fun ⟨h1, h2⟩ => ⟨h2, fun e => (h1 e).elim⟩, fun ⟨h1, h2⟩ => ⟨fun e => h2 e hk, h1⟩⟩
  · rw [if_neg hk]
    exact ⟨fun hw => ⟨hw, fun _ => hk⟩, And.left⟩

theorem afterUnref_sublist (l : List ℕ) (v k : ℕ) : (afterUnref l v k).Sublist l := by
  unfold afterUnref
  split
  · exact List.erase_sublist
  · exact List.Sublist.refl l

/-- **`Unref` of a version in the ring.** -/
theorem unref_ok (h : HeapOk s vs apps) (hring : IsRing s.next_ s.prev_ dummy_versions_ rs)
    (hrs : ∀ r ∈ rs, r ∈ vs) (hv : v ∈ rs) (hn : s.version v = some n) (hpos : 1 ≤ n.ref_) :
    ∃ s', s.unref v = some s' ∧ HeapOk s' (afterUnref vs v n.ref_) apps ∧
      IsRing s'.next_ s'.prev_ dummy_versions_ (afterUnref rs v n.ref_) ∧
      s'.version = Function.update s.version v
        (if n.ref_ = 1 then none else some { n with ref_ := n.ref_ - 1 }) ∧
      s'.current_ = s.current_ ∧ s'.nextVersion = s.nextVersion ∧ s'.dataAt = s.dataAt := by
  unfold afterUnref
  by_cases hone : n.ref_ = 1
  · simp only [if_pos hone]
    exact unref_last h hring hrs hv hn hone
  · simp only [if_neg hone]
    refine ⟨_, ?_, h.setRef hn (n.ref_ - 1), hring, rfl, rfl, rfl, rfl⟩
    unfold unref
    rw [hn, Option.bind_eq_bind, Option.bind_some, if_pos ⟨((h.nodes.mem v).1 (hrs v hv)).1, hpos⟩,
      if_neg hone]

/-! ## A new version -/

theorem NodesOk.concat (h : NodesOk s vs)
    (hver : s'.version = Function.update s.version s.nextVersion (some n))
    (hn : s'.nextVersion = s.nextVersion + 1) : NodesOk s' (vs ++ [s.nextVersion]) := by
  have hnew : ∀ w, (s.version w).isSome → w ≠ s.nextVersion := fun w hw => (h.lt w hw).ne
  have hnode : ∀ w, (s'.version w).isSome ↔ (s.version w).isSome ∨ w = s.nextVersion := by
    intro w
    by_cases hw : w = s.nextVersion
    · simp [hver, hw]
    · simp [hver, hw]
  constructor
  case nodup =>
    rw [List.nodup_append]
    refine ⟨h.nodup, List.nodup_singleton _, fun w hw x hx => ?_⟩
    rw [List.mem_singleton.1 hx]
    exact hnew w ((h.mem w).1 hw).2
  case mem =>
    intro w
    rw [List.mem_append, h.mem, List.mem_singleton, hnode]
    constructor
    · rintro (⟨h1, h2⟩ | rfl)
      · exact ⟨h1, .inl h2⟩
      · exact ⟨(hnew _ h.dummy).symm, .inr rfl⟩
    · rintro ⟨h1, h2 | rfl⟩
      · exact .inl ⟨h1, h2⟩
      · exact .inr rfl
  case dummy => exact (hnode _).2 (.inl h.dummy)
  case lt =>
    intro w hw
    rw [hn]
    rcases (hnode w).1 hw with hw | rfl
    · exact (h.lt w hw).trans (Nat.lt_succ_self _)
    · exact Nat.lt_succ_self _

theorem FilesOk.concat (h : FilesOk s vs) (hfiles : ∀ w ∈ vs, s'.filesAt w = s.filesAt w)
    (hnodup : (s'.filesAt v).Nodup) (hsome : ∀ f ∈ s'.filesAt v, (s.file f).isSome)
    (hz' : ∀ f ∈ s.zeroed, f ∉ s'.filesAt v)
    (hf : s'.file = fun f =>
      if f ∈ s'.filesAt v then (s.file f).map (fun o => { o with refs := o.refs + 1 })
      else s.file f)
    (hn : s'.nextFile = s.nextFile) (hz : s'.zeroed = s.zeroed) : FilesOk s' (vs ++ [v]) := by
  have hsame : ∀ f, (s'.file f).isSome = (s.file f).isSome := by
    intro f
    rw [hf]
    dsimp only
    split
    · rw [Option.isSome_map]
    · rfl
  have hall : ∀ w ∈ vs ++ [v], w ∈ vs ∨ w = v := fun w hw => by simpa using hw
  constructor
  case nodup =>
    intro w hw
    rcases hall w hw with hw | rfl
    · rw [hfiles w hw]
      exact h.nodup w hw
    · exact hnodup
  case isSome =>
    intro w hw f hfw
    rw [hsame]
    rcases hall w hw with hw | rfl
    · exact h.isSome w hw f (hfiles w hw ▸ hfw)
    · exact hsome f hfw
  case refs =>
    intro f o ho
    have hcount : vs.countP (f ∈ s'.filesAt ·) = vs.countP (f ∈ s.filesAt ·) :=
      List.countP_congr fun w hw => by rw [hfiles w hw]
    rw [List.countP_append, hcount, List.countP_singleton]
    rw [hf] at ho
    dsimp only at ho
    split at ho
    · rename_i hfv
      obtain ⟨o', ho', rfl⟩ := Option.map_eq_some_iff.1 ho
      rw [← h.refs f o' ho']
      simp [hfv]
    · rename_i hfv
      rw [← h.refs f o ho]
      simp [hfv]
  case lt => exact fun f hfs => by rw [hn]; exact h.lt f (hsame f ▸ hfs)
  case zeroed =>
    intro f hfz
    rw [hz] at hfz
    rw [hn]
    refine ⟨(h.zeroed f hfz).1, fun w hw => ?_⟩
    rcases hall w hw with hw | rfl
    · rw [hfiles w hw]
      exact (h.zeroed f hfz).2 w hw
    · exact hz' f hfz

theorem ListsOk.concat (h : ListsOk s vs apps) (hlists : ∀ w ∈ vs, s'.listsAt w = s.listsAt w)
    (hnew : s'.listsAt s.nextVersion = []) (hl : s'.list = s.list) (hn : s'.nextList = s.nextList)
    (hnv : s'.nextVersion = s.nextVersion + 1) (hd : s'.deleted = s.deleted) :
    ListsOk s' (vs ++ [s.nextVersion]) apps := by
  have hall : ∀ w ∈ vs ++ [s.nextVersion], w ∈ vs ∨ w = s.nextVersion := by
    intro w hw
    simpa using hw
  -- no list has been appended to the new version yet
  have hne : ∀ id w, (id, w) ∈ apps → w ≠ s.nextVersion := fun id w hw => (h.apps_lt id w hw).2.ne
  constructor
  case apps_nodup => exact h.apps_nodup
  case apps_lt =>
    intro id w hw
    obtain ⟨h1, h2⟩ := h.apps_lt id w hw
    rw [hn, hnv]
    exact ⟨h1, h2.trans (Nat.lt_succ_self _)⟩
  case nodup =>
    intro w hw
    rcases hall w hw with hw | rfl
    · rw [hlists w hw]
      exact h.nodup w hw
    · rw [hnew]
      exact List.nodup_nil
  case mem =>
    intro w hw id
    rcases hall w hw with hw | rfl
    · rw [hlists w hw]
      exact h.mem w hw id
    · rw [hnew]
      exact ⟨fun hid => (List.not_mem_nil hid).elim, fun hid => (hne id _ hid rfl).elim⟩
  case one =>
    intro w hw id hid
    rw [hl]
    rcases hall w hw with hw | rfl
    · exact h.one w hw id (hlists w hw ▸ hid)
    · rw [hnew] at hid
      cases hid
  case deleted_nodup => rw [hd]; exact h.deleted_nodup
  case deleted =>
    intro id
    rw [hd, h.deleted]
    constructor
    · rintro ⟨w, hw, hdead⟩
      refine ⟨w, hw, fun hin => ?_⟩
      rcases hall w hin with hin | rfl
      · exact hdead hin
      · exact hne id _ hw rfl
    · rintro ⟨w, hw, hdead⟩
      exact ⟨w, hw, fun hin => hdead (List.mem_append_left _ hin)⟩

/-- `s` with a new version `m`, whose files it has referenced. -/
def withVersion (s : VersionList) (m : VersionNode) : VersionList :=
  { s with
    version := Function.update s.version s.nextVersion (some m)
    file := fun f =>
      if f ∈ m.files then (s.file f).map (fun o => { o with refs := o.refs + 1 }) else s.file f
    nextVersion := s.nextVersion + 1 }

theorem newVersion_eq : s.newVersion = s.withVersion .new := by
  have hnil : VersionNode.new.files = [] := rfl
  unfold newVersion withVersion
  simp only [setVersion, hnil, List.not_mem_nil, if_false]

theorem HeapOk.withVersion {m : VersionNode} (h : HeapOk s vs apps) (hnodup : m.files.Nodup)
    (hsome : ∀ f ∈ m.files, (s.file f).isSome) (hzero : ∀ f ∈ s.zeroed, f ∉ m.files)
    (hlists : m.lists = []) : HeapOk (s.withVersion m) (vs ++ [s.nextVersion]) apps := by
  have hself : (s.withVersion m).version s.nextVersion = some m := Function.update_self ..
  have hold : ∀ w ∈ vs, (s.withVersion m).version w = s.version w := fun w hw =>
    Function.update_of_ne (h.nodes.lt w ((h.nodes.mem w).1 hw).2).ne ..
  have hfiles := filesAt_eq hself
  refine ⟨h.nodes.concat rfl rfl, ?_, ?_⟩
  · exact h.files.concat (fun w hw => filesAt_congr (hold w hw)) (hfiles ▸ hnodup) (hfiles ▸ hsome)
      (hfiles ▸ hzero) (by rw [hfiles]; rfl) rfl rfl
  · exact h.lists.concat (fun w hw => listsAt_congr (hold w hw)) ((listsAt_eq hself).trans hlists)
      rfl rfl rfl rfl

/-- **`current_ = v`, `v->Ref()` and the links**, for a version without references. -/
theorem attach_ok (h : HeapOk s (rs ++ [v]) apps) (hring : IsRing s.next_ s.prev_ dummy_versions_ rs)
    (hn : s.version v = some n) : ∃ s',
      (({ s with current_ := some v } : VersionList).ref v).bind (·.link v) = some s' ∧
      HeapOk s' (rs ++ [v]) apps ∧ IsRing s'.next_ s'.prev_ dummy_versions_ (rs ++ [v]) ∧
      s'.version = Function.update s.version v (some { n with ref_ := n.ref_ + 1 }) ∧
      s'.current_ = some v ∧ s'.nextVersion = s.nextVersion ∧ s'.dataAt = s.dataAt := by
  set s₁ : VersionList :=
    ({ s with current_ := some v } : VersionList).setVersion v { n with ref_ := n.ref_ + 1 } with hs₁
  have h₁ : HeapOk s₁ (rs ++ [v]) apps := (h.links s.next_ s.prev_ (some v)).setRef hn _
  have hmem : ∀ w, w ∈ rs ++ [v] → w ≠ dummy_versions_ ∧ (s₁.version w).isSome := fun w hw =>
    (h₁.nodes.mem w).1 hw
  have hlast : v ∈ rs ++ [v] := List.mem_append_right _ (List.mem_singleton_self v)
  have hout : v ∉ dummy_versions_ :: rs := by
    intro hin
    rcases List.mem_cons.1 hin with hin | hin
    · exact (hmem v hlast).1 hin
    · exact (List.nodup_append.1 h.nodes.nodup).2.2 v hin v (List.mem_singleton_self v) rfl
  have hsome : ∀ w ∈ dummy_versions_ :: rs, (s₁.version w).isSome :=
    h₁.nodes.isSome fun w hw => List.mem_append_left _ hw
  obtain ⟨next_, prev_, hlink, hring'⟩ := link_ring (s := s₁) hring hsome hout (hmem v hlast).2
  refine ⟨{ s₁ with next_, prev_ }, ?_, h₁.links next_ prev_ _, hring', rfl, rfl, rfl, rfl⟩
  unfold ref
  rw [show ({ s with current_ := some v } : VersionList).version v = some n from hn,
    Option.map_some, Option.bind_some]
  exact hlink

/-! ## Appending a list -/

/-- One more element in one of the parts. -/
theorem flatMap_perm_of_eq {α β : Type} [DecidableEq α] {l : List α} {a : α} (hnodup : l.Nodup)
    (ha : a ∈ l) {g g' : α → List β} {x : β} (hother : ∀ b, b ≠ a → g' b = g b)
    (hself : (g' a).Perm (g a ++ [x])) : (l.flatMap g').Perm (l.flatMap g ++ [x]) := by
  induction l with
  | nil => cases ha
  | cons b l ih =>
    obtain ⟨hb, hnodup⟩ := List.nodup_cons.1 hnodup
    rw [List.flatMap_cons, List.flatMap_cons]
    by_cases hab : b = a
    · subst hab
      have hrest : l.flatMap g' = l.flatMap g :=
        List.flatMap_congr fun c hc => hother c fun e => hb (e ▸ hc)
      rw [hrest, List.append_assoc]
      refine (hself.append_right _).trans ?_
      rw [List.append_assoc]
      exact List.perm_append_comm.append_left _
    · rw [hother b hab, List.append_assoc]
      have ha : a ∈ l := (List.mem_cons.1 ha).resolve_left fun e => hab e.symm
      exact (ih hnodup ha).append_left _

theorem flatMap_update_perm {α β : Type} [DecidableEq α] {l : List α} {a : α} (hnodup : l.Nodup)
    (ha : a ∈ l) (g : α → List β) (x : β) :
    (l.flatMap (Function.update g a (g a ++ [x]))).Perm (l.flatMap g ++ [x]) :=
  flatMap_perm_of_eq hnodup ha (fun _ hb => Function.update_of_ne hb ..)
    (by rw [Function.update_self])

theorem ListsOk.append {list : SkipList} (h : ListsOk s vs apps) {m : VersionNode} (hv : v ∈ vs)
    (hperm : m.lists.Perm (s.listsAt v ++ [s.nextList]))
    (hver : s'.version = Function.update s.version v (some m))
    (hl : s'.list = Function.update s.list s.nextList (some ⟨list, 1⟩))
    (hn : s'.nextList = s.nextList + 1) (hnv : s'.nextVersion = s.nextVersion)
    (hlt : v < s.nextVersion) (hd : s'.deleted = s.deleted) :
    ListsOk s' vs (apps ++ [(s.nextList, v)]) := by
  have hself : s'.listsAt v = m.lists := listsAt_eq (by rw [hver, Function.update_self])
  have hother : ∀ w, w ≠ v → s'.listsAt w = s.listsAt w := fun w hw =>
    listsAt_congr (by rw [hver, Function.update_of_ne hw])
  have hnew : ∀ w, (s.nextList, w) ∉ apps := fun w hw => (h.apps_lt _ w hw).1.ne rfl
  have happ : ∀ id w, (id, w) ∈ apps ++ [(s.nextList, v)] ↔
      (id, w) ∈ apps ∨ id = s.nextList ∧ w = v := by
    intro id w
    rw [List.mem_append, List.mem_singleton, Prod.mk.injEq]
  constructor
  case apps_nodup =>
    rw [List.map_append, List.nodup_append]
    refine ⟨h.apps_nodup, List.nodup_singleton _, fun id hid x hx e => ?_⟩
    obtain ⟨p, hp, rfl⟩ := List.mem_map.1 hid
    have hp1 : p.1 = s.nextList := e.trans (List.mem_singleton.1 hx)
    exact hnew p.2 (hp1 ▸ hp)
  case apps_lt =>
    intro id w hw
    rw [hn, hnv]
    rcases (happ id w).1 hw with hw | ⟨rfl, rfl⟩
    · obtain ⟨h1, h2⟩ := h.apps_lt id w hw
      exact ⟨h1.trans (Nat.lt_succ_self _), h2⟩
    · exact ⟨Nat.lt_succ_self _, hlt⟩
  case nodup =>
    intro w hw
    by_cases hwv : w = v
    · subst hwv
      rw [hself, hperm.nodup_iff, List.nodup_append]
      refine ⟨h.nodup w hw, List.nodup_singleton _, fun id hid x hx e => ?_⟩
      rw [List.mem_singleton.1 hx] at e
      exact hnew w ((h.mem w hw _).1 (e ▸ hid))
    · rw [hother w hwv]
      exact h.nodup w hw
  case mem =>
    intro w hw id
    rw [happ]
    by_cases hwv : w = v
    · subst hwv
      rw [hself, hperm.mem_iff, List.mem_append, List.mem_singleton, h.mem w hw]
      simp
    · rw [hother w hwv, h.mem w hw]
      simp [hwv]
  case one =>
    intro w hw id hid
    rw [hl]
    by_cases hne : id = s.nextList
    · subst hne
      exact ⟨list, Function.update_self ..⟩
    · rw [Function.update_of_ne hne]
      refine h.one w hw id ?_
      by_cases hwv : w = v
      · subst hwv
        rw [hself, hperm.mem_iff] at hid
        simpa [hne] using hid
      · rwa [hother w hwv] at hid
  case deleted_nodup => rw [hd]; exact h.deleted_nodup
  case deleted =>
    intro id
    rw [hd, h.deleted]
    constructor
    · rintro ⟨w, hw, hdead⟩
      exact ⟨w, (happ id w).2 (.inl hw), hdead⟩
    · rintro ⟨w, hw, hdead⟩
      rcases (happ id w).1 hw with hw | ⟨-, rfl⟩
      · exact ⟨w, hw, hdead⟩
      · exact (hdead hv).elim

theorem appendList_ok (h : HeapOk s vs apps) (hv : v ∈ vs) (hn : s.version v = some n)
    (list : SkipList) (idx : Fin kMaxWriter) : ∃ s' m, s.appendList v list idx = some s' ∧
      HeapOk s' vs (apps ++ [(s.nextList, v)]) ∧
      s'.version = Function.update s.version v (some m) ∧ m.ref_ = n.ref_ ∧
      s'.next_ = s.next_ ∧ s'.prev_ = s.prev_ ∧ s'.current_ = s.current_ ∧
      s'.nextVersion = s.nextVersion := by
  set m : VersionNode := { n with
    list_ := Function.update n.list_ idx (n.list_ idx ++ [s.nextList])
    list_count_ := n.list_count_ + 1 } with hm
  have heq : s.appendList v list idx = some { s.setVersion v m with
      list := Function.update s.list s.nextList (some ⟨list, 1⟩)
      nextList := s.nextList + 1 } := by
    unfold appendList
    rw [hn, Option.map_some]
  have hperm : m.lists.Perm (s.listsAt v ++ [s.nextList]) := by
    rw [listsAt_eq hn]
    exact flatMap_update_perm (List.nodup_finRange kMaxWriter) (List.mem_finRange idx) n.list_ _
  have hsome : (s.version v).isSome := by rw [hn]; rfl
  have hfiles : ∀ w, (s.setVersion v m).filesAt w = s.filesAt w := by
    intro w
    rw [setVersion_filesAt]
    split
    · rename_i hw
      rw [hw, filesAt_eq hn]
      rfl
    · rfl
  exact ⟨_, m, heq, ⟨h.nodes.congr (fun _ => setVersion_isSome hsome) rfl,
    h.files.congr (fun w _ => hfiles w) rfl rfl rfl,
    h.lists.append hv hperm rfl rfl rfl rfl (h.nodes.lt v hsome) rfl⟩, rfl, rfl, rfl, rfl, rfl, rfl⟩

end VersionList

end Yangkv
