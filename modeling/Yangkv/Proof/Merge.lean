import Yangkv.Proof.Layers
import Yangkv.Proof.TableRead
import Yangkv.Spec.Builder

/-!
# What a table keeps of its lists

* `MergeIterator.new_get`: the merged map holds the newest slice of every key.
* `buildTable_stored`: the file `BuildTable` leaves holds the keys of the lists with their
  newest values. The types of the entries are not in it.
* `tables_differ_iff`: two families of lists give different tables exactly where some
  key has different newest values.
-/

namespace Yangkv

open Lib

/-- The newest entry of a key: the lists of its writer, from the last one down. -/
def newest (lists : Fin kMaxWriter → List SkipList) (k : Bytes) : Option Entry :=
  layered ((lists (writerOf k)).reverse.map SkipList.find) k

/-- Lists of bounded entries, every key only in lists of its own writer. -/
def Routed (lists : Fin kMaxWriter → List SkipList) : Prop :=
  ∀ w, ∀ l ∈ lists w, l.From fun e => e.Bounded ∧ writerOf e.key.bytes = w

/-- Every key only in lists of its own writer. -/
def KeysRouted (lists : Fin kMaxWriter → List SkipList) : Prop :=
  ∀ w, ∀ l ∈ lists w, ∀ k slice, l.get k = some slice → writerOf k = w

variable {lists lists' : Fin kMaxWriter → List SkipList} {k : Bytes}

theorem Routed.keys (h : Routed lists) : KeysRouted lists := by
  intro w l hl k slice hg
  obtain ⟨e, ⟨-, hw⟩, hk, -⟩ := h w l hl k slice hg
  rw [← hk]
  exact hw

/-! ## The merged map -/

namespace MergeIterator

theorem addList_get (mp_ : MergeIterator) (l : SkipList) :
    (mp_.addList l)[k]? = (l.get k).or mp_[k]? := getElem?_foldl_insert l.list_ mp_

theorem addLists_get (ls : List SkipList) (mp_ : MergeIterator) :
    (ls.foldl addList mp_)[k]? = (layered (ls.reverse.map SkipList.get) k).or mp_[k]? := by
  induction ls generalizing mp_ with
  | nil => rfl
  | cons l ls ih =>
    rw [List.foldl_cons, ih, addList_get, List.reverse_cons, List.map_append, layered_append,
      Option.or_assoc]
    simp [layered_cons]

/-- The lists of another writer do not have the key. -/
theorem layered_other (h : KeysRouted lists) {w : Fin kMaxWriter} (hw : writerOf k ≠ w) :
    layered ((lists w).reverse.map SkipList.get) k = none := by
  unfold layered
  rw [List.findSome?_eq_none_iff]
  intro m hm
  obtain ⟨l, hl, rfl⟩ := List.mem_map.1 hm
  cases hg : l.get k with
  | none => rfl
  | some slice => exact absurd (h w l (List.mem_reverse.1 hl) k slice hg) hw

/-- **The merged map has the newest slice of every key.** -/
theorem new_get (h : KeysRouted lists) :
    (new lists)[k]? = layered ((lists (writerOf k)).reverse.map SkipList.get) k := by
  have hfold : ∀ (ws : List (Fin kMaxWriter)) (mp_ : MergeIterator),
      (ws.foldl (fun mp_ i => (lists i).foldl addList mp_) mp_)[k]? =
        if writerOf k ∈ ws then (layered ((lists (writerOf k)).reverse.map SkipList.get) k).or mp_[k]?
        else mp_[k]? := by
    intro ws
    induction ws with
    | nil => intro mp_; rfl
    | cons w ws ih =>
      intro mp_
      rw [List.foldl_cons, ih, addLists_get]
      by_cases hw : writerOf k = w
      · subst hw
        rw [if_pos List.mem_cons_self]
        split
        · rw [← Option.or_assoc, Option.or_self]
        · rfl
      · rw [layered_other h hw, Option.none_or]
        simp [hw]
  unfold new
  rw [hfold, if_pos (List.mem_finRange _)]
  simp

end MergeIterator

theorem layered_find {ls : List SkipList} (h : ∀ l ∈ ls, l.From MemEntry.Bounded) :
    layered (ls.map SkipList.find) k = (layered (ls.map SkipList.get) k).bind decodeSlice := by
  induction ls with
  | nil => rfl
  | cons l ls ih =>
    rw [List.map_cons, List.map_cons, layered_cons, layered_cons,
      ih fun l hl => h l (List.mem_cons_of_mem _ hl)]
    unfold SkipList.find
    cases hg : l.get k with
    | none => rfl
    | some slice =>
      obtain ⟨e, h1, -⟩ := (h l List.mem_cons_self).get_some hg
      rw [Option.bind_some, h1, Option.some_or, Option.some_or, Option.bind_some, h1]

theorem Routed.bounded (h : Routed lists) {w : Fin kMaxWriter} : ∀ l ∈ lists w, l.From MemEntry.Bounded :=
  fun l hl => (h w l hl).mono fun _ he => he.1

theorem Routed.newest_eq (h : Routed lists) :
    newest lists k = (MergeIterator.new lists)[k]?.bind decodeSlice := by
  rw [MergeIterator.new_get h.keys, ← layered_find fun l hl => h.bounded l (List.mem_reverse.1 hl)]
  rfl

/-- Every slice of the merged map is an entry of its key. -/
theorem Routed.slices (h : Routed lists) :
    ∀ it ∈ (MergeIterator.new lists).toList,
      ∃ e, decodeSlice it.2 = some e ∧ e.key.bytes = it.1 ∧ e.Bounded := by
  rintro ⟨k, slice⟩ hit
  have hk := Std.TreeMap.mem_toList_iff_getElem?_eq_some.1 hit
  rw [MergeIterator.new_get h.keys, layered, List.findSome?_map] at hk
  obtain ⟨l, hl, hg⟩ := List.exists_of_findSome?_eq_some hk
  obtain ⟨e, h1, -, h2, h3⟩ := (h.bounded l (List.mem_reverse.1 hl)).get_some hg
  exact ⟨e, h1, h3, h2⟩

theorem Routed.decodes (h : Routed lists) : ∀ it ∈ (MergeIterator.new lists).toList,
    ∃ e, decodeSlice it.2 = some e ∧ e.key.bytes = it.1 := by
  intro it hit
  obtain ⟨e, h1, h2, -⟩ := h.slices it hit
  exact ⟨e, h1, h2⟩

/-! ## What is added to the table -/

/-- The bytes that an encoded entry adds for its value. -/
def valueOf (slice : Bytes) : Bytes := (decodeSlice slice).elim [] (·.value.bytes)

/-- The keys of the lists in order, each with its newest value. -/
def kept (lists : Fin kMaxWriter → List SkipList) : List (Bytes × Bytes) :=
  ((MergeIterator.new lists).map fun _ slice => valueOf slice).toList

theorem kept_eq_map (lists : Fin kMaxWriter → List SkipList) :
    kept lists = (MergeIterator.new lists).toList.map fun it => (it.1, valueOf it.2) :=
  Std.TreeMap.toList_map

theorem Routed.kept_get (h : Routed lists) (k : Bytes) :
    ((MergeIterator.new lists).map fun _ slice => valueOf slice)[k]? =
      (newest lists k).map (·.value.bytes) := by
  rw [Std.TreeMap.getElem?_map, h.newest_eq]
  cases hs : (MergeIterator.new lists)[k]? with
  | none => rfl
  | some slice =>
    obtain ⟨e, he, -⟩ := h.slices _ (Std.TreeMap.mem_toList_iff_getElem?_eq_some.2 hs)
    have he : decodeSlice slice = some e := he
    simp [valueOf, he]

/-- **Two families of lists keep the same if every key has the same newest value.** -/
theorem kept_eq_iff (h : Routed lists) (h' : Routed lists') :
    kept lists = kept lists' ↔
      ∀ k, (newest lists k).map (·.value.bytes) = (newest lists' k).map (·.value.bytes) := by
  unfold kept
  rw [← Std.TreeMap.equiv_iff_toList_eq]
  constructor
  · intro he k
    rw [← h.kept_get, ← h'.kept_get]
    exact he.getElem?_eq
  · intro hk
    refine Std.TreeMap.Equiv.of_forall_constGet?_eq fun k => ?_
    rw [h.kept_get, h'.kept_get, hk]

theorem sorted_kept (lists : Fin kMaxWriter → List SkipList) : SortedKeys (kept lists) :=
  sorted_keys _

/-- The calls that `BuildTable` makes. -/
def keptCalls (lists : Fin kMaxWriter → List SkipList) : List TableBuilder.Call :=
  (kept lists).map fun e => .add e.1 e.2

theorem addsOf_keptCalls (lists : Fin kMaxWriter → List SkipList) :
    TableBuilder.addsOf (keptCalls lists) = kept lists := by
  unfold TableBuilder.addsOf keptCalls
  rw [List.filterMap_map]
  exact List.filterMap_some

theorem length_keptCalls (lists : Fin kMaxWriter → List SkipList) :
    (keptCalls lists).length = (MergeIterator.new lists).size := by
  rw [keptCalls, List.length_map, kept_eq_map, List.length_map, Std.TreeMap.length_toList]

theorem Routed.short (h : Routed lists) : ∀ e ∈ kept lists, Short e := by
  intro e he
  rw [kept_eq_map] at he
  obtain ⟨it, hit, rfl⟩ := List.mem_map.1 he
  obtain ⟨x, h1, h2, h3⟩ := h.slices it hit
  have h4 := h3.fits.1
  have h5 := h3.fits.2
  have hv : valueOf it.2 = x.value.bytes := by simp [valueOf, h1]
  rw [hv, ← h2]
  exact ⟨show x.key.bytes.length < 2 ^ 32 by omega, show x.value.bytes.length < 2 ^ 32 by omega⟩

/-- The loop of `BuildTable` is these calls. -/
theorem foldlM_addSlice {its : List (Bytes × Bytes)}
    (h : ∀ it ∈ its, ∃ e, decodeSlice it.2 = some e ∧ e.key.bytes = it.1) (r : TableBuilder) :
    its.foldlM addSlice r =
      (its.map fun it => TableBuilder.Call.add it.1 (valueOf it.2)).foldlM TableBuilder.call r := by
  induction its generalizing r with
  | nil => rfl
  | cons it its ih =>
    obtain ⟨e, h1, h2⟩ := h it List.mem_cons_self
    have hone : addSlice r it = r.call (.add it.1 (valueOf it.2)) := by
      simp [addSlice, TableBuilder.call, valueOf, h1, h2]
    rw [List.foldlM_cons, List.map_cons, List.foldlM_cons, hone]
    congr 1
    funext r'
    exact ih (fun it hit => h it (List.mem_cons_of_mem _ hit)) r'

/-! ## The file -/

theorem WritableFile.sync_close {f : WritableFile} (hf : f.NoFail) : f.sync.2.close.2.fd = f.stream := by
  obtain ⟨f', h1, h2, h3, h4⟩ := WritableFile.flush_ok hf
  have hsync : f.sync.2.fd = f.stream ∧ f.sync.2.buf = [] ∧ f.sync.2.NoFail := by
    unfold WritableFile.sync
    rw [show f.flushBuffer = (.ok, f') from h1]
    exact ⟨h2, h3, h4⟩
  obtain ⟨g1, g2, g3⟩ := hsync
  obtain ⟨f'', k1, k2, -⟩ := WritableFile.flush_ok g3
  unfold WritableFile.close
  rw [show f.sync.2.flushBuffer = (.ok, f'') from k1]
  show f''.fd = _
  rw [k2, WritableFile.stream, g1, g2, List.append_nil]

/-- The first and the last entry can be decoded. -/
theorem Routed.setMetaData (h : Routed lists) (hne : kept lists ≠ []) :
    ∃ smallest largest, (MergeIterator.new lists).setMetaData = some (smallest, largest) := by
  have hnil : (MergeIterator.new lists).toList ≠ [] := by
    intro hnil
    rw [kept_eq_map, hnil] at hne
    exact hne rfl
  obtain ⟨smallest, h1, -⟩ := h.slices _ (List.head_mem hnil)
  obtain ⟨largest, h2, -⟩ := h.slices _ (List.getLast_mem hnil)
  refine ⟨smallest, largest, ?_⟩
  unfold MergeIterator.setMetaData
  rw [List.head?_eq_some_head hnil, List.getLast?_eq_some_getLast hnil]
  simp only [Option.bind_eq_bind, Option.bind_some, h1, h2]

/-- `BuildTable` of no entry reads behind the end of its map. -/
theorem buildTable_nil (h : kept lists = []) (file : WritableFile) (number : ℕ) :
    buildTable lists file number = none := by
  have hnil : (MergeIterator.new lists).toList = [] := by
    rw [kept_eq_map] at h
    exact List.map_eq_nil_iff.1 h
  unfold buildTable MergeIterator.setMetaData
  simp only [hnil, List.head?_nil, Option.bind_eq_bind, Option.bind_none]
  cases TableBuilder.new .default file <;> rfl

/-- **What `BuildTable` leaves holds the keys of the lists with their newest values**, and `ReadBlock`
reads them if no block is too large. -/
theorem buildTable_stored (h : Routed lists) (hne : kept lists ≠ [])
    (hn : (MergeIterator.new lists).size < 2 ^ 28) {ws : List WriteResult}
    (hw : WriteResult.fail ∉ ws) (ss cs : List Bool) (number : ℕ) :
    ∃ r table file metadata,
      TableBuilder.build .default (.create ws ss cs) (keptCalls lists) = some r ∧
      buildTable lists (.create ws ss cs) number = some (file, metadata) ∧
      metadata.number = number ∧ file.fd = r.file.stream ∧
      tableBlocks file.fd = some table ∧ table.flatMap Prod.snd = kept lists ∧ LeadsTo table ∧
      (SmallBlocks .default (keptCalls lists) → readTable file.fd = some table) := by
  have hadds := addsOf_keptCalls lists
  have hf : (WritableFile.create ws ss cs).NoFail := hw
  have hk : 1 ≤ Options.default.block_restart_interval := by decide
  obtain ⟨r, table, h1, h2, h3, h4, hleads, hread⟩ := TableBuilder.build_stored hk rfl hf rfl
    (hadds ▸ sorted_kept lists) (hadds ▸ h.short) ((length_keptCalls lists).trans_lt hn)
  have hpos : r.fileSize ≠ 0 := by
    intro h0
    have hnil : r.file.stream = [] := List.length_eq_zero_iff.1 (h2.offset.trans h0)
    have hempty : tableBlocks [] = none := by decide
    rw [hnil, hempty] at h3
    cases h3
  have hfd := WritableFile.sync_close h2.noFail
  obtain ⟨smallest, largest, h5⟩ := h.setMetaData hne
  refine ⟨r, table, r.file.sync.2.close.2, ⟨smallest, largest, r.fileSize, number⟩, h1, ?_, rfl, hfd,
    hfd ▸ h3, h4.trans hadds, hleads, hfd ▸ hread⟩
  have hits := h.decodes
  have hcalls : keptCalls lists = (MergeIterator.new lists).toList.map fun it =>
      TableBuilder.Call.add it.1 (valueOf it.2) := by
    rw [keptCalls, kept_eq_map, List.map_map]
    rfl
  unfold TableBuilder.build TableBuilder.run at h1
  unfold buildTable
  simp only [Option.bind_eq_bind] at h1 ⊢
  cases hnew : TableBuilder.new .default (WritableFile.create ws ss cs) with
  | none => rw [hnew] at h1; cases h1
  | some r₀ =>
    rw [hnew, Option.bind_some, hcalls, ← foldlM_addSlice hits] at h1
    rw [Option.bind_some, h5, Option.bind_some]
    obtain ⟨r₁, h6, h7⟩ := Option.bind_eq_some_iff.1 h1
    simp only [h6, Option.bind_some, h7, h2.status, if_true, if_neg hpos]

section

variable {ws : List WriteResult} {ss cs : List Bool} {number number' : ℕ}

/-- The contents depend on what is kept only. -/
theorem tableOf_congr (h : Routed lists) (h' : Routed lists')
    (hn : (MergeIterator.new lists).size < 2 ^ 28) (hn' : (MergeIterator.new lists').size < 2 ^ 28)
    (hw : WriteResult.fail ∉ ws) (hk : kept lists = kept lists') :
    tableOf lists (.create ws ss cs) number = tableOf lists' (.create ws ss cs) number' := by
  unfold tableOf
  by_cases hne : kept lists = []
  · rw [buildTable_nil hne, buildTable_nil (hk ▸ hne)]
  obtain ⟨r, -, file, m, h1, h2, -, h3, -⟩ := buildTable_stored h hne hn hw ss cs number
  obtain ⟨r', -, file', m', g1, g2, -, g3, -⟩ :=
    buildTable_stored h' (hk ▸ hne) hn' hw ss cs number'
  -- the same calls leave the same builder
  have hcalls : keptCalls lists = keptCalls lists' := by rw [keptCalls, keptCalls, hk]
  rw [hcalls, g1] at h1
  obtain rfl := Option.some.inj h1
  rw [h2, g2, Option.map_some, Option.map_some, h3, g3]

/-- The contents determine what is kept. -/
theorem tableOf_inj (h : Routed lists) (h' : Routed lists')
    (hn : (MergeIterator.new lists).size < 2 ^ 28) (hn' : (MergeIterator.new lists').size < 2 ^ 28)
    (hw : WriteResult.fail ∉ ws)
    (ht : tableOf lists (.create ws ss cs) number = tableOf lists' (.create ws ss cs) number') :
    kept lists = kept lists' := by
  have hsome : ∀ {ls : Fin kMaxWriter → List SkipList} {n : ℕ}, Routed ls →
      (MergeIterator.new ls).size < 2 ^ 28 → kept ls ≠ [] →
      ∃ contents table, tableOf ls (.create ws ss cs) n = some contents ∧
        tableBlocks contents = some table ∧ table.flatMap Prod.snd = kept ls := fun hl hs hne => by
    obtain ⟨-, table, file, m, -, h2, -, -, h4, h5, -⟩ := buildTable_stored hl hne hs hw ss cs _
    exact ⟨file.fd, table, by rw [tableOf, h2]; rfl, h4, h5⟩
  by_cases hne : kept lists = []
  · by_cases hne' : kept lists' = []
    · rw [hne, hne']
    obtain ⟨contents, -, h1, -⟩ := hsome h' hn' hne'
    rw [h1, tableOf, buildTable_nil hne] at ht
    cases ht
  obtain ⟨contents, table, h1, h2, h3⟩ := hsome h hn hne
  by_cases hne' : kept lists' = []
  · rw [h1, tableOf, buildTable_nil hne'] at ht
    cases ht
  obtain ⟨contents', table', g1, g2, g3⟩ := hsome h' hn' hne'
  rw [h1, g1] at ht
  obtain rfl := Option.some.inj ht
  rw [h2] at g2
  obtain rfl := Option.some.inj g2
  rw [← h3, ← g3]

/-- **Two families of lists give different tables exactly where some key has different newest
values.** Whether the newest entry is a deletion makes no difference. -/
theorem tables_differ_iff (h : Routed lists) (h' : Routed lists')
    (hn : (MergeIterator.new lists).size < 2 ^ 28) (hn' : (MergeIterator.new lists').size < 2 ^ 28)
    (hw : WriteResult.fail ∉ ws) :
    tableOf lists (.create ws ss cs) number ≠ tableOf lists' (.create ws ss cs) number' ↔
      ∃ k, (newest lists k).map (·.value.bytes) ≠ (newest lists' k).map (·.value.bytes) := by
  rw [← not_forall, ← kept_eq_iff h h']
  exact not_congr ⟨tableOf_inj h h' hn hn' hw, tableOf_congr h h' hn hn' hw⟩

end

/-! ## One write -/

/-- The lists of a store in which one entry is frozen. -/
def oneList (e : Entry) (w : Fin kMaxWriter) : List SkipList :=
  if w = writerOf e.key.bytes then (SkipList.empty.insert e).toList else []

theorem oneList_routed {e : Entry} (he : e.Bounded) : Routed (oneList e) := by
  intro w l hl
  unfold oneList at hl
  split at hl
  · rename_i hw
    exact SkipList.from_empty.insert ⟨he, hw.symm⟩ (Option.mem_toList.1 hl)
  · cases hl

theorem bounded_entryOf {key value : Bytes} {id : ℕ} {d : Bool} (hk : key.length + 9 < 2 ^ 32)
    (hv : value.length + 1 < 2 ^ 32) (hid : id < 2 ^ 56) : (Store.entryOf key value id d).Bounded :=
  ⟨⟨hk, hv⟩, hid⟩

theorem tables_differ_iff_oneList :
    tableOf (oneList (Store.entryOf [97] [49] 1 false)) (.create [] [] []) 1 ≠
      tableOf (oneList (Store.entryOf [97] [] 1 true)) (.create [] [] []) 1 :=
  (tables_differ_iff (oneList_routed (bounded_entryOf (by decide) (by decide) (by decide)))
    (oneList_routed (bounded_entryOf (by decide) (by decide) (by decide)))
    (by decide +kernel) (by decide +kernel) List.not_mem_nil).2 ⟨[97], by decide +kernel⟩

/-- A deletion and an empty value give the same table. -/
theorem table_forgets_deletion : ∃ lists lists', Routed lists ∧ Routed lists' ∧
    (newest lists [97]).map (·.value_type) = some false ∧
    (newest lists' [97]).map (·.value_type) = some true ∧
    (tableOf lists (.create [] [] []) 1).isSome ∧
    tableOf lists (.create [] [] []) 1 = tableOf lists' (.create [] [] []) 1 :=
  ⟨oneList (Store.entryOf [97] [] 1 false), oneList (Store.entryOf [97] [] 1 true),
    oneList_routed (bounded_entryOf (by decide) (by decide) (by decide)),
    oneList_routed (bounded_entryOf (by decide) (by decide) (by decide)),
    by decide +kernel, by decide +kernel, by decide +kernel, by decide +kernel⟩

end Yangkv
