import Yangkv.Proof.Merge

/-!
# The merge and the lookup

`BuildTable` merges the lists of a version from the oldest to the newest, and `Get`
scans those of one writer from the newest to the oldest.

* `decodeSlice_of_encode`: a key that the 32-bit length field holds is decoded as it
  was inserted. A longer one can pass the assertion of `EncodeMemEntry`, and is cut
  off (`length_decodeSlice_lt`).
* `addSlices_last`: the last key of the builder is one that was added.
* `mergeAgrees_iff`: merge and lookup agree exactly if every key has such a length.
-/

namespace Yangkv

open Lib

/-! ## Lists as `insert` builds them -/

/-- No `std::string` is longer. -/
def MemEntry.Storable (e : Entry) : Prop :=
  e.key.bytes.length < 2 ^ 63 ∧ e.value.bytes.length < 2 ^ 63

/-- Lists that calls of `insert` have built. -/
inductive SkipList.Built : SkipList → Prop
  | empty : Built .empty
  | insert {l l' e} : Built l → e.Storable → l.insert e = some l' → Built l'

theorem SkipList.Built.slices {l : SkipList} (h : l.Built) : l.From MemEntry.Storable := by
  induction h with
  | empty => exact SkipList.from_empty
  | insert _ he hl ih => exact ih.insert he hl

/-- **What is encoded with a key of a 32-bit length** is decoded with this key, whatever the length
of its value. -/
theorem decodeSlice_of_encode {e : Entry} {slice : Bytes} (he : e.Storable)
    (hk : e.key.bytes.length < 2 ^ 32) (h : encodeMemEntry e = some slice) :
    ∃ e', decodeSlice slice = some e' ∧ e'.key.bytes = e.key.bytes := by
  obtain ⟨h1, h2, hslice⟩ := encodeMemEntry_some h
  have hkey : e.key.bytes.length + 9 < 2 ^ 32 := lt_of_length_encode (by omega) h1
  have hv : e.value.bytes.length < 2 ^ 63 := he.2
  set n := (e.value.bytes.length + 1) % 2 ^ 32 with hn
  -- a value length that is cut off to zero would take one byte
  have hpos : 0 < n := by
    by_contra h0
    have hzero : n = 0 := by omega
    have hone : (Varint.encode 0).length = 1 := by rw [Varint.encode_of_lt (by decide)]; rfl
    have hmono := Varint.length_encode_mono (show 128 ≤ e.value.bytes.length + 1 by omega)
    have htwo := Varint.encode_length_pos (128 / 128)
    rw [Varint.encode_of_ge (le_refl 128), List.length_cons] at hmono
    rw [hzero, hone, Nat.mod_eq_of_lt (by omega)] at h2
    omega
  -- the bytes that the length field speaks of, and those behind them
  set full := e.value.bytes ++ [e.value.next] with hfull
  have hlen : full.length = e.value.bytes.length + 1 := by simp [hfull]
  have htake : (full.take n).length = n := List.length_take_of_le (by omega)
  obtain ⟨init, x, hsplit⟩ : ∃ init x, full.take n = init ++ [x] := by
    rcases List.eq_nil_or_concat (full.take n) with hnil | ⟨init, x, hx⟩
    · rw [hnil, List.length_nil] at htake
      omega
    · exact ⟨init, x, by rw [hx, List.concat_eq_append]⟩
  have hinit : init.length + 1 = n := by
    rw [hsplit, List.length_append, List.length_singleton] at htake
    exact htake
  set e₂ : Entry := { e with value := ⟨init, x⟩ } with he₂
  have hfit : e₂.Fits := ⟨hkey, show init.length + 1 < 2 ^ 32 by omega⟩
  have hrecord : slice = e₂.record ++ full.drop n := by
    have hfront : full = init ++ [x] ++ full.drop n := by rw [← hsplit, List.take_append_drop]
    rw [hslice, Nat.mod_eq_of_lt hkey, ← hinit]
    conv_lhs => rw [hfront]
    simp only [MemEntry.record, he₂, hinit, List.append_assoc]
    rfl
  refine ⟨e₂.views.read (e₂.record ++ full.drop n), ?_, by rw [read_views]⟩
  unfold decodeSlice
  rw [hrecord, decodeMemEntry_record hfit, Option.map_some]

/-- A decoded key has a 32-bit length. -/
theorem length_decodeSlice_lt {slice : Bytes} {e : Entry} (h : decodeSlice slice = some e) :
    e.key.bytes.length < 2 ^ 32 := by
  obtain ⟨views, hviews, rfl⟩ := Option.map_eq_some_iff.1 h
  have hlen : views.key.len < 2 ^ 32 := by
    unfold decodeMemEntry at hviews
    simp only [Option.bind_eq_bind, Option.bind_eq_some_iff, Option.some.injEq] at hviews
    obtain ⟨x, -, info, -, y, -, rfl⟩ := hviews
    exact (x.1 - 9).toNat_lt
  have hread : (views.key.read slice).bytes.length ≤ views.key.len := List.length_take_le _ _
  exact lt_of_le_of_lt hread hlen

/-! ## The ordering assertion -/

namespace TableBuilder

variable {r r' : TableBuilder} {key value : Bytes}

theorem writeRawBlock_keeps (r : TableBuilder) (contents : Bytes) (type : CompressionType) :
    (r.writeRawBlock contents type).1.last_key = r.last_key ∧
      (r.writeRawBlock contents type).1.num_entries = r.num_entries := by
  unfold writeRawBlock
  simp only
  split
  · split <;> exact ⟨rfl, rfl⟩
  · exact ⟨rfl, rfl⟩

theorem writeBlock_keeps {block block' : BlockBuilder} {handle : BlockHandle}
    (h : r.writeBlock block = some (r', block', handle)) :
    r'.last_key = r.last_key ∧ r'.num_entries = r.num_entries := by
  unfold writeBlock at h
  split at h
  · cases h
  · simp only [Option.some.injEq, Prod.mk.injEq] at h
    obtain ⟨rfl, -, -⟩ := h
    exact writeRawBlock_keeps r _ _

theorem flush_keeps (h : r.flush = some r') :
    r'.last_key = r.last_key ∧ r'.num_entries = r.num_entries := by
  unfold flush at h
  split at h
  · cases h
  split at h
  · cases h
    exact ⟨rfl, rfl⟩
  split at h
  · cases h
    exact ⟨rfl, rfl⟩
  split at h
  · cases h
  obtain ⟨⟨r₁, block, handle⟩, h1, h2⟩ := Option.bind_eq_some_iff.1 h
  have hkeep := writeBlock_keeps h1
  simp only at h2
  split at h2 <;> · cases h2; exact hkeep

/-- **`Add` leaves its key as the last one**, or the builder as it was. -/
theorem add_last (h : r.add key value = some r') : r' = r ∨ r'.last_key = key := by
  unfold add at h
  split at h
  · cases h
  split at h
  · cases h
    exact .inl rfl
  split at h
  · cases h
  obtain ⟨r₁, -, h⟩ := Option.bind_eq_some_iff.1 h
  obtain ⟨block, -, h⟩ := Option.bind_eq_some_iff.1 h
  simp only at h
  split at h
  · exact .inr (flush_keeps h).1
  · cases h
    exact .inr rfl

end TableBuilder

/-- After the first slices were added, the last key is one of theirs. -/
theorem addSlices_last {its : List (Bytes × Bytes)} {r₀ r : TableBuilder} {P : Bytes → Prop}
    (h0 : r₀.num_entries = 0 ∨ P r₀.last_key)
    (hP : ∀ it ∈ its, ∀ entry, decodeSlice it.2 = some entry → P entry.key.bytes)
    (hr : its.foldlM addSlice r₀ = some r) : r.num_entries = 0 ∨ P r.last_key := by
  induction its generalizing r₀ with
  | nil =>
    cases hr
    exact h0
  | cons it its ih =>
    rw [List.foldlM_cons] at hr
    obtain ⟨r₁, h1, h2⟩ := Option.bind_eq_some_iff.1 hr
    obtain ⟨entry, he, hadd⟩ := Option.bind_eq_some_iff.1 h1
    refine ih ?_ (fun it hit => hP it (List.mem_cons_of_mem _ hit)) h2
    rcases TableBuilder.add_last hadd with rfl | hlast
    · exact h0
    · exact .inr (hlast ▸ hP it List.mem_cons_self entry he)

theorem TableBuilder.new_entries {options : Options} {file : WritableFile} {r : TableBuilder}
    (h : TableBuilder.new options file = some r) : r.num_entries = 0 := by
  unfold TableBuilder.new at h
  obtain ⟨data_block, -, h⟩ := Option.bind_eq_some_iff.1 h
  obtain ⟨index_block, -, h⟩ := Option.bind_eq_some_iff.1 h
  cases h
  rfl

/-! ## Merge and lookup -/

/-- The slice on which `Get` stops, among the lists. -/
def Version.stopsAt (v : Version SkipList) (key : Bytes) : Option Bytes :=
  (v.list_ (writerOf key)).reverse.findSome? (·.get key)

theorem Version.get_of_stopsAt {v : Version SkipList} {key slice : Bytes}
    (h : v.stopsAt key = some slice) : v.get key = (decodeSlice slice).map fun entry =>
      if entry.value_type then none else some entry.value.bytes := by
  unfold Version.stopsAt at h
  unfold Version.get
  rw [h]

/-- The key is in one of the lists. -/
def Version.Occurs (v : Version SkipList) (key : Bytes) : Prop :=
  ∃ w, ∃ l ∈ v.list_ w, ∃ slice, l.get key = some slice

/-- The merge of the lists yields `entries`, as the lookup has them. -/
structure MergeAgrees (v : Version SkipList) (entries : List Entry) : Prop where
  yields : List.Forall₂ (fun it entry => decodeSlice it.2 = some entry)
    (MergeIterator.new v.list_).toList entries
  /-- every key, and with `increasing` each of them once -/
  keys : ∀ k, (∃ entry ∈ entries, entry.key.bytes = k) ↔ v.Occurs k
  increasing : entries.Pairwise fun a b => sliceCompare a.key.bytes b.key.bytes = .lt
  /-- in front of every `Add` of `BuildTable`, its ordering assertion holds -/
  ordered : ∀ (options : Options) (file : WritableFile) r₀ pre it post r entry,
    TableBuilder.new options file = some r₀ →
    (MergeIterator.new v.list_).toList = pre ++ it :: post → pre.foldlM addSlice r₀ = some r →
    decodeSlice it.2 = some entry →
    ¬ (0 < r.num_entries ∧ sliceCompare entry.key.bytes r.last_key ≠ .gt)
  lookup : ∀ it ∈ (MergeIterator.new v.list_).toList, ∀ entry, decodeSlice it.2 = some entry →
    v.stopsAt entry.key.bytes = some it.2
  bounds : ∃ smallest largest,
    (MergeIterator.new v.list_).setMetaData = some (smallest, largest) ∧
    entries.head? = some smallest ∧ entries.getLast? = some largest ∧
    ∀ file_size number k, v.Occurs k →
      (⟨smallest, largest, file_size, number⟩ : FileMetaData).mayInFile k = true

section

variable {v : Version SkipList} {k : Bytes}

/-- The merged map has the slices on which `Get` stops. -/
theorem KeysRouted.mem_toList (hr : KeysRouted v.list_) {slice : Bytes} :
    (k, slice) ∈ (MergeIterator.new v.list_).toList ↔ v.stopsAt k = some slice := by
  rw [Std.TreeMap.mem_toList_iff_getElem?_eq_some, MergeIterator.new_get hr, layered,
    List.findSome?_map]
  rfl

theorem KeysRouted.occurs_iff (hr : KeysRouted v.list_) :
    v.Occurs k ↔ ∃ slice, v.stopsAt k = some slice := by
  constructor
  · rintro ⟨w, l, hl, slice, hg⟩
    have hw := hr w l hl k slice hg
    have hsome : (v.stopsAt k).isSome := by
      unfold Version.stopsAt
      rw [List.findSome?_isSome_iff]
      exact ⟨l, List.mem_reverse.2 (hw ▸ hl), by rw [hg]; rfl⟩
    exact Option.isSome_iff_exists.1 hsome
  · rintro ⟨slice, h⟩
    obtain ⟨l, hl, hg⟩ := List.exists_of_findSome?_eq_some h
    exact ⟨writerOf k, l, List.mem_reverse.1 hl, slice, hg⟩

/-- Slices that each decode to an entry of their key decode to a list of entries. -/
theorem exists_forall₂ {its : List (Bytes × Bytes)}
    (h : ∀ it ∈ its, ∃ e, decodeSlice it.2 = some e ∧ e.key.bytes = it.1) :
    ∃ es : List Entry, List.Forall₂ (fun it entry => decodeSlice it.2 = some entry) its es ∧
      es.map (·.key.bytes) = its.map Prod.fst := by
  induction its with
  | nil => exact ⟨[], .nil, rfl⟩
  | cons it its ih =>
    obtain ⟨e, h1, h2⟩ := h it List.mem_cons_self
    obtain ⟨es, h3, h4⟩ := ih fun it hit => h it (List.mem_cons_of_mem _ hit)
    exact ⟨e :: es, .cons h1 h3, by rw [List.map_cons, List.map_cons, h2, h4]⟩

theorem forall₂_head? {α β : Type*} {R : α → β → Prop} {as : List α} {bs : List β}
    (h : List.Forall₂ R as bs) {a : α} (ha : as.head? = some a) : ∃ b, bs.head? = some b ∧ R a b := by
  cases h with
  | nil => cases ha
  | cons hab _ =>
    cases ha
    exact ⟨_, rfl, hab⟩

theorem forall₂_getLast? {α β : Type*} {R : α → β → Prop} {as : List α} {bs : List β}
    (h : List.Forall₂ R as bs) {a : α} (ha : as.getLast? = some a) :
    ∃ b, bs.getLast? = some b ∧ R a b := by
  rw [← List.head?_reverse] at ha
  obtain ⟨b, hb, hab⟩ := forall₂_head? (List.forall₂_reverse_iff.2 h) ha
  rw [List.head?_reverse] at hb
  exact ⟨b, hb, hab⟩

theorem forall₂_mem {α β : Type*} {R : α → β → Prop} {as : List α} {bs : List β}
    (h : List.Forall₂ R as bs) {b : β} (hb : b ∈ bs) : ∃ a ∈ as, R a b := by
  induction h with
  | nil => cases hb
  | cons hab _ ih =>
    rcases List.mem_cons.1 hb with rfl | hb
    · exact ⟨_, List.mem_cons_self, hab⟩
    · obtain ⟨a, ha, hr⟩ := ih hb
      exact ⟨a, List.mem_cons_of_mem _ ha, hr⟩

/-- Every slice of the merged map decodes to an entry of its key, if no key is too long. -/
theorem slices_decode (hb : ∀ w, ∀ l ∈ v.list_ w, l.Built) (hr : KeysRouted v.list_)
    (hlen : ∀ k, v.Occurs k → k.length < 2 ^ 32) :
    ∀ it ∈ (MergeIterator.new v.list_).toList,
      ∃ e, decodeSlice it.2 = some e ∧ e.key.bytes = it.1 := by
  rintro ⟨k, slice⟩ hit
  have hstop := hr.mem_toList.1 hit
  have hk := hlen k (hr.occurs_iff.2 ⟨slice, hstop⟩)
  obtain ⟨l, hl, hg⟩ := List.exists_of_findSome?_eq_some hstop
  obtain ⟨e, he, rfl, henc⟩ := (hb _ l (List.mem_reverse.1 hl)).slices k slice hg
  exact decodeSlice_of_encode he hk henc

/-- In front of every `Add`, the key is above all that were added. -/
theorem addSlice_ordered {its pre post : List (Bytes × Bytes)} {it : Bytes × Bytes}
    {options : Options} {file : WritableFile} {r₀ r : TableBuilder} {entry : Entry}
    (hsorted : SortedKeys its)
    (hkey : ∀ it ∈ its, ∀ entry, decodeSlice it.2 = some entry → entry.key.bytes = it.1)
    (hnew : TableBuilder.new options file = some r₀) (hsplit : its = pre ++ it :: post)
    (hfold : pre.foldlM addSlice r₀ = some r) (he : decodeSlice it.2 = some entry) :
    ¬ (0 < r.num_entries ∧ sliceCompare entry.key.bytes r.last_key ≠ .gt) := by
  rintro ⟨hpos, hcmp⟩
  subst hsplit
  have hgt : ∀ x ∈ pre, ∀ e, decodeSlice x.2 = some e →
      sliceCompare entry.key.bytes e.key.bytes = .gt := by
    intro x hx e hx'
    have hlt := (List.pairwise_append.1 hsorted).2.2 x hx it List.mem_cons_self
    rw [sliceCompare_eq, hkey it (by simp) entry he,
      hkey x (List.mem_append_left _ hx) e hx']
    exact Std.OrientedCmp.gt_of_lt hlt
  rcases addSlices_last (P := fun last => sliceCompare entry.key.bytes last = .gt)
    (.inl (TableBuilder.new_entries hnew)) hgt hfold with h0 | hgt
  · omega
  · exact hcmp hgt

/-- The bounds are the first and the last entry, and every key lies between them. -/
theorem setMetaData_bounds {m : MergeIterator} {entries : List Entry}
    (hall : List.Forall₂ (fun it entry => decodeSlice it.2 = some entry) m.toList entries)
    (hkey : ∀ it ∈ m.toList, ∀ entry, decodeSlice it.2 = some entry → entry.key.bytes = it.1)
    (hsorted : SortedKeys m.toList) (hnil : m.toList ≠ []) : ∃ smallest largest,
      m.setMetaData = some (smallest, largest) ∧
      entries.head? = some smallest ∧ entries.getLast? = some largest ∧
      ∀ file_size number, ∀ it ∈ m.toList,
        (⟨smallest, largest, file_size, number⟩ : FileMetaData).mayInFile it.1 = true := by
  have hhead := List.head?_eq_some_head hnil
  have hlast := List.getLast?_eq_some_getLast hnil
  obtain ⟨smallest, h1, h2⟩ := forall₂_head? hall hhead
  obtain ⟨largest, h3, h4⟩ := forall₂_getLast? hall hlast
  refine ⟨smallest, largest, ?_, h1, h3, fun file_size number it hit => ?_⟩
  · unfold MergeIterator.setMetaData
    rw [hhead, hlast]
    simp only [Option.bind_eq_bind, Option.bind_some, h2, h4]
  · have hge := hsorted.head_le hit hhead
    have hle := hsorted.le_getLast hit hlast
    rw [← hkey _ (List.head_mem hnil) _ h2] at hge
    rw [← hkey _ (List.getLast_mem hnil) _ h4] at hle
    unfold FileMetaData.mayInFile
    rw [Std.OrientedCmp.isGE_iff_isLE.2 hge, hle]
    rfl

/-- **Merge and lookup agree on keys of a 32-bit length.** -/
theorem exists_mergeAgrees (hb : ∀ w, ∀ l ∈ v.list_ w, l.Built) (hr : KeysRouted v.list_)
    (hne : ∃ k, v.Occurs k) (hlen : ∀ k, v.Occurs k → k.length < 2 ^ 32) :
    ∃ entries, MergeAgrees v entries := by
  have hdec := slices_decode hb hr hlen
  obtain ⟨entries, hall, hkeys⟩ := exists_forall₂ hdec
  have hkey : ∀ it ∈ (MergeIterator.new v.list_).toList, ∀ entry,
      decodeSlice it.2 = some entry → entry.key.bytes = it.1 := by
    intro it hit entry he
    obtain ⟨e, h1, h2⟩ := hdec it hit
    rw [he] at h1
    cases h1
    exact h2
  have hsorted : SortedKeys (MergeIterator.new v.list_).toList := sorted_keys _
  have hmem : ∀ k, v.Occurs k → ∃ slice, (k, slice) ∈ (MergeIterator.new v.list_).toList :=
    fun k hk => by
      obtain ⟨slice, hs⟩ := hr.occurs_iff.1 hk
      exact ⟨slice, hr.mem_toList.2 hs⟩
  refine ⟨entries, ?_⟩
  constructor
  case yields => exact hall
  case keys =>
    intro k
    have hmap : (∃ entry ∈ entries, entry.key.bytes = k) ↔
        k ∈ (MergeIterator.new v.list_).toList.map Prod.fst := by rw [← hkeys, List.mem_map]
    rw [hmap, List.mem_map, hr.occurs_iff]
    constructor
    · rintro ⟨⟨k', slice⟩, hit, rfl⟩
      exact ⟨slice, hr.mem_toList.1 hit⟩
    · rintro ⟨slice, hs⟩
      exact ⟨(k, slice), hr.mem_toList.2 hs, rfl⟩
  case increasing =>
    have hpair : (entries.map (·.key.bytes)).Pairwise fun a b => compare a b = .lt := by
      rw [hkeys]
      exact List.pairwise_map.2 hsorted
    simp only [sliceCompare_eq]
    exact List.pairwise_map.1 hpair
  case ordered =>
    intro options file r₀ pre it post r entry hnew hsplit hfold he
    exact addSlice_ordered hsorted hkey hnew hsplit hfold he
  case lookup =>
    intro it hit entry he
    rw [hkey it hit entry he]
    exact hr.mem_toList.1 hit
  case bounds =>
    obtain ⟨k₀, hk₀⟩ := hne
    obtain ⟨slice₀, hmem₀⟩ := hmem k₀ hk₀
    obtain ⟨smallest, largest, h1, h2, h3, hin⟩ :=
      setMetaData_bounds hall hkey hsorted (List.ne_nil_of_mem hmem₀)
    refine ⟨smallest, largest, h1, h2, h3, fun file_size number k hk => ?_⟩
    obtain ⟨slice, hit⟩ := hmem k hk
    exact hin file_size number (k, slice) hit

/-- **Merge and lookup agree exactly if no key is too long** for its length field. -/
theorem mergeAgrees_iff (hb : ∀ w, ∀ l ∈ v.list_ w, l.Built) (hr : KeysRouted v.list_)
    (hne : ∃ k, v.Occurs k) :
    (∃ entries, MergeAgrees v entries) ↔ ∀ k, v.Occurs k → k.length < 2 ^ 32 := by
  refine ⟨fun ⟨entries, h⟩ k hk => ?_, exists_mergeAgrees hb hr hne⟩
  obtain ⟨entry, hmem, rfl⟩ := (h.keys k).2 hk
  obtain ⟨it, -, hdec⟩ := forall₂_mem h.yields hmem
  exact length_decodeSlice_lt hdec

end

/-! ## Families of lists -/

/-- The list into which the entries are inserted. -/
def SkipList.ofEntries (es : List Entry) : Option SkipList := es.foldlM SkipList.insert .empty

theorem SkipList.Built.foldlM {S : Entry → Prop} {es : List Entry} {l l' : SkipList} (hl : l.Built)
    (hS : l.From S) (hes : ∀ e ∈ es, e.Storable ∧ S e) (h : es.foldlM SkipList.insert l = some l') :
    l'.Built ∧ l'.From S := by
  induction es generalizing l with
  | nil =>
    cases h
    exact ⟨hl, hS⟩
  | cons e es ih =>
    rw [List.foldlM_cons] at h
    obtain ⟨l₁, h1, h2⟩ := Option.bind_eq_some_iff.1 h
    obtain ⟨hstore, he⟩ := hes e List.mem_cons_self
    exact ih (.insert hl hstore h1) (hS.insert he h1)
      (fun e hmem => hes e (List.mem_cons_of_mem _ hmem)) h2

/-- The version with these lists. -/
def versionOf (ls : Fin kMaxWriter → List (List Entry)) : Version SkipList :=
  { (Version.new : Version SkipList) with list_ := fun w => (ls w).filterMap SkipList.ofEntries }

section

variable {ls : Fin kMaxWriter → List (List Entry)} {w : Fin kMaxWriter} {es : List Entry}
  {l : SkipList} {k : Bytes}

theorem versionOf_list (hs : ∀ w, ∀ es ∈ ls w, ∀ e ∈ es, e.Storable)
    (hl : l ∈ (versionOf ls).list_ w) : l.Built ∧ ∃ es ∈ ls w, l.From (· ∈ es) := by
  obtain ⟨es, hes, hl⟩ := List.mem_filterMap.1 hl
  obtain ⟨hbuilt, hfrom⟩ := SkipList.Built.empty.foldlM SkipList.from_empty
    (fun e he => ⟨hs w es hes e he, he⟩) hl
  exact ⟨hbuilt, es, hes, hfrom⟩

theorem versionOf_routed (hs : ∀ w, ∀ es ∈ ls w, ∀ e ∈ es, e.Storable)
    (hw : ∀ w, ∀ es ∈ ls w, ∀ e ∈ es, writerOf e.key.bytes = w) :
    KeysRouted (versionOf ls).list_ := by
  intro w l hl k slice hg
  obtain ⟨-, es, hes, hfrom⟩ := versionOf_list hs hl
  obtain ⟨e, he, rfl, -⟩ := hfrom k slice hg
  exact hw w es hes e he

/-- The keys of the lists are those of the entries. -/
theorem versionOf_key (hs : ∀ w, ∀ es ∈ ls w, ∀ e ∈ es, e.Storable)
    (hk : (versionOf ls).Occurs k) : ∃ w, ∃ es ∈ ls w, ∃ e ∈ es, e.key.bytes = k := by
  obtain ⟨w, l, hl, slice, hg⟩ := hk
  obtain ⟨-, es, hes, hfrom⟩ := versionOf_list hs hl
  obtain ⟨e, he, hkey, -⟩ := hfrom k slice hg
  exact ⟨w, es, hes, e, he, hkey⟩

theorem versionOf_occurs (hes : es ∈ ls w)
    (hk : ((SkipList.ofEntries es).bind (·.get k)).isSome) : (versionOf ls).Occurs k := by
  obtain ⟨slice, hk⟩ := Option.isSome_iff_exists.1 hk
  obtain ⟨l, hl, hg⟩ := Option.bind_eq_some_iff.1 hk
  exact ⟨w, l, List.mem_filterMap.2 ⟨es, hes, hl⟩, slice, hg⟩

end

theorem forall₂_some {α β : Type} {f : α → Option β} {as : List α} {bs : List β} :
    List.Forall₂ (fun a b => f a = some b) as bs ↔ as.map f = bs.map some := by
  rw [← List.forall₂_eq_eq_eq, List.forall₂_map_left_iff, List.forall₂_map_right_iff]

/-- Two lists of writer 2, the second one with a new value of a key of the first, and a list of
writer 3. -/
def threeLists (w : Fin kMaxWriter) : List (List Entry) :=
  if w = 2 then
    [[Store.entryOf [97] [98] 1 false, Store.entryOf [101] [98] 2 false],
      [Store.entryOf [97] [99] 3 false]]
  else if w = 3 then [[Store.entryOf [98] [] 4 true]]
  else []

theorem mergeAgrees_iff_threeLists :
    MergeAgrees (versionOf threeLists) [Store.entryOf [97] [99] 3 false,
      Store.entryOf [98] [] 4 true, Store.entryOf [101] [98] 2 false] := by
  have hall : ∀ w, ∀ es ∈ threeLists w, ∀ e ∈ es, e.key.bytes.length < 2 ^ 32 ∧
      e.value.bytes.length < 2 ^ 32 ∧ writerOf e.key.bytes = w := by decide +kernel
  have hs : ∀ w, ∀ es ∈ threeLists w, ∀ e ∈ es, e.Storable := by
    intro w es hes e he
    obtain ⟨hk, hv, -⟩ := hall w es hes e he
    exact ⟨by omega, by omega⟩
  have hroute := versionOf_routed hs fun w es hes e he => (hall w es hes e he).2.2
  have hocc : (versionOf threeLists).Occurs [98] :=
    versionOf_occurs (show [_] ∈ threeLists 3 from List.mem_singleton_self _) (by decide +kernel)
  obtain ⟨entries, h⟩ := (mergeAgrees_iff (fun w l hl => (versionOf_list hs hl).1) hroute
    ⟨_, hocc⟩).2 fun k hk => by
      obtain ⟨w, es, hes, e, he, rfl⟩ := versionOf_key hs hk
      exact (hall w es hes e he).1
  -- the merged slices decode to these entries only
  have heval : (MergeIterator.new (versionOf threeLists).list_).toList.map
      (fun it => decodeSlice it.2) = [Store.entryOf [97] [99] 3 false,
      Store.entryOf [98] [] 4 true, Store.entryOf [101] [98] 2 false].map some := by decide +kernel
  have hentries := forall₂_some.1 h.yields
  rw [heval] at hentries
  rwa [← List.map_injective_iff.2 (Option.some_injective _) hentries] at h

/-- One entry, in a list of its writer. -/
def oneEntry (e : Entry) (w : Fin kMaxWriter) : List (List Entry) :=
  if w = writerOf e.key.bytes then [[e]] else []

theorem mem_oneEntry {e e' : Entry} {w : Fin kMaxWriter} {es : List Entry} (hes : es ∈ oneEntry e w)
    (he : e' ∈ es) : e' = e ∧ writerOf e.key.bytes = w := by
  unfold oneEntry at hes
  split at hes
  · rename_i hw
    rw [List.mem_singleton.1 hes, List.mem_singleton] at he
    exact ⟨he, hw.symm⟩
  · cases hes

/-- A key whose length is cut off, and written in as many bytes as if it were not. -/
theorem long_key_not_mergeAgrees : ∃ v : Version SkipList, (∀ w, ∀ l ∈ v.list_ w, l.Built) ∧
    KeysRouted v.list_ ∧ (∃ k, v.Occurs k) ∧ ¬ ∃ entries, MergeAgrees v entries := by
  obtain ⟨key, hlen⟩ : ∃ key : Bytes, key.length = 2 ^ 32 + 2 ^ 28 :=
    ⟨List.replicate _ 0, List.length_replicate⟩
  set e := Store.entryOf key [] 1 false
  have hk : e.key.bytes = key := rfl
  have hv : e.value.bytes.length = 0 := rfl
  obtain ⟨slice, henc⟩ := exists_encodeMemEntry (e := e) (by rw [hk, hlen]; decide +kernel)
    (by rw [hv]; norm_num)
  have hs : ∀ w, ∀ es ∈ oneEntry e w, ∀ e' ∈ es, e'.Storable := by
    intro w es hes e' he'
    rw [(mem_oneEntry hes he').1]
    exact ⟨by rw [hk]; omega, by omega⟩
  have hroute := versionOf_routed hs fun w es hes e' he' => by
    rw [(mem_oneEntry hes he').1]
    exact (mem_oneEntry hes he').2
  have hocc : (versionOf (oneEntry e)).Occurs key := by
    refine versionOf_occurs (show [e] ∈ oneEntry e (writerOf key) from ?_) ?_
    · rw [oneEntry, if_pos (by rw [hk])]
      exact List.mem_singleton_self _
    · obtain ⟨l, hl⟩ : ∃ l, SkipList.empty.insert e = some l := by
        unfold SkipList.insert
        rw [henc]
        exact ⟨_, rfl⟩
      have hof : SkipList.ofEntries [e] = some l := by
        unfold SkipList.ofEntries
        rw [List.foldlM_cons, hl]
        rfl
      rw [hof, Option.bind_some, SkipList.insert_get hl, if_pos hk, henc]
      rfl
  refine ⟨_, fun w l hl => (versionOf_list hs hl).1, hroute, ⟨key, hocc⟩, fun ⟨entries, h⟩ => ?_⟩
  obtain ⟨entry, hmem, hkey⟩ := (h.keys key).2 hocc
  obtain ⟨it, -, hdec⟩ := forall₂_mem h.yields hmem
  have hcut := length_decodeSlice_lt hdec
  rw [hkey, hlen] at hcut
  omega

end Yangkv
