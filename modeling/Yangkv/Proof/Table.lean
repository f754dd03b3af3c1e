import Mathlib.Data.List.Induction
import Mathlib.Data.List.Infix
import Yangkv.Proof.Layout

/-!
# Writing a table file

A `TableBuilder` writes the blocks of its `Layout`.

* `TableOk`: what a builder has written and still holds back, as a layout.
* `flush_ok`, `Building.add`, `finish_ok`: the calls follow the layout, and no assertion
  fires.
-/

namespace Yangkv

open Lib

namespace TableBuilder

/-- The separators are not below the keys of their own blocks and below all later ones. -/
structure Separated (done : List Cut) (later : List (Bytes × Bytes)) : Prop where
  above : ∀ c ∈ done, ∀ e ∈ c.entries, (compare e.1 c.sep).isLE
  below : ∀ c ∈ done, ∀ e ∈ later, compare c.sep e.1 = .lt
  order : done.Pairwise fun c d =>
    compare c.sep d.sep = .lt ∧ ∀ e ∈ d.entries, compare c.sep e.1 = .lt

/-- A builder that has written and still holds back what the layout says. -/
structure TableOk (l : Layout) (r : TableBuilder) : Prop where
  none : r.options.compression = .kNoCompression
  interval : 1 ≤ r.options.block_restart_interval
  file : r.FileOk
  offset : r.offset = l.offset
  data : Laid r.options.block_restart_interval l.cur r.data_block
  index : Laid 1 l.index r.index_block
  held : ∀ c ∈ l.done, Holds r.file.stream c.handle c.entries
  cuts : ∀ c ∈ l.done, c.handle.Set ∧ c.sep.length < 2 ^ 32 ∧ c.entries ≠ []
  waiting : r.pending_index_entry = l.pend.isSome
  pending : ∀ h es, l.pend = some (h, es) →
    r.pending_handle = h ∧ l.cur = [] ∧ es ≠ [] ∧ Holds r.file.stream h es
  count : r.num_entries = l.added.length
  sorted : SortedKeys l.added
  short : ∀ e ∈ l.added, Short e
  separated : Separated l.done (l.pend.entries ++ l.cur)

/-- How much a builder has written and still holds back. -/
def weight (r : TableBuilder) : ℕ :=
  r.offset + r.data_block.currentSizeEstimate + r.index_block.currentSizeEstimate

variable {l : Layout} {r : TableBuilder}

theorem TableOk.apart (h : TableOk l r) : l.Apart := by
  cases hp : l.pend with
  | none => exact .inl hp
  | some p => exact .inr (h.pending p.1 p.2 hp).2.1

theorem TableOk.cur_short (h : TableOk l r) : ∀ e ∈ l.cur, Short e :=
  fun e he => h.short e (List.mem_append_right _ (List.mem_append_right _ he))

theorem TableOk.data_ok (h : TableOk l r) : BlockOk r.options.block_restart_interval l.cur r.data_block :=
  h.data.ok h.interval h.cur_short

theorem TableOk.index_short (h : TableOk l r) : ∀ e ∈ l.index, Short e := by
  intro e he
  obtain ⟨c, hc, rfl⟩ := List.mem_map.1 he
  obtain ⟨hset, hsep, -⟩ := h.cuts c hc
  have hbytes : c.handle.bytes.length ≤ 20 := BlockHandle.length_bytes_le hset
  exact ⟨hsep, show c.handle.bytes.length < 2 ^ 32 by omega⟩

theorem TableOk.index_ok (h : TableOk l r) : BlockOk 1 l.index r.index_block :=
  h.index.ok le_rfl h.index_short

/-- The file grows by a block that is no data block. -/
theorem TableOk.grow (h : TableOk l r) {file : WritableFile} {more : Bytes} {offset : ℕ}
    (hf : file.NoFail) (hb : file.buf.length ≤ kWritableFileBufferSize)
    (hs : file.stream = r.file.stream ++ more) (ho : offset = r.offset + more.length) :
    TableOk { l with offset := offset } { r with file := file, offset := offset } := by
  refine { h with
    file := ⟨hf, hb, h.file.status, ?_⟩
    offset := rfl
    held := fun c hc => ?_
    pending := fun hd es hp => ?_ }
  · show file.stream.length = offset
    rw [hs, List.length_append, h.file.offset, ho]
  · show Holds file.stream _ _
    rw [hs]; exact (h.held c hc).append more
  · obtain ⟨h1, h2, h3, h4⟩ := h.pending hd es hp
    refine ⟨h1, h2, h3, ?_⟩
    show Holds file.stream _ _
    rw [hs]; exact h4.append more

/-- **`Flush` cuts the block that is being filled**, if it has entries. -/
theorem flush_ok (h : TableOk l r) (hc : r.closed = false) :
    ∃ r', r.flush = some r' ∧ TableOk (l.flush r.options.block_restart_interval) r' ∧
      r'.options = r.options ∧ r'.last_key = r.last_key ∧ r'.closed = false ∧
      r'.weight ≤ r.weight + 13 := by
  unfold flush
  rw [hc, if_neg (by simp), if_neg (not_not.2 h.file.status)]
  rcases eq_or_ne l.cur [] with hcur | hne
  · rw [if_pos (h.data_ok.empty_iff.2 hcur), Layout.flush, if_pos hcur]
    exact ⟨r, rfl, h, rfl, rfl, hc, Nat.le_add_right _ _⟩
  rw [if_neg fun he => hne (h.data_ok.empty_iff.1 he)]
  -- a block is only filled while none waits
  have hpend : l.pend = Option.none := h.apart.resolve_right hne
  rw [h.waiting, hpend, if_neg (by simp)]
  obtain ⟨file, h1, h2, h3, h4, h5⟩ := writeBlock_ok h.file h.none h.data_ok h.cur_short
  obtain ⟨file', g1, g2, g3, g4⟩ := WritableFile.flush_ok h2
  have hfile : file'.stream = file.stream := by
    rw [WritableFile.stream, g3, List.append_nil, g2]
  rw [h1]
  simp only [Option.bind_eq_bind, Option.bind_some, h.file.status, if_true, g1]
  refine ⟨_, rfl, ?_, rfl, rfl, hc, ?_⟩
  · have hadd := Layout.added_flush h.apart r.options.block_restart_interval
    have hsize := h.data.size
    rw [Layout.flush, if_neg hne] at hadd ⊢
    refine
      { none := h.none
        interval := h.interval
        file := ⟨g4, ?_, rfl, ?_⟩
        offset := by
          show r.offset + r.data_block.currentSizeEstimate + _ = _
          rw [h.offset, hsize]
        data := h.data.reset h.interval
        index := h.index
        held := fun c hcm => ?_
        cuts := h.cuts
        waiting := rfl
        pending := ?_
        count := ?_
        sorted := by rw [hadd]; exact h.sorted
        short := by rw [hadd]; exact h.short
        separated := ?_ }
    · show file'.buf.length ≤ _
      rw [g3]; exact Nat.zero_le _
    · show file'.stream.length = _
      rw [hfile, h4, List.length_append, List.length_append, h.file.offset,
        BlockBuilder.length_finish, length_trailer, Nat.add_assoc]
    · show Holds file'.stream _ _
      rw [hfile, h4]; exact (h.held c hcm).append _
    · rintro hd es ⟨⟩
      rw [← h.offset, ← hsize]
      refine ⟨rfl, rfl, hne, ?_⟩
      show Holds file'.stream _ _
      rw [hfile]; exact h5
    · show r.num_entries = _
      rw [hadd]; exact h.count
    · have := h.separated
      rw [hpend] at this
      simpa [Pend.entries] using this
  · show r.offset + r.data_block.currentSizeEstimate + 5 + 8 + r.index_block.currentSizeEstimate ≤
      r.offset + r.data_block.currentSizeEstimate + r.index_block.currentSizeEstimate + 13
    omega

/-- A waiting block's handle can be encoded. -/
theorem TableOk.pending_set {hd : BlockHandle} {es : List (Bytes × Bytes)} (h : TableOk l r)
    (hp : l.pend = some (hd, es)) (ho : r.offset < 2 ^ 64 - 1) : hd.Set := by
  have := (h.pending hd es hp).2.2.2.inside
  rw [h.file.offset] at this
  constructor <;> omega

/-- **The waiting block gets a separator** that is not below its keys. -/
theorem addIndexEntry_ok {hd : BlockHandle} {es : List (Bytes × Bytes)} (h : TableOk l r)
    (hp : l.pend = some (hd, es)) (sep : Bytes) (ho : r.offset < 2 ^ 64 - 1)
    (hl : sep.length < 2 ^ 32) (hsep : ∀ e ∈ es, (compare e.1 sep).isLE) :
    ∃ index_block, r.addIndexEntry sep =
        some { r with last_key := sep, index_block := index_block, pending_index_entry := false } ∧
      TableOk (l.settle sep)
        { r with last_key := sep, index_block := index_block, pending_index_entry := false } ∧
      index_block.currentSizeEstimate < r.index_block.currentSizeEstimate + 2 ^ 32 + 39 := by
  have hset := h.pending_set hp ho
  obtain ⟨hph, hcur, hne, hheld⟩ := h.pending hd es hp
  have hbytes : hd.bytes.length ≤ 20 := BlockHandle.length_bytes_le hset
  have hshort : Short (sep, hd.bytes) := ⟨hl, show hd.bytes.length < 2 ^ 32 by omega⟩
  -- the separators before are below the keys of the block
  have hbelow : ∀ c ∈ l.done, compare c.sep sep = .lt ∧ ∀ e ∈ es, compare c.sep e.1 = .lt := by
    intro c hc
    have hall : ∀ e ∈ es, compare c.sep e.1 = .lt := fun e he => by
      refine h.separated.below c hc e (List.mem_append_left _ ?_)
      rw [hp]
      exact he
    obtain ⟨e, he⟩ := List.exists_mem_of_ne_nil es hne
    exact ⟨Std.TransCmp.lt_of_lt_of_isLE (hall e he) (hsep e he), hall⟩
  have hlast : ∀ e, l.index.getLast? = some e → compare e.1 sep = .lt := fun e he => by
    obtain ⟨c, hc, rfl⟩ := List.mem_map.1 (List.mem_of_getLast? he)
    exact (hbelow c hc).1
  obtain ⟨index_block, h1, h2⟩ := h.index.add le_rfl hlast hd.bytes
  obtain ⟨index_block', h1', -, h3⟩ := h.index_ok.add hshort hlast
  obtain rfl := Option.some.inj (h1.symm.trans h1')
  have hadd := Layout.added_settle sep l
  rw [Layout.settle_some hp] at hadd ⊢
  refine ⟨index_block, ?_, ?_, by omega⟩
  · unfold addIndexEntry
    rw [hph, BlockHandle.encodeTo_set hset]
    simp only [Option.bind_eq_bind, Option.bind_some, h1]
  · refine
      { none := h.none
        interval := h.interval
        file := ⟨h.file.noFail, h.file.buf, h.file.status, h.file.offset⟩
        offset := h.offset
        data := h.data
        index := ?_
        held := fun c hc => ?_
        cuts := fun c hc => ?_
        waiting := rfl
        pending := fun _ _ hp => (by cases hp)
        count := ?_
        sorted := by rw [hadd]; exact h.sorted
        short := by rw [hadd]; exact h.short
        separated := ⟨fun c hc => ?_, fun _ _ _ he => ?_, ?_⟩ }
    · show Laid 1 (List.map _ (l.done ++ _)) _
      rw [List.map_append]; exact h2
    · rcases List.mem_append.1 hc with hc | hc
      · exact h.held c hc
      · rw [List.mem_singleton.1 hc]; exact hheld
    · rcases List.mem_append.1 hc with hc | hc
      · exact h.cuts c hc
      · rw [List.mem_singleton.1 hc]; exact ⟨hset, hl, hne⟩
    · show r.num_entries = _
      rw [hadd]; exact h.count
    · rcases List.mem_append.1 hc with hc | hc
      · exact h.separated.above c hc
      · rw [List.mem_singleton.1 hc]; exact hsep
    · rw [hcur] at he; cases he
    · refine List.pairwise_append.2 ⟨h.separated.order, List.pairwise_singleton _ _, ?_⟩
      intro c hc d hd'
      rw [List.mem_singleton.1 hd']
      exact hbelow c hc

theorem TableOk.added_ne (h : TableOk l r) (hp : l.pend ≠ Option.none) : l.added ≠ [] := by
  obtain ⟨p, hp⟩ := Option.ne_none_iff_exists'.1 hp
  intro hnil
  obtain ⟨-, hnil⟩ := List.append_eq_nil_iff.1 hnil
  rw [hp] at hnil
  exact (h.pending p.1 p.2 hp).2.2.1 (List.append_eq_nil_iff.1 hnil).1

/-- The separators of the finished blocks are below every key above the last one. -/
theorem TableOk.done_lt (h : TableOk l r) {key : Bytes}
    (hstart : l.pend = Option.none → l.cur = [] → l.done = [])
    (hlt : ∀ e, l.added.getLast? = some e → compare e.1 key = .lt) :
    ∀ c ∈ l.done, compare c.sep key = .lt := by
  intro c hc
  -- a block is cut only for a later one, so there is a later entry
  have hne : l.pend.entries ++ l.cur ≠ [] := by
    intro hnil
    obtain ⟨hpnil, hcur⟩ := List.append_eq_nil_iff.1 hnil
    cases hp : l.pend with
    | none => rw [hstart hp hcur] at hc; cases hc
    | some p =>
      rw [hp] at hpnil
      exact (h.pending p.1 p.2 hp).2.2.1 hpnil
  obtain ⟨e, he⟩ := List.exists_mem_of_ne_nil _ hne
  exact Std.TransCmp.lt_trans (h.separated.below c hc e he)
    (h.sorted.lt_of_getLast hlt (List.mem_append_right _ he))

/-- Whether a block waits or not, behind its index entry none does. -/
theorem settle_ok (h : TableOk l r) (ho : r.offset < 2 ^ 64 - 1) (hl : r.last_key = l.lastKey)
    (sep : Bytes) (hsep : l.pend ≠ Option.none →
      (compare r.last_key sep).isLE ∧ sep.length ≤ r.last_key.length) :
    ∃ r', (if r.pending_index_entry then r.addIndexEntry sep else some r) = some r' ∧
      TableOk (l.settle sep) r' ∧ r'.options = r.options ∧ r'.closed = r.closed ∧
      r'.offset = r.offset ∧ r'.file = r.file ∧ r'.data_block = r.data_block ∧
      r'.index_block.currentSizeEstimate < r.index_block.currentSizeEstimate + 2 ^ 32 + 39 := by
  rw [h.waiting]
  cases hp : l.pend with
  | none =>
    rw [Layout.settle_none hp]
    exact ⟨r, rfl, h, rfl, rfl, rfl, rfl, rfl, by omega⟩
  | some p =>
    obtain ⟨hd, es⟩ := p
    obtain ⟨hge, hlen⟩ := hsep (by rw [hp]; simp)
    -- the last key added is the last one of the waiting block
    obtain ⟨z, hz⟩ : ∃ z, l.added.getLast? = some z :=
      ⟨_, List.getLast?_eq_some_getLast (h.added_ne (by rw [hp]; simp))⟩
    have hlk : r.last_key = z.1 := by rw [hl, Layout.lastKey, lastKey_of_getLast? hz]
    rw [hlk] at hge hlen
    have hzs := h.short z (List.mem_of_getLast? hz)
    obtain ⟨index_block, g1, g2, g3⟩ := addIndexEntry_ok h hp sep ho (lt_of_le_of_lt hlen hzs.1)
      fun e he => by
        have hmem : e ∈ l.added := by simp [Layout.added, hp, Pend.entries, he]
        exact Std.TransCmp.isLE_trans (h.sorted.le_getLast hmem hz) hge
    exact ⟨_, g1, g2, rfl, rfl, rfl, rfl, rfl, g3⟩

/-- The block being filled takes a larger key. -/
theorem addEntry_ok (h : TableOk l r) (hp : l.pend = Option.none) {key value : Bytes}
    (hs : Short (key, value)) (hlt : ∀ e, l.added.getLast? = some e → compare e.1 key = .lt)
    (hsep : ∀ c ∈ l.done, compare c.sep key = .lt) :
    ∃ data_block, r.data_block.add key value = some data_block ∧
      TableOk (l.take key value)
        { r with
            last_key := key
            num_entries := r.num_entries + 1
            data_block := data_block } ∧
      data_block.currentSizeEstimate < r.data_block.currentSizeEstimate + 2 ^ 33 + 19 := by
  have hadd := Layout.added_take key value l
  have hlast : ∀ e, l.cur.getLast? = some e → compare e.1 key = .lt := fun e he => hlt e (by
    rw [Layout.added, hp, Pend.entries, Option.elim_none, List.nil_append, List.getLast?_append, he,
      Option.some_or])
  obtain ⟨data_block, h1, h2⟩ := h.data.add h.interval hlast value
  obtain ⟨data_block', h1', -, h3⟩ := h.data_ok.add hs hlast
  obtain rfl := Option.some.inj (h1.symm.trans h1')
  have hs1 : key.length < 2 ^ 32 := hs.1
  have hs2 : value.length < 2 ^ 32 := hs.2
  refine ⟨data_block, h1, ?_, by omega⟩
  refine
    { none := h.none
      interval := h.interval
      file := ⟨h.file.noFail, h.file.buf, h.file.status, h.file.offset⟩
      offset := h.offset
      data := h2
      index := h.index
      held := h.held
      cuts := h.cuts
      waiting := h.waiting
      pending := fun _ _ hsome => (by rw [show (l.take key value).pend = l.pend from rfl, hp] at hsome; cases hsome)
      count := ?_
      sorted := by rw [hadd]; exact h.sorted.snoc hlt
      short := fun e he => ?_
      separated := ⟨h.separated.above, fun c hc e he => ?_, h.separated.order⟩ }
  · show r.num_entries + 1 = _
    rw [hadd, List.length_append, ← h.count]; rfl
  · rw [hadd] at he
    rcases List.mem_append.1 he with he | he
    · exact h.short e he
    · rw [List.mem_singleton.1 he]; exact hs
  · rcases List.mem_append.1 he with he | he
    · exact h.separated.below c hc e (List.mem_append_left _ he)
    rcases List.mem_append.1 he with he | he
    · exact h.separated.below c hc e (List.mem_append_right _ he)
    · rw [List.mem_singleton.1 he]; exact hsep c hc

/-! ## Calls -/

/-- A builder after the calls with this layout. -/
structure Building (options : Options) (l : Layout) (r : TableBuilder) : Prop where
  ok : TableOk l r
  options : r.options = options
  start : l.pend = none → l.cur = [] → l.done = []
  last : r.last_key = l.lastKey
  closed : r.closed = false

variable {options : Options}

theorem Building.flush (h : Building options l r) :
    ∃ r', r.flush = some r' ∧ Building options (l.flush options.block_restart_interval) r' ∧
      r'.weight ≤ r.weight + 13 := by
  obtain ⟨r', g1, g2, g3, g4, g5, g6⟩ := flush_ok h.ok h.closed
  rw [h.options] at g2
  refine ⟨r', g1, ⟨g2, g3.trans h.options, fun hp _ => ?_, ?_, g5⟩, g6⟩
  · by_cases hcur : l.cur = []
    · rw [Layout.flush, if_pos hcur] at hp ⊢
      exact h.start hp hcur
    · rw [Layout.flush, if_neg hcur] at hp
      cases hp
  · rw [g4, h.last, Layout.lastKey, Layout.lastKey, Layout.added_flush h.ok.apart]

theorem Building.add (h : Building options l r) {key value : Bytes} (ho : r.offset < 2 ^ 64 - 1)
    (hs : Short (key, value)) (hlt : ∀ e, l.added.getLast? = some e → compare e.1 key = .lt) :
    ∃ r', r.add key value = some r' ∧ Building options (l.add options key value) r' ∧
      r'.weight ≤ r.weight + 2 ^ 34 := by
  obtain ⟨hok, hoptions, hstart, hlast, hclosed⟩ := h
  have hassert : ¬ (0 < r.num_entries ∧ sliceCompare key r.last_key ≠ .gt) := by
    rintro ⟨hpos, hcmp⟩
    rw [hok.count, List.length_pos_iff] at hpos
    rw [sliceCompare_eq, hlast] at hcmp
    exact hcmp (Std.OrientedCmp.gt_of_lt (lastKey_lt hpos hlt))
  have hdone := hok.done_lt hstart hlt
  -- the last key is below the new one, and with it the separator
  have hbetween : l.pend ≠ Option.none → compare r.last_key key = .lt := by
    intro hp
    rw [hlast]
    exact lastKey_lt (hok.added_ne hp) hlt
  set sep := findShortestSeparator r.last_key key with hsep
  obtain ⟨r', h1, h2, h3, h5, hoff, -, hdb, hidx⟩ :=
    settle_ok hok ho hlast sep fun hp =>
      ⟨(findShortestSeparator_spec (hbetween hp)).1, length_findShortestSeparator_le _ _⟩
  have h4 : ∀ c ∈ (l.settle sep).done, compare c.sep key = .lt := by
    intro c hc
    rcases Layout.mem_settle hc with hc | ⟨hp, hc⟩
    · exact hdone c hc
    · rw [hc]; exact (findShortestSeparator_spec (hbetween hp)).2
  have h6 : r'.weight ≤ r.weight + 2 ^ 32 + 39 := by
    unfold weight
    rw [hoff, hdb]
    omega
  -- the assertion that no block is being filled while one waits
  have hif : (if r.pending_index_entry then
      if r.data_block.empty then r.addIndexEntry sep else Option.none
      else some r) = some r' := by
    rw [← h1]
    split
    · rename_i hp
      rw [hok.waiting] at hp
      obtain ⟨p, hp⟩ := Option.isSome_iff_exists.1 hp
      rw [if_pos (hok.data_ok.empty_iff.2 (hok.pending p.1 p.2 hp).2.1)]
    · rfl
  have hlt' : ∀ e, (l.settle sep).added.getLast? = some e → compare e.1 key = .lt := by
    rw [Layout.added_settle]
    exact hlt
  obtain ⟨data_block, g1, g2, g3⟩ := addEntry_ok h2 (Layout.settle_pend sep l) hs hlt' h4
  have hb : Building options ((l.settle sep).take key value)
      { r' with
          last_key := key
          num_entries := r'.num_entries + 1
          data_block := data_block } := by
    refine ⟨g2, h3.trans hoptions, fun _ hc => ?_, ?_, h5.trans hclosed⟩
    · exact absurd hc (by simp [Layout.take])
    · show key = Layout.lastKey _
      rw [Layout.lastKey, Layout.added_take, lastKey_snoc]
  have hw : weight { r' with
      last_key := key
      num_entries := r'.num_entries + 1
      data_block := data_block } ≤ r.weight + 2 ^ 32 + 39 + (2 ^ 33 + 19) := by
    unfold weight at h6 ⊢
    dsimp only
    omega
  -- the builder and the layout cut after the same entries
  have hcut : r'.options.block_size ≤ data_block.currentSizeEstimate ↔ options.block_size ≤
      blockSize options.block_restart_interval ((l.settle sep).take key value).cur := by
    have hsize := g2.data.size
    dsimp only at hsize
    rw [hsize, h3.trans hoptions]
  unfold TableBuilder.add Layout.add
  rw [hclosed, if_neg (by simp), if_neg (not_not.2 hok.file.status), if_neg hassert]
  rw [← hlast, ← hsep]
  simp only [Option.bind_eq_bind, hif, Option.bind_some, g1]
  by_cases hfull : options.block_size ≤
      blockSize options.block_restart_interval ((l.settle sep).take key value).cur
  · obtain ⟨r'', k1, k2, k3⟩ := hb.flush
    rw [if_pos (hcut.2 hfull), if_pos hfull]
    exact ⟨r'', k1, k2, by omega⟩
  · rw [if_neg (mt hcut.1 hfull), if_neg hfull]
    exact ⟨_, rfl, hb, by omega⟩

theorem Building.new {file : WritableFile} (hk : 1 ≤ options.block_restart_interval)
    (hc : options.compression = .kNoCompression) (hf : file.NoFail) (hs : file.stream = []) :
    ∃ r, new options file = some r ∧ Building options .empty r ∧ r.weight = 16 := by
  have hnew : BlockBuilder.new options.block_restart_interval =
      some ⟨options.block_restart_interval, [], [0], 0, false, []⟩ := if_pos hk
  have hbuf : file.buf = [] := (List.append_eq_nil_iff.1 hs).2
  unfold TableBuilder.new
  simp only [hnew, Option.bind_eq_bind, Option.bind_some]
  refine ⟨_, rfl, ⟨?_, rfl, fun _ _ => rfl, rfl, rfl⟩, rfl⟩
  exact
    { none := hc
      interval := hk
      file := ⟨hf, by rw [hbuf]; exact Nat.zero_le _, rfl, by rw [hs]; rfl⟩
      offset := rfl
      data := (Fresh.laid (.inl hnew)).2
      index := ⟨rfl, rfl, rfl, rfl, rfl, rfl⟩
      held := fun c h => absurd h List.not_mem_nil
      cuts := fun c h => absurd h List.not_mem_nil
      waiting := rfl
      pending := fun _ _ h => by cases h
      count := rfl
      sorted := List.Pairwise.nil
      short := fun e h => absurd h List.not_mem_nil
      separated := ⟨fun c h => absurd h List.not_mem_nil, fun c h => absurd h List.not_mem_nil,
        List.Pairwise.nil⟩ }

theorem run_snoc (options : Options) (file : WritableFile) (calls : List Call) (c : Call) :
    run options file (calls ++ [c]) = (run options file calls).bind (call · c) := by
  unfold run
  cases new options file with
  | none => rfl
  | some r => simp [List.foldlM_append]

/-- **The builder follows the layout and no assertion fires**, whatever the calls are. -/
theorem Building.run {file : WritableFile} (hk : 1 ≤ options.block_restart_interval)
    (hc : options.compression = .kNoCompression) (hf : file.NoFail) (hs : file.stream = []) :
    ∀ {calls : List Call}, SortedKeys (addsOf calls) → (∀ e ∈ addsOf calls, Short e) →
    (∀ before r, before <+: calls → run options file before = some r →
      r.weight ≤ 16 + 2 ^ 34 * before.length → r.offset < 2 ^ 64 - 1) →
    ∃ r, run options file calls = some r ∧ Building options (.of options calls) r ∧
      r.weight ≤ 16 + 2 ^ 34 * calls.length := by
  intro calls
  induction calls using List.reverseRecOn with
  | nil =>
    intro _ _ _
    obtain ⟨r, h1, h2, h3⟩ := Building.new hk hc hf hs
    exact ⟨r, by simp [TableBuilder.run, h1], h2, h3.le⟩
  | append_singleton calls c ih =>
    intro hsorted hshort hsize
    have hadds : addsOf (calls ++ [c]) = addsOf calls ++ addsOf [c] := List.filterMap_append
    rw [hadds] at hsorted hshort
    obtain ⟨r, h1, h2, h3⟩ := ih (List.pairwise_append.1 hsorted).1
      (fun e he => hshort e (List.mem_append_left _ he))
      (fun before r hb hr => hsize before r (hb.trans (List.prefix_append _ _)) hr)
    rw [run_snoc, h1, Option.bind_some, List.length_append, List.length_singleton,
      Layout.of_snoc]
    cases c with
    | flush =>
      obtain ⟨r', g1, g2, g3⟩ := h2.flush
      exact ⟨r', g1, g2, by omega⟩
    | add key value =>
      have hlast : ∀ e, (Layout.of options calls).added.getLast? = some e →
          compare e.1 key = .lt := fun e he => by
        rw [Layout.added_of] at he
        exact (List.pairwise_append.1 hsorted).2.2 e (List.mem_of_getLast? he) _
          (List.mem_singleton_self _)
      obtain ⟨r', g1, g2, g3⟩ := h2.add (hsize calls r (List.prefix_append _ _) h1 h3)
        (hshort _ (List.mem_append_right _ (List.mem_singleton_self _))) hlast
      refine ⟨r', g1, g2, g3.trans ?_⟩
      rw [Nat.mul_succ, ← Nat.add_assoc]
      exact Nat.add_le_add_right h3 _

/-! ## The finished file -/

/-- A table file with the blocks of a finished layout. -/
structure Written (l : Layout) (footer : Footer) (file : Bytes) : Prop where
  ends : ∃ front, file = front ++ footer.bytes
  metaindex : footer.metaindex_handle_.Set ∧ footer.metaindex_handle_.size_ = 8 ∧
    Holds file footer.metaindex_handle_ []
  index : footer.index_handle_.Set ∧ footer.index_handle_.size_ = blockSize 1 l.index ∧
    Holds file footer.index_handle_ l.index
  held : ∀ c ∈ l.done, c.handle.Set ∧ c.entries ≠ [] ∧ Holds file c.handle c.entries
  separated : Separated l.done []

/-- **`Finish` leaves a table file with the blocks of the layout.** -/
theorem finish_ok (h : Building options l r) (hf : r.weight < 2 ^ 63) :
    ∃ r' footer, r.finish = some r' ∧ r'.FileOk ∧
      Written (l.finish options.block_restart_interval) footer r'.file.stream ∧
      r'.fileSize = (l.finish options.block_restart_interval).fileSize ∧
      r'.fileSize ≤ r.weight + 2 ^ 33 := by
  set k := options.block_restart_interval with hk'
  obtain ⟨r₁, a1, a2, a6⟩ := h.flush
  rw [← hk'] at a2
  have hw : r₁.offset + r₁.data_block.currentSizeEstimate + r₁.index_block.currentSizeEstimate ≤
    r.weight + 13 := a6
  have hint : r₁.options.block_restart_interval = k := by rw [a2.options]
  have ha2 : TableOk (l.flush k) { r₁ with closed := true } :=
    { a2.ok with file := ⟨a2.ok.file.noFail, a2.ok.file.buf, a2.ok.file.status, a2.ok.file.offset⟩ }
  -- the metaindex block
  have hpos : 1 ≤ k := hint ▸ a2.ok.interval
  obtain ⟨b, b1, b2⟩ := BlockOk.new hpos
  have hb : b.currentSizeEstimate = 8 := by
    unfold BlockBuilder.new at b1
    rw [if_pos hpos] at b1
    cases b1; rfl
  obtain ⟨file₂, c1, c2, c3, c4, c5⟩ := writeBlock_ok ha2.file ha2.none b2
    fun e he => absurd he List.not_mem_nil
  have hgrow := ha2.grow c2 c3 c4 (by
    rw [List.length_append, BlockBuilder.length_finish, length_trailer, ← Nat.add_assoc])
  -- the last index entry and the index block
  have h5 : kBlockTrailerSize = 5 := rfl
  have ho : r₁.offset + b.currentSizeEstimate + kBlockTrailerSize < 2 ^ 64 - 1 := by omega
  obtain ⟨r₃, d1, d2, -, -, hoff, d4, -, hidx⟩ := settle_ok hgrow ho a2.last
    (findShortSuccessor r₁.last_key)
    fun _ => ⟨findShortSuccessor_spec _, length_findShortSuccessor_le _⟩
  have hd5 : r₃.offset = r₁.offset + b.currentSizeEstimate + kBlockTrailerSize := hoff
  have hd6 : r₃.index_block.currentSizeEstimate <
      r₁.index_block.currentSizeEstimate + 2 ^ 32 + 39 := hidx
  have hlay : Layout.settle (findShortSuccessor r₁.last_key)
      { l.flush k with offset := r₁.offset + b.currentSizeEstimate + kBlockTrailerSize } =
      l.finish k := by
    rw [Layout.settle_at, a2.last, a2.ok.offset, hb]
    rfl
  rw [hlay] at d2
  obtain ⟨file₄, e1, e2, e3, e4, e5⟩ := writeBlock_ok d2.file d2.none d2.index_ok d2.index_short
  have hgrow' := d2.grow e2 e3 e4 (by
    rw [List.length_append, BlockBuilder.length_finish, length_trailer, ← Nat.add_assoc])
  -- the footer
  have hmeta : BlockHandle.Set ⟨r₁.offset, b.currentSizeEstimate⟩ := by
    constructor <;> dsimp only <;> omega
  have hindex : BlockHandle.Set ⟨r₃.offset, r₃.index_block.currentSizeEstimate⟩ := by
    constructor <;> dsimp only <;> omega
  obtain ⟨file₅, g1, g2, g3, g4⟩ := WritableFile.append_ok e2 e3
    (Footer.bytes ⟨⟨r₁.offset, b.currentSizeEstimate⟩, ⟨r₃.offset, r₃.index_block.currentSizeEstimate⟩⟩)
  have hlen := Footer.length_bytes (f := ⟨_, _⟩) hmeta hindex
  have hdata := hgrow'.grow g4 g3 g2 rfl
  set footer : Footer := ⟨⟨r₁.offset, b.currentSizeEstimate⟩,
    ⟨r₃.offset, r₃.index_block.currentSizeEstimate⟩⟩ with hfooter
  refine ⟨{ r₃ with
      file := file₅
      offset := r₃.offset + r₃.index_block.currentSizeEstimate + kBlockTrailerSize +
        footer.bytes.length
      status := .ok
      index_block := r₃.index_block.finish.reset }, footer, ?_, ⟨g4, g3, rfl, ?_⟩, ?_, ?_, ?_⟩
  · unfold finish
    simp only [Option.bind_eq_bind, a1, Option.bind_some, a2.closed, Bool.false_eq_true, if_false]
    rw [if_neg (not_not.2 ha2.file.status), hint, b1]
    simp only [Option.bind_some, c1]
    rw [if_neg (not_not.2 ha2.file.status), d1]
    simp only [Option.bind_some, e1]
    rw [if_neg (not_not.2 d2.file.status), Footer.encodeTo_bytes hmeta hindex]
    simp only [Option.bind_some]
    rw [← hfooter, g1]
    rfl
  · exact hdata.file.offset
  · refine ⟨⟨_, g2⟩, ⟨hmeta, hb, ?_⟩, ⟨hindex, d2.index.size, ?_⟩, fun c hc =>
      ⟨(d2.cuts c hc).1, (d2.cuts c hc).2.2, hdata.held c hc⟩, ?_⟩
    · rw [g2, e4, d4]; exact (c5.append _).append _
    · rw [g2]; exact e5.append _
    · have hsep := d2.separated
      have hpend : (l.finish k).pend = Option.none := Layout.settle_pend _ _
      have hcur : (l.finish k).cur = [] := (Layout.settle_cur _ _).trans (Layout.flush_cur k l)
      rw [hpend, hcur] at hsep
      exact hsep
  · show r₃.offset + r₃.index_block.currentSizeEstimate + kBlockTrailerSize + footer.bytes.length = _
    rw [hlen, d2.offset, d2.index.size]
    rfl
  · show r₃.offset + r₃.index_block.currentSizeEstimate + kBlockTrailerSize + footer.bytes.length ≤ _
    have hfoot : Footer.kEncodedLength = 48 := rfl
    omega

/-- **`Finish` after any calls** with increasing keys leaves the table of their layout. -/
theorem build_ok {file : WritableFile} (hk : 1 ≤ options.block_restart_interval)
    (hc : options.compression = .kNoCompression) (hf : file.NoFail) (hs : file.stream = [])
    {calls : List Call} (hsorted : SortedKeys (addsOf calls)) (hshort : ∀ e ∈ addsOf calls, Short e)
    (hweight : ∀ before r, before <+: calls → run options file before = some r →
      r.weight ≤ 16 + 2 ^ 34 * before.length → r.weight + 2 ^ 34 ≤ 2 ^ 63) :
    ∃ r footer, build options file calls = some r ∧ r.FileOk ∧
      Written ((Layout.of options calls).finish options.block_restart_interval) footer
        r.file.stream ∧
      r.fileSize = ((Layout.of options calls).finish options.block_restart_interval).fileSize ∧
      r.fileSize < 2 ^ 63 := by
  obtain ⟨r, h1, h2, h3⟩ := Building.run hk hc hf hs hsorted hshort fun before r hb hr hw => by
    have := hweight before r hb hr hw
    unfold weight at this
    omega
  have hw := hweight calls r (List.prefix_refl _) h1 h3
  obtain ⟨r', footer, g1, g2, g3, g4, g5⟩ := finish_ok h2 (by omega)
  refine ⟨r', footer, ?_, g2, g3, g4, by omega⟩
  unfold build
  rw [h1]
  exact g1

end TableBuilder

end Yangkv
