import Yangkv.Proof.Table

/-!
# Reading a table file

The file that `Finish` leaves holds every block of its layout. `ReadBlock` makes one
`::pread` for a block, so it reads those that one `::pread` moves.

* `Written.readWith`: the blocks are those of the layout for every reader that finds them.
* `Written.small_of_read`: `ReadBlock` finds small blocks alone.
* `table_reads_back_iff`: what `Finish` leaves reads back as what was added if and only if
  no block is too large.
-/

namespace Yangkv

open Lib

/-- The first block whose separator is not below the key of an entry holds the entry. -/
def LeadsTo (table : List (Bytes × List (Bytes × Bytes))) : Prop :=
  ∀ e ∈ table.flatMap Prod.snd,
    ∃ t, table.find? (fun t => sliceCompare e.1 t.1 ≠ .gt) = some t ∧ e ∈ t.2

namespace TableBuilder

/-- The file of a finished builder is a table of the entries `adds`, where `read` gives the block of
a handle. -/
structure TableOf (read : BlockHandle → Option Bytes) (adds : List (Bytes × Bytes))
    (r : TableBuilder) : Prop where
  status : r.status = .ok
  fileSize : r.fileSize = r.file.stream.length
  /-- the last bytes are a footer, and its metaindex block is empty -/
  footer : ∃ footer contents,
    Footer.decodeFrom (r.file.stream.drop (r.file.stream.length - Footer.kEncodedLength)) =
      some footer ∧
    read footer.metaindex_handle_ = some contents ∧ (Block.new contents).entries = some []
  /-- the blocks of the index hold the entries, each behind the separators below it -/
  table : ∃ table, readTableWith read r.file.stream = some table ∧ SortedKeys table ∧
    table.flatMap Prod.snd = adds ∧ LeadsTo table

/-- The file holds the table. -/
def Stored (adds : List (Bytes × Bytes)) (r : TableBuilder) : Prop :=
  TableOf (blockAt r.file.stream) adds r

/-- `ReadBlock` reads the table. -/
def ReadsBack (adds : List (Bytes × Bytes)) (r : TableBuilder) : Prop :=
  TableOf (readBlock r.file.stream) adds r

variable {l : Layout} {footer : Footer} {file : Bytes} {read : BlockHandle → Option Bytes}

/-! ## What a reader finds -/

theorem Written.decodeFooter (h : Written l footer file) :
    Footer.decodeFrom (file.drop (file.length - Footer.kEncodedLength)) = some footer := by
  obtain ⟨front, rfl⟩ := h.ends
  have hlen := Footer.length_bytes h.metaindex.1 h.index.1
  rw [List.drop_left' (by rw [List.length_append, hlen, Nat.add_sub_cancel])]
  exact Footer.decodeFrom_bytes h.metaindex.1 h.index.1

theorem Holds.entries {hd : BlockHandle} {es : List (Bytes × Bytes)} (h : Holds file hd es)
    (hc : es.length + 1 < 2 ^ 32) :
    ∃ contents, blockAt file hd = some contents ∧ (Block.new contents).entries = some es := by
  obtain ⟨contents, h1, h2⟩ := h.block hc
  exact ⟨contents, by simpa using h1 [], h2⟩

/-- `ReadBlock` reads the block if one `::pread` moves it. -/
theorem Holds.readBlock {hd : BlockHandle} {es : List (Bytes × Bytes)} (h : Holds file hd es)
    (hs : file.length < 2 ^ 63) : readBlock file hd =
      if hd.size_ + kBlockTrailerSize ≤ maxRwCount then blockAt file hd else none := by
  have := h.inside
  exact readBlock_eq (by omega)

theorem mapM_map_of_forall {α β γ : Type} {f : α → Option β} {g : γ → α} {h : γ → β} {xs : List γ}
    (hf : ∀ x ∈ xs, f (g x) = some (h x)) : (xs.map g).mapM f = some (xs.map h) := by
  induction xs with
  | nil => rfl
  | cons x xs ih =>
    rw [List.map_cons, List.mapM_cons, hf x List.mem_cons_self,
      ih fun x hx => hf x (List.mem_cons_of_mem _ hx)]
    rfl

theorem exists_of_mapM {α β : Type} {f : α → Option β} {xs : List α} : ∀ {ys : List β},
    xs.mapM f = some ys → ∀ x ∈ xs, ∃ y, f x = some y := by
  induction xs with
  | nil =>
    intro ys _ x hx
    cases hx
  | cons x xs ih =>
    intro ys h
    rw [List.mapM_cons, Option.bind_eq_bind, Option.bind_eq_some_iff] at h
    obtain ⟨y, hy, h⟩ := h
    obtain ⟨ys', hys, -⟩ := Option.bind_eq_some_iff.1 h
    intro x' hx
    rcases List.mem_cons.1 hx with rfl | hx
    · exact ⟨y, hy⟩
    · exact ih hys x' hx

/-- The blocks have no more entries than a block can count. -/
structure Counted (l : Layout) : Prop where
  index : l.done.length + 1 < 2 ^ 32
  blocks : ∀ c ∈ l.done, c.entries.length + 1 < 2 ^ 32

/-- In a file of less than 4 GB every block is counted. -/
theorem Written.counted (h : Written l footer file) (hs : file.length < 2 ^ 32) : Counted l := by
  have hcount : ∀ {hd : BlockHandle} {es : List (Bytes × Bytes)}, Holds file hd es →
      es.length + 1 < 2 ^ 32 := fun hh => by
    have h1 := hh.inside
    have h2 := hh.count
    have h3 : kBlockTrailerSize = 5 := rfl
    omega
  have hindex := hcount h.index.2.2
  rw [Layout.index, List.length_map] at hindex
  exact ⟨hindex, fun c hc => hcount (h.held c hc).2.2⟩

theorem length_le_flatMap {α β : Type} {f : α → List β} {xs : List α} (h : ∀ x ∈ xs, f x ≠ []) :
    xs.length ≤ (xs.flatMap f).length ∧ ∀ x ∈ xs, (f x).length ≤ (xs.flatMap f).length := by
  induction xs with
  | nil => exact ⟨le_rfl, fun x hx => absurd hx List.not_mem_nil⟩
  | cons y xs ih =>
    obtain ⟨h1, h2⟩ := ih fun x hx => h x (List.mem_cons_of_mem _ hx)
    have hy := List.length_pos_iff.2 (h y List.mem_cons_self)
    rw [List.flatMap_cons, List.length_append, List.length_cons]
    refine ⟨by omega, fun x hx => ?_⟩
    rcases List.mem_cons.1 hx with rfl | hx
    · exact Nat.le_add_right _ _
    · exact (h2 x hx).trans (Nat.le_add_left _ _)

/-- Few entries are few in every block. -/
theorem Written.counted_of_entries (h : Written l footer file)
    (hn : (l.done.flatMap Cut.entries).length + 1 < 2 ^ 32) : Counted l := by
  obtain ⟨h1, h2⟩ := length_le_flatMap fun c hc => (h.held c hc).2.1
  exact ⟨by omega, fun c hc => by have := h2 c hc; omega⟩

/-- **A reader that finds the blocks of a table file reads those of the layout.** -/
theorem Written.readWith (h : Written l footer file) (hcount : Counted l)
    (hindex : read footer.index_handle_ = blockAt file footer.index_handle_)
    (hblocks : ∀ c ∈ l.done, read c.handle = blockAt file c.handle) :
    readTableWith read file = some (l.done.map fun c => (c.sep, c.entries)) := by
  obtain ⟨contents, h1, h2⟩ := Holds.entries h.index.2.2 (by
    rw [Layout.index, List.length_map]
    exact hcount.index)
  have hblock : ∀ c ∈ l.done, ((BlockHandle.decodeFrom c.handle.bytes).bind fun x =>
      (read x.1).bind fun contents => (Block.new contents).entries.bind fun entries =>
        some (c.sep, entries)) = some (c.sep, c.entries) := by
    intro c hc
    obtain ⟨contents, g1, g2⟩ := Holds.entries (h.held c hc).2.2 (hcount.blocks c hc)
    have hd := BlockHandle.decodeFrom_bytes (h.held c hc).1 []
    rw [List.append_nil] at hd
    rw [hd, Option.bind_some, hblocks c hc, g1, Option.bind_some, g2, Option.bind_some]
  unfold readTableWith
  simp only [Option.bind_eq_bind, h.decodeFooter, Option.bind_some, hindex, h1, h2]
  exact mapM_map_of_forall hblock

theorem Written.tableBlocks (h : Written l footer file) (hcount : Counted l) :
    tableBlocks file = some (l.done.map fun c => (c.sep, c.entries)) :=
  h.readWith hcount rfl fun _ _ => rfl

/-- **Small blocks are read.** -/
theorem Written.readTable (h : Written l footer file) (hcount : Counted l)
    (hs : file.length < 2 ^ 63) (hsmall : l.Small) :
    readTable file = some (l.done.map fun c => (c.sep, c.entries)) := by
  obtain ⟨hblocks, hindex⟩ := hsmall
  refine h.readWith hcount ?_ fun c hc => ?_
  · rw [Holds.readBlock h.index.2.2 hs, h.index.2.1, if_pos hindex]
  · rw [Holds.readBlock (h.held c hc).2.2 hs, if_pos (hblocks c hc)]

/-- **No other block is.** -/
theorem Written.small_of_read (h : Written l footer file) (hcount : Counted l)
    (hs : file.length < 2 ^ 63) {table : List (Bytes × List (Bytes × Bytes))}
    (hr : Yangkv.readTable file = some table) : l.Small := by
  -- a block that is read is small
  have hsmall : ∀ {hd : BlockHandle} {es : List (Bytes × Bytes)} {contents : Bytes},
      Holds file hd es → Yangkv.readBlock file hd = some contents →
      hd.size_ + kBlockTrailerSize ≤ maxRwCount ∧ blockAt file hd = some contents := by
    intro hd es contents hh hread
    rw [Holds.readBlock hh hs, Option.ite_none_right_eq_some] at hread
    exact hread
  unfold Yangkv.readTable readTableWith at hr
  simp only [Option.bind_eq_bind, h.decodeFooter, Option.bind_some, Option.bind_eq_some_iff] at hr
  obtain ⟨contents, h1, entries, h2, h3⟩ := hr
  obtain ⟨hindex, hat⟩ := hsmall h.index.2.2 h1
  obtain ⟨contents', g1, g2⟩ := Holds.entries h.index.2.2 (by
    rw [Layout.index, List.length_map]
    exact hcount.index)
  obtain rfl := Option.some.inj (hat.symm.trans g1)
  obtain rfl := Option.some.inj (h2.symm.trans g2)
  refine ⟨fun c hc => ?_, h.index.2.1 ▸ hindex⟩
  obtain ⟨t, ht⟩ := exists_of_mapM h3 (c.sep, c.handle.bytes) (List.mem_map.2 ⟨c, hc, rfl⟩)
  have hd := BlockHandle.decodeFrom_bytes (h.held c hc).1 []
  rw [List.append_nil] at hd
  simp only [hd, Option.bind_some, Option.bind_eq_some_iff] at ht
  obtain ⟨block, hblock, -⟩ := ht
  exact (hsmall (h.held c hc).2.2 hblock).1

/-- The first separator that is not below a key is that of its block. -/
theorem Separated.find {done : List Cut} {later : List (Bytes × Bytes)} (h : Separated done later)
    {e : Bytes × Bytes} (he : e ∈ done.flatMap Cut.entries) :
    ∃ c, done.find? (fun c => (compare e.1 c.sep).isLE) = some c ∧ e ∈ c.entries := by
  obtain ⟨c, hc, hec⟩ := List.mem_flatMap.1 he
  refine ⟨c, List.find?_eq_some_iff_append.2 ⟨h.above c hc e hec, ?_⟩, hec⟩
  obtain ⟨as, bs, rfl⟩ := List.append_of_mem hc
  refine ⟨as, bs, rfl, fun d hd => ?_⟩
  have hlt := ((List.pairwise_append.1 h.order).2.2 d hd c List.mem_cons_self).2 e hec
  rw [Std.OrientedCmp.gt_of_lt hlt]
  rfl

/-- **The separators lead to the entries.** -/
theorem Separated.leadsTo {done : List Cut} {later : List (Bytes × Bytes)}
    (h : Separated done later) : LeadsTo (done.map fun c => (c.sep, c.entries)) := by
  intro e he
  rw [List.flatMap_map] at he
  obtain ⟨c, hc, hec⟩ := h.find he
  refine ⟨(c.sep, c.entries), ?_, hec⟩
  rw [List.find?_map]
  have hp : (fun c : Cut => (compare e.1 c.sep).isLE) =
      (fun t : Bytes × List (Bytes × Bytes) => decide (sliceCompare e.1 t.1 ≠ .gt)) ∘
        fun c => (c.sep, c.entries) := by
    funext c
    simp only [Function.comp_apply, sliceCompare_eq]
    cases compare e.1 c.sep <;> rfl
  rw [← hp, hc]
  rfl

variable {r : TableBuilder}

theorem Written.tableOf (h : Written l footer r.file.stream) (hr : r.FileOk)
    (hmeta : read footer.metaindex_handle_ = blockAt r.file.stream footer.metaindex_handle_)
    (hread : readTableWith read r.file.stream = some (l.done.map fun c => (c.sep, c.entries))) :
    TableOf read (l.done.flatMap Cut.entries) r := by
  obtain ⟨contents, h1, h2⟩ := Holds.entries h.metaindex.2.2 (by simp)
  refine ⟨hr.status, hr.offset.symm, ⟨footer, contents, h.decodeFooter, hmeta.trans h1, h2⟩,
    _, hread, List.pairwise_map.2 (h.separated.order.imp And.left), ?_, h.separated.leadsTo⟩
  rw [List.flatMap_map]

/-- **The file holds what was added**, and `ReadBlock` reads it if and only if no block is too
large. -/
theorem Written.readsBack (h : Written l footer r.file.stream) (hr : r.FileOk)
    (hs : r.fileSize < 2 ^ 32) : Stored (l.done.flatMap Cut.entries) r ∧
      (ReadsBack (l.done.flatMap Cut.entries) r ↔ l.Small) := by
  have hsize : r.file.stream.length < 2 ^ 32 := hr.offset ▸ hs
  have hcount := h.counted hsize
  refine ⟨h.tableOf hr rfl (h.tableBlocks hcount), fun hback => ?_, fun hsmall => ?_⟩
  · obtain ⟨table, hread, -⟩ := hback.table
    exact h.small_of_read hcount (by omega) hread
  · refine h.tableOf hr ?_ (h.readTable hcount (by omega) hsmall)
    rw [Holds.readBlock h.metaindex.2.2 (by omega), h.metaindex.2.1, if_pos (by decide)]

/-! ## Every table -/

section

variable {options : Options} {calls : List Call}

theorem blocks_of (options : Options) (calls : List Call) :
    ((Layout.of options calls).finish options.block_restart_interval).done.flatMap Cut.entries =
      addsOf calls := by
  rw [Layout.finish_entries (Layout.apart_of options calls), Layout.added_of]

/-- **A table of few entries holds them**, whatever the sizes of its keys and values. -/
theorem build_stored {file : WritableFile} (hk : 1 ≤ options.block_restart_interval)
    (hc : options.compression = .kNoCompression) (hf : file.NoFail) (hs : file.stream = [])
    (hsorted : SortedKeys (addsOf calls)) (hshort : ∀ e ∈ addsOf calls, Short e)
    (hn : calls.length < 2 ^ 28) :
    ∃ r table, build options file calls = some r ∧ r.FileOk ∧
      Yangkv.tableBlocks r.file.stream = some table ∧ table.flatMap Prod.snd = addsOf calls ∧
      LeadsTo table ∧ (SmallBlocks options calls → Yangkv.readTable r.file.stream = some table) := by
  obtain ⟨r, footer, h1, h2, h3, -, h5⟩ := build_ok hk hc hf hs hsorted hshort
    fun before r hb _ hw => by
      have := hb.length_le
      omega
  have hblocks := blocks_of options calls
  have hcount := h3.counted_of_entries (by
    have : (addsOf calls).length ≤ calls.length := List.length_filterMap_le _ _
    rw [hblocks]
    omega)
  refine ⟨r, _, h1, h2, h3.tableBlocks hcount, ?_, h3.separated.leadsTo, fun hsmall => ?_⟩
  · rw [List.flatMap_map]
    exact hblocks
  · have hsize : r.file.stream.length = r.fileSize := h2.offset
    exact h3.readTable hcount (by omega) hsmall

/-- **A table file reads back as what was added exactly when no block of it is too large.** For all
calls with increasing keys no assertion fires, and `Finish` leaves a file whose blocks are exactly
the entries. -/
theorem table_reads_back_iff (hk : 1 ≤ options.block_restart_interval)
    (hc : options.compression = .kNoCompression) {ws : List WriteResult} (hw : WriteResult.fail ∉ ws)
    (ss cs : List Bool) (hi : SortedKeys (addsOf calls)) (hs : ∀ e ∈ addsOf calls, Short e)
    (hfits : ∀ before r, before <+: calls → run options (.create ws ss cs) before = some r → r.Fits)
    (hsize : ∀ r, build options (.create ws ss cs) calls = some r → r.fileSize < 2 ^ 32) :
    ∃ r, build options (.create ws ss cs) calls = some r ∧ Stored (addsOf calls) r ∧
      (ReadsBack (addsOf calls) r ↔ SmallBlocks options calls) := by
  have hf : (WritableFile.create ws ss cs).NoFail := hw
  obtain ⟨r, footer, h1, h2, h3, -, -⟩ := build_ok hk hc hf rfl hi hs fun before r hb hr _ => by
    obtain ⟨h1, h2, h3⟩ := hfits before r hb hr
    unfold fileSize at h1
    unfold weight
    omega
  have hback := h3.readsBack h2 (hsize r h1)
  rw [blocks_of] at hback
  exact ⟨r, h1, hback⟩

/-- Two blocks that are read. -/
theorem table_reads_back_iff_twoBlocks :
    ∃ r, build ⟨1, 2, .kNoCompression⟩ (.create [.eintr] [] [])
        [.add [97] [49], .flush, .add [97, 98] []] = some r ∧
      Stored [([97], [49]), ([97, 98], [])] r ∧ ReadsBack [([97], [49]), ([97, 98], [])] r := by
  have hfits : ∀ before ∈ List.inits [Call.add [97] [49], .flush, .add [97, 98] []],
      ∀ r ∈ run ⟨1, 2, .kNoCompression⟩ (.create [.eintr] [] []) before,
        r.fileSize < 2 ^ 32 ∧ r.data_block.currentSizeEstimate < 2 ^ 32 ∧
          r.index_block.currentSizeEstimate < 2 ^ 32 := by
    decide +kernel
  have hsize : ∀ r ∈ build ⟨1, 2, .kNoCompression⟩ (.create [.eintr] [] [])
      [.add [97] [49], .flush, .add [97, 98] []], r.fileSize < 2 ^ 32 := by
    decide +kernel
  obtain ⟨r, hr, hstored, hback⟩ := @table_reads_back_iff ⟨1, 2, .kNoCompression⟩
    [.add [97] [49], .flush, .add [97, 98] []] (by decide) rfl [.eintr] (by simp) [] []
    (by unfold SortedKeys; decide) (by unfold Short; decide) (fun before r hb hr => by
      obtain ⟨h1, h2, h3⟩ := hfits before ((List.mem_inits _ _).2 hb) r hr
      exact ⟨h1, h2, h3⟩) hsize
  exact ⟨r, hr, hstored, hback.2 (by decide +kernel)⟩

end

/-! ## One large value -/

section

variable {value : Bytes}

theorem Building.fits {options : Options} {r : TableBuilder} (h : Building options l r)
    (ho : l.offset < 2 ^ 32) (hd : blockSize options.block_restart_interval l.cur < 2 ^ 32)
    (hi : blockSize 1 l.index < 2 ^ 32) : r.Fits := by
  have hoffset := h.ok.offset
  have hdata := h.ok.data.size
  have hindex := h.ok.index.size
  rw [h.options] at hdata
  refine ⟨?_, ?_, ?_⟩
  · unfold fileSize
    omega
  · omega
  · omega

/-- The layout of one entry that fills a block. -/
theorem layout_one (hv : 4096 ≤ value.length) :
    Layout.of .default [.add [97] value] =
      ⟨[], some (⟨0, blockSize 16 [([97], value)]⟩, [([97], value)]), [],
        blockSize 16 [([97], value)] + kBlockTrailerSize⟩ := by
  obtain ⟨hge, -⟩ := blockSize_singleton 16 [97] value
  have hfull : Options.default.block_size ≤ blockSize Options.default.block_restart_interval
      (Layout.take [97] value .empty).cur := by
    show 4096 ≤ blockSize 16 [([97], value)]
    omega
  have hcur : (Layout.take [97] value .empty).cur ≠ [] := List.cons_ne_nil _ _
  show Layout.add .default [97] value .empty = _
  unfold Layout.add
  rw [Layout.settle_none rfl, if_pos hfull, Layout.flush, if_neg hcur]
  show (⟨_, _, _, 0 + _ + _⟩ : Layout) = _
  rw [Nat.zero_add]
  rfl

theorem one_short (hv : value.length = 2 ^ 31) : ∀ e ∈ addsOf [.add [97] value], Short e := by
  intro e he
  obtain rfl := List.mem_singleton.1 he
  exact ⟨show ([97] : Bytes).length < 2 ^ 32 by decide, show value.length < 2 ^ 32 by omega⟩

theorem one_fits (hv : value.length = 2 ^ 31) (before : List Call) (r : TableBuilder)
    (hb : before <+: [.add [97] value])
    (hr : run .default (.create [] [] []) before = some r) : r.Fits := by
  obtain ⟨-, hle⟩ := blockSize_singleton 16 [97] value
  rw [hv, List.length_singleton] at hle
  have hlen : before.length ≤ 1 := hb.length_le
  have hadds : addsOf before <+: addsOf [.add [97] value] := hb.filterMap _
  have hsorted : SortedKeys (addsOf before) := (List.pairwise_singleton _ _).sublist hadds.sublist
  obtain ⟨r', h1, h2, -⟩ := @Building.run .default (.create [] [] []) (by decide) rfl
    List.not_mem_nil rfl before hsorted (fun e he => one_short hv e (hadds.subset he)) fun _ _ hb' _ hw => by
      have := hb'.length_le
      unfold weight at hw
      omega
  obtain rfl := Option.some.inj (h1.symm.trans hr)
  obtain rfl | ⟨t, rfl, ht⟩ := List.prefix_cons_iff.1 hb
  · exact h2.fits (by decide) (by decide) (by decide)
  · rw [List.prefix_nil.1 ht, layout_one (by omega)] at h2
    refine h2.fits ?_ (by show 8 < 2 ^ 32; decide) (by show 8 < 2 ^ 32; decide)
    show _ + 5 < 2 ^ 32
    omega

theorem one_written (hv : value.length = 2 ^ 31) :
    ∃ r, build .default (.create [] [] []) [.add [97] value] = some r ∧ r.fileSize < 2 ^ 32 ∧
      Stored [([97], value)] r ∧ ¬ ReadsBack [([97], value)] r := by
  obtain ⟨hge, hle⟩ := blockSize_singleton 16 [97] value
  rw [hv, List.length_singleton] at hge hle
  obtain ⟨r, footer, h1, h2, h3, h4, -⟩ := @build_ok .default (.create [] [] []) (by decide) rfl
    List.not_mem_nil rfl [.add [97] value] (List.pairwise_singleton _ _) (one_short hv) fun before _ hb _ hw => by
      have : before.length ≤ 1 := hb.length_le
      omega
  have hinterval : Options.default.block_restart_interval = 16 := rfl
  set handle : BlockHandle := ⟨0, blockSize 16 [([97], value)]⟩ with hhandle
  have hfinish : (Layout.of .default [.add [97] value]).finish 16 =
      ⟨[⟨[98], handle, [([97], value)]⟩], none, [],
        blockSize 16 [([97], value)] + kBlockTrailerSize + 8 + kBlockTrailerSize⟩ := by
    rw [layout_one (by omega)]
    rfl
  have hsize : r.fileSize < 2 ^ 32 := by
    have hset : handle.Set := by
      constructor <;> rw [hhandle] <;> dsimp only <;> omega
    have hbytes : handle.bytes.length ≤ 20 := BlockHandle.length_bytes_le hset
    obtain ⟨-, hindex⟩ := blockSize_singleton 1 [98] handle.bytes
    rw [List.length_singleton] at hindex
    rw [h4, hinterval, hfinish]
    show blockSize 16 [([97], value)] + 5 + 8 + 5 + blockSize 1 [([98], handle.bytes)] + 5 + 48 <
      2 ^ 32
    omega
  obtain ⟨hstored, hback⟩ := h3.readsBack h2 hsize
  rw [blocks_of] at hstored hback
  refine ⟨r, h1, hsize, hstored, mt hback.1 fun hsmall => ?_⟩
  rw [hinterval, hfinish] at hsmall
  have hcap : blockSize 16 [([97], value)] + 5 ≤ 0x7ffff000 := hsmall.1 _ List.mem_cons_self
  omega

end

/-- One value of 2 GB. -/
def largeValue : List Call := [.add [97] (List.replicate (2 ^ 31) 0)]

/-- **One value of 2 GB is written and not read back.** All sizes are below 4 GB, no assertion fires,
and the file holds the block, but one `::pread` does not move it. -/
theorem largeValue_lost : SortedKeys (addsOf largeValue) ∧ (∀ e ∈ addsOf largeValue, Short e) ∧
    (∀ before r, before <+: largeValue → run .default (.create [] [] []) before = some r → r.Fits) ∧
    ∃ r, build .default (.create [] [] []) largeValue = some r ∧ r.fileSize < 2 ^ 32 ∧
      Stored (addsOf largeValue) r ∧ ¬ ReadsBack (addsOf largeValue) r := by
  have hv : (List.replicate (2 ^ 31) (0 : UInt8)).length = 2 ^ 31 := List.length_replicate
  exact ⟨List.pairwise_singleton _ _, one_short hv, one_fits hv, one_written hv⟩

end TableBuilder

end Yangkv
