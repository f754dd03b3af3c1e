import Yangkv.Proof.Compaction

/-!
# A compaction that fails

`BuildTable` keeps the status of the file to itself and `workRound` looks at no
status, so a round goes on after a failure: it adds a file whose table is not there,
and drops the lists.

* `Lockstep.finish`: until a call fails, a builder does what it does on a file that
  never fails; from then on it does nothing.
* `buildTable_returns`: `BuildTable` ends whatever the file does.
* `fails_safe_iff`: a round changes nothing on a failure exactly if nothing fails.
-/

namespace Yangkv

open Lib

/-! ## In lockstep with a file that never fails -/

theorem WritableFile.append_noFail {f : WritableFile} (hf : f.NoFail) (data : Bytes) :
    ∃ f', f.append data = (.ok, f') ∧ f'.NoFail := by
  obtain ⟨f₂, h2, -, -, hf₂⟩ := WritableFile.flush_ok
    (f := { f with buf := f.buf ++ data.take (min data.length f.bufferRoom) }) hf
  unfold WritableFile.flush at h2
  unfold WritableFile.append
  by_cases he : (data.drop (min data.length f.bufferRoom)).isEmpty = true
  · simp only [he, if_true]
    exact ⟨_, rfl, hf⟩
  simp only [if_neg he, h2, ne_eq, not_true_eq_false, if_false]
  split
  · exact ⟨_, rfl, hf₂⟩
  · obtain ⟨f₃, h3, -, -, h⟩ := WritableFile.writeUnbuffered_ok hf₂
      (data.drop (min data.length f.bufferRoom))
    exact ⟨f₃, h3, h⟩

namespace TableBuilder

/-- `g` builds the same table as `r` on a file that never fails: they agree until a call of `r`
fails. -/
structure Lockstep (g r : TableBuilder) : Prop where
  noFail : g.file.NoFail
  status : g.status = .ok
  same : r = { g with file := r.file } ∨ r.status ≠ .ok ∧ r.closed = g.closed

variable {g g' r r' : TableBuilder} {b b' : BlockBuilder} {hd : BlockHandle} {f : WritableFile}

/-- The step of a builder in lockstep, when it takes one. -/
abbrev Follows (g' : TableBuilder) (r : Option TableBuilder) : Prop :=
  ∃ r', r = some r' ∧ Lockstep g' r'

theorem Lockstep.of_failed (hg : g.file.NoFail) (hs : g.status = .ok) (hr : r.status ≠ .ok)
    (hc : r.closed = g.closed) : Lockstep g r := ⟨hg, hs, .inr ⟨hr, hc⟩⟩

theorem Lockstep.closed (h : Lockstep g r) : r.closed = g.closed := by
  rcases h.same with hr | ⟨-, hr⟩
  · rw [hr]
  · exact hr

theorem writeRawBlock_lockstep (hg : g.file.NoFail) (contents : Bytes) (type : CompressionType) :
    Lockstep (g.writeRawBlock contents type).1
        ({ g with file := f }.writeRawBlock contents type).1 ∧
      ({ g with file := f }.writeRawBlock contents type).2 = (g.writeRawBlock contents type).2 ∧
      (g.writeRawBlock contents type).1.closed = g.closed := by
  obtain ⟨g₁, h1, hg₁⟩ := WritableFile.append_noFail hg contents
  obtain ⟨g₂, h2, hg₂⟩ := WritableFile.append_noFail hg₁ (type.toByte :: encodeFixed32 0)
  unfold writeRawBlock
  simp only [h1, h2, if_true]
  obtain ⟨s₁, f₁⟩ := f.append contents
  by_cases hs₁ : s₁ = .ok
  · subst hs₁
    simp only [if_true]
    obtain ⟨s₂, f₂⟩ := f₁.append (type.toByte :: encodeFixed32 0)
    by_cases hs₂ : s₂ = .ok
    · subst hs₂
      simp only [if_true]
      exact ⟨⟨hg₂, rfl, .inl rfl⟩, trivial, trivial⟩
    · simp only [if_neg hs₂]
      exact ⟨.of_failed hg₂ rfl hs₂ rfl, trivial, trivial⟩
  · simp only [if_neg hs₁]
    exact ⟨.of_failed hg₂ rfl hs₁ rfl, trivial, trivial⟩

theorem writeBlock_eq (hs : r.status = .ok) (b : BlockBuilder) :
    r.writeBlock b = some ((r.writeRawBlock b.finish.buffer_ r.options.compression).1,
      b.finish.reset, (r.writeRawBlock b.finish.buffer_ r.options.compression).2) := by
  unfold writeBlock
  rw [if_neg (not_not.2 hs)]

theorem writeBlock_lockstep (hg : g.file.NoFail) (hs : g.status = .ok) (b : BlockBuilder) :
    ∃ g₁ r₁ hd, g.writeBlock b = some (g₁, b.finish.reset, hd) ∧
      { g with file := f }.writeBlock b = some (r₁, b.finish.reset, hd) ∧ Lockstep g₁ r₁ ∧
      g₁.closed = g.closed := by
  obtain ⟨h1, h2, h3⟩ := writeRawBlock_lockstep (f := f) hg b.finish.buffer_ g.options.compression
  have hr := writeBlock_eq (r := { g with file := f }) hs b
  rw [h2] at hr
  exact ⟨_, _, _, writeBlock_eq hs b, hr, h1, h3⟩

/-- The call does the same on another file, until that one fails. -/
def SameOnFiles (op : TableBuilder → Option TableBuilder) : Prop :=
  ∀ (g g' : TableBuilder) (f : WritableFile), g.file.NoFail → g.status = .ok → op g = some g' →
    Follows g' (op { g with file := f }) ∧ g'.closed = g.closed

/-- **A call that does nothing once a call has failed keeps the builders in lockstep.** -/
theorem Lockstep.call {op : TableBuilder → Option TableBuilder} (hop : SameOnFiles op)
    (hskip : ∀ r, r.closed = false → r.status ≠ .ok → op r = some r) (h : Lockstep g r)
    (hc : g.closed = false) (hg : op g = some g') : Follows g' (op r) ∧ g'.closed = false := by
  obtain ⟨h1, h2⟩ := hop g g' r.file h.noFail h.status hg
  refine ⟨?_, h2.trans hc⟩
  rcases h.same with hr | ⟨hr, hrc⟩
  · rw [hr]; exact h1
  · obtain ⟨r', -, hl⟩ := h1
    exact ⟨r, hskip r (hrc.trans hc) hr, .of_failed hl.noFail hl.status hr (hrc.trans h2.symm)⟩

theorem flush_skips (hc : r.closed = false) (hr : r.status ≠ .ok) : r.flush = some r := by
  simp [flush, hc, hr]

theorem add_skips {key value : Bytes} (hc : r.closed = false) (hr : r.status ≠ .ok) :
    r.add key value = some r := by
  simp [add, hc, hr]

theorem flush_closed (h : r.flush = some r') : r.closed = false := by
  by_contra hc
  rw [Bool.not_eq_false] at hc
  rw [flush, if_pos hc] at h
  cases h

theorem add_closed {key value : Bytes} (h : r.add key value = some r') : r.closed = false := by
  by_contra hc
  rw [Bool.not_eq_false] at hc
  rw [add, if_pos hc] at h
  cases h

theorem flush_sameOnFiles : SameOnFiles flush := by
  intro g g' f hn hs hg
  have hc : ¬ g.closed = true := by rw [flush_closed hg]; exact Bool.false_ne_true
  unfold flush at hg ⊢
  rw [if_neg hc, if_neg (not_not.2 hs)] at hg ⊢
  by_cases he : g.data_block.empty = true
  · rw [if_pos he] at hg ⊢
    cases hg
    exact ⟨⟨_, rfl, hn, hs, .inl rfl⟩, rfl⟩
  rw [if_neg he] at hg ⊢
  by_cases hp : g.pending_index_entry = true
  · rw [if_pos hp] at hg; cases hg
  rw [if_neg hp] at hg ⊢
  obtain ⟨g₁, r₁, hd, h1, h2, h3, h4⟩ := writeBlock_lockstep (f := f) hn hs g.data_block
  rw [h1] at hg
  rw [h2]
  simp only [Option.bind_eq_bind, Option.bind_some] at hg ⊢
  obtain ⟨f₁, hf₁, -, -, hn₁⟩ := WritableFile.flush_ok h3.noFail
  simp only [h3.status, if_true, hf₁, Option.some.injEq] at hg
  subst hg
  refine ⟨?_, h4⟩
  rcases h3.same with hr | ⟨hr, hrc⟩
  · -- the block is written, and its flush may be the first call that fails
    have hr₁ : r₁.status = .ok := by rw [hr]; exact h3.status
    simp only [hr₁, if_true]
    refine ⟨_, rfl, hn₁, rfl, ?_⟩
    by_cases hst : r₁.file.flush.1 = .ok
    · refine .inl ?_
      simp only [hst]
      rw [hr]
    · exact .inr ⟨hst, by rw [hr]⟩
  · simp only [if_neg hr]
    exact ⟨_, rfl, .of_failed hn₁ rfl hr hrc⟩

theorem addIndexEntry_sameOnFiles {last_key : Bytes} (f : WritableFile)
    (hg : g.addIndexEntry last_key = some g') :
    { g with file := f }.addIndexEntry last_key = some { g' with file := f } ∧
      g'.file = g.file ∧ g'.status = g.status ∧ g'.closed = g.closed := by
  unfold addIndexEntry at hg ⊢
  obtain ⟨handle, h1, hg⟩ := Option.bind_eq_some_iff.1 hg
  obtain ⟨index, h2, hg⟩ := Option.bind_eq_some_iff.1 hg
  cases hg
  refine ⟨?_, rfl, rfl, rfl⟩
  simp only [h1, h2, Option.bind_eq_bind, Option.bind_some]

theorem add_sameOnFiles (key value : Bytes) : SameOnFiles (·.add key value) := by
  intro g g' f hn hs hg
  have hg : g.add key value = some g' := hg
  have hc : ¬ g.closed = true := by rw [add_closed hg]; exact Bool.false_ne_true
  show Follows g' ({ g with file := f }.add key value) ∧ _
  unfold add at hg ⊢
  rw [if_neg hc, if_neg (not_not.2 hs)] at hg ⊢
  by_cases ho : 0 < g.num_entries ∧ sliceCompare key g.last_key ≠ .gt
  · rw [if_pos ho] at hg; cases hg
  rw [if_neg ho] at hg ⊢
  obtain ⟨g₁, h1, hg⟩ := Option.bind_eq_some_iff.1 hg
  -- the index entry of the last block goes into memory only
  have hsettle : (if g.pending_index_entry then
      if g.data_block.empty then
        { g with file := f }.addIndexEntry (findShortestSeparator g.last_key key) else none
      else some { g with file := f }) = some { g₁ with file := f } ∧
      g₁.file = g.file ∧ g₁.status = g.status ∧ g₁.closed = g.closed := by
    by_cases hp : g.pending_index_entry = true
    · by_cases he : g.data_block.empty = true
      · simp only [if_pos hp, if_pos he] at h1 ⊢
        exact addIndexEntry_sameOnFiles f h1
      · rw [if_pos hp, if_neg he] at h1; cases h1
    · simp only [if_neg hp, Option.some.injEq] at h1 ⊢
      subst h1
      simp
  obtain ⟨h2, h3, h4, h5⟩ := hsettle
  simp only [Option.bind_eq_bind, h2, Option.bind_some]
  obtain ⟨data_block, h6, hg⟩ := Option.bind_eq_some_iff.1 hg
  simp only [h6, Option.bind_some]
  have hn₁ : g₁.file.NoFail := by rw [h3]; exact hn
  by_cases hb : g₁.options.block_size ≤ data_block.currentSizeEstimate
  · rw [if_pos hb] at hg ⊢
    have hflush := fun hn hs => flush_sameOnFiles _ _ f hn hs hg
    obtain ⟨k1, k2⟩ := hflush hn₁ (h4.trans hs)
    exact ⟨k1, k2.trans h5⟩
  · rw [if_neg hb] at hg ⊢
    cases hg
    exact ⟨⟨_, rfl, hn₁, h4.trans hs, .inl rfl⟩, h5⟩

theorem Lockstep.foldlM {its : List (Bytes × Bytes)} (h : Lockstep g r) (hc : g.closed = false)
    (hg : its.foldlM (fun r it => r.add it.1 it.2) g = some g') :
    Follows g' (its.foldlM (fun r it => r.add it.1 it.2) r) ∧ g'.closed = false := by
  induction its generalizing g r with
  | nil => cases hg; exact ⟨⟨r, rfl, h⟩, hc⟩
  | cons it its ih =>
    rw [List.foldlM_cons] at hg ⊢
    obtain ⟨g₁, h1, hg⟩ := Option.bind_eq_some_iff.1 hg
    obtain ⟨⟨r₁, h2, hr₁⟩, hc₁⟩ := h.call (add_sameOnFiles it.1 it.2) (fun _ => add_skips) hc h1
    rw [h2]
    exact ih hr₁ hc₁ hg

/-- The footer, as `Finish` writes it. -/
def writeFooter (r : TableBuilder) (metaindex index : BlockHandle) : Option TableBuilder := do
  let footer_encoding ← Footer.encodeTo ⟨metaindex, index⟩
  let (s, file) := r.file.append footer_encoding
  let r := { r with file := file, status := s }
  if r.status = .ok then some { r with offset := r.offset + footer_encoding.length }
  else some r

/-- The index block and the footer, as `Finish` writes them. -/
def writeIndex (r : TableBuilder) (metaindex : BlockHandle) : Option TableBuilder := do
  let r ←
    (if r.pending_index_entry then r.addIndexEntry (findShortSuccessor r.last_key) else some r)
  let (r, index_block, index) ← r.writeBlock r.index_block
  let r := { r with index_block := index_block }
  if r.status ≠ .ok then some r else r.writeFooter metaindex index

/-- What `Finish` writes behind the last data block. -/
def writeTail (r : TableBuilder) : Option TableBuilder :=
  if r.status ≠ .ok then some r
  else do
    let meta_index_block ← BlockBuilder.new r.options.block_restart_interval
    let (r, _, metaindex) ← r.writeBlock meta_index_block
    if r.status ≠ .ok then some r else r.writeIndex metaindex

theorem finish_eq (r : TableBuilder) : r.finish = r.flush.bind fun r =>
    if r.closed then none else { r with closed := true }.writeTail := by
  unfold finish
  simp only [Option.bind_eq_bind]
  congr 1

theorem writeFooter_sameOnFiles (metaindex index : BlockHandle) :
    SameOnFiles (·.writeFooter metaindex index) := by
  intro g g' f hn hs hg
  obtain ⟨footer, h1, hg⟩ := Option.bind_eq_some_iff.1 hg
  obtain ⟨f₁, h2, hn₁⟩ := WritableFile.append_noFail hn footer
  simp only [h2, if_true, Option.some.injEq] at hg
  subst hg
  refine ⟨?_, rfl⟩
  show Follows _ ({ g with file := f }.writeFooter metaindex index)
  unfold writeFooter
  simp only [h1, Option.bind_eq_bind, Option.bind_some]
  obtain ⟨s, f₂⟩ := f.append footer
  by_cases hst : s = .ok
  · subst hst
    exact ⟨_, rfl, hn₁, rfl, .inl rfl⟩
  · simp only [if_neg hst]
    exact ⟨_, rfl, .of_failed hn₁ rfl hst rfl⟩

/-- What follows a write is done only where the write has not failed. -/
theorem Lockstep.guarded {op : TableBuilder → Option TableBuilder} (hop : SameOnFiles op)
    (h : Lockstep g r) (hg : op g = some g') :
    Follows g' (if r.status ≠ .ok then some r else op r) ∧ g'.closed = g.closed := by
  obtain ⟨h1, h2⟩ := hop g g' r.file h.noFail h.status hg
  refine ⟨?_, h2⟩
  rcases h.same with hr | ⟨hr, hrc⟩
  · have hst : r.status = .ok := by rw [hr]; exact h.status
    rw [if_neg (not_not.2 hst), hr]
    exact h1
  · obtain ⟨r', -, hl⟩ := h1
    rw [if_pos hr]
    exact ⟨r, rfl, .of_failed hl.noFail hl.status hr (hrc.trans h2.symm)⟩

theorem Lockstep.setIndexBlock (h : Lockstep g r) (b : BlockBuilder) :
    Lockstep { g with index_block := b } { r with index_block := b } := by
  refine ⟨h.noFail, h.status, ?_⟩
  rcases h.same with hr | hr
  · exact .inl (by rw [hr])
  · exact .inr hr

theorem Lockstep.setClosed (h : Lockstep g r) :
    Lockstep { g with closed := true } { r with closed := true } := by
  refine ⟨h.noFail, h.status, ?_⟩
  rcases h.same with hr | ⟨hr, -⟩
  · exact .inl (by rw [hr])
  · exact .inr ⟨hr, rfl⟩

theorem writeIndex_sameOnFiles (metaindex : BlockHandle) : SameOnFiles (·.writeIndex metaindex) := by
  intro g g' f hn hs hg
  obtain ⟨g₁, h1, hg⟩ := Option.bind_eq_some_iff.1 hg
  have hsettle : (if g.pending_index_entry then
      { g with file := f }.addIndexEntry (findShortSuccessor g.last_key)
      else some { g with file := f }) = some { g₁ with file := f } ∧
      g₁.file = g.file ∧ g₁.status = g.status ∧ g₁.closed = g.closed := by
    by_cases hp : g.pending_index_entry = true
    · rw [if_pos hp] at h1 ⊢
      exact addIndexEntry_sameOnFiles f h1
    · rw [if_neg hp] at h1 ⊢
      cases h1
      exact ⟨rfl, rfl, rfl, rfl⟩
  obtain ⟨h2, h3, h4, h5⟩ := hsettle
  have hn₁ : g₁.file.NoFail := by rw [h3]; exact hn
  obtain ⟨g₂, r₂, index, k1, k2, k3, k4⟩ :=
    writeBlock_lockstep (f := f) hn₁ (h4.trans hs) g₁.index_block
  simp only [k1, Option.bind_eq_bind, Option.bind_some] at hg
  rw [if_neg (not_not.2 k3.status)] at hg
  obtain ⟨m1, m2⟩ := (k3.setIndexBlock _).guarded (writeFooter_sameOnFiles metaindex index) hg
  refine ⟨?_, m2.trans (k4.trans h5)⟩
  show Follows _ ({ g with file := f }.writeIndex metaindex)
  unfold writeIndex
  simp only [h2, k2, Option.bind_eq_bind, Option.bind_some]
  exact m1

theorem writeTail_sameOnFiles : SameOnFiles writeTail := by
  intro g g' f hn hs hg
  unfold writeTail at hg ⊢
  rw [if_neg (not_not.2 hs)] at hg ⊢
  obtain ⟨b, h1, hg⟩ := Option.bind_eq_some_iff.1 hg
  obtain ⟨g₁, r₁, metaindex, k1, k2, k3, k4⟩ := writeBlock_lockstep (f := f) hn hs b
  simp only [k1, Option.bind_eq_bind, Option.bind_some] at hg
  rw [if_neg (not_not.2 k3.status)] at hg
  obtain ⟨m1, m2⟩ := k3.guarded (writeIndex_sameOnFiles metaindex) hg
  refine ⟨?_, m2.trans k4⟩
  simp only [h1, k2, Option.bind_eq_bind, Option.bind_some]
  exact m1

/-- **`Finish` ends**, and where nothing has failed it leaves the same builder. -/
theorem Lockstep.finish (h : Lockstep g r) (hc : g.closed = false) (hg : g.finish = some g') :
    Follows g' r.finish := by
  rw [finish_eq] at hg ⊢
  obtain ⟨g₁, h1, hg⟩ := Option.bind_eq_some_iff.1 hg
  obtain ⟨⟨r₁, h2, hr₁⟩, hc₁⟩ := h.call flush_sameOnFiles (fun _ => flush_skips) hc h1
  rw [hc₁, if_neg Bool.false_ne_true] at hg
  rw [h2, Option.bind_some, hr₁.closed, hc₁, if_neg Bool.false_ne_true]
  obtain ⟨m1, -⟩ := hr₁.setClosed.guarded writeTail_sameOnFiles hg
  have hskip : ∀ r : TableBuilder, (if r.status ≠ .ok then some r else r.writeTail) = r.writeTail := by
    intro r
    by_cases hr : r.status ≠ .ok
    · rw [if_pos hr, writeTail, if_pos hr]
    · rw [if_neg hr]
  rw [hskip] at m1
  exact m1

end TableBuilder

/-! ## The round -/

variable {lists : Fin kMaxWriter → List SkipList}

theorem foldlM_addSlice_add {its : List (Bytes × Bytes)}
    (h : ∀ it ∈ its, ∃ e, decodeSlice it.2 = some e ∧ e.key.bytes = it.1) (r : TableBuilder) :
    its.foldlM addSlice r =
      (its.map fun it => (it.1, valueOf it.2)).foldlM (fun r it => r.add it.1 it.2) r := by
  rw [foldlM_addSlice h, List.foldlM_map, List.foldlM_map]
  rfl

/-- **`BuildTable` ends whatever the file does.** -/
theorem buildTable_returns (h : Routed lists) (hne : kept lists ≠ [])
    (hn : (MergeIterator.new lists).size < 2 ^ 28) (file : WritableFile) (number : ℕ) :
    ∃ file' metadata, buildTable lists file number = some (file', metadata) := by
  obtain ⟨-, -, file', metadata, -, hgood, -⟩ :=
    buildTable_stored h hne hn List.not_mem_nil [] [] number
  have hits := h.decodes
  obtain ⟨smallest, largest, hmeta⟩ := h.setMetaData hne
  unfold buildTable at hgood ⊢
  obtain ⟨g, h1, hgood⟩ := Option.bind_eq_some_iff.1 hgood
  simp only [hmeta, Option.bind_eq_bind, Option.bind_some] at hgood ⊢
  obtain ⟨g₁, h2, hgood⟩ := Option.bind_eq_some_iff.1 hgood
  obtain ⟨g₂, h3, hgood⟩ := Option.bind_eq_some_iff.1 hgood
  rw [foldlM_addSlice_add hits] at h2
  -- the same calls on this file
  obtain ⟨r, hr, hl, hc⟩ : ∃ r, TableBuilder.new .default file = some r ∧
      TableBuilder.Lockstep g r ∧ g.closed = false := by
    cases h1
    exact ⟨_, rfl, ⟨List.not_mem_nil, rfl, .inl rfl⟩, rfl⟩
  obtain ⟨⟨r₁, hr₁, hl₁⟩, hc₁⟩ := hl.foldlM hc h2
  obtain ⟨r₂, hr₂, hl₂⟩ := hl₁.finish hc₁ h3
  simp only [hr, Option.bind_some, foldlM_addSlice_add hits, hr₁, hr₂]
  rcases hl₂.same with hsame | ⟨hst, -⟩
  · -- nothing has failed, and the table is as long as the other
    have hst : r₂.status = .ok := by rw [hsame]; exact hl₂.status
    have hsize : r₂.fileSize = g₂.fileSize := by rw [hsame]; rfl
    rw [if_pos hl₂.status] at hgood
    rw [if_pos hst, hsize]
    by_cases h0 : g₂.fileSize = 0
    · rw [if_pos h0] at hgood; cases hgood
    · rw [if_neg h0]; exact ⟨_, _, rfl⟩
  · rw [if_neg hst]; exact ⟨_, _, rfl⟩

/-- A `::write`, `::fdatasync` or `::close` that was made between these two states of the file has
failed. -/
def WritableFile.HasFailed (before after : WritableFile) : Prop :=
  WriteResult.fail ∈ before.writes.take (before.writes.length - after.writes.length) ∨
    false ∈ before.syncs.take (before.syncs.length - after.syncs.length) ∨
    false ∈ before.closes.take (before.closes.length - after.closes.length)

namespace Compacter

variable {c : Compacter} {current_ : Version SkipList} {opened : Option WritableFile}

/-- `NewWritableFile` fails, or another call for the file does, in a round of the compacter. -/
def HasFailed (c : Compacter) (current_ : Version SkipList) (opened : Option WritableFile) : Prop :=
  opened = none ∨ ∃ file c' file' v, opened = some file ∧
    c.roundEnv current_ opened = some (c', file', v) ∧ file.HasFailed file'

/-- A failed compaction changes nothing: `BuildTable` returns `OK` only if nothing has failed, and
when something has, the round leaves the current version as it was. -/
structure FailsSafe (c : Compacter) (current_ : Version SkipList) (opened : Option WritableFile) :
    Prop where
  status : ∀ file file' metadata, opened = some file →
    buildTableEnv current_.list_ opened ((c.file_seq_num_ + 1) % 2 ^ 32) =
      some (.ok, file', metadata) → ¬ file.HasFailed file'
  unchanged : c.HasFailed current_ opened →
    ∃ c' file', c.roundEnv current_ opened = some (c', file', current_)

/-- The version of a round that has added this file. -/
def withTable (v : Version SkipList) (f : FileMetaData) : Version SkipList :=
  { Version.new with files_ := withFile v.files_ f }

/-- A round takes what `BuildTable` gives it, whatever the status. -/
theorem roundEnv_eq : c.roundEnv current_ opened =
    (buildTableEnv current_.list_ opened ((c.file_seq_num_ + 1) % 2 ^ 32)).map fun r =>
      (⟨(c.file_seq_num_ + 1) % 2 ^ 32⟩, r.2.1, withTable current_ r.2.2) := by
  unfold roundEnv compactEnv
  simp only [Option.bind_eq_bind]
  cases buildTableEnv current_.list_ opened ((c.file_seq_num_ + 1) % 2 ^ 32) with
  | none => rfl
  | some r => rfl

theorem roundEnv_some {st : Status} {file' : WritableFile} {metadata : FileMetaData}
    (h : buildTableEnv current_.list_ opened ((c.file_seq_num_ + 1) % 2 ^ 32) =
      some (st, file', metadata)) :
    c.roundEnv current_ opened =
      some (⟨(c.file_seq_num_ + 1) % 2 ^ 32⟩, file', withTable current_ metadata) := by
  rw [roundEnv_eq, h, Option.map_some]

/-- **A round replaces a full version by one without its lists, whatever the file does.** -/
theorem roundEnv_drops (h : Routed current_.list_) (hne : kept current_.list_ ≠ [])
    (hn : (MergeIterator.new current_.list_).size < 2 ^ 28) (file : WritableFile) :
    ∃ c' file' f, c.roundEnv current_ (some file) = some (c', file', withTable current_ f) := by
  obtain ⟨file', metadata, hb⟩ :=
    buildTable_returns h hne hn file ((c.file_seq_num_ + 1) % 2 ^ 32)
  have hb' : buildTableEnv current_.list_ (some file) ((c.file_seq_num_ + 1) % 2 ^ 32) =
      some (.ok, file', metadata) := by
    rw [buildTableEnv, Option.bind_eq_bind, Option.bind_some, hb]
    rfl
  exact ⟨_, _, _, roundEnv_some hb'⟩

/-- **A round changes nothing on a failure exactly if nothing fails.** -/
theorem fails_safe_iff (hfull : current_.isFull = true) :
    FailsSafe c current_ opened ↔ ¬ c.HasFailed current_ opened := by
  constructor
  · intro h hf
    obtain ⟨c', file', hr⟩ := h.unchanged hf
    rw [roundEnv_eq] at hr
    obtain ⟨r, -, hr⟩ := Option.map_eq_some_iff.1 hr
    -- a new version has no lists
    have hv : withTable current_ r.2.2 = current_ := by
      simp only [Prod.mk.injEq] at hr; exact hr.2.2
    rw [← hv] at hfull
    cases hfull
  · intro hf
    refine ⟨fun file file' metadata ho hb hfile => hf ?_, fun h => absurd h hf⟩
    exact .inr ⟨file, _, file', _, ho, roundEnv_some hb, hfile⟩

theorem fails_safe_iff_fullStore :
    FailsSafe ⟨0⟩ fullStore.current_ (some (.create [] [] [])) := by
  refine (fails_safe_iff (by decide)).2 ?_
  rintro (h | ⟨file, c', file', v, h, -, hf⟩)
  · cases h
  · cases h
    simp [WritableFile.HasFailed, WritableFile.create] at hf

/-- **A failed write of a table goes unnoticed**: `BuildTable` returns `OK`, and the lists are gone. -/
theorem failure_unnoticed : ∃ c' file' v metadata,
    fullStore.current_.isFull = true ∧ Routed fullStore.current_.list_ ∧
      buildTableEnv fullStore.current_.list_ (some (.create [.fail] [] [])) 1 =
        some (.ok, file', metadata) ∧
      WritableFile.HasFailed (.create [.fail] [] []) file' ∧
      (⟨0⟩ : Compacter).roundEnv fullStore.current_ (some (.create [.fail] [] [])) =
        some (c', file', v) ∧
      v ≠ fullStore.current_ := by
  have hr : (buildTableEnv fullStore.current_.list_ (some (.create [.fail] [] [])) 1).map
      (fun r => (r.1, r.2.1.writes, r.2.1.syncs, r.2.1.closes)) = some (.ok, [], [], []) := by
    decide +kernel
  obtain ⟨⟨st, file', metadata⟩, h1, h2⟩ := Option.map_eq_some_iff.1 hr
  simp only [Prod.mk.injEq] at h2
  obtain ⟨rfl, h2, -, -⟩ := h2
  refine ⟨⟨1⟩, file', withTable fullStore.current_ metadata, metadata, by decide, fullStore_routed,
    h1, .inl ?_, roundEnv_some h1, fun hv => ?_⟩
  · rw [h2]; decide
  · have hc := congrArg Version.list_count_ hv
    cases hc

end Compacter

end Yangkv
