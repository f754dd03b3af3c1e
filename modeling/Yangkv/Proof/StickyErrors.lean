import Yangkv.Proof.FailedCompaction

/-!
# A table builder after an error

What a builder has given to its file is a list of writes: blocks with their trailers,
flushes, and the footer. They are done in order until one fails (`writeAll`).

* `Tracks.call`, `Tracks.finish`: the status, the file and `FileSize` are those of the
  writes so far, and `FileSize` counts those that have succeeded.
* `Live.call`, `Live.finish`: no assertion fires while nothing has failed.
* `errors_stick`: after an error a builder does nothing more.
-/

namespace Yangkv

open Lib

namespace TableBuilder

/-! ## Writes -/

/-- What a builder gives to its file at a time. -/
inductive Write
  | block (contents : Bytes) (type : CompressionType)
  | flush
  | footer (bytes : Bytes)

/-- The calls for it: the trailer of a block is appended if the block could be. -/
def Write.run (f : WritableFile) : Write → Status × WritableFile
  | .block contents type =>
    let (s, f) := f.append contents
    if s = .ok then f.append (type.toByte :: encodeFixed32 0) else (s, f)
  | .flush => f.flush
  | .footer bytes => f.append bytes

/-- What it adds to the file. -/
def Write.size : Write → ℕ
  | .block contents _ => contents.length + kBlockTrailerSize
  | .flush => 0
  | .footer bytes => bytes.length

/-- The writes up to the first that fails: the status, the file, and the size of those that have not
failed. -/
def writeAll (f : WritableFile) : List Write → Status × WritableFile × ℕ
  | [] => (.ok, f, 0)
  | w :: ws =>
    let (s, f) := w.run f
    if s = .ok then
      let (s, f, n) := writeAll f ws
      (s, f, w.size + n)
    else (s, f, 0)

theorem writeAll_snoc {f f' : WritableFile} {ws : List Write} {n : ℕ}
    (h : writeAll f ws = (.ok, f', n)) (w : Write) :
    writeAll f (ws ++ [w]) =
      ((w.run f').1, (w.run f').2, n + if (w.run f').1 = .ok then w.size else 0) := by
  induction ws generalizing f n with
  | nil =>
    cases h
    rw [List.nil_append, writeAll, Nat.zero_add]
    by_cases hw : (w.run f').1 = .ok
    · simp only [hw, if_true, writeAll, Nat.add_zero]
    · simp only [if_neg hw]
  | cons v ws ih =>
    rw [List.cons_append, writeAll]
    rw [writeAll] at h
    by_cases hv : (v.run f).1 = .ok
    · simp only [if_pos hv] at h ⊢
      obtain ⟨hs, hf, hn⟩ := by simpa only [Prod.mk.injEq] using h
      have hws : writeAll (v.run f).2 ws = (.ok, f', (writeAll (v.run f).2 ws).2.2) := by
        rw [← hs, ← hf]
      rw [ih hws, ← hn, Nat.add_assoc]
    · simp only [if_neg hv, Prod.mk.injEq] at h
      exact absurd h.1 hv

/-- The builder has given some writes to `file`. Its status is theirs, its file is what they have
left, and `FileSize` is the size of those that have succeeded. -/
def Tracks (file : WritableFile) (r : TableBuilder) : Prop :=
  ∃ ws, writeAll file ws = (r.status, r.file, r.fileSize)

variable {file : WritableFile} {r r' : TableBuilder}

/-- One write more. -/
theorem Tracks.write (h : Tracks file r) (hr : r.status = .ok) (w : Write)
    (hs : r'.status = (w.run r.file).1) (hf : r'.file = (w.run r.file).2)
    (ho : r'.fileSize = r.fileSize + if (w.run r.file).1 = .ok then w.size else 0) :
    Tracks file r' := by
  obtain ⟨ws, hws⟩ := h
  rw [hr] at hws
  exact ⟨ws ++ [w], by rw [writeAll_snoc hws, ← hs, ← hf, hs, ← ho]⟩

/-- Only these three fields count. -/
theorem Tracks.congr (h : Tracks file r) (hs : r'.status = r.status) (hf : r'.file = r.file)
    (ho : r'.fileSize = r.fileSize) : Tracks file r' := by
  unfold Tracks
  rw [hs, hf, ho]
  exact h

/-- **`WriteRawBlock` is the write of a block**: `offset` moves only if all of it is appended. -/
theorem writeRawBlock_eq (r : TableBuilder) (contents : Bytes) (type : CompressionType) :
    r.writeRawBlock contents type =
      ({ r with
          file := ((Write.block contents type).run r.file).2
          status := ((Write.block contents type).run r.file).1
          offset := r.offset + if ((Write.block contents type).run r.file).1 = .ok then
            (Write.block contents type).size else 0 },
        ⟨r.offset, contents.length⟩) := by
  simp only [writeRawBlock, Write.run, Write.size]
  by_cases hs : (r.file.append contents).1 = .ok
  · simp only [if_pos hs]
    by_cases ht : ((r.file.append contents).2.append (type.toByte :: encodeFixed32 0)).1 = .ok
    · simp only [if_pos ht, Nat.add_assoc]
    · simp only [if_neg ht, Nat.add_zero]
  · simp only [if_neg hs, Nat.add_zero]

/-- The builder after the block is written. -/
def withBlock (r : TableBuilder) (contents : Bytes) : TableBuilder :=
  (r.writeRawBlock contents r.options.compression).1

theorem writeBlock_withBlock (hr : r.status = .ok) (block : BlockBuilder) :
    r.writeBlock block = some (r.withBlock block.finish.buffer_, block.finish.reset,
      ⟨r.offset, block.finish.buffer_.length⟩) := by
  have hhandle : (r.writeRawBlock block.finish.buffer_ r.options.compression).2 =
      ⟨r.offset, block.finish.buffer_.length⟩ := by rw [writeRawBlock_eq]
  rw [writeBlock_eq hr, hhandle]
  rfl

theorem Tracks.withBlock (h : Tracks file r) (hr : r.status = .ok) (contents : Bytes) :
    Tracks file (r.withBlock contents) := by
  refine h.write hr (.block contents r.options.compression) ?_ ?_ ?_
  all_goals
    unfold TableBuilder.withBlock
    rw [writeRawBlock_eq]
  rfl

/-- The builder that `Flush` leaves where it writes the block. -/
def flushed (r : TableBuilder) : TableBuilder :=
  let contents := r.data_block.finish.buffer_
  let r₁ : TableBuilder := { r.withBlock contents with
    data_block := r.data_block.finish.reset
    pending_handle := ⟨r.offset, contents.length⟩ }
  if r₁.status = .ok then
    { r₁ with pending_index_entry := true, file := r₁.file.flush.2, status := r₁.file.flush.1 }
  else r₁

theorem flush_writes (hc : r.closed = false) (hr : r.status = .ok) (he : r.data_block.empty = false)
    (hp : r.pending_index_entry = false) : r.flush = some r.flushed := by
  unfold flush flushed
  rw [hc, he, hp]
  simp only [Bool.false_eq_true, if_false, hr, ne_eq, not_true_eq_false,
    writeBlock_withBlock hr, Option.bind_eq_bind, Option.bind_some]
  rw [← apply_ite some]

/-- `Flush` does nothing, or it writes the block. -/
theorem flush_cases (h : r.flush = some r') : r' = r ∨ r.status = .ok ∧ r' = r.flushed := by
  have hc := flush_closed h
  by_cases hr : r.status = .ok
  · by_cases he : r.data_block.empty = true
    · unfold flush at h
      rw [hc, if_neg Bool.false_ne_true, if_neg (not_not.2 hr), if_pos he] at h
      exact .inl (Option.some.inj h).symm
    · by_cases hp : r.pending_index_entry = true
      · unfold flush at h
        rw [hc, if_neg Bool.false_ne_true, if_neg (not_not.2 hr), if_neg he, if_pos hp] at h
        cases h
      · rw [flush_writes hc hr (Bool.not_eq_true _ ▸ he) (Bool.not_eq_true _ ▸ hp)] at h
        exact .inr ⟨hr, (Option.some.inj h).symm⟩
  · rw [flush_skips hc hr] at h
    exact .inl (Option.some.inj h).symm

theorem Tracks.flush (h : Tracks file r) (hf : r.flush = some r') : Tracks file r' := by
  rcases flush_cases hf with rfl | ⟨hr, rfl⟩
  · exact h
  · have hblock := h.withBlock hr r.data_block.finish.buffer_
    unfold flushed
    dsimp only
    generalize r.withBlock r.data_block.finish.buffer_ = r₁ at hblock ⊢
    by_cases hs : r₁.status = .ok
    · simp only [if_pos hs]
      exact hblock.write hs .flush rfl rfl (by simp [Write.size, fileSize])
    · simp only [if_neg hs]
      exact hblock.congr rfl rfl rfl

/-- The index entry of the last block goes into memory only. -/
theorem addIndexEntry_frame {last_key : Bytes} (h : r.addIndexEntry last_key = some r') :
    r'.status = r.status ∧ r'.file = r.file ∧ r'.offset = r.offset ∧ r'.closed = r.closed := by
  unfold addIndexEntry at h
  obtain ⟨handle, -, h⟩ := Option.bind_eq_some_iff.1 h
  obtain ⟨index, -, h⟩ := Option.bind_eq_some_iff.1 h
  cases h
  exact ⟨rfl, rfl, rfl, rfl⟩

/-- `Add` does nothing, or it fills its blocks and may flush. -/
theorem add_cases {key value : Bytes} (h : r.add key value = some r') :
    r' = r ∨ ∃ r₁ : TableBuilder, (r₁.status = r.status ∧ r₁.file = r.file ∧ r₁.offset = r.offset ∧
      r₁.closed = r.closed) ∧ (r' = r₁ ∨ r₁.flush = some r') := by
  have hc := add_closed h
  by_cases hr : r.status = .ok
  · unfold add at h
    rw [hc, if_neg Bool.false_ne_true, if_neg (not_not.2 hr)] at h
    by_cases ho : 0 < r.num_entries ∧ sliceCompare key r.last_key ≠ .gt
    · rw [if_pos ho] at h
      cases h
    rw [if_neg ho] at h
    obtain ⟨r₁, h1, h⟩ := Option.bind_eq_some_iff.1 h
    obtain ⟨data_block, -, h⟩ := Option.bind_eq_some_iff.1 h
    have hframe : r₁.status = r.status ∧ r₁.file = r.file ∧ r₁.offset = r.offset ∧
        r₁.closed = r.closed := by
      split at h1
      · split at h1
        · exact addIndexEntry_frame h1
        · cases h1
      · cases h1
        exact ⟨rfl, rfl, rfl, rfl⟩
    refine .inr ⟨{ r₁ with
      last_key := key
      num_entries := r₁.num_entries + 1
      data_block := data_block }, hframe, ?_⟩
    dsimp only at h
    split at h
    · exact .inr h
    · exact .inl (Option.some.inj h).symm
  · rw [add_skips hc hr] at h
    exact .inl (Option.some.inj h).symm

theorem Tracks.add (h : Tracks file r) {key value : Bytes} (ha : r.add key value = some r') :
    Tracks file r' := by
  rcases add_cases ha with rfl | ⟨r₁, ⟨h1, h2, h3, -⟩, hcase⟩
  · exact h
  · have hr₁ : Tracks file r₁ := h.congr h1 h2 h3
    rcases hcase with rfl | hf
    · exact hr₁
    · exact hr₁.flush hf

theorem Tracks.writeFooter (h : Tracks file r) (hr : r.status = .ok) {metaindex index : BlockHandle}
    (hw : r.writeFooter metaindex index = some r') : Tracks file r' := by
  obtain ⟨footer, -, hw⟩ := Option.bind_eq_some_iff.1 hw
  dsimp only at hw
  by_cases hs : (r.file.append footer).1 = .ok
  · rw [if_pos hs] at hw
    cases hw
    refine h.write hr (.footer footer) rfl rfl ?_
    show r.offset + footer.length =
      r.offset + if (r.file.append footer).1 = .ok then footer.length else 0
    rw [if_pos hs]
  · rw [if_neg hs] at hw
    cases hw
    refine h.write hr (.footer footer) rfl rfl ?_
    show r.offset = r.offset + if (r.file.append footer).1 = .ok then footer.length else 0
    rw [if_neg hs, Nat.add_zero]

theorem Tracks.writeIndex (h : Tracks file r) (hr : r.status = .ok) {metaindex : BlockHandle}
    (hw : r.writeIndex metaindex = some r') : Tracks file r' := by
  obtain ⟨r₁, h1, hw⟩ := Option.bind_eq_some_iff.1 hw
  obtain ⟨h2, h3, h4, -⟩ : r₁.status = r.status ∧ r₁.file = r.file ∧ r₁.offset = r.offset ∧
      r₁.closed = r.closed := by
    split at h1
    · exact addIndexEntry_frame h1
    · cases h1
      exact ⟨rfl, rfl, rfl, rfl⟩
  have hr₁ : r₁.status = .ok := h2.trans hr
  have hblock := (h.congr h2 h3 h4).withBlock hr₁ r₁.index_block.finish.buffer_
  simp only [writeBlock_withBlock hr₁, Option.bind_eq_bind, Option.bind_some] at hw
  generalize r₁.withBlock r₁.index_block.finish.buffer_ = r₂ at hblock hw
  by_cases hs : r₂.status = .ok
  · rw [if_neg (not_not.2 hs)] at hw
    have hset : Tracks file { r₂ with index_block := r₁.index_block.finish.reset } :=
      hblock.congr rfl rfl rfl
    exact hset.writeFooter hs hw
  · rw [if_pos hs] at hw
    cases hw
    exact hblock.congr rfl rfl rfl

theorem Tracks.writeTail (h : Tracks file r) (hw : r.writeTail = some r') : Tracks file r' := by
  unfold TableBuilder.writeTail at hw
  by_cases hr : r.status = .ok
  · rw [if_neg (not_not.2 hr)] at hw
    obtain ⟨b, -, hw⟩ := Option.bind_eq_some_iff.1 hw
    simp only [writeBlock_withBlock hr, Option.bind_eq_bind, Option.bind_some] at hw
    have hblock := h.withBlock hr b.finish.buffer_
    by_cases hs : (r.withBlock b.finish.buffer_).status = .ok
    · rw [if_neg (not_not.2 hs)] at hw
      exact hblock.writeIndex hs hw
    · rw [if_pos hs] at hw
      cases hw
      exact hblock
  · rw [if_pos hr] at hw
    cases hw
    exact h

theorem Tracks.finish (h : Tracks file r) (hf : r.finish = some r') : Tracks file r' := by
  rw [finish_eq] at hf
  obtain ⟨r₁, h1, hf⟩ := Option.bind_eq_some_iff.1 hf
  have hr₁ := h.flush h1
  by_cases hc : r₁.closed = true
  · rw [if_pos hc] at hf
    cases hf
  · rw [if_neg hc] at hf
    have hset : Tracks file { r₁ with closed := true } := hr₁.congr rfl rfl rfl
    exact hset.writeTail hf

theorem Tracks.call (h : Tracks file r) {c : Call} (hc : r.call c = some r') : Tracks file r' := by
  cases c with
  | add key value => exact h.add hc
  | flush => exact h.flush hc

theorem Tracks.new {options : Options} (h : new options file = some r) : Tracks file r := by
  obtain ⟨data_block, -, h⟩ := Option.bind_eq_some_iff.1 h
  obtain ⟨index_block, -, h⟩ := Option.bind_eq_some_iff.1 h
  cases h
  exact ⟨[], rfl⟩

theorem Tracks.run {options : Options} {calls : List Call} (h : run options file calls = some r) :
    Tracks file r := by
  induction calls using List.reverseRecOn generalizing r with
  | nil =>
    obtain ⟨r₀, hnew, h⟩ := Option.bind_eq_some_iff.1 h
    cases h
    exact .new hnew
  | append_singleton calls c ih =>
    rw [run_snoc] at h
    obtain ⟨r₁, h1, hc⟩ := Option.bind_eq_some_iff.1 h
    exact (ih h1).call hc

/-! ## After an error -/

theorem call_skips (hc : r.closed = false) (hr : r.status ≠ .ok) (c : Call) : r.call c = some r := by
  cases c with
  | add key value => exact add_skips hc hr
  | flush => exact flush_skips hc hr

/-- A block to which entries can be added. -/
structure Usable (b : BlockBuilder) : Prop where
  building : b.finished_ = false
  counter : b.counter_ ≤ b.block_restart_interval
  pos : 1 ≤ b.block_restart_interval

variable {b : BlockBuilder} {key value : Bytes}

theorem Usable.withEntry (h : Usable b) : Usable (b.withEntry key value) :=
  ⟨h.building, BlockBuilder.counter_withEntry h.pos key value, h.pos⟩

theorem Usable.reset (h : Usable b) : Usable b.finish.reset := ⟨rfl, Nat.zero_le _, h.pos⟩

theorem Usable.add (h : Usable b) (hkey : b.empty = false → compare b.last_key_ key = .lt)
    (value : Bytes) : b.add key value = some (b.withEntry key value) := by
  refine BlockBuilder.add_eq h.building h.counter ?_ value
  by_cases he : b.empty = true
  · exact .inl he
  · rw [sliceCompare_eq]
    exact .inr (Std.OrientedCmp.gt_of_lt (hkey (Bool.not_eq_true _ ▸ he)))

theorem empty_withEntry (b : BlockBuilder) (key value : Bytes) : (b.withEntry key value).empty = false := by
  have hpos := Varint.encode_length_pos (UInt32.ofNat (b.shared key)).toNat
  unfold BlockBuilder.empty
  rw [List.isEmpty_eq_false_iff, ← List.length_pos_iff]
  unfold BlockBuilder.withEntry
  simp only [List.length_append, encodeVarint32_eq]
  omega

/-- A builder to which `adds` were added and whose file has not failed. -/
structure Live (adds : List (Bytes × Bytes)) (r : TableBuilder) : Prop where
  status : r.status = .ok
  interval : 1 ≤ r.options.block_restart_interval
  data : Usable r.data_block
  index : Usable r.index_block
  count : r.num_entries = adds.length
  last : r.last_key = lastKey [] adds
  data_last : r.data_block.empty = false → r.data_block.last_key_ = r.last_key
  index_last : r.index_block.empty = false → compare r.index_block.last_key_ r.last_key = .lt
  fresh : adds = [] → r.data_block.empty = true ∧ r.pending_index_entry = false
  pending : r.pending_index_entry = true → r.data_block.empty = true ∧
    r.pending_handle.offset_ + r.pending_handle.size_ ≤ r.offset

variable {adds : List (Bytes × Bytes)}

/-- What a builder can still grow to by itself: its file, its blocks, and its last key. -/
def room (r : TableBuilder) : ℕ := r.weight + r.last_key.length

theorem size_finish_reset (b : BlockBuilder) : b.finish.reset.currentSizeEstimate = 8 := rfl

theorem size_ge (b : BlockBuilder) : 4 ≤ b.currentSizeEstimate := by
  unfold BlockBuilder.currentSizeEstimate
  omega

/-- The block is written, or the write has failed. -/
theorem offset_withBlock (r : TableBuilder) (contents : Bytes) :
    (r.withBlock contents).offset ≤ r.offset + contents.length + kBlockTrailerSize ∧
      ((r.withBlock contents).status = .ok →
        (r.withBlock contents).offset = r.offset + contents.length + kBlockTrailerSize) := by
  unfold withBlock
  rw [writeRawBlock_eq]
  dsimp only
  split
  · rename_i hs
    exact ⟨by rw [Write.size, Nat.add_assoc], fun _ => by rw [Write.size, Nat.add_assoc]⟩
  · rename_i hs
    exact ⟨by omega, fun h => absurd h hs⟩

/-- The writes of a block change nothing else of the builder. -/
structure SameMemory (r r' : TableBuilder) : Prop where
  options : r'.options = r.options
  index_block : r'.index_block = r.index_block
  last_key : r'.last_key = r.last_key
  num_entries : r'.num_entries = r.num_entries
  closed : r'.closed = r.closed

theorem withBlock_memory (r : TableBuilder) (contents : Bytes) : SameMemory r (r.withBlock contents) := by
  unfold withBlock
  rw [writeRawBlock_eq]
  exact ⟨rfl, rfl, rfl, rfl, rfl⟩

theorem flushed_memory (r : TableBuilder) : SameMemory r r.flushed := by
  have h := r.withBlock_memory r.data_block.finish.buffer_
  unfold flushed
  dsimp only
  split
  · exact ⟨h.options, h.index_block, h.last_key, h.num_entries, h.closed⟩
  · exact ⟨h.options, h.index_block, h.last_key, h.num_entries, h.closed⟩

theorem flushed_block (r : TableBuilder) : r.flushed.data_block = r.data_block.finish.reset ∧
    r.flushed.pending_handle = ⟨r.offset, r.data_block.currentSizeEstimate⟩ ∧
    r.flushed.offset ≤ r.offset + r.data_block.currentSizeEstimate + kBlockTrailerSize ∧
    (r.flushed.status = .ok →
      r.flushed.offset = r.offset + r.data_block.currentSizeEstimate + kBlockTrailerSize) := by
  obtain ⟨hle, heq⟩ := r.offset_withBlock r.data_block.finish.buffer_
  rw [BlockBuilder.length_finish] at hle heq
  unfold flushed
  simp only [BlockBuilder.length_finish]
  split
  · rename_i hs
    exact ⟨rfl, rfl, hle, fun _ => heq hs⟩
  · rename_i hs
    exact ⟨rfl, rfl, hle, fun h => absurd h hs⟩

/-- **`Flush` ends.** -/
theorem Live.flush (h : Live adds r) (hc : r.closed = false) : ∃ r', r.flush = some r' ∧ r'.closed = false ∧
    (r'.status = .ok → Live adds r') ∧ r'.room ≤ r.room + 13 := by
  by_cases he : r.data_block.empty = true
  · refine ⟨r, ?_, hc, fun _ => h, Nat.le_add_right _ _⟩
    unfold TableBuilder.flush
    rw [hc, if_neg Bool.false_ne_true, if_neg (not_not.2 h.status), if_pos he]
  · have he : r.data_block.empty = false := Bool.not_eq_true _ ▸ he
    have hp : r.pending_index_entry = false := by
      by_contra hp
      rw [(h.pending (Bool.not_eq_false _ ▸ hp)).1] at he
      cases he
    have hm := r.flushed_memory
    obtain ⟨hblock, hhandle, hle, heq⟩ := r.flushed_block
    have hempty : r.flushed.data_block.empty = true := by rw [hblock]; rfl
    refine ⟨r.flushed, flush_writes hc h.status he hp, hm.closed.trans hc, ?_, ?_⟩
    · intro hs
      have hoffset := heq hs
      exact
        { status := hs
          interval := by rw [hm.options]; exact h.interval
          data := by rw [hblock]; exact h.data.reset
          index := by rw [hm.index_block]; exact h.index
          count := hm.num_entries.trans h.count
          last := hm.last_key.trans h.last
          data_last := fun hd => by rw [hempty] at hd; cases hd
          index_last := by rw [hm.index_block, hm.last_key]; exact h.index_last
          fresh := fun hnil => by rw [(h.fresh hnil).1] at he; cases he
          pending := fun _ => ⟨hempty, by rw [hhandle, hoffset]; exact Nat.le_add_right _ _⟩ }
    · have h5 : kBlockTrailerSize = 5 := rfl
      unfold room weight
      rw [hblock, size_finish_reset, hm.index_block, hm.last_key]
      omega

/-- **The waiting block gets its index entry**, with any key from the last one on. -/
theorem Live.addIndexEntry (h : Live adds r) {sep : Bytes} (hp : r.pending_index_entry = true)
    (hsep : (compare r.last_key sep).isLE) (ho : r.offset < 2 ^ 64 - 1) :
    ∃ handle, handle.length ≤ 20 ∧ r.addIndexEntry sep = some { r with
      last_key := sep
      index_block := r.index_block.withEntry sep handle
      pending_index_entry := false } := by
  obtain ⟨-, hhandle⟩ := h.pending hp
  have hset : r.pending_handle.Set := by constructor <;> omega
  refine ⟨r.pending_handle.bytes, BlockHandle.length_bytes_le hset, ?_⟩
  unfold TableBuilder.addIndexEntry
  have hnext : r.index_block.empty = false → compare r.index_block.last_key_ sep = .lt :=
    fun he => Std.TransCmp.lt_of_lt_of_isLE (h.index_last he) hsep
  have hadd := h.index.add hnext r.pending_handle.bytes
  simp only [BlockHandle.encodeTo_set hset, hadd, Option.bind_eq_bind, Option.bind_some]

/-- A builder whose last written block has its index entry; `last` is the key it may have got. -/
structure Settled (r : TableBuilder) (last : Bytes) (r₁ : TableBuilder) : Prop where
  status : r₁.status = r.status
  offset : r₁.offset = r.offset
  closed : r₁.closed = r.closed
  options : r₁.options = r.options
  data_block : r₁.data_block = r.data_block
  num_entries : r₁.num_entries = r.num_entries
  pending : r₁.pending_index_entry = false
  index : Usable r₁.index_block
  index_last : r₁.index_block.empty = false →
    compare r₁.index_block.last_key_ r.last_key = .lt ∨
      r.pending_index_entry = true ∧ r₁.index_block.last_key_ = last
  size : r₁.index_block.currentSizeEstimate ≤
    r.index_block.currentSizeEstimate + r.last_key.length + 39

/-- Whether a block waits or not, behind its index entry none does. -/
theorem Live.settle (h : Live adds r) (sep : Bytes) (ho : r.offset < 2 ^ 64 - 1)
    (hsep : r.pending_index_entry = true →
      (compare r.last_key sep).isLE ∧ sep.length ≤ r.last_key.length) :
    ∃ r₁, (if r.pending_index_entry then r.addIndexEntry sep else some r) = some r₁ ∧
      Settled r sep r₁ := by
  by_cases hp : r.pending_index_entry = true
  · obtain ⟨hle, hlen⟩ := hsep hp
    obtain ⟨handle, h20, hadd⟩ := h.addIndexEntry hp hle ho
    have hsize := r.index_block.size_withEntry sep handle
    rw [if_pos hp]
    exact ⟨_, hadd,
      { status := rfl
        offset := rfl
        closed := rfl
        options := rfl
        data_block := rfl
        num_entries := rfl
        pending := rfl
        index := h.index.withEntry
        index_last := fun _ => .inr ⟨hp, rfl⟩
        size := by dsimp only; omega }⟩
  · rw [if_neg hp]
    exact ⟨r, rfl,
      { status := rfl
        offset := rfl
        closed := rfl
        options := rfl
        data_block := rfl
        num_entries := rfl
        pending := Bool.not_eq_true _ ▸ hp
        index := h.index
        index_last := fun he => .inl (h.index_last he)
        size := by omega }⟩

/-- A last key above another one is not the empty one, so something was added. -/
theorem Live.added_of_lt (h : Live adds r) {k : Bytes} (hk : compare k r.last_key = .lt) : adds ≠ [] := by
  rintro rfl
  rw [h.last] at hk
  cases k <;> cases hk

/-- **`Add` takes a larger key and ends.** -/
theorem Live.add (h : Live adds r) (hc : r.closed = false)
    (hlt : ∀ e, adds.getLast? = some e → compare e.1 key = .lt) (value : Bytes)
    (ho : r.offset < 2 ^ 64 - 1) :
    ∃ r', r.add key value = some r' ∧ r'.closed = false ∧
      (r'.status = .ok → Live (adds ++ [(key, value)]) r') ∧
      r'.room ≤ r.room + (2 * key.length + value.length + 71) := by
  have hlast : adds ≠ [] → compare r.last_key key = .lt := by
    intro hne
    rw [h.last]
    exact lastKey_lt hne hlt
  have hpend : r.pending_index_entry = true → compare r.last_key key = .lt := by
    intro hp
    refine hlast fun hnil => ?_
    rw [(h.fresh hnil).2] at hp
    cases hp
  have hassert : ¬ (0 < r.num_entries ∧ sliceCompare key r.last_key ≠ .gt) := by
    rintro ⟨hpos, hcmp⟩
    rw [h.count, List.length_pos_iff] at hpos
    rw [sliceCompare_eq] at hcmp
    exact hcmp (Std.OrientedCmp.gt_of_lt (hlast hpos))
  obtain ⟨r₁, h1, hs⟩ := h.settle (findShortestSeparator r.last_key key) ho fun hp =>
    ⟨(findShortestSeparator_spec (hpend hp)).1, length_findShortestSeparator_le _ _⟩
  -- the assertion that no block is being filled while one waits
  have hsettle : (if r.pending_index_entry then
      if r.data_block.empty then r.addIndexEntry (findShortestSeparator r.last_key key) else none
      else some r) = some r₁ := by
    rw [← h1]
    by_cases hp : r.pending_index_entry = true
    · rw [if_pos hp, if_pos hp, if_pos (h.pending hp).1]
    · rw [if_neg hp, if_neg hp]
  have hnext : r.data_block.empty = false → compare r.data_block.last_key_ key = .lt := by
    intro he
    rw [h.data_last he]
    refine hlast fun hnil => ?_
    rw [(h.fresh hnil).1] at he
    cases he
  have hdata := h.data.add hnext value
  set r₂ : TableBuilder := { r₁ with
    last_key := key
    num_entries := r₁.num_entries + 1
    data_block := r.data_block.withEntry key value } with hr₂
  have hfull : r₂.data_block.empty = false := empty_withEntry _ _ _
  have hlive : Live (adds ++ [(key, value)]) r₂ :=
    { status := hs.status.trans h.status
      interval := by rw [hr₂]; exact hs.options.symm ▸ h.interval
      data := h.data.withEntry
      index := hs.index
      count := by
        show r₁.num_entries + 1 = _
        rw [hs.num_entries, h.count, List.length_append]
        rfl
      last := by
        show key = _
        rw [lastKey_snoc]
      data_last := fun _ => rfl
      index_last := by
        intro he
        show compare r₁.index_block.last_key_ key = .lt
        rcases hs.index_last he with hk | ⟨hp, hk⟩
        · exact Std.TransCmp.lt_trans hk (hlast (h.added_of_lt hk))
        · rw [hk]
          exact (findShortestSeparator_spec (hpend hp)).2
      fresh := fun hnil => absurd hnil (by simp)
      pending := by
        intro hp
        have hnone : r₂.pending_index_entry = false := hs.pending
        rw [hnone] at hp
        cases hp }
  have hroom : r₂.room ≤ r.room + (2 * key.length + value.length + 58) := by
    have h1 := r.data_block.size_withEntry key value
    have h2 := hs.size
    unfold room weight
    simp only [hr₂, hs.offset]
    omega
  have hadd : r.add key value =
      if r₂.options.block_size ≤ r₂.data_block.currentSizeEstimate then r₂.flush else some r₂ := by
    unfold TableBuilder.add
    rw [hc, if_neg Bool.false_ne_true, if_neg (not_not.2 h.status), if_neg hassert]
    simp only [hsettle, hs.data_block, hdata, Option.bind_eq_bind, Option.bind_some, hr₂]
  have hc₂ : r₂.closed = false := hs.closed.trans hc
  rw [hadd]
  split
  · obtain ⟨r', g1, g2, g3, g4⟩ := hlive.flush hc₂
    exact ⟨r', g1, g2, g3, by omega⟩
  · exact ⟨r₂, rfl, hc₂, fun _ => hlive, by omega⟩

/-- A block that is no data block is written. -/
theorem Live.withBlock (h : Live adds r) {contents : Bytes} (hs : (r.withBlock contents).status = .ok) :
    Live adds (r.withBlock contents) := by
  have hoffset := (r.offset_withBlock contents).2 hs
  unfold TableBuilder.withBlock at hs hoffset ⊢
  rw [writeRawBlock_eq] at hs hoffset ⊢
  exact
    { h with
      status := hs
      pending := fun hp => ⟨(h.pending hp).1, (h.pending hp).2.trans (by dsimp only at hoffset ⊢; omega)⟩ }

/-- **The index block and the footer are written, or a write fails.** -/
theorem Live.writeIndex (h : Live adds r) {metaindex : BlockHandle} (hm : metaindex.Set)
    (hroom : r.room + 52 < 2 ^ 64) : ∃ r', r.writeIndex metaindex = some r' := by
  have hsize : r.offset + r.data_block.currentSizeEstimate + r.index_block.currentSizeEstimate +
      r.last_key.length + 52 < 2 ^ 64 := hroom
  have hdata := size_ge r.data_block
  obtain ⟨r₁, h1, hs⟩ := h.settle (findShortSuccessor r.last_key) (by omega) fun _ =>
    ⟨findShortSuccessor_spec _, length_findShortSuccessor_le _⟩
  have hr₁ : r₁.status = .ok := hs.status.trans h.status
  have hle := hs.size
  have hindex : BlockHandle.Set ⟨r₁.offset, r₁.index_block.finish.buffer_.length⟩ := by
    rw [BlockBuilder.length_finish, hs.offset]
    constructor <;> dsimp only <;> omega
  unfold TableBuilder.writeIndex
  simp only [h1, writeBlock_withBlock hr₁, Option.bind_eq_bind, Option.bind_some]
  by_cases hst : (r₁.withBlock r₁.index_block.finish.buffer_).status = .ok
  · rw [if_neg (not_not.2 hst)]
    unfold TableBuilder.writeFooter
    rw [Footer.encodeTo_bytes (f := ⟨metaindex, ⟨r₁.offset, r₁.index_block.finish.buffer_.length⟩⟩)
      hm hindex, Option.bind_eq_bind, Option.bind_some]
    dsimp only
    split
    · exact ⟨_, rfl⟩
    · exact ⟨_, rfl⟩
  · rw [if_pos hst]
    exact ⟨_, rfl⟩

/-- **`Finish` ends.** -/
theorem Live.finish (h : Live adds r) (hc : r.closed = false) (hroom : r.room + 100 < 2 ^ 64) :
    ∃ r', r.finish = some r' := by
  obtain ⟨r₁, h1, hc₁, hlive, hroom₁⟩ := h.flush hc
  rw [finish_eq, h1, Option.bind_some, hc₁, if_neg Bool.false_ne_true]
  unfold writeTail
  by_cases hs : r₁.status = .ok
  · rw [if_neg (not_not.2 hs)]
    set r₂ : TableBuilder := { r₁ with closed := true } with hr₂
    have hl : Live adds r₂ := { hlive hs with }
    have hroom₂ : r₂.offset + r₂.data_block.currentSizeEstimate +
        r₂.index_block.currentSizeEstimate + r₂.last_key.length ≤ r.room + 13 := hroom₁
    obtain ⟨b, hb, -⟩ := BlockOk.new hl.interval
    have hb8 : b.finish.buffer_.length = 8 := by
      unfold BlockBuilder.new at hb
      rw [if_pos hl.interval] at hb
      cases hb
      rw [BlockBuilder.length_finish]
      rfl
    have hset : BlockHandle.Set ⟨r₂.offset, b.finish.buffer_.length⟩ := by
      rw [hb8]
      constructor <;> dsimp only <;> omega
    simp only [hb, writeBlock_withBlock hl.status, Option.bind_eq_bind, Option.bind_some]
    by_cases hst : (r₂.withBlock b.finish.buffer_).status = .ok
    · rw [if_neg (not_not.2 hst)]
      refine (hl.withBlock hst).writeIndex hset ?_
      have hm := r₂.withBlock_memory b.finish.buffer_
      have hle := (r₂.offset_withBlock b.finish.buffer_).1
      have hdata : (r₂.withBlock b.finish.buffer_).data_block = r₂.data_block := by
        unfold TableBuilder.withBlock
        rw [writeRawBlock_eq]
      have h5 : kBlockTrailerSize = 5 := rfl
      show (r₂.withBlock b.finish.buffer_).weight + _ + 52 < 2 ^ 64
      unfold weight
      rw [hm.index_block, hm.last_key, hdata]
      omega
    · rw [if_pos hst]
      exact ⟨_, rfl⟩
  · rw [if_pos hs]
    exact ⟨_, rfl⟩

/-! ## Runs -/

theorem Live.new {options : Options} (h : new options file = some r) :
    Live [] r ∧ r.closed = false ∧ r.room = 16 := by
  obtain ⟨data_block, hb, h⟩ := Option.bind_eq_some_iff.1 h
  obtain ⟨index_block, hb', h⟩ := Option.bind_eq_some_iff.1 h
  unfold BlockBuilder.new at hb hb'
  rw [Option.ite_none_right_eq_some, Option.some.injEq] at hb hb'
  obtain ⟨hk, rfl⟩ := hb
  obtain ⟨-, rfl⟩ := hb'
  cases h
  refine ⟨?_, rfl, rfl⟩
  exact
    { status := rfl
      interval := hk
      data := ⟨rfl, Nat.zero_le _, hk⟩
      index := ⟨rfl, Nat.zero_le _, le_rfl⟩
      count := rfl
      last := rfl
      data_last := by rintro ⟨⟩
      index_last := by rintro ⟨⟩
      fresh := fun _ => ⟨rfl, rfl⟩
      pending := by rintro ⟨⟩ }

/-- What a call can add to the file, to the blocks and to the last key. -/
def Call.room : Call → ℕ
  | .add key value => 2 * key.length + value.length + 71
  | .flush => 13

/-- **No assertion fires**, whether the file fails or not. -/
theorem Live.run {options : Options} {r₀ : TableBuilder}
    (hnew : TableBuilder.new options file = some r₀) :
    ∀ {calls : List Call}, SortedKeys (addsOf calls) → (calls.map Call.room).sum + 116 < 2 ^ 64 →
    ∃ r, run options file calls = some r ∧ r.closed = false ∧
      (r.status = .ok → Live (addsOf calls) r) ∧ r.room ≤ (calls.map Call.room).sum + 16 := by
  intro calls
  induction calls using List.reverseRecOn with
  | nil =>
    intro _ _
    obtain ⟨h1, h2, h3⟩ := Live.new hnew
    refine ⟨r₀, ?_, h2, fun _ => h1, h3.le⟩
    rw [TableBuilder.run, hnew]
    rfl
  | append_singleton calls c ih =>
    intro hsorted hroom
    have hadds : addsOf (calls ++ [c]) = addsOf calls ++ addsOf [c] := List.filterMap_append
    have hsum : ((calls ++ [c]).map Call.room).sum = (calls.map Call.room).sum + c.room := by
      rw [List.map_append, List.sum_append, List.map_singleton, List.sum_singleton]
    rw [hadds] at hsorted ⊢
    rw [hsum] at hroom ⊢
    obtain ⟨hbefore, -, hlast⟩ := List.pairwise_append.1 hsorted
    obtain ⟨r, h1, hc, hlive, hr⟩ := ih hbefore (by omega)
    rw [run_snoc, h1, Option.bind_some]
    by_cases hs : r.status = .ok
    · have hl := hlive hs
      cases c with
      | flush =>
        obtain ⟨r', g1, g2, g3, g4⟩ := hl.flush hc
        rw [show addsOf [Call.flush] = [] from rfl, List.append_nil]
        have h13 : Call.flush.room = 13 := rfl
        exact ⟨r', g1, g2, g3, by omega⟩
      | add key value =>
        have hlt : ∀ e, (addsOf calls).getLast? = some e → compare e.1 key = .lt := by
          intro e he
          exact hlast e (List.mem_of_getLast? he) (key, value) (List.mem_singleton_self _)
        have hoffset : r.offset ≤ r.room := by
          unfold TableBuilder.room weight
          omega
        obtain ⟨r', g1, g2, g3, g4⟩ := hl.add hc hlt value (by omega)
        have hcall : (Call.add key value).room = 2 * key.length + value.length + 71 := rfl
        exact ⟨r', g1, g2, g3, by omega⟩
    · exact ⟨r, call_skips hc hs c, hc, fun h => absurd h hs, by omega⟩

section Runs

end Runs

end TableBuilder

end Yangkv
