import Yangkv.Proof.Block
import Yangkv.Proof.LogFile
import Yangkv.Spec.Table

/-!
# Handles, footers and stored blocks

* `BlockHandle.decodeFrom_bytes`, `Footer.decodeFrom_bytes`: handles and footers
  read back.
* `readBlock_eq`: `ReadBlock` reads a block that one `::pread` moves with its trailer,
  and fails on any other.
* `Holds`: a file holds a block at a handle. What is appended to the file later does
  not change this (`Holds.append`).
* `writeBlock_ok`: `WriteBlock` appends a block that the file then holds.
-/

namespace Yangkv

open Lib

/-! ## Handles and footers -/

namespace BlockHandle

variable {h : BlockHandle}

/-- The bytes of a handle. -/
def bytes (h : BlockHandle) : Bytes := Varint.encode h.offset_ ++ Varint.encode h.size_

/-- Both fields are set. -/
def Set (h : BlockHandle) : Prop := h.offset_ < 2 ^ 64 - 1 ∧ h.size_ < 2 ^ 64 - 1

theorem encodeTo_set (hs : h.Set) : h.encodeTo = some h.bytes := by
  obtain ⟨h1, h2⟩ := hs
  unfold encodeTo bytes
  rw [if_neg (by omega), encodeVarint64_eq, encodeVarint64_eq, UInt64.toNat_ofNat',
    UInt64.toNat_ofNat', Nat.mod_eq_of_lt (by omega), Nat.mod_eq_of_lt (by omega)]

theorem length_bytes_le (hs : h.Set) : h.bytes.length ≤ kMaxEncodedLength := by
  obtain ⟨h1, h2⟩ := hs
  have h3 := Varint.length_encode_le (k := 10) (n := h.offset_) (by omega) (by omega)
  have h4 := Varint.length_encode_le (k := 10) (n := h.size_) (by omega) (by omega)
  unfold bytes kMaxEncodedLength
  rw [List.length_append]
  omega

/-- **A handle reads back**, whatever is behind it. -/
theorem decodeFrom_bytes (hs : h.Set) (rest : Bytes) : decodeFrom (h.bytes ++ rest) = some (h, rest) := by
  obtain ⟨h1, h2⟩ := hs
  unfold decodeFrom bytes
  simp only [List.append_assoc, getVarint64Ptr_encode (show h.offset_ < 2 ^ 64 by omega),
    getVarint64Ptr_encode (show h.size_ < 2 ^ 64 by omega), Option.bind_eq_bind, Option.bind_some,
    UInt64.toNat_ofNat', Nat.mod_eq_of_lt (show h.offset_ < 2 ^ 64 by omega),
    Nat.mod_eq_of_lt (show h.size_ < 2 ^ 64 by omega)]

end BlockHandle

namespace Footer

/-- The bytes of a footer. -/
def bytes (f : Footer) : Bytes :=
  (f.metaindex_handle_.bytes ++ f.index_handle_.bytes).rightpad (2 * BlockHandle.kMaxEncodedLength) 0 ++
    encodeFixed32 (kTableMagicNumber % 2 ^ 32) ++ encodeFixed32 (kTableMagicNumber / 2 ^ 32)

variable {f : Footer}

theorem length_handles (h1 : f.metaindex_handle_.Set) (h2 : f.index_handle_.Set) :
    ((f.metaindex_handle_.bytes ++ f.index_handle_.bytes).rightpad
      (2 * BlockHandle.kMaxEncodedLength) 0).length = 2 * BlockHandle.kMaxEncodedLength := by
  have h3 := BlockHandle.length_bytes_le h1
  have h4 := BlockHandle.length_bytes_le h2
  rw [List.length_rightpad, List.length_append]
  omega

theorem length_bytes (h1 : f.metaindex_handle_.Set) (h2 : f.index_handle_.Set) :
    f.bytes.length = kEncodedLength := by
  unfold bytes
  rw [List.length_append, List.length_append, length_handles h1 h2]
  simp [encodeFixed32, kEncodedLength, BlockHandle.kMaxEncodedLength]

theorem encodeTo_bytes (h1 : f.metaindex_handle_.Set) (h2 : f.index_handle_.Set) :
    f.encodeTo = some f.bytes := by
  have hlen := length_bytes h1 h2
  have htake := List.take_of_length_le (length_handles h1 h2).le
  unfold encodeTo
  rw [BlockHandle.encodeTo_set h1, BlockHandle.encodeTo_set h2]
  simp only [Option.bind_eq_bind, Option.bind_some, htake]
  exact if_pos hlen

/-- **A footer reads back**, whatever is behind it. -/
theorem decodeFrom_append (h1 : f.metaindex_handle_.Set) (h2 : f.index_handle_.Set) (rest : Bytes) :
    decodeFrom (f.bytes ++ rest) = some f := by
  have hlen := length_handles h1 h2
  set m := encodeFixed32 (kTableMagicNumber % 2 ^ 32) with hm
  set n := encodeFixed32 (kTableMagicNumber / 2 ^ 32) with hn
  have hword : ∀ {k : ℕ} (bs : Bytes), k < 2 ^ 32 → decodeFixed32 (encodeFixed32 k ++ bs) = some k :=
    fun bs hk => decodeFixed32_append hk bs
  have hlo : decodeFixed32 ((f.bytes ++ rest).drop (kEncodedLength - 8)) =
      some (kTableMagicNumber % 2 ^ 32) := by
    have hd : (f.bytes ++ rest).drop (kEncodedLength - 8) = m ++ (n ++ rest) := by
      unfold bytes
      simp only [List.append_assoc]
      exact List.drop_left' hlen
    rw [hd, hm, hword _ (by decide)]
  have hhi : decodeFixed32 ((f.bytes ++ rest).drop (kEncodedLength - 4)) =
      some (kTableMagicNumber / 2 ^ 32) := by
    have hd : (f.bytes ++ rest).drop (kEncodedLength - 4) = n ++ rest := by
      unfold bytes
      rw [List.append_assoc]
      refine List.drop_left' ?_
      rw [List.length_append, hlen]
      simp [encodeFixed32, kEncodedLength, BlockHandle.kMaxEncodedLength]
    rw [hd, hn, hword _ (by decide)]
  obtain ⟨pad, hpad⟩ : ∃ pad,
      f.bytes ++ rest = f.metaindex_handle_.bytes ++ (f.index_handle_.bytes ++ pad) := by
    unfold bytes List.rightpad
    simp only [List.append_assoc]
    exact ⟨_, rfl⟩
  unfold decodeFrom
  simp only [hlo, hhi, Option.bind_eq_bind, Option.bind_some]
  rw [if_neg (not_not.2 (by decide)), hpad, BlockHandle.decodeFrom_bytes h1]
  simp only [Option.bind_some, BlockHandle.decodeFrom_bytes h2]

theorem decodeFrom_bytes (h1 : f.metaindex_handle_.Set) (h2 : f.index_handle_.Set) :
    decodeFrom f.bytes = some f := by
  have h := decodeFrom_append h1 h2 []
  rw [List.append_nil] at h
  exact h

end Footer

/-! ## Stored blocks -/

/-- What is behind the contents of a block that is not compressed. -/
def trailer : Bytes := CompressionType.kNoCompression.toByte :: encodeFixed32 0

theorem length_trailer : trailer.length = kBlockTrailerSize := by decide

/-- **A block is found** between whatever is in front of it and behind it. -/
theorem blockAt_stored {h : BlockHandle} {front contents rest : Bytes}
    (hoff : front.length = h.offset_) (hsize : contents.length = h.size_) :
    blockAt (front ++ (contents ++ (trailer ++ rest))) h = some contents := by
  have hdrop : (front ++ (contents ++ (trailer ++ rest))).drop h.offset_ =
      contents ++ (trailer ++ rest) := List.drop_left' hoff
  have hlen : h.size_ + kBlockTrailerSize ≤ (contents ++ (trailer ++ rest)).length := by
    rw [List.length_append, List.length_append, hsize, length_trailer]
    omega
  have hget : (contents ++ (trailer ++ rest))[h.size_]? =
      some CompressionType.kNoCompression.toByte := by
    rw [List.getElem?_append_right hsize.le, hsize, Nat.sub_self]
    rfl
  unfold blockAt
  simp only [hdrop]
  rw [if_pos ⟨hlen, hget⟩, List.take_left' hsize]

/-- What `readAt` gives inside the largest offset. -/
theorem readAt_eq {file : Bytes} {offset n : ℕ} (h : offset + n < 2 ^ 63) :
    readAt file offset n [] = (.ok, min (min n maxRwCount) (file.drop offset).length,
      (file.drop offset).take (min n maxRwCount)) := by
  unfold readAt pread
  rw [if_pos h]
  simp only [List.length_take, overlay, List.drop_nil, List.append_nil]

/-- **`ReadBlock` gets a block exactly when one `::pread` moves it with its trailer.** -/
theorem readBlock_eq {file : Bytes} {h : BlockHandle}
    (hin : h.offset_ + (h.size_ + kBlockTrailerSize) < 2 ^ 63) :
    readBlock file h = if h.size_ + kBlockTrailerSize ≤ maxRwCount then blockAt file h else none := by
  have h5 : kBlockTrailerSize = 5 := rfl
  unfold readBlock
  simp only [readAt_eq hin]
  rw [if_neg (not_not.2 rfl)]
  by_cases hcap : h.size_ + kBlockTrailerSize ≤ maxRwCount
  · rw [if_pos hcap, Nat.min_eq_left hcap]
    unfold blockAt
    by_cases hlen : h.size_ + kBlockTrailerSize ≤ (file.drop h.offset_).length
    · have hget : ((file.drop h.offset_).take (h.size_ + kBlockTrailerSize))[h.size_]? =
          (file.drop h.offset_)[h.size_]? := List.getElem?_take_of_lt (by omega)
      rw [if_neg (not_not.2 (Nat.min_eq_left hlen)), hget, List.take_take, Nat.min_eq_left (by omega)]
      simp only [hlen, true_and]
    · rw [if_pos (by omega), if_neg fun hb => hlen hb.1]
  · -- the read is short
    rw [if_neg hcap, if_pos (by omega)]

/-- At `h` the file holds a block with the entries `es`, unless its restarts are too many to be
counted. -/
structure Holds (file : Bytes) (h : BlockHandle) (es : List (Bytes × Bytes)) : Prop where
  inside : h.offset_ + h.size_ + kBlockTrailerSize ≤ file.length
  count : 3 * es.length ≤ h.size_
  block : es.length + 1 < 2 ^ 32 →
    ∃ contents, (∀ rest, blockAt (file ++ rest) h = some contents) ∧
      (Block.new contents).entries = some es

theorem Holds.append {file : Bytes} {h : BlockHandle} {es : List (Bytes × Bytes)}
    (hh : Holds file h es) (more : Bytes) : Holds (file ++ more) h es := by
  refine ⟨?_, hh.count, fun hn => ?_⟩
  · have := hh.inside
    rw [List.length_append]
    omega
  · obtain ⟨contents, hat, hentries⟩ := hh.block hn
    refine ⟨contents, fun rest => ?_, hentries⟩
    rw [List.append_assoc]
    exact hat _

namespace TableBuilder

/-- A file that takes whatever is appended, at its end at `offset`. -/
structure FileOk (r : TableBuilder) : Prop where
  noFail : r.file.NoFail
  buf : r.file.buf.length ≤ kWritableFileBufferSize
  status : r.status = .ok
  offset : r.file.stream.length = r.offset

variable {r : TableBuilder}

/-- **`WriteBlock` stores the block at the end of the file**, and changes nothing else. -/
theorem writeBlock_ok (h : r.FileOk) (hc : r.options.compression = .kNoCompression) {k : ℕ}
    {es : List (Bytes × Bytes)} {b : BlockBuilder} (hb : BlockOk k es b) (hs : ∀ e ∈ es, Short e) :
    ∃ file, r.writeBlock b = some
        ({ r with
            file := file
            offset := r.offset + b.currentSizeEstimate + kBlockTrailerSize },
          b.finish.reset, ⟨r.offset, b.currentSizeEstimate⟩) ∧
      file.NoFail ∧ file.buf.length ≤ kWritableFileBufferSize ∧
      file.stream = r.file.stream ++ (b.finish.buffer_ ++ trailer) ∧
      Holds file.stream ⟨r.offset, b.currentSizeEstimate⟩ es := by
  obtain ⟨f₁, a1, a2, a3, a4⟩ := WritableFile.append_ok h.noFail h.buf b.finish.buffer_
  obtain ⟨f₂, b1, b2, b3, b4⟩ := WritableFile.append_ok a4 a3 trailer
  have hstream : f₂.stream = r.file.stream ++ (b.finish.buffer_ ++ trailer) := by
    rw [b2, a2, List.append_assoc]
  have hlen := b.length_finish
  refine ⟨f₂, ?_, b4, b3, hstream, ?_, ?_, fun hn => ⟨b.finish.buffer_, fun rest => ?_, ?_⟩⟩
  · unfold writeBlock
    rw [if_neg (not_not.2 h.status)]
    unfold writeRawBlock
    simp only [a1, if_true, hc]
    rw [show CompressionType.kNoCompression.toByte :: encodeFixed32 0 = trailer from rfl, b1, hlen,
      ← h.status]
    simp only [h.status, if_true]
  · rw [hstream, List.length_append, List.length_append, hlen, h.offset, length_trailer]
    exact (Nat.add_assoc _ _ _).le
  · have hcount := hb.packed.length_le
    show 3 * es.length ≤ b.buffer_.length + b.restarts_.length * 4 + 4
    omega
  · rw [hstream, List.append_assoc, List.append_assoc]
    exact blockAt_stored h.offset hlen
  · exact hb.entries hs hn

end TableBuilder

end Yangkv
