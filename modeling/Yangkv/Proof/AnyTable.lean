import Yangkv.Proof.Format

/-!
# Reading any bytes as a table

A handle takes twenty bytes at most, so two of them end before the magic number, also
in bytes that no builder has written. What such bytes give for a handle need not fit
the file, and its size need not even leave room for the trailer.

* `handles_append`: the handles are read from the first 40 bytes alone.
* `decodeFrom_magic`: only what ends with the magic number is a footer.
* `footer_read_back`: a footer is read back, and nothing else is taken for one.
* `readBlock64_eq`: below the largest sizes `ReadBlock` is `readBlock`.
* `readBlock_exact_iff`: when `ReadBlock` is exact or fails.
-/

namespace Yangkv

open Lib

/-- Where there are ten bytes, `GetVarint64` looks at no other byte. -/
theorem getVarint64Ptr_append {bs : Bytes} (h : 10 ≤ bs.length) (more : Bytes) :
    getVarint64Ptr (bs ++ more) = (getVarint64Ptr bs).map fun r => (r.1, r.2 ++ more) := by
  rw [getVarint64Ptr_eq, getVarint64Ptr_eq, Varint.decode_append h, Option.map_map, Option.map_map]
  rfl

/-- A number takes ten bytes at most. -/
theorem getVarint64Ptr_rest {bs rest : Bytes} {v : UInt64} (h : getVarint64Ptr bs = some (v, rest)) :
    bs.length ≤ rest.length + 10 := by
  rw [getVarint64Ptr_eq] at h
  obtain ⟨⟨n, r⟩, hdec, hr⟩ := Option.map_eq_some_iff.1 h
  rw [Prod.mk.injEq] at hr
  obtain ⟨-, rfl⟩ := hr
  obtain ⟨front, rfl, -, hlen, -⟩ := Varint.decode_split hdec
  dsimp only
  rw [List.length_append]
  omega

namespace BlockHandle

theorem decodeFrom_append {bs : Bytes} (h : kMaxEncodedLength ≤ bs.length) (more : Bytes) :
    decodeFrom (bs ++ more) = (decodeFrom bs).map fun r => (r.1, r.2 ++ more) := by
  have h20 : 20 ≤ bs.length := h
  unfold decodeFrom
  rw [getVarint64Ptr_append (by omega)]
  cases hoffset : getVarint64Ptr bs with
  | none => rfl
  | some r =>
    have hrest := getVarint64Ptr_rest hoffset
    simp only [Option.map_some, Option.bind_eq_bind, Option.bind_some]
    rw [getVarint64Ptr_append (by omega)]
    cases getVarint64Ptr r.2 with
    | none => rfl
    | some q => rfl

/-- A handle takes twenty bytes at most. -/
theorem decodeFrom_rest {bs rest : Bytes} {h : BlockHandle} (hd : decodeFrom bs = some (h, rest)) :
    bs.length ≤ rest.length + kMaxEncodedLength := by
  unfold decodeFrom at hd
  obtain ⟨⟨offset, p⟩, h1, hd⟩ := Option.bind_eq_some_iff.1 hd
  obtain ⟨⟨size, q⟩, h2, hd⟩ := Option.bind_eq_some_iff.1 hd
  cases hd
  have h3 := getVarint64Ptr_rest h1
  have h4 := getVarint64Ptr_rest h2
  unfold kMaxEncodedLength
  omega

end BlockHandle

namespace Footer

/-- The handles that `DecodeFrom` reads one behind the other, and what they leave. -/
def handles (input : Bytes) : Option (Footer × Bytes) := do
  let (metaindex, input) ← BlockHandle.decodeFrom input
  let (index, input) ← BlockHandle.decodeFrom input
  some (⟨metaindex, index⟩, input)

/-- **Two handles are read from the first 40 bytes**: whether there are any, which ones, and what
they leave does not depend on the bytes behind. -/
theorem handles_append {bs : Bytes} (h : 2 * BlockHandle.kMaxEncodedLength ≤ bs.length)
    (more : Bytes) : handles (bs ++ more) = (handles bs).map fun r => (r.1, r.2 ++ more) := by
  have h20 : BlockHandle.kMaxEncodedLength = 20 := rfl
  unfold handles
  rw [BlockHandle.decodeFrom_append (by omega)]
  cases hmeta : BlockHandle.decodeFrom bs with
  | none => rfl
  | some r =>
    have hrest := BlockHandle.decodeFrom_rest hmeta
    simp only [Option.map_some, Option.bind_eq_bind, Option.bind_some]
    rw [BlockHandle.decodeFrom_append (by omega)]
    cases BlockHandle.decodeFrom r.2 with
    | none => rfl
    | some q => rfl

/-- A word is read from its four bytes. -/
theorem decodeFixed32_eq {bs : Bytes} {n : ℕ} (h : decodeFixed32 bs = some n) :
    bs.take 4 = encodeFixed32 n ∧ n < 2 ^ 32 := by
  unfold decodeFixed32 at h
  rw [Option.ite_none_right_eq_some, Option.some.injEq] at h
  obtain ⟨hlen, rfl⟩ := h
  have h4 : (bs.take 4).length = 4 := by rw [List.length_take, Nat.min_eq_left hlen]
  have hback := leBytes_leNat (bs.take 4)
  rw [h4] at hback
  refine ⟨hback.symm, ?_⟩
  have hmod := leNat_leBytes 4 (leNat (bs.take 4))
  rw [hback] at hmod
  omega

/-- **Only what ends with the magic number is a footer**, and it is the footer of its handles. -/
theorem decodeFrom_magic {input : Bytes} {f : Footer} (h : decodeFrom input = some f) :
    (input.drop (kEncodedLength - 8)).take 8 = encodeFixed64 kTableMagicNumber ∧
      (handles input).map Prod.fst = some f := by
  unfold decodeFrom at h
  obtain ⟨lo, hlo, h⟩ := Option.bind_eq_some_iff.1 h
  obtain ⟨hi, hhi, h⟩ := Option.bind_eq_some_iff.1 h
  by_cases hmagic : hi * 2 ^ 32 + lo = kTableMagicNumber
  · rw [if_neg (not_not.2 hmagic)] at h
    obtain ⟨⟨metaindex, r⟩, h1, h⟩ := Option.bind_eq_some_iff.1 h
    obtain ⟨⟨index, q⟩, h2, h⟩ := Option.bind_eq_some_iff.1 h
    constructor
    · obtain ⟨hlo4, hlt⟩ := decodeFixed32_eq hlo
      obtain ⟨hhi4, -⟩ := decodeFixed32_eq hhi
      have hlo' : lo = kTableMagicNumber % 2 ^ 32 := by omega
      have hhi' : hi = kTableMagicNumber / 2 ^ 32 := by omega
      have hdrop : (input.drop (kEncodedLength - 8)).drop 4 = input.drop (kEncodedLength - 4) := by
        rw [List.drop_drop]
        rfl
      rw [show (8 : ℕ) = 4 + 4 from rfl, List.take_add, hlo4, hdrop, hhi4, hlo', hhi']
      decide
    · unfold handles
      simp only [h1, h2, Option.bind_eq_bind, Option.bind_some, Option.map_some]
      exact h
  · rw [if_pos hmagic] at h
    cases h

/-- **A footer is read back, and nothing else is taken for one.** Two handles that are set are
encoded by 48 bytes, which `DecodeFrom` takes off any input that starts with them. From any 48
bytes and more it reads the handles in the first 40 alone, and it returns `OK` only if the magic
number is behind these. -/
theorem footer_read_back :
    (∀ metaindex index : BlockHandle, metaindex.Set → index.Set →
      ∃ bytes, encodeTo ⟨metaindex, index⟩ = some bytes ∧ bytes.length = kEncodedLength ∧
        ∀ suffix, decodeFromInput (bytes ++ suffix) = some (⟨metaindex, index⟩, suffix)) ∧
    ∀ input : Bytes, kEncodedLength ≤ input.length →
      handles input = (handles (input.take (kEncodedLength - 8))).map
        (fun r => (r.1, r.2 ++ input.drop (kEncodedLength - 8))) ∧
      ∀ f rest, decodeFromInput input = some (f, rest) →
        (input.drop (kEncodedLength - 8)).take 8 = encodeFixed64 kTableMagicNumber ∧
          (handles input).map Prod.fst = some f ∧ rest = input.drop kEncodedLength := by
  constructor
  · intro metaindex index h1 h2
    have hlen := length_bytes (f := ⟨metaindex, index⟩) h1 h2
    refine ⟨_, encodeTo_bytes (f := ⟨metaindex, index⟩) h1 h2, hlen, fun suffix => ?_⟩
    rw [decodeFromInput, decodeFrom_append (f := ⟨metaindex, index⟩) h1 h2, Option.map_some,
      List.drop_left' hlen]
  · intro input hinput
    have h48 : kEncodedLength = 48 := rfl
    constructor
    · have h40 : 2 * BlockHandle.kMaxEncodedLength ≤ (input.take (kEncodedLength - 8)).length := by
        rw [List.length_take, Nat.min_eq_left (by omega)]
        exact Nat.le_refl 40
      have happend := handles_append h40 (input.drop (kEncodedLength - 8))
      rw [List.take_append_drop] at happend
      exact happend
    · intro f rest hd
      obtain ⟨f', hf, heq⟩ := Option.map_eq_some_iff.1 hd
      cases heq
      obtain ⟨hmagic, hhandles⟩ := decodeFrom_magic hf
      exact ⟨hmagic, hhandles, rfl⟩

/-- The handles of a footer with the largest fields there are. -/
theorem footer_read_back_largest :
    ∃ bytes, encodeTo ⟨⟨2 ^ 64 - 2, 8⟩, ⟨0, 2 ^ 64 - 2⟩⟩ = some bytes ∧ bytes.length = 48 ∧
      decodeFromInput (bytes ++ [1, 2]) = some (⟨⟨2 ^ 64 - 2, 8⟩, ⟨0, 2 ^ 64 - 2⟩⟩, [1, 2]) := by
  obtain ⟨bytes, h1, h2, h3⟩ := footer_read_back.1 ⟨2 ^ 64 - 2, 8⟩ ⟨0, 2 ^ 64 - 2⟩
    ⟨by decide, by decide⟩ ⟨by decide, by decide⟩
  exact ⟨bytes, h1, h2, h3 [1, 2]⟩

end Footer

/-! ## Blocks -/

namespace BlockRead

/-- An answer that `ReadBlock` may give for the handle: an error, or the bytes of the block, which are
in the file with the type and the rest of the trailer behind them. -/
def Exact (file : Bytes) (handle : BlockHandle) : BlockRead → Prop
  | error => True
  | ok data => handle.offset_ + handle.size_ + kBlockTrailerSize ≤ file.length ∧
      data = (file.drop handle.offset_).take handle.size_ ∧
      file[handle.offset_ + handle.size_]? = some CompressionType.kNoCompression.toByte
  | outside => False

end BlockRead

/-- What is read of the file is as long as it was asked for. -/
def ReadsAll (file : Bytes) (offset n : ℕ) : Prop :=
  offset + n < 2 ^ 63 ∧ n ≤ maxRwCount ∧ n ≤ (file.drop offset).length

instance (file : Bytes) (offset n : ℕ) : Decidable (ReadsAll file offset n) :=
  inferInstanceAs (Decidable (_ ∧ _ ∧ _))

theorem readAt_all {file : Bytes} {offset n : ℕ} (h : ReadsAll file offset n) :
    readAt file offset n [] = (.ok, n, (file.drop offset).take n) := by
  obtain ⟨hend, hcap, hn⟩ := h
  rw [readAt_eq hend, Nat.min_eq_left hcap, Nat.min_eq_left hn]

theorem readAt_short {file : Bytes} {offset n : ℕ} (h : ¬ ReadsAll file offset n)
    (hok : (readAt file offset n []).1 = .ok) : (readAt file offset n []).2.1 ≠ n := by
  by_cases hend : offset + n < 2 ^ 63
  · rw [readAt_eq hend]
    have hn : ¬ (n ≤ maxRwCount ∧ n ≤ (file.drop offset).length) := fun hn => h ⟨hend, hn⟩
    dsimp only
    omega
  · unfold readAt pread at hok
    rw [if_neg hend] at hok
    cases hok

variable {alloc : ℕ → Bool} {file : Bytes} {offset size : UInt64}

/-- The size of the buffer, and of the read. -/
def bufferSize (size : UInt64) : ℕ := (size.toNat + kBlockTrailerSize) % 2 ^ 64

theorem toNat_bufferSize (size : UInt64) :
    (size + .ofNat kBlockTrailerSize).toNat = bufferSize size := by
  rw [UInt64.toNat_add]
  rfl

theorem readBlock64_error (h : alloc (bufferSize size) = false ∨
      ¬ ReadsAll file offset.toNat (bufferSize size)) :
    readBlock64 alloc file ⟨offset.toNat, size.toNat⟩ = .error := by
  unfold readBlock64
  simp only [UInt64.ofNat_toNat, toNat_bufferSize]
  by_cases ha : alloc (bufferSize size) = false
  · rw [if_pos ha]
  · have hshort := h.resolve_left ha
    rw [if_neg ha]
    by_cases hok : (readAt file offset.toNat (bufferSize size) []).1 = .ok
    · rw [if_neg (not_not.2 hok), if_pos (readAt_short hshort hok)]
    · rw [if_pos hok]

theorem readBlock64_read (ha : alloc (bufferSize size) ≠ false)
    (h : ReadsAll file offset.toNat (bufferSize size)) :
    readBlock64 alloc file ⟨offset.toNat, size.toNat⟩ =
      match ((file.drop offset.toNat).take (bufferSize size))[size.toNat]? with
      | none => .outside
      | some type =>
        if type = CompressionType.kNoCompression.toByte then
          .ok (((file.drop offset.toNat).take (bufferSize size)).take size.toNat)
        else .error := by
  unfold readBlock64
  simp only [UInt64.ofNat_toNat, toNat_bufferSize, readAt_all h]
  exact (if_neg ha).trans ((if_neg (not_not.2 rfl)).trans (if_neg (not_not.2 rfl)))

/-- **A block with room for its trailer is read exactly or not at all.** -/
theorem readBlock64_exact (hsize : size.toNat + kBlockTrailerSize < 2 ^ 64) :
    BlockRead.Exact file ⟨offset.toNat, size.toNat⟩
      (readBlock64 alloc file ⟨offset.toNat, size.toNat⟩) := by
  have hbuf : bufferSize size = size.toNat + kBlockTrailerSize := Nat.mod_eq_of_lt hsize
  by_cases hread : alloc (bufferSize size) ≠ false ∧ ReadsAll file offset.toNat (bufferSize size)
  · obtain ⟨ha, hall⟩ := hread
    have h5 : kBlockTrailerSize = 5 := rfl
    have hlen := hall.2.2
    rw [hbuf, List.length_drop] at hlen
    rw [readBlock64_read ha hall, hbuf]
    have hget : ((file.drop offset.toNat).take (size.toNat + kBlockTrailerSize))[size.toNat]? =
        file[offset.toNat + size.toNat]? := by
      rw [List.getElem?_take_of_lt (by omega), List.getElem?_drop]
    rw [hget]
    cases htype : file[offset.toNat + size.toNat]? with
    | none =>
      have := List.getElem?_eq_none_iff.1 htype
      omega
    | some type =>
      by_cases ht : type = CompressionType.kNoCompression.toByte
      · simp only [if_pos ht]
        refine ⟨?_, ?_, ht ▸ htype⟩
        · show offset.toNat + size.toNat + kBlockTrailerSize ≤ file.length
          omega
        · rw [List.take_take, Nat.min_eq_left (by omega)]
      · simp only [if_neg ht]
        trivial
  · have herror : alloc (bufferSize size) = false ∨
        ¬ ReadsAll file offset.toNat (bufferSize size) := by
      by_cases ha : alloc (bufferSize size) = false
      · exact .inl ha
      · exact .inr fun hall => hread ⟨ha, hall⟩
    rw [readBlock64_error herror]
    trivial

/-- The read that a size too large for its trailer leaves over succeeds. -/
def WrapsUnnoticed (alloc : ℕ → Bool) (file : Bytes) (offset size : UInt64) : Prop :=
  2 ^ 64 ≤ size.toNat + kBlockTrailerSize ∧
    alloc (size.toNat + kBlockTrailerSize - 2 ^ 64) = true ∧
    ReadsAll file offset.toNat (size.toNat + kBlockTrailerSize - 2 ^ 64)

/-- **`ReadBlock` is exact or fails** for every handle, but for those whose size and trailer wrap
around to a few bytes that are there: of these it looks at the type outside its buffer. -/
theorem readBlock_exact_iff (alloc : ℕ → Bool) (file : Bytes) (offset size : UInt64) :
    BlockRead.Exact file ⟨offset.toNat, size.toNat⟩
        (readBlock64 alloc file ⟨offset.toNat, size.toNat⟩) ↔
      ¬ WrapsUnnoticed alloc file offset size := by
  by_cases hsize : size.toNat + kBlockTrailerSize < 2 ^ 64
  · refine iff_of_true (readBlock64_exact hsize) ?_
    rintro ⟨hge, -⟩
    omega
  · have hlt := size.toNat_lt
    have h5 : kBlockTrailerSize = 5 := rfl
    have hbuf : bufferSize size = size.toNat + kBlockTrailerSize - 2 ^ 64 := by
      unfold bufferSize
      omega
    unfold WrapsUnnoticed
    rw [← hbuf]
    by_cases hread : alloc (bufferSize size) = true ∧ ReadsAll file offset.toNat (bufferSize size)
    · obtain ⟨ha, hall⟩ := hread
      have hnone : ((file.drop offset.toNat).take (bufferSize size))[size.toNat]? = none := by
        rw [List.getElem?_eq_none_iff, List.length_take]
        omega
      rw [readBlock64_read (by rw [ha]; exact Bool.false_ne_true.symm) hall, hnone]
      exact iff_of_false id fun h => h ⟨by omega, ha, hall⟩
    · have herror : alloc (bufferSize size) = false ∨
          ¬ ReadsAll file offset.toNat (bufferSize size) := by
        by_cases ha : alloc (bufferSize size) = true
        · exact .inr fun hall => hread ⟨ha, hall⟩
        · exact .inl (Bool.not_eq_true _ ▸ ha)
      rw [readBlock64_error herror]
      exact iff_of_true trivial fun h => hread h.2

/-- **A handle of any table file can do this.** The bytes of a handle with the size `2 ^ 64 - 5` are
decoded, the buffer for its block has no byte, and the type is looked for behind it. -/
theorem readBlock_outside : ∃ bytes,
    BlockHandle.decodeFrom bytes = some (⟨0, 2 ^ 64 - 5⟩, []) ∧
      readBlock64 (fun n => n < 2 ^ 30) [1, 2, 3] ⟨0, 2 ^ 64 - 5⟩ = .outside ∧
      ¬ BlockRead.Exact [1, 2, 3] ⟨0, 2 ^ 64 - 5⟩
        (readBlock64 (fun n => n < 2 ^ 30) [1, 2, 3] ⟨0, 2 ^ 64 - 5⟩) := by
  have hout : readBlock64 (fun n => n < 2 ^ 30) [1, 2, 3] ⟨0, 2 ^ 64 - 5⟩ = .outside := by
    decide +kernel
  refine ⟨[0, 251, 255, 255, 255, 255, 255, 255, 255, 255, 1], by decide +kernel, hout, ?_⟩
  rw [hout]
  exact id

/-- Below the largest sizes, and with all the memory there is, it is `readBlock`. -/
theorem readBlock64_eq (hsize : size.toNat + kBlockTrailerSize < 2 ^ 64) :
    readBlock64 (fun _ => true) file ⟨offset.toNat, size.toNat⟩ =
      match readBlock file ⟨offset.toNat, size.toNat⟩ with
      | none => .error
      | some data => .ok data := by
  have hbuf : bufferSize size = size.toNat + kBlockTrailerSize := Nat.mod_eq_of_lt hsize
  by_cases hall : ReadsAll file offset.toNat (size.toNat + kBlockTrailerSize)
  · have hlen := hall.2.2
    have h5 : kBlockTrailerSize = 5 := rfl
    obtain ⟨type, htype⟩ : ∃ type, ((file.drop offset.toNat).take
        (size.toNat + kBlockTrailerSize))[size.toNat]? = some type := by
      refine ⟨_, List.getElem?_eq_getElem ?_⟩
      rw [List.length_take]
      omega
    rw [readBlock64_read (by simp) (hbuf ▸ hall), hbuf]
    unfold readBlock
    simp only [readAt_all hall, htype, ne_eq, not_true_eq_false, if_false, Option.some.injEq]
    by_cases ht : type = CompressionType.kNoCompression.toByte
    · rw [if_pos ht, if_pos ht]
    · rw [if_neg ht, if_neg ht]
  · rw [readBlock64_error (.inr (hbuf ▸ hall))]
    unfold readBlock
    simp only
    by_cases hok : (readAt file offset.toNat (size.toNat + kBlockTrailerSize) []).1 = .ok
    · rw [if_neg (not_not.2 hok), if_pos (readAt_short hall hok)]
    · rw [if_pos hok]

end Yangkv
