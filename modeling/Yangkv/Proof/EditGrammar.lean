import Yangkv.Lib.Grammar
import Yangkv.Proof.Codec
import Yangkv.Spec.VersionEdit

/-!
# The language of `DecodeFrom`

The loop reads a sequence of records. It hands each slice of a new file to
`DecodeMemEntry`, which is told where the slice starts but not where it ends: it may read
outside `src`, and the slice may hold anything else behind the entry.

* `record`: the records of an edit, over what may stand in the slices of a new file.
* `Met`: no slice that the loop gets to leads outside `src`.
* `loop_spec`: what the loop reads, and when it has a result.
* `accepts_grammar_iff`: on which strings `DecodeFrom` accepts exactly the grammar.
-/

namespace Yangkv

open Lib Computability

/-! ## The grammar -/

/-- A varint of at most five bytes with this value in 32 bits. -/
def varint32 (n : ℕ) : Language UInt8 := ⨆ m, ⨆ _ : m % 2 ^ 32 = n, Varint.word 5 m

/-- A varint of at most ten bytes. -/
def varint64 : Language UInt8 := ⨆ m, Varint.word 10 m

/-- A slice behind its length. -/
def sliceOf (v : Bytes) : Language UInt8 := varint32 v.length * {v}

/-- A slice with contents from `M`. -/
def slice (M : Language UInt8) : Language UInt8 := ⨆ v, ⨆ _ : v ∈ M, sliceOf v

/-- One complete encoding of an entry: an internal key of 9 bytes at least, and a value of 1 byte at
least. -/
def memEntry : Language UInt8 := slice {k | 9 ≤ k.length} * slice {v | 1 ≤ v.length}

namespace FullVersionEdit

def level : Language UInt8 := ⨆ n, ⨆ _ : n < kMaxLevel, varint32 n

/-- What stands behind a tag. -/
def fields (M : Language UInt8) : Tag → Language UInt8
  | .kPrevLogNumber | .kNextFileNumber | .kLastSequence => varint64
  | .kDeletedFile => level * varint64
  | .kNewFile => level * (varint64 * varint64) * (slice M * slice M)
  | .kComparator | .kLogNumber | .kCompactPointer => 0

/-- A record, over what may stand in the slices of a new file. -/
def record (M : Language UInt8) : Language UInt8 := ⨆ tag : Tag, varint32 tag.code * fields M tag

theorem slice_mono {M N : Language UInt8} (h : M ≤ N) : slice M ≤ slice N :=
  iSup_mono fun _ => iSup_mono' fun hv => ⟨h hv, le_rfl⟩

theorem fields_mono {M N : Language UInt8} (h : M ≤ N) (tag : Tag) : fields M tag ≤ fields N tag := by
  cases tag with
  | kNewFile => exact mul_le_mul_right (mul_le_mul' (slice_mono h) (slice_mono h)) _
  | _ => exact le_rfl

theorem record_mono {M N : Language UInt8} (h : M ≤ N) : record M ≤ record N :=
  iSup_mono fun tag => mul_le_mul_right (fields_mono h tag) _

end FullVersionEdit

/-! ## The readers -/

theorem parses_getVarint32Ptr : Parses getVarint32Ptr fun v => varint32 v.toNat := by
  refine ((Varint.parses_decode 5).map UInt32.ofNat).of_eq getVarint32Ptr_eq fun v => ?_
  unfold varint32
  simp only [← UInt32.toNat_inj, UInt32.toNat_ofNat']

theorem toNat_of_mem_varint32 {w : Bytes} {n : ℕ} (h : w ∈ varint32 n) :
    (UInt32.ofNat n).toNat = n := by
  obtain ⟨m, h⟩ := Language.mem_iSup.1 h
  obtain ⟨rfl, -⟩ := Language.mem_iSup.1 h
  rw [UInt32.toNat_ofNat', Nat.mod_mod]

theorem getVarint32Ptr_word {w : Bytes} {n : ℕ} (h : w ∈ varint32 n) (rest : Bytes) :
    getVarint32Ptr (w ++ rest) = some (UInt32.ofNat n, rest) :=
  parses_getVarint32Ptr.append (by rwa [toNat_of_mem_varint32 h]) rest

theorem parses_varint64 :
    Parses (fun bs => (getVarint64Ptr bs).map fun r => ((), r.2)) fun _ => varint64 := by
  refine (Varint.parses_decode 10).forget.of_eq (fun bs => ?_) fun _ => rfl
  rw [getVarint64Ptr_eq, Option.map_map]
  rfl

theorem parses_getLevel : Parses getLevel fun n => ⨆ _ : n < kMaxLevel, varint32 n := by
  refine ((parses_getVarint32Ptr.map UInt32.toNat).filter (· < kMaxLevel)).of_eq (fun bs => ?_)
    fun n => iSup_congr fun hn => le_antisymm ?_ ?_
  · unfold getLevel
    cases getVarint32Ptr bs with
    | none => rfl
    | some r =>
      by_cases hr : r.1.toNat < kMaxLevel
      · simp [Option.filter, hr]
      · simp [Option.filter, hr]
  · have h32 : n < 2 ^ 32 := hn.trans (by decide)
    have hnat : (UInt32.ofNat n).toNat = n := by rw [UInt32.toNat_ofNat', Nat.mod_eq_of_lt h32]
    exact le_iSup₂_of_le (UInt32.ofNat n) hnat (le_of_eq (by rw [hnat]))
  · exact iSup₂_le fun v hv => le_of_eq (by rw [hv])

theorem parses_level :
    Parses (fun bs => (getLevel bs).map fun r => ((), r.2)) fun _ => FullVersionEdit.level :=
  parses_getLevel.forget

theorem parses_getLengthPrefixedSlice : Parses getLengthPrefixedSlice sliceOf := by
  intro bs v rest
  unfold getLengthPrefixedSlice
  constructor
  · intro h
    obtain ⟨⟨len, input⟩, hlen, h⟩ := Option.bind_eq_some_iff.1 h
    by_cases hle : len.toNat ≤ input.length
    · simp only [if_pos hle] at h
      cases h
      obtain ⟨w, hw, rfl⟩ := parses_getVarint32Ptr.exists_word hlen
      refine ⟨w ++ input.take len.toNat, Language.append_mem_mul ?_ rfl, ?_⟩
      · rwa [List.length_take_of_le hle]
      · rw [List.append_assoc, List.take_append_drop]
    · simp only [if_neg hle] at h
      cases h
  · rintro ⟨_, ⟨w, hw, _, rfl, rfl⟩, rfl⟩
    simp only [List.append_assoc, getVarint32Ptr_word hw, Option.bind_eq_bind, Option.bind_some,
      toNat_of_mem_varint32 hw, List.length_append, Nat.le_add_right, if_true, List.take_left,
      List.drop_left]

theorem parses_slice :
    Parses (fun bs => (getLengthPrefixedSlice bs).map fun r => ((), r.2)) fun _ => slice ⊤ := by
  refine parses_getLengthPrefixedSlice.forget.of_eq (fun _ => rfl) fun _ => ?_
  exact iSup_congr fun v => iSup_pos (p := v ∈ (⊤ : Language UInt8)) trivial

/-! ## An entry inside a buffer -/

theorem getVarint32At_word {mem w bs : Bytes} {p n : ℕ} (hw : w ∈ varint32 n)
    (hm : mem.drop p = w ++ bs) : getVarint32At mem p = some (UInt32.ofNat n, p + w.length) := by
  -- the pointer reads five bytes at most, so it does not see what is behind them
  have hlen : w.length ≤ 5 := by
    obtain ⟨m, hw⟩ := Language.mem_iSup.1 hw
    obtain ⟨-, hw⟩ := Language.mem_iSup.1 hw
    exact Varint.length_of_decode hw
  have htake : (mem.drop p).take 5 = w ++ bs.take (5 - w.length) := by
    rw [hm, List.take_append, List.take_of_length_le hlen]
  unfold getVarint32At
  rw [htake, getVarint32Ptr_word hw, Option.map_some, List.length_append, Nat.add_sub_cancel]

/-- **A complete encoding is decoded without a read behind it.** -/
theorem decodeMemEntryAt_memEntry {mem v rest : Bytes} {p : ℕ} (hv : v ∈ memEntry)
    (hm : mem.drop p = v ++ rest) : (decodeMemEntryAt mem p).isSome := by
  obtain ⟨s, hs, t, ht, rfl⟩ := Language.mem_mul.1 hv
  simp only [slice, Language.mem_iSup] at hs ht
  obtain ⟨k, hk, u, hu, b, hb, rfl⟩ := hs
  obtain ⟨x, -, u', hu', b', hb', rfl⟩ := ht
  obtain rfl : k = b := hb.symm
  obtain rfl : x = b' := hb'.symm
  -- the sequence number is in the last eight bytes of the key
  change 9 ≤ k.length at hk
  simp only [List.append_assoc] at hm
  have hv : mem.drop (p + u.length + k.length) = u' ++ (x ++ rest) := by
    rw [← List.drop_drop, ← List.drop_drop, hm, List.drop_left, List.drop_left]
  have hlen : 8 ≤ (mem.drop (p + u.length + k.length - 8)).length := by
    have := congrArg List.length hm
    simp only [List.length_drop, List.length_append] at this ⊢
    omega
  unfold decodeMemEntryAt
  simp only [getVarint32At_word hu hm, Option.bind_eq_bind, Option.bind_some,
    toNat_of_mem_varint32 hu, getVarint32At_word hu' hv, decodeFixed64Before, decodeFixed64,
    if_pos hlen, if_pos (show 8 ≤ p + u.length + k.length by omega), Option.isSome_some]

/-- If a slice is at the front of `r`, which is what is left of `src`, `DecodeMemEntry` of it reads no
byte outside `src`. -/
def Held (src r : Bytes) : Prop :=
  ∀ v rest, getLengthPrefixedSlice r = some (v, rest) →
    (decodeMemEntryAt src (src.length - (v.length + rest.length))).isSome

theorem getMemEntry_spec (src r : Bytes) :
    (Held src r ∧ (getMemEntry src r).map (Option.map Prod.snd) =
        some ((getLengthPrefixedSlice r).map Prod.snd)) ∨
      (¬ Held src r ∧ getMemEntry src r = none) := by
  unfold getMemEntry Held
  cases getLengthPrefixedSlice r with
  | none => exact .inl ⟨fun _ _ h => (by cases h), rfl⟩
  | some x =>
    obtain ⟨v, rest⟩ := x
    cases hd : decodeMemEntryAt src (src.length - (v.length + rest.length)) with
    | none =>
      refine .inr ⟨fun h => ?_, by simp only [hd, Option.map_none]⟩
      have := h v rest rfl
      rw [hd] at this
      cases this
    | some e =>
      refine .inl ⟨fun v' rest' h => ?_, by simp only [hd, Option.map_some]⟩
      cases h
      rw [hd]
      rfl

namespace FullVersionEdit

/-- The reader of what a new file has before its slices. -/
def headReader (bs : Bytes) : Option (Unit × Bytes) :=
  ((getLevel bs).map fun r => ((), r.2)).bind fun r =>
    ((getVarint64Ptr r.2).map fun r => ((), r.2)).bind fun r =>
      (getVarint64Ptr r.2).map fun r => ((), r.2)

theorem parses_head : Parses headReader fun _ => level * (varint64 * varint64) :=
  parses_level.seq (parses_varint64.seq parses_varint64)

theorem getNewFile_left (src : Bytes) (f : FileMetaData) (input : Bytes) :
    (Decoder.getNewFile src f input).map (fun r => r.2.map Prod.snd) =
      match headReader input with
      | none => some none
      | some (_, r) => (getMemEntry src r).bind fun
        | none => some none
        | some (_, r) => (getMemEntry src r).map (Option.map Prod.snd) := by
  unfold Decoder.getNewFile headReader
  cases getLevel input with
  | none => rfl
  | some r =>
    obtain ⟨level, input⟩ := r
    simp only [Option.map_some, Option.bind_some]
    cases getVarint64Ptr input with
    | none => rfl
    | some r =>
      obtain ⟨number, input⟩ := r
      simp only [Option.map_some, Option.bind_some]
      cases getVarint64Ptr input with
      | none => rfl
      | some r =>
        obtain ⟨file_size, input⟩ := r
        simp only [Option.map_some]
        cases getMemEntry src input with
        | none => rfl
        | some r =>
          cases r with
          | none => rfl
          | some r =>
            simp only [Option.bind_some, Option.map_map]
            congr 1
            funext r
            cases r with
            | none => rfl
            | some r => rfl

/-- What `Held` says of the slices of a new file behind a word of `H`. -/
def HeldAfter (H : Language UInt8) (src r : Bytes) : Prop :=
  ∀ h ∈ H, ∀ r', r = h ++ r' → Held src r' ∧ ∀ w ∈ slice ⊤, ∀ r'', r' = w ++ r'' → Held src r''

theorem heldAfter_iff {p : Bytes → Option (Unit × Bytes)} {H : Language UInt8}
    (hp : Parses p fun _ => H) {src r : Bytes} :
    HeldAfter H src r ↔ ∀ r', p r = some ((), r') → Held src r' ∧
      ∀ v r'', getLengthPrefixedSlice r' = some (v, r'') → Held src r'' := by
  refine hp.forall_word.trans ?_
  simp only [parses_slice.forall_word, Option.map_eq_some_iff, Prod.mk.injEq, true_and, Prod.exists,
    exists_eq_right, forall_exists_index]
  constructor
  · exact fun h r' hr => ⟨(h r' hr).1, fun v r'' hv => (h r' hr).2 r'' v hv⟩
  · exact fun h r' hr => ⟨(h r' hr).1, fun r'' v hv => (h r' hr).2 v r'' hv⟩

/-- The reader of a new file. -/
def newFileReader (bs : Bytes) : Option (Unit × Bytes) :=
  (headReader bs).bind fun r =>
    ((getLengthPrefixedSlice r.2).map fun r => ((), r.2)).bind fun r =>
      (getLengthPrefixedSlice r.2).map fun r => ((), r.2)

theorem parses_newFile : Parses newFileReader fun _ => fields ⊤ .kNewFile :=
  parses_head.seq (parses_slice.seq parses_slice)

/-- **`getNewFile`** has no result exactly if one of the slices it gets to is not held, and else reads
a new file. -/
theorem getNewFile_spec (src : Bytes) (f : FileMetaData) (input : Bytes) :
    (HeldAfter (level * (varint64 * varint64)) src input ∧
        (Decoder.getNewFile src f input).map (fun r => r.2.map Prod.snd) =
          some ((newFileReader input).map Prod.snd)) ∨
      (¬ HeldAfter (level * (varint64 * varint64)) src input ∧
        Decoder.getNewFile src f input = none) := by
  have hleft := getNewFile_left src f input
  rw [heldAfter_iff parses_head]
  unfold newFileReader
  cases hh : headReader input with
  | none =>
    rw [hh] at hleft
    exact .inl ⟨fun _ h => (by cases h), hleft⟩
  | some r =>
    obtain ⟨_, r⟩ := r
    rw [hh] at hleft
    simp only [Option.bind_some, Option.some.injEq, Prod.mk.injEq, true_and, forall_eq'] at hleft ⊢
    obtain ⟨h1, hm1⟩ | ⟨h1, hm1⟩ := getMemEntry_spec src r
    · -- the first slice is read, or is none; only then is there a second one
      cases hs : getLengthPrefixedSlice r with
      | none =>
        rw [hs] at hm1
        obtain ⟨o, ho, hn⟩ := Option.map_eq_some_iff.1 hm1
        rw [ho, Option.map_eq_none_iff.1 hn] at hleft
        exact .inl ⟨⟨h1, fun _ _ h => (by cases h)⟩, hleft⟩
      | some x =>
        obtain ⟨v, r'⟩ := x
        rw [hs] at hm1
        obtain ⟨o, ho, hn⟩ := Option.map_eq_some_iff.1 hm1
        obtain ⟨x, rfl, hx⟩ := Option.map_eq_some_iff.1 hn
        rw [ho] at hleft
        obtain rfl : x.2 = r' := hx
        simp only [Option.some.injEq, Prod.mk.injEq, and_imp, forall_apply_eq_imp_iff, forall_eq',
          Option.map_some, Option.bind_some] at hleft ⊢
        obtain ⟨h2, hm2⟩ | ⟨h2, hm2⟩ := getMemEntry_spec src x.2
        · refine .inl ⟨⟨h1, h2⟩, ?_⟩
          rw [hleft, hm2, Option.map_map]
          rfl
        · refine .inr ⟨fun h => h2 h.2, ?_⟩
          rw [hm2] at hleft
          exact Option.map_eq_none_iff.1 hleft
    · refine .inr ⟨fun h => h1 h.1, ?_⟩
      rw [hm1] at hleft
      exact Option.map_eq_none_iff.1 hleft

/-! ## Records -/

/-- The tag with this number. -/
def tagOf (n : ℕ) : Option Tag :=
  [.kComparator, .kLogNumber, .kNextFileNumber, .kLastSequence, .kCompactPointer, .kDeletedFile,
    .kNewFile, .kPrevLogNumber].find? fun tag : Tag => tag.code = n

theorem tagOf_code (tag : Tag) : tagOf tag.code = some tag := by cases tag <;> rfl

theorem code_of_tagOf {n : ℕ} {tag : Tag} (h : tagOf n = some tag) : tag.code = n := by
  simpa using List.find?_some h

/-- The reader of what stands behind a tag. -/
def fieldsReader : Tag → Bytes → Option (Unit × Bytes)
  | .kPrevLogNumber | .kNextFileNumber | .kLastSequence =>
    fun bs => (getVarint64Ptr bs).map fun r => ((), r.2)
  | .kDeletedFile => fun bs =>
    ((getLevel bs).map fun r => ((), r.2)).bind fun r =>
      (getVarint64Ptr r.2).map fun r => ((), r.2)
  | .kNewFile => newFileReader
  | .kComparator | .kLogNumber | .kCompactPointer => fun _ => none

theorem parses_fields (tag : Tag) : Parses (fieldsReader tag) fun _ => fields ⊤ tag := by
  cases tag with
  | kPrevLogNumber | kNextFileNumber | kLastSequence => exact parses_varint64
  | kDeletedFile => exact parses_level.seq parses_varint64
  | kNewFile => exact parses_newFile
  | kComparator | kLogNumber | kCompactPointer => exact Parses.nothing

/-- The reader of a record. -/
def recordReader (bs : Bytes) : Option (Unit × Bytes) :=
  (getVarint32Ptr bs).bind fun r => (tagOf r.1.toNat).bind fun tag => fieldsReader tag r.2

theorem parses_record : Parses recordReader fun _ => record ⊤ := by
  intro bs u rest
  unfold recordReader
  constructor
  · intro h
    obtain ⟨⟨v, input⟩, hv, h1⟩ := Option.bind_eq_some_iff.1 h
    obtain ⟨tag, htag, h2⟩ := Option.bind_eq_some_iff.1 h1
    obtain ⟨w, hw, rfl⟩ := parses_getVarint32Ptr.exists_word hv
    obtain ⟨x, hx, rfl⟩ := (parses_fields tag).exists_word h2
    rw [← code_of_tagOf htag] at hw
    exact ⟨w ++ x, Language.mem_iSup.2 ⟨tag, Language.append_mem_mul hw hx⟩,
      (List.append_assoc _ _ _).symm⟩
  · rintro ⟨w, hw, rfl⟩
    obtain ⟨tag, w, hu, x, hx, rfl⟩ := Language.mem_iSup.1 hw
    simp only [List.append_assoc, getVarint32Ptr_word hu, Option.bind_some,
      toNat_of_mem_varint32 hu, tagOf_code]
    exact (parses_fields tag).append hx rest

/-- The loop goes on from here, with what is left of the input. -/
def Decoder.left (d : Decoder) : Option Bytes := if d.msg.isSome then none else some d.input

/-- The slices of a new file at the front of `r` are held. -/
def NewFileHeld (src r : Bytes) : Prop :=
  HeldAfter (varint32 Tag.kNewFile.code * (level * (varint64 * varint64))) src r

theorem newFileHeld_of_none {src r : Bytes} (hr : getVarint32Ptr r = none) : NewFileHeld src r := by
  rintro _ ⟨w, hw, y, hy, rfl⟩ r' rfl
  simp only [List.append_assoc, getVarint32Ptr_word hw, reduceCtorEq] at hr

theorem newFileHeld_iff {src r input : Bytes} {v : UInt32} (hr : getVarint32Ptr r = some (v, input)) :
    NewFileHeld src r ↔
      (v.toNat = Tag.kNewFile.code → HeldAfter (level * (varint64 * varint64)) src input) := by
  constructor
  · rintro h hv y hy r' rfl
    obtain ⟨w, hw, rfl⟩ := parses_getVarint32Ptr.exists_word hr
    rw [hv] at hw
    exact h (w ++ y) (Language.append_mem_mul hw hy) r' (List.append_assoc _ _ _).symm
  · rintro h _ ⟨w, hw, y, hy, rfl⟩ r' rfl
    simp only [List.append_assoc, getVarint32Ptr_word hw, Option.some.injEq, Prod.mk.injEq] at hr
    obtain ⟨rfl, rfl⟩ := hr
    exact h (toNat_of_mem_varint32 hw) y hy r' rfl

theorem getNumber_left {d : Decoder} (hm : d.msg = none)
    (set : FullVersionEdit Unit → ℕ → FullVersionEdit Unit) (msg : String) :
    (d.getNumber set msg).left = (getVarint64Ptr d.input).map Prod.snd := by
  unfold Decoder.getNumber Decoder.left
  cases getVarint64Ptr d.input with
  | none => rfl
  | some r => simp only [hm]; rfl

theorem getDeletedFile_left {d : Decoder} (hm : d.msg = none) :
    d.getDeletedFile.left = (fieldsReader .kDeletedFile d.input).map Prod.snd := by
  unfold Decoder.getDeletedFile Decoder.left fieldsReader
  simp only [Option.bind_eq_bind]
  cases getLevel d.input with
  | none => rfl
  | some r =>
    simp only [Option.bind_some, Option.map_some]
    cases getVarint64Ptr r.2 with
    | none => rfl
    | some r => simp only [hm]; rfl

/-- **A turn with a tag.** -/
theorem record_spec (src : Bytes) {d : Decoder} (hm : d.msg = none) (n : ℕ) :
    ((n = Tag.kNewFile.code → HeldAfter (level * (varint64 * varint64)) src d.input) ∧
        (Decoder.record src d n).map Decoder.left =
          some (((tagOf n).bind fun tag => fieldsReader tag d.input).map Prod.snd)) ∨
      ((n = Tag.kNewFile.code ∧ ¬ HeldAfter (level * (varint64 * varint64)) src d.input) ∧
        Decoder.record src d n = none) := by
  cases ht : tagOf n with
  | none =>
    -- the tag is unknown
    have hn : ∀ tag : Tag, n ≠ tag.code := by
      rintro tag rfl
      rw [tagOf_code] at ht
      cases ht
    refine .inl ⟨fun h => absurd h (hn .kNewFile), ?_⟩
    unfold Decoder.record
    rw [if_neg (hn _), if_neg (hn _), if_neg (hn _), if_neg (hn _), if_neg (hn _)]
    rfl
  | some tag =>
    obtain rfl := code_of_tagOf ht
    cases tag with
    | kPrevLogNumber | kNextFileNumber | kLastSequence =>
      refine .inl ⟨fun h => (by cases h), ?_⟩
      rw [Option.bind_some, fieldsReader, Option.map_map]
      exact congrArg some (getNumber_left hm _ _)
    | kDeletedFile => exact .inl ⟨fun h => (by cases h), congrArg some (getDeletedFile_left hm)⟩
    | kNewFile =>
      obtain ⟨h, hf⟩ | ⟨h, hf⟩ := getNewFile_spec src d.f d.input
      · refine .inl ⟨fun _ => h, hf ▸ ?_⟩
        change ((Decoder.getNewFile src d.f d.input).map _).map Decoder.left = _
        rw [Option.map_map]
        congr 1
        funext r
        obtain ⟨f, _ | r⟩ := r
        · rfl
        · simp only [Decoder.left, Function.comp, hm]
          rfl
      · refine .inr ⟨⟨rfl, h⟩, ?_⟩
        change (Decoder.getNewFile src d.f d.input).map _ = none
        rw [hf, Option.map_none]
    | kComparator | kLogNumber | kCompactPointer => exact .inl ⟨fun h => (by cases h), rfl⟩

/-! ## The loop -/

/-- All slices that the loop gets to are held: those of a new file behind any number of records. -/
def Met (src input : Bytes) : Prop :=
  ∀ ws ∈ (record ⊤)∗, ∀ r, input = ws ++ r → NewFileHeld src r

theorem met_iff {src input : Bytes} : Met src input ↔ NewFileHeld src input ∧
    ∀ rest, recordReader input = some ((), rest) → Met src rest := parses_record.forall_kstar

theorem length_lt_of_recordReader {bs rest : Bytes} {u : Unit} (h : recordReader bs = some (u, rest)) :
    rest.length < bs.length := by
  obtain ⟨⟨v, input⟩, hv, h1⟩ := Option.bind_eq_some_iff.1 h
  obtain ⟨tag, -, h2⟩ := Option.bind_eq_some_iff.1 h1
  obtain ⟨x, -, hx⟩ := (parses_fields tag).exists_word h2
  obtain ⟨w, hw, rfl⟩ := parses_getVarint32Ptr.exists_word hv
  have hpos : w ≠ [] := by
    rintro rfl
    cases getVarint32Ptr_word hw []
  have hlen := congrArg List.length hx
  have hw := List.length_pos_of_ne_nil hpos
  simp only [List.length_append] at hlen ⊢
  omega

/-- **The loop** has no result exactly if it gets to a slice that is not held. Else it ends after a
turn for each byte at most, with no message and no input left if the input is a sequence of
records. -/
theorem loop_spec {src : Bytes} {fuel : ℕ} {d : Decoder} (hm : d.msg = none)
    (hf : d.input.length < fuel) :
    (Met src d.input ∧ ∃ d', Decoder.loop src fuel d = some d' ∧
        (d'.msg = none ∧ d'.input = [] ↔ d.input ∈ (record ⊤)∗)) ∨
      (¬ Met src d.input ∧ Decoder.loop src fuel d = none) := by
  induction fuel generalizing d with
  | zero => exact absurd hf (Nat.not_lt_zero _)
  | succ fuel ih =>
    rw [met_iff, Decoder.loop, if_neg (by rw [hm]; exact Bool.false_ne_true)]
    cases hv : getVarint32Ptr d.input with
    | none =>
      -- the loop ends here
      have hr : recordReader d.input = none := by unfold recordReader; rw [hv]; rfl
      refine .inl ⟨⟨newFileHeld_of_none hv, fun rest h => by rw [hr] at h; cases h⟩, d, rfl, ?_⟩
      rw [parses_record.mem_kstar, hr]
      simp only [hm, true_and, reduceCtorEq, false_and, exists_false, or_false]
    | some r =>
      obtain ⟨v, input⟩ := r
      have hne : d.input ≠ [] := by
        rintro h0
        rw [h0] at hv
        cases hv
      have hpos := List.length_pos_of_ne_nil hne
      have hr : recordReader d.input = (tagOf v.toNat).bind fun tag => fieldsReader tag input := by
        unfold recordReader; rw [hv]; rfl
      rw [newFileHeld_iff hv]
      obtain ⟨hh, hrec⟩ | ⟨⟨hn, hh⟩, hrec⟩ := record_spec src (d := { d with input := input }) hm v.toNat
      · rw [← hr] at hrec
        obtain ⟨d', hd', hleft⟩ := Option.map_eq_some_iff.1 hrec
        simp only [hd', Option.bind_some]
        cases hmsg : d'.msg with
        | some msg =>
          -- the record is bad, and the loop ends in the next turn
          have hnone : recordReader d.input = none := by
            rw [Decoder.left, hmsg] at hleft
            exact Option.map_eq_none_iff.1 hleft.symm
          obtain ⟨k, rfl⟩ : ∃ k, fuel = k + 1 := ⟨fuel - 1, by omega⟩
          refine .inl ⟨⟨hh, fun rest h => by rw [hnone] at h; cases h⟩, d', ?_, ?_⟩
          · rw [Decoder.loop, hmsg]; rfl
          · rw [parses_record.mem_kstar, hnone, hmsg]
            simp only [hne, reduceCtorEq, false_and, exists_false, or_false]
        | none =>
          have hsome : recordReader d.input = some ((), d'.input) := by
            rw [Decoder.left, hmsg] at hleft
            obtain ⟨⟨_, _⟩, h1, h2⟩ := Option.map_eq_some_iff.1 hleft.symm
            cases h2
            exact h1
          -- a record is read, and the loop goes on with less input
          have hlt := length_lt_of_recordReader hsome
          rw [parses_record.mem_kstar, hsome]
          simp only [hne, Option.some.injEq, Prod.mk.injEq, true_and, forall_eq', exists_eq_left',
            false_or]
          obtain ⟨h1, h2⟩ | ⟨h1, h2⟩ := ih hmsg (by omega)
          · exact .inl ⟨⟨hh, h1⟩, h2⟩
          · exact .inr ⟨fun h => h1 h.2, h2⟩
      · refine .inr ⟨fun h => hh (h.1 hn), ?_⟩
        simp only [hrec, Option.bind_none]

/-! ## Well-formed edits -/

/-- A slice with one complete encoding is held. -/
theorem held_of_memEntry (pre rest : Bytes) {s : Bytes} (hs : s ∈ slice memEntry) :
    Held (pre ++ (s ++ rest)) (s ++ rest) := by
  simp only [slice, Language.mem_iSup] at hs
  obtain ⟨v, hv, hs⟩ := hs
  intro v' rest' h
  rw [parses_getLengthPrefixedSlice.append hs rest] at h
  cases h
  obtain ⟨u, hu, b, hb, rfl⟩ := hs
  obtain rfl : b = v := hb
  have hlen : (pre ++ (u ++ b ++ rest)).length - (b.length + rest.length) = (pre ++ u).length := by
    simp only [List.length_append]
    omega
  have happ : pre ++ (u ++ b ++ rest) = pre ++ u ++ (b ++ rest) := by simp only [List.append_assoc]
  simp only [hlen]
  exact decodeMemEntryAt_memEntry hv (by rw [happ, List.drop_left])

theorem newFileHeld_of_record (pre rest : Bytes) {w : Bytes} (hw : w ∈ record memEntry) :
    NewFileHeld (pre ++ (w ++ rest)) (w ++ rest) := by
  obtain ⟨tag, w, hu, x, hx, rfl⟩ := Language.mem_iSup.1 hw
  simp only [List.append_assoc]
  refine (newFileHeld_iff (getVarint32Ptr_word hu _)).2 fun hn => ?_
  rw [toNat_of_mem_varint32 hu] at hn
  obtain rfl : tag = .kNewFile := by
    have h := tagOf_code tag
    rw [hn, tagOf_code] at h
    exact (Option.some.inj h).symm
  obtain ⟨y, hy, _, ⟨s, hs, t, ht, rfl⟩, rfl⟩ := hx
  refine (heldAfter_iff parses_head).2 fun r' hr => ?_
  rw [show y ++ (s ++ t) ++ rest = y ++ (s ++ (t ++ rest)) by simp only [List.append_assoc],
    parses_head.append hy] at hr
  cases hr
  have h1 := held_of_memEntry (pre ++ (w ++ y)) (t ++ rest) hs
  have h2 := held_of_memEntry (pre ++ (w ++ (y ++ s))) rest ht
  simp only [List.append_assoc] at h1 h2 ⊢
  refine ⟨h1, fun v r'' hr => ?_⟩
  have hskip := parses_slice.append (a := ()) (slice_mono le_top hs) (t ++ rest)
  rw [hr] at hskip
  cases hskip
  exact h2

/-- **The loop over a well-formed edit** gets to held slices only. -/
theorem met_of_records (pre : Bytes) {input : Bytes} (h : input ∈ (record memEntry)∗) :
    Met (pre ++ input) input := by
  obtain ⟨ws, rfl, hws⟩ := Language.mem_kstar.1 h
  clear h
  induction ws generalizing pre with
  | nil => exact met_iff.2 ⟨newFileHeld_of_none rfl, fun _ h => by cases h⟩
  | cons w ws ih =>
    have hw := hws w List.mem_cons_self
    rw [List.flatten_cons]
    refine met_iff.2 ⟨newFileHeld_of_record pre ws.flatten hw, fun rest h => ?_⟩
    rw [parses_record.append (record_mono le_top hw)] at h
    cases h
    rw [← List.append_assoc]
    exact ih (pre ++ w) fun w' h' => hws w' (List.mem_cons_of_mem _ h')

/-! ## What `DecodeFrom` accepts -/

variable {F : Type}

/-- `DecodeFrom` reads no byte outside `src`, ends, and tells the well-formed edits from the others. -/
def AcceptsGrammar (e : FullVersionEdit F) (fresh : FileMetaData) (src : Bytes) : Prop :=
  (∃ e', e.decodeFrom fresh src = some (.ok, e') ∧ src ∈ (record memEntry)∗) ∨
    (∃ e', e.decodeFrom fresh src = some (.corruption, e') ∧ src ∉ (record memEntry)∗)

/-- **The status of `DecodeFrom`.** It has none exactly if it gets to a slice whose entry leads outside
`src`, and accepts records with anything in their slices. -/
theorem decodeFrom_spec (e : FullVersionEdit F) (fresh : FileMetaData) (src : Bytes) :
    (Met src src ∧ src ∈ (record ⊤)∗ ∧ ∃ e', e.decodeFrom fresh src = some (.ok, e')) ∨
      (Met src src ∧ src ∉ (record ⊤)∗ ∧ ∃ e', e.decodeFrom fresh src = some (.corruption, e')) ∨
      (¬ Met src src ∧ e.decodeFrom fresh src = none) := by
  unfold decodeFrom
  obtain ⟨hmet, d', hd', hiff⟩ | ⟨hmet, hd⟩ :=
    loop_spec (d := ⟨e.clear, fresh, src, none⟩) rfl (Nat.lt_succ_self _)
  · rw [hd']
    simp only [Option.bind_eq_bind, Option.bind_some]
    by_cases hs : src ∈ (record ⊤)∗
    · obtain ⟨hm, hi⟩ := hiff.2 hs
      refine .inl ⟨hmet, hs, d'.edit.deref d'.f, ?_⟩
      rw [hm, hi]
      rfl
    · refine .inr (.inl ⟨hmet, hs, d'.edit.deref d'.f, ?_⟩)
      have hbad := fun h => hs (hiff.1 h)
      cases hm : d'.msg with
      | some msg => rfl
      | none =>
        cases hi : d'.input with
        | nil => exact absurd ⟨hm, hi⟩ hbad
        | cons b bs => rfl
  · refine .inr (.inr ⟨hmet, ?_⟩)
    rw [hd]
    rfl

/-- **`DecodeFrom` accepts exactly the grammar, inside `src`,** on the well-formed edits, and on what
is no sequence of records with whatever in their slices, if the loop gets to no slice that leads
outside `src`. -/
theorem accepts_grammar_iff (e : FullVersionEdit F) (fresh : FileMetaData) (src : Bytes) :
    AcceptsGrammar e fresh src ↔
      src ∈ (record memEntry)∗ ∨ (src ∉ (record ⊤)∗ ∧ Met src src) := by
  have hsub : src ∈ (record memEntry)∗ → src ∈ (record ⊤)∗ := fun h =>
    kstar_mono (record_mono le_top) h
  constructor
  · rintro (⟨e', -, h⟩ | ⟨e', h, -⟩)
    · exact .inl h
    · obtain ⟨-, -, e'', h'⟩ | ⟨hmet, hs, -⟩ | ⟨-, h'⟩ := decodeFrom_spec e fresh src
      · rw [h'] at h; cases h
      · exact .inr ⟨hs, hmet⟩
      · rw [h'] at h; cases h
  · rintro (h | ⟨hs, hmet⟩)
    · obtain ⟨-, -, e', h'⟩ | ⟨-, hs, -⟩ | ⟨hmet, -⟩ := decodeFrom_spec e fresh src
      · exact .inl ⟨e', h', h⟩
      · exact absurd (hsub h) hs
      · exact absurd (met_of_records [] h) hmet
    · obtain ⟨-, hs', -⟩ | ⟨-, -, e', h'⟩ | ⟨hmet', -⟩ := decodeFrom_spec e fresh src
      · exact absurd hs' hs
      · exact .inr ⟨e', h', fun h => hs (hsub h)⟩
      · exact absurd hmet hmet'

private def emptyEdit : FullVersionEdit FileMetaData :=
  ⟨fun _ => 0, 0, 0, 0, false, false, false, false, false, ∅, []⟩

private def emptyFile : FileMetaData := ⟨⟨.ofString [], .ofString [], 0, false⟩,
  ⟨.ofString [], .ofString [], 0, false⟩, 0, 0⟩

/-- **An empty slice at the end of `src`** is decoded from the bytes behind `src`. -/
theorem reads_behind_src : emptyEdit.decodeFrom emptyFile [7, 0, 1, 1, 0] = none ∧
    ¬ AcceptsGrammar emptyEdit emptyFile [7, 0, 1, 1, 0] := by
  have hd : (emptyEdit.decodeFrom emptyFile [7, 0, 1, 1, 0]).isNone := by decide +kernel
  rw [Option.isNone_iff_eq_none] at hd
  refine ⟨hd, ?_⟩
  rintro (⟨e', h, -⟩ | ⟨e', h, -⟩)
  · rw [hd] at h; cases h
  · rw [hd] at h; cases h

end FullVersionEdit

end Yangkv
