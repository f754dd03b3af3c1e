import Yangkv.Proof.Codec
import Yangkv.Spec.VersionEdit

/-!
# What a version edit reads back as

Numbers and deleted files read back as they were written. All new files read back as
the last of them, each at its own level, since the decoder has one `FileMetaData` for
all of them.

* `Turns`: turns of the loop that use up a part of the input.
* `Built.decodeFrom`: what `DecodeFrom` makes of an encoded edit.
* `edit_round_trip_iff`: an edit comes back unchanged exactly if its new files differ
  in nothing but their levels.
-/

namespace Yangkv

open Lib

/-! ## An entry inside a buffer -/

/-- Where a view is when bytes are put before its buffer. -/
def View.shift (n : ℕ) (v : View) : View := ⟨n + v.off, v.len⟩

theorem View.read_shift (pre mem : Bytes) (v : View) :
    (v.shift pre.length).read (pre ++ mem) = v.read mem := by
  unfold View.read View.shift
  simp only [List.drop_append, Nat.add_assoc, Nat.add_sub_cancel_left,
    List.drop_of_length_le (Nat.le_add_right pre.length _), List.nil_append]

theorem drop_append_add (pre mem : Bytes) (p : ℕ) : (pre ++ mem).drop (pre.length + p) = mem.drop p := by
  rw [← List.drop_drop, List.drop_left]

theorem getVarint32At_shift (pre mem : Bytes) (p : ℕ) :
    getVarint32At (pre ++ mem) (pre.length + p) =
      (getVarint32At mem p).map fun r => (r.1, pre.length + r.2) := by
  unfold getVarint32At
  rw [drop_append_add, Option.map_map]
  congr 1
  funext r
  simp only [Function.comp, Nat.add_assoc]

theorem decodeFixed64Before_shift (pre : Bytes) {mem : Bytes} {p n : ℕ}
    (h : decodeFixed64Before mem p = some n) :
    decodeFixed64Before (pre ++ mem) (pre.length + p) = some n := by
  unfold decodeFixed64Before at h ⊢
  by_cases h8 : 8 ≤ p
  · rw [if_pos h8] at h
    rw [if_pos (by omega), show pre.length + p - 8 = pre.length + (p - 8) by omega, drop_append_add]
    exact h
  · rw [if_neg h8] at h; cases h

/-- **An entry decodes the same wherever its buffer is.** -/
theorem decodeMemEntryAt_shift {pre mem : Bytes} {e : MemEntry View}
    (h : decodeMemEntry mem = some e) :
    decodeMemEntryAt (pre ++ mem) pre.length = some (e.map (·.shift pre.length)) := by
  unfold decodeMemEntry at h
  obtain ⟨⟨klength, key_ptr⟩, h1, h⟩ := Option.bind_eq_some_iff.1 h
  obtain ⟨info, h2, h⟩ := Option.bind_eq_some_iff.1 h
  obtain ⟨⟨vlength, vptr⟩, h3, h⟩ := Option.bind_eq_some_iff.1 h
  cases h
  have g1 := getVarint32At_shift pre mem 0
  have g3 := getVarint32At_shift pre mem (key_ptr + klength.toNat)
  rw [h1, Option.map_some, Nat.add_zero] at g1
  rw [h3, Option.map_some, ← Nat.add_assoc] at g3
  have g2 := decodeFixed64Before_shift pre h2
  rw [← Nat.add_assoc] at g2
  unfold decodeMemEntryAt
  simp only [g1, g2, g3, Option.bind_eq_bind, Option.bind_some]
  rfl

theorem MemEntry.read_shift (pre mem : Bytes) (e : MemEntry View) :
    MemEntry.read (pre ++ mem) (e.map (·.shift pre.length)) = e.read mem := by
  simp only [MemEntry.read, MemEntry.map, View.read_shift]

/-- The encoding of the entry has a 32-bit length. -/
def MemEntry.Prefixable (e : Entry) : Prop := e.record.length < 2 ^ 32

instance (e : Entry) : Decidable e.Prefixable := inferInstanceAs (Decidable (_ < _))

theorem MemEntry.Prefixable.fits {e : Entry} (h : e.Prefixable) : e.Fits := by
  have hlen := length_record e
  unfold MemEntry.Prefixable at h
  unfold MemEntry.Fits
  omega

/-- An entry behind its length, as `EncodeTo` writes it. -/
def prefixed (e : Entry) : Bytes := Varint.encode e.record.length ++ e.record

/-- **A slice behind its length is read back.** -/
theorem getLengthPrefixedSlice_encode {x : Bytes} (hx : x.length < 2 ^ 32) (suffix : Bytes) :
    getLengthPrefixedSlice (Varint.encode x.length ++ x ++ suffix) = some (x, suffix) := by
  have hlen : (UInt32.ofNat x.length).toNat = x.length := by
    rw [UInt32.toNat_ofNat', Nat.mod_eq_of_lt hx]
  unfold getLengthPrefixedSlice
  rw [List.append_assoc, getVarint32Ptr_encode hx]
  simp only [Option.bind_eq_bind, Option.bind_some, hlen]
  rw [if_pos (by rw [List.length_append]; omega), List.take_left, List.drop_left]

theorem getMemEntry_prefixed (pre rest : Bytes) {e : Entry} (he : e.Prefixable)
    (hs : e.seq_num < 2 ^ 56) :
    getMemEntry (pre ++ (prefixed e ++ rest)) (prefixed e ++ rest) = some (some (e, rest)) := by
  have hslice : getLengthPrefixedSlice (prefixed e ++ rest) = some (e.record, rest) :=
    getLengthPrefixedSlice_encode he rest
  have hptr : (pre ++ (prefixed e ++ rest)).length - (e.record.length + rest.length) =
      (pre ++ Varint.encode e.record.length).length := by
    simp only [prefixed, List.length_append]
    omega
  have hsrc : pre ++ (prefixed e ++ rest) =
      pre ++ Varint.encode e.record.length ++ (e.record ++ rest) := by
    simp only [prefixed, List.append_assoc]
  unfold getMemEntry
  simp only [hslice, hptr]
  rw [hsrc, decodeMemEntryAt_shift (decodeMemEntry_record he.fits rest), Option.map_some,
    MemEntry.read_shift, read_views, Nat.mod_eq_of_lt hs]

/-! ## Turns of the loop -/

namespace FullVersionEdit

namespace Decoder

variable {src rest : Bytes} {d d' d'' : Decoder}

/-- Some turns of the loop lead from `d` to `d'`, each using up a byte at least. -/
def Turns (src : Bytes) (d d' : Decoder) : Prop :=
  ∃ k, k + d'.input.length ≤ d.input.length ∧ ∀ fuel, loop src (fuel + k) d = loop src fuel d'

theorem Turns.refl : Turns src d d := ⟨0, (Nat.zero_add _).le, fun _ => rfl⟩

theorem Turns.trans (h : Turns src d d') (h' : Turns src d' d'') : Turns src d d'' := by
  obtain ⟨k, h1, h2⟩ := h
  obtain ⟨k', h3, h4⟩ := h'
  refine ⟨k' + k, by omega, fun fuel => ?_⟩
  rw [← Nat.add_assoc, h2, h4]

/-- A turn that reads a tag and a record. -/
theorem Turns.one (tag : Tag) (hm : d.msg = none) (hi : d.input = Varint.encode tag.code ++ rest)
    (hr : record src { d with input := rest } tag.code = some d')
    (hlen : d'.input.length ≤ rest.length) : Turns src d d' := by
  have htag : tag.code < 2 ^ 32 := by cases tag <;> decide
  have hnat : (UInt32.ofNat tag.code).toNat = tag.code := by
    rw [UInt32.toNat_ofNat', Nat.mod_eq_of_lt htag]
  refine ⟨1, ?_, fun fuel => ?_⟩
  · have := Varint.encode_length_pos tag.code
    rw [hi, List.length_append]
    omega
  · rw [loop, if_neg (by rw [hm]; exact Bool.false_ne_true), hi, getVarint32Ptr_encode htag]
    simp only [hnat, hr, Option.bind_some]

/-- The loop ends where nothing is left. -/
theorem Turns.finish (h : Turns src d d') (hi : d'.input = []) {fuel : ℕ}
    (hf : d.input.length < fuel) : loop src fuel d = some d' := by
  obtain ⟨k, h1, h2⟩ := h
  obtain ⟨m, rfl⟩ : ∃ m, fuel = m + 1 + k := ⟨fuel - 1 - k, by omega⟩
  rw [h2, loop, hi]
  split
  · rfl
  · rfl

theorem getNumber_encode {set : FullVersionEdit Unit → ℕ → FullVersionEdit Unit} {msg : String}
    {num : ℕ} (hn : num < 2 ^ 64) (hi : d.input = Varint.encode num ++ rest) :
    d.getNumber set msg = { d with edit := set d.edit num, input := rest } := by
  have hnat : (UInt64.ofNat num).toNat = num := by rw [UInt64.toNat_ofNat', Nat.mod_eq_of_lt hn]
  unfold getNumber
  rw [hi, getVarint64Ptr_encode hn]
  simp only [hnat]

/-- The bytes of a number, if it is there. -/
def numberBytes (tag : Tag) (has : Bool) (num : ℕ) : Bytes :=
  if has then Varint.encode tag.code ++ Varint.encode num else []

/-- A number that is there is set. -/
theorem Turns.number (tag : Tag) (set : FullVersionEdit Unit → ℕ → FullVersionEdit Unit)
    (msg : String) {has : Bool} {num : ℕ}
    (htag : ∀ d, record src d tag.code = some (d.getNumber set msg)) (hn : has = true → num < 2 ^ 64)
    (hm : d.msg = none) (hi : d.input = numberBytes tag has num ++ rest) :
    Turns src d { d with edit := if has then set d.edit num else d.edit, input := rest } := by
  cases has with
  | false =>
    have hd : { d with edit := d.edit, input := rest } = d := by
      rw [show rest = d.input from hi.symm]
    simp only [Bool.false_eq_true, if_false, hd]
    exact .refl
  | true =>
    simp only [numberBytes, if_true, List.append_assoc] at hi
    refine .one _ hm hi ?_ (by simp)
    rw [htag, getNumber_encode (hn rfl) rfl, if_pos rfl]

theorem getLevel_encode {level : ℕ} (hl : level < kMaxLevel) (rest : Bytes) :
    getLevel (Varint.encode level ++ rest) = some (level, rest) := by
  have h32 : level < 2 ^ 32 := hl.trans (by decide)
  have hnat : (UInt32.ofNat level).toNat = level := by
    rw [UInt32.toNat_ofNat', Nat.mod_eq_of_lt h32]
  unfold getLevel
  rw [getVarint32Ptr_encode h32]
  simp only [Option.bind_eq_bind, Option.bind_some, hnat, if_pos hl]

/-- The bytes of a deleted file. -/
def deletedBytes (it : ℕ ×ₗ ℕ) : Bytes :=
  Varint.encode Tag.kDeletedFile.code ++ (Varint.encode (ofLex it).1 ++ Varint.encode (ofLex it).2)

theorem Turns.deleted {its : List (ℕ ×ₗ ℕ)}
    (h : ∀ it ∈ its, (ofLex it).1 < kMaxLevel ∧ (ofLex it).2 < 2 ^ 64) (hm : d.msg = none)
    (hi : d.input = its.flatMap deletedBytes ++ rest) :
    Turns src d { d with
      edit := its.foldl (fun e it => e.deleteFile (ofLex it).1 (ofLex it).2) d.edit
      input := rest } := by
  induction its generalizing d with
  | nil =>
    have hd : { d with edit := d.edit, input := rest } = d := by
      rw [show rest = d.input from hi.symm]
    simp only [List.foldl_nil, hd]
    exact .refl
  | cons it its ih =>
    obtain ⟨hl, hn⟩ := h it List.mem_cons_self
    have hnat : (UInt64.ofNat (ofLex it).2).toNat = (ofLex it).2 := by
      rw [UInt64.toNat_ofNat', Nat.mod_eq_of_lt hn]
    simp only [List.flatMap_cons, deletedBytes, List.append_assoc] at hi
    have hone : Turns src d { d with
        edit := d.edit.deleteFile (ofLex it).1 (ofLex it).2
        input := its.flatMap deletedBytes ++ rest } := by
      refine .one _ hm hi ?_ (by simp only [List.length_append]; omega)
      simp only [record, Tag.code, getDeletedFile, getLevel_encode hl, getVarint64Ptr_encode hn, hnat,
        Option.bind_eq_bind, Option.bind_some]
      rfl
    exact hone.trans (ih (fun it' h' => h it' (List.mem_cons_of_mem _ h')) hm rfl)

/-- The bytes of a new file. -/
def fileBytes (it : ℕ × FileMetaData) : Bytes :=
  Varint.encode Tag.kNewFile.code ++ (Varint.encode it.1 ++ (Varint.encode it.2.number ++
    (Varint.encode it.2.file_size ++ (prefixed it.2.smallest ++ prefixed it.2.largest))))

/-- The fields of a file have their sizes in the code. -/
structure FileOk (it : ℕ × FileMetaData) : Prop where
  level : it.1 < kMaxLevel
  number : it.2.number < 2 ^ 64
  file_size : it.2.file_size < 2 ^ 64
  smallest : it.2.smallest.seq_num < 2 ^ 56
  largest : it.2.largest.seq_num < 2 ^ 56

instance (it : ℕ × FileMetaData) : Decidable (FileOk it) :=
  decidable_of_iff (it.1 < kMaxLevel ∧ it.2.number < 2 ^ 64 ∧ it.2.file_size < 2 ^ 64 ∧
      it.2.smallest.seq_num < 2 ^ 56 ∧ it.2.largest.seq_num < 2 ^ 56)
    ⟨fun ⟨h1, h2, h3, h4, h5⟩ => ⟨h1, h2, h3, h4, h5⟩,
      fun h => ⟨h.level, h.number, h.file_size, h.smallest, h.largest⟩⟩

/-- The bounds of a file have encodings with a 32-bit length. -/
def Prefixable (it : ℕ × FileMetaData) : Prop := it.2.smallest.Prefixable ∧ it.2.largest.Prefixable

theorem getNewFile_encode (pre rest : Bytes) (f : FileMetaData) {it : ℕ × FileMetaData} (hf : FileOk it)
    (hp : Prefixable it) :
    getNewFile (pre ++ (fileBytes it ++ rest)) f (Varint.encode it.1 ++ (Varint.encode it.2.number ++
      (Varint.encode it.2.file_size ++ (prefixed it.2.smallest ++ (prefixed it.2.largest ++ rest))))) =
      some (it.2, some (it.1, rest)) := by
  have hnum : (UInt64.ofNat it.2.number).toNat = it.2.number := by
    rw [UInt64.toNat_ofNat', Nat.mod_eq_of_lt hf.number]
  have hsize : (UInt64.ofNat it.2.file_size).toNat = it.2.file_size := by
    rw [UInt64.toNat_ofNat', Nat.mod_eq_of_lt hf.file_size]
  -- the bytes before each of the two slices
  have h1 : pre ++ (fileBytes it ++ rest) = pre ++ Varint.encode Tag.kNewFile.code ++
      Varint.encode it.1 ++ Varint.encode it.2.number ++ Varint.encode it.2.file_size ++
        (prefixed it.2.smallest ++ (prefixed it.2.largest ++ rest)) := by
    simp only [fileBytes, List.append_assoc]
  have h2 : pre ++ (fileBytes it ++ rest) = pre ++ Varint.encode Tag.kNewFile.code ++
      Varint.encode it.1 ++ Varint.encode it.2.number ++ Varint.encode it.2.file_size ++
        prefixed it.2.smallest ++ (prefixed it.2.largest ++ rest) := by
    simp only [fileBytes, List.append_assoc]
  have g1 := h1 ▸ getMemEntry_prefixed _ (prefixed it.2.largest ++ rest) hp.1 hf.smallest
  have g2 := h2 ▸ getMemEntry_prefixed _ rest hp.2 hf.largest
  unfold getNewFile
  simp only [getLevel_encode hf.level, getVarint64Ptr_encode hf.number,
    getVarint64Ptr_encode hf.file_size, g1, g2, Option.bind_some, Option.map_some, hnum, hsize]

/-- **Each new file is read at its level, and is the one `f` holds then.** -/
theorem Turns.newFiles {its : List (ℕ × FileMetaData)} (pre : Bytes)
    (h : ∀ it ∈ its, FileOk it ∧ Prefixable it) (hm : d.msg = none)
    (hi : d.input = its.flatMap fileBytes ++ rest) (hsrc : src = pre ++ d.input) :
    Turns src d { d with
      edit := { d.edit with new_files_ := d.edit.new_files_ ++ its.map fun it => (it.1, ()) }
      f := its.foldl (fun _ it => it.2) d.f
      input := rest } := by
  induction its generalizing d pre with
  | nil =>
    have hd : { d with
        edit := { d.edit with new_files_ := d.edit.new_files_ ++ [] }, input := rest } = d := by
      rw [show rest = d.input from hi.symm, List.append_nil]
    simp only [List.map_nil, List.foldl_nil, hd]
    exact .refl
  | cons it its ih =>
    obtain ⟨hf, hp⟩ := h it List.mem_cons_self
    rw [List.flatMap_cons, List.append_assoc] at hi
    -- `GetMemEntry` needs to know where in `src` the file is
    have hfile := getNewFile_encode pre (its.flatMap fileBytes ++ rest) d.f hf hp
    rw [← hi, ← hsrc] at hfile
    have hone : Turns src d { d with
        edit := { d.edit with new_files_ := d.edit.new_files_ ++ [(it.1, ())] }
        f := it.2
        input := its.flatMap fileBytes ++ rest } := by
      refine .one .kNewFile hm (hi.trans (by simp only [fileBytes, List.append_assoc]; rfl)) ?_
        (by simp only [List.length_append]; omega)
      simp only [record, Tag.code, hfile, Option.map_some]
      rfl
    have hrest := ih (pre ++ fileBytes it) (d := { d with
        edit := { d.edit with new_files_ := d.edit.new_files_ ++ [(it.1, ())] }
        f := it.2
        input := its.flatMap fileBytes ++ rest })
      (fun it' h' => h it' (List.mem_cons_of_mem _ h')) hm rfl (by rw [hsrc, hi, List.append_assoc])
    have := hone.trans hrest
    simpa only [List.map_cons, List.foldl_cons, List.append_assoc, List.singleton_append] using this

end Decoder

open Decoder

/-! ## Encoding -/

variable {F : Type} {e : FullVersionEdit FileMetaData}

theorem putVarint32_eq (dst : Bytes) {v : ℕ} (h : v < 2 ^ 32) :
    putVarint32 dst v = dst ++ Varint.encode v := by
  rw [putVarint32, encodeVarint32_eq, UInt32.toNat_ofNat', Nat.mod_eq_of_lt h]

theorem putVarint64_eq (dst : Bytes) {v : ℕ} (h : v < 2 ^ 64) :
    putVarint64 dst v = dst ++ Varint.encode v := by
  rw [putVarint64, encodeVarint64_eq, UInt64.toNat_ofNat', Nat.mod_eq_of_lt h]

theorem putTag_eq (dst : Bytes) (tag : Tag) : putVarint32 dst tag.code = dst ++ Varint.encode tag.code :=
  putVarint32_eq dst (by cases tag <;> decide)

theorem putNumber_eq (dst : Bytes) (tag : Tag) {has : Bool} {num : ℕ} (h : has = true → num < 2 ^ 64) :
    putNumber dst tag has num = dst ++ numberBytes tag has num := by
  cases has with
  | false => simp [putNumber, numberBytes]
  | true =>
    rw [putNumber, numberBytes, if_pos rfl, if_pos rfl, putTag_eq, putVarint64_eq _ (h rfl),
      List.append_assoc]

theorem foldl_putDeletedFile {its : List (ℕ ×ₗ ℕ)}
    (h : ∀ it ∈ its, (ofLex it).1 < 2 ^ 32 ∧ (ofLex it).2 < 2 ^ 64) (dst : Bytes) :
    its.foldl putDeletedFile dst = dst ++ its.flatMap deletedBytes := by
  induction its generalizing dst with
  | nil => simp
  | cons it its ih =>
    obtain ⟨hl, hn⟩ := h it List.mem_cons_self
    have hone : putDeletedFile dst it = dst ++ deletedBytes it := by
      rw [putDeletedFile, putTag_eq, putVarint32_eq _ hl, putVarint64_eq _ hn]
      simp only [deletedBytes, List.append_assoc]
    rw [List.foldl_cons, hone, ih fun it' h' => h it' (List.mem_cons_of_mem _ h'),
      List.flatMap_cons, List.append_assoc]

theorem putLengthPrefixedSlice_eq (dst : Bytes) {x : Entry} (hx : x.Prefixable) :
    putLengthPrefixedSlice dst x.record = dst ++ prefixed x := by
  rw [putLengthPrefixedSlice, putVarint32_eq _ hx, prefixed, List.append_assoc]

/-- The numbers of a file have their sizes in the code. -/
structure FileFits (it : ℕ × FileMetaData) : Prop where
  level : it.1 < 2 ^ 32
  number : it.2.number < 2 ^ 64
  file_size : it.2.file_size < 2 ^ 64

theorem Decoder.FileOk.fits {it : ℕ × FileMetaData} (h : FileOk it) : FileFits it :=
  ⟨h.level.trans (by decide), h.number, h.file_size⟩

theorem foldlM_putNewFile {its : List (ℕ × FileMetaData)} (h : ∀ it ∈ its, FileFits it ∧ Prefixable it)
    (dst : Bytes) : its.foldlM putNewFile dst = some (dst ++ its.flatMap fileBytes) := by
  induction its generalizing dst with
  | nil => simp
  | cons it its ih =>
    obtain ⟨hf, hp⟩ := h it List.mem_cons_self
    have hone : putNewFile dst it = some (dst ++ fileBytes it) := by
      unfold putNewFile
      simp only [encodeMemEntry_fits hp.1.fits, encodeMemEntry_fits hp.2.fits, Option.bind_eq_bind,
        Option.bind_some, putTag_eq, putVarint32_eq _ hf.level,
        putVarint64_eq _ hf.number, putVarint64_eq _ hf.file_size,
        putLengthPrefixedSlice_eq _ hp.1, putLengthPrefixedSlice_eq _ hp.2, fileBytes,
        List.append_assoc]
    rw [List.foldlM_cons, hone, Option.bind_eq_bind, Option.bind_some,
      ih fun it' h' => h it' (List.mem_cons_of_mem _ h'), List.flatMap_cons, List.append_assoc]

/-- What the calls leave in an edit, with their arguments in range. -/
structure Built (e : FullVersionEdit FileMetaData) : Prop where
  log_number_ : e.log_number_ = fun _ => 0
  comparator : e.has_comparator_ = false
  log : e.has_log_number_ = false
  prev : e.has_prev_log_number_ = true → e.prev_log_number_ < 2 ^ 64
  next : e.has_next_file_number_ = true → e.next_file_number_ < 2 ^ 64
  last : e.has_last_sequence_ = true → e.last_sequence_ < 2 ^ 64
  noNext : e.has_next_file_number_ = false → e.next_file_number_ = 0
  noLast : e.has_last_sequence_ = false → e.last_sequence_ = 0
  deleted : ∀ it ∈ e.deleted_files_, (ofLex it).1 < kMaxLevel ∧ (ofLex it).2 < 2 ^ 64
  files : ∀ it ∈ e.new_files_, FileOk it

/-- The bytes of an edit. -/
def bytes (e : FullVersionEdit FileMetaData) : Bytes :=
  numberBytes .kPrevLogNumber e.has_prev_log_number_ e.prev_log_number_ ++
    (numberBytes .kNextFileNumber e.has_next_file_number_ e.next_file_number_ ++
      (numberBytes .kLastSequence e.has_last_sequence_ e.last_sequence_ ++
        (e.deletedFiles.flatMap deletedBytes ++ e.new_files_.flatMap fileBytes)))

/-- **What `EncodeTo` appends**, where all numbers are in the range of their types. -/
theorem encodeTo_append (hprev : e.has_prev_log_number_ = true → e.prev_log_number_ < 2 ^ 64)
    (hnext : e.has_next_file_number_ = true → e.next_file_number_ < 2 ^ 64)
    (hlast : e.has_last_sequence_ = true → e.last_sequence_ < 2 ^ 64)
    (hd : ∀ it ∈ e.deletedFiles, (ofLex it).1 < 2 ^ 32 ∧ (ofLex it).2 < 2 ^ 64)
    (hf : ∀ it ∈ e.new_files_, FileFits it ∧ Prefixable it) (dst : Bytes) :
    e.encodeTo dst = some (dst ++ e.bytes) := by
  unfold FullVersionEdit.encodeTo
  simp only [putNumber_eq _ _ hprev, putNumber_eq _ _ hnext, putNumber_eq _ _ hlast,
    foldl_putDeletedFile hd, foldlM_putNewFile hf, bytes, List.append_assoc]

theorem Built.encodeTo (h : Built e) (hp : ∀ it ∈ e.new_files_, Prefixable it) :
    e.encodeTo [] = some e.bytes := by
  have hd : ∀ it ∈ e.deletedFiles, (ofLex it).1 < 2 ^ 32 ∧ (ofLex it).2 < 2 ^ 64 := by
    intro it hit
    obtain ⟨hl, hn⟩ := h.deleted it ((Finset.mem_sort (· ≤ ·)).1 hit)
    exact ⟨hl.trans (by decide), hn⟩
  exact encodeTo_append h.prev h.next h.last hd (fun it hit => ⟨(h.files it hit).fits, hp it hit⟩) []

theorem foldl_deleteFile (its : List (ℕ ×ₗ ℕ)) (e : FullVersionEdit Unit) :
    its.foldl (fun e it => e.deleteFile (ofLex it).1 (ofLex it).2) e =
      { e with deleted_files_ := its.toFinset ∪ e.deleted_files_ } := by
  induction its generalizing e with
  | nil => simp
  | cons it its ih =>
    rw [List.foldl_cons, ih]
    simp only [deleteFile, List.toFinset_cons, Finset.insert_union, Finset.union_insert]
    rfl

/-! ## What is read back -/

variable {d : FullVersionEdit Unit} {has : Bool} {num : ℕ}

theorem set_prev (h : d.has_prev_log_number_ = false) :
    (if has then d.setPrevLogNumber num else d) = { d with
      has_prev_log_number_ := has
      prev_log_number_ := if has then num else d.prev_log_number_ } := by
  cases has with
  | false => cases d; cases h; rfl
  | true => rfl

theorem set_next (h : d.has_next_file_number_ = false) :
    (if has then d.setNextFile num else d) = { d with
      has_next_file_number_ := has
      next_file_number_ := if has then num else d.next_file_number_ } := by
  cases has with
  | false => cases d; cases h; rfl
  | true => rfl

theorem set_last (h : d.has_last_sequence_ = false) :
    (if has then d.setLastSequence num else d) = { d with
      has_last_sequence_ := has
      last_sequence_ := if has then num else d.last_sequence_ } := by
  cases has with
  | false => cases d; cases h; rfl
  | true => rfl

theorem ite_eq_left {n : ℕ} (h : has = false → n = 0) : (if has then n else 0) = n := by
  cases has with
  | false => exact (h rfl).symm
  | true => rfl

/-- The file that every pointer leads to in the end. -/
def lastFile (e : FullVersionEdit FileMetaData) (fresh : FileMetaData) : FileMetaData :=
  e.new_files_.foldl (fun _ it => it.2) fresh

/-- What an edit reads back as, in an object that held `prev`. -/
def readBack (e : FullVersionEdit FileMetaData) (prev : ℕ) (fresh : FileMetaData) :
    FullVersionEdit FileMetaData :=
  { e with
    prev_log_number_ := if e.has_prev_log_number_ then e.prev_log_number_ else prev
    new_files_ := e.new_files_.map fun it => (it.1, e.lastFile fresh) }

/-- **What `DecodeFrom` makes of an encoded edit.** -/
theorem Built.decodeFrom (h : Built e) (hp : ∀ it ∈ e.new_files_, Prefixable it)
    (dst : FullVersionEdit F) (fresh : FileMetaData) :
    dst.decodeFrom fresh e.bytes = some (.ok, e.readBack dst.prev_log_number_ fresh) := by
  have hd : ∀ it ∈ e.deletedFiles,
      (ofLex it).1 < kMaxLevel ∧ (ofLex it).2 < 2 ^ 64 :=
    fun it hit => h.deleted it ((Finset.mem_sort (· ≤ ·)).1 hit)
  have t1 : Turns e.bytes ⟨dst.clear, fresh, e.bytes, none⟩ _ :=
    .number .kPrevLogNumber setPrevLogNumber _ (fun _ => rfl) h.prev rfl rfl
  have t2 := t1.trans (.number .kNextFileNumber setNextFile _ (fun _ => rfl) h.next rfl rfl)
  have t3 := t2.trans (.number .kLastSequence setLastSequence _ (fun _ => rfl) h.last rfl rfl)
  have t4 := t3.trans (.deleted hd rfl rfl)
  have hsrc : e.bytes =
      (numberBytes .kPrevLogNumber e.has_prev_log_number_ e.prev_log_number_ ++
        numberBytes .kNextFileNumber e.has_next_file_number_ e.next_file_number_ ++
        numberBytes .kLastSequence e.has_last_sequence_ e.last_sequence_ ++
        e.deletedFiles.flatMap deletedBytes) ++ e.new_files_.flatMap fileBytes := by
    simp only [bytes, List.append_assoc]
  have t5 := t4.trans (.newFiles _ (fun it hit => ⟨h.files it hit, hp it hit⟩) rfl
    (List.append_nil _).symm hsrc)
  unfold FullVersionEdit.decodeFrom
  rw [t5.finish rfl (Nat.lt_succ_self _)]
  simp only [Option.bind_eq_bind, Option.bind_some, foldl_deleteFile, deletedFiles, Finset.sort_toFinset]
  rw [set_prev rfl, set_next rfl, set_last rfl]
  refine congrArg (fun x => some (Status.ok, x)) (FullVersionEdit.ext ?_ rfl ?_ ?_ ?_ ?_ rfl rfl rfl
    ?_ ?_)
  · exact h.log_number_.symm
  · exact ite_eq_left h.noNext
  · exact ite_eq_left h.noLast
  · exact h.comparator.symm
  · exact h.log.symm
  · exact Finset.union_empty _
  · simp only [deref, clear, readBack, lastFile, List.nil_append, List.map_map, Function.comp_def]

/-! ## The edits that come back unchanged -/

/-- The arguments of a call are in the range of their types, a level is one of the levels, and the
bounds have sequence numbers of 56 bits. -/
def Call.Ok : Call → Prop
  | .setPrevLogNumber num => num < 2 ^ 64
  | .setNextFile num => num < 2 ^ 64
  | .setLastSequence seq => seq < 2 ^ 64
  | .deleteFile level file => level < kMaxLevel ∧ file < 2 ^ 64
  | .addFile level file file_size smallest largest =>
    FileOk (level, ⟨smallest, largest, file_size, file⟩)

instance : (c : Call) → Decidable c.Ok
  | .setPrevLogNumber num | .setNextFile num | .setLastSequence num =>
    inferInstanceAs (Decidable (num < 2 ^ 64))
  | .deleteFile level file => inferInstanceAs (Decidable (level < kMaxLevel ∧ file < 2 ^ 64))
  | .addFile level file file_size smallest largest =>
    inferInstanceAs (Decidable (FileOk (level, ⟨smallest, largest, file_size, file⟩)))

/-- The bounds of an added file have encodings with a 32-bit length. -/
def Call.Prefixable : Call → Prop
  | .addFile level file file_size smallest largest =>
    Decoder.Prefixable (level, ⟨smallest, largest, file_size, file⟩)
  | _ => True

instance : (c : Call) → Decidable c.Prefixable
  | .addFile _ _ _ smallest largest =>
    inferInstanceAs (Decidable (smallest.Prefixable ∧ largest.Prefixable))
  | .setPrevLogNumber _ | .setNextFile _ | .setLastSequence _ | .deleteFile _ _ =>
    inferInstanceAs (Decidable True)

/-- What the store applies of an edit is what `AddFile` put there. -/
@[simp] theorem toEdit_addFile (e : FullVersionEdit FileMetaData) (level file file_size : ℕ)
    (smallest largest : Entry) :
    (e.addFile level file file_size smallest largest).toEdit =
      e.toEdit.addFile level file file_size smallest largest := rfl

theorem Built.clear (e : FullVersionEdit F) : Built e.clear where
  log_number_ := rfl
  comparator := rfl
  log := rfl
  prev := by rintro ⟨⟩
  next := by rintro ⟨⟩
  last := by rintro ⟨⟩
  noNext := fun _ => rfl
  noLast := fun _ => rfl
  deleted := fun it hit => absurd hit (Finset.notMem_empty it)
  files := fun it hit => absurd hit List.not_mem_nil

/-- **A call keeps an edit built.** -/
theorem Built.call (h : Built e) {c : Call} (hc : c.Ok) : Built (e.call c) := by
  cases c with
  | setPrevLogNumber num => exact { h with prev := fun _ => hc }
  | setNextFile num => exact { h with next := fun _ => hc, noNext := by rintro ⟨⟩ }
  | setLastSequence seq => exact { h with last := fun _ => hc, noLast := by rintro ⟨⟩ }
  | deleteFile level file =>
    refine { h with deleted := fun it hit => ?_ }
    obtain rfl | hit := Finset.mem_insert.1 hit
    · exact hc
    · exact h.deleted it hit
  | addFile level file file_size smallest largest =>
    refine { h with files := fun it hit => ?_ }
    obtain hit | hit := List.mem_append.1 hit
    · exact h.files it hit
    · obtain rfl := List.mem_singleton.1 hit
      exact hc

theorem Built.build (e : FullVersionEdit F) {calls : List Call} (h : ∀ c ∈ calls, c.Ok) :
    Built (e.build calls) := by
  suffices ∀ {e'}, Built e' → Built (calls.foldl FullVersionEdit.call e') from this (Built.clear e)
  induction calls with
  | nil => exact id
  | cons c calls ih =>
    intro e' he
    exact ih (fun c' h' => h c' (List.mem_cons_of_mem _ h')) (he.call (h c List.mem_cons_self))

theorem prefixable_build (e : FullVersionEdit F) {calls : List Call}
    (h : ∀ c ∈ calls, c.Prefixable) : ∀ it ∈ (e.build calls).new_files_, Decoder.Prefixable it := by
  suffices ∀ {e' : FullVersionEdit FileMetaData}, (∀ it ∈ e'.new_files_, Decoder.Prefixable it) →
      ∀ it ∈ (calls.foldl FullVersionEdit.call e').new_files_, Decoder.Prefixable it from
    this fun it hit => absurd hit List.not_mem_nil
  induction calls with
  | nil => exact id
  | cons c calls ih =>
    intro e' he
    refine ih (fun c' h' => h c' (List.mem_cons_of_mem _ h')) ?_
    have hc := h c List.mem_cons_self
    cases c with
    | addFile level file file_size smallest largest =>
      intro it hit
      obtain hit | hit := List.mem_append.1 hit
      · exact he it hit
      · obtain rfl := List.mem_singleton.1 hit
        exact hc
    | _ => exact he

/-- What a file shows: its numbers, and its bounds without the bytes behind them. -/
def shown (f : FileMetaData) : ℕ × ℕ × MemEntry Bytes × MemEntry Bytes :=
  (f.number, f.file_size, f.smallest.map Slice.bytes, f.largest.map Slice.bytes)

/-- The edit `e'` has the flags, the numbers that count, the deleted files and the new files of
`e`. -/
structure Same (e e' : FullVersionEdit FileMetaData) : Prop where
  log_number_ : e'.log_number_ = e.log_number_
  comparator : e'.has_comparator_ = e.has_comparator_
  log : e'.has_log_number_ = e.has_log_number_
  has_prev : e'.has_prev_log_number_ = e.has_prev_log_number_
  has_next : e'.has_next_file_number_ = e.has_next_file_number_
  has_last : e'.has_last_sequence_ = e.has_last_sequence_
  prev : e.has_prev_log_number_ = true → e'.prev_log_number_ = e.prev_log_number_
  next : e'.next_file_number_ = e.next_file_number_
  last : e'.last_sequence_ = e.last_sequence_
  deleted : e'.deleted_files_ = e.deleted_files_
  files : e'.new_files_.map (Prod.map id shown) = e.new_files_.map (Prod.map id shown)

/-- The encoding of the edit decodes, in any object, and to the same edit. -/
def RoundTrips (e : FullVersionEdit FileMetaData) : Prop :=
  ∃ bs, e.encodeTo [] = some bs ∧ ∀ (dst : FullVersionEdit FileMetaData) (fresh : FileMetaData),
    ∃ e', dst.decodeFrom fresh bs = some (.ok, e') ∧ Same e e'

/-- All new files show the same. -/
def OneFile (e : FullVersionEdit FileMetaData) : Prop :=
  ∀ it ∈ e.new_files_, ∀ it' ∈ e.new_files_, shown it.2 = shown it'.2

theorem exists_lastFile {its : List (ℕ × FileMetaData)} (h : its ≠ []) (f : FileMetaData) :
    ∃ it ∈ its, its.foldl (fun _ it => it.2) f = it.2 := by
  induction its using List.reverseRecOn with
  | nil => exact absurd rfl h
  | append_singleton its it _ =>
    exact ⟨it, List.mem_append_right _ List.mem_cons_self, by rw [List.foldl_concat]⟩

theorem files_readBack_iff (e : FullVersionEdit FileMetaData) (prev : ℕ) (fresh : FileMetaData) :
    (e.readBack prev fresh).new_files_.map (Prod.map id shown) =
        e.new_files_.map (Prod.map id shown) ↔
      ∀ it ∈ e.new_files_, shown (e.lastFile fresh) = shown it.2 := by
  rw [readBack, List.map_map, List.map_inj_left]
  simp only [Function.comp, Prod.map, id, Prod.mk.injEq, true_and]

/-- The other fields always come back. -/
theorem same_readBack_iff (e : FullVersionEdit FileMetaData) (prev : ℕ) (fresh : FileMetaData) :
    Same e (e.readBack prev fresh) ↔ ∀ it ∈ e.new_files_, shown (e.lastFile fresh) = shown it.2 := by
  rw [← files_readBack_iff e prev]
  refine ⟨Same.files, fun h => ⟨rfl, rfl, rfl, rfl, rfl, rfl, fun hp => if_pos hp, rfl, rfl, rfl, h⟩⟩

theorem Built.roundTrips_iff (h : Built e) (hp : ∀ it ∈ e.new_files_, Decoder.Prefixable it) :
    RoundTrips e ↔ OneFile e := by
  constructor
  · rintro ⟨bs, henc, hdec⟩
    obtain rfl : e.bytes = bs := Option.some.inj ((h.encodeTo hp).symm.trans henc)
    intro it hit it' hit'
    obtain ⟨e', he', hsame⟩ := hdec e it.2
    rw [h.decodeFrom hp] at he'
    cases he'
    -- every file comes back as the last one
    have hlast := (same_readBack_iff e _ _).1 hsame
    exact (hlast it hit).symm.trans (hlast it' hit')
  · intro hone
    refine ⟨e.bytes, h.encodeTo hp, fun dst fresh => ⟨_, h.decodeFrom hp dst fresh, ?_⟩⟩
    refine (same_readBack_iff e _ _).2 fun it hit => ?_
    obtain ⟨it', hit', hlast⟩ := exists_lastFile (List.ne_nil_of_mem hit) fresh
    rw [lastFile, hlast]
    exact hone it' hit' it hit

/-- **An edit comes back unchanged exactly if all files it adds show the same.** -/
theorem edit_round_trip_iff (e : FullVersionEdit FileMetaData) (calls : List Call)
    (hok : ∀ c ∈ calls, c.Ok) (hp : ∀ c ∈ calls, c.Prefixable) :
    RoundTrips (e.build calls) ↔ OneFile (e.build calls) :=
  (Built.build e hok).roundTrips_iff (prefixable_build e hp)

section Runs

private def bound (byte : UInt8) : Entry := ⟨.ofString [byte], .ofString [], 1, false⟩

private def blank : FileMetaData := ⟨⟨.ofString [], .ofString [], 0, false⟩,
  ⟨.ofString [], .ofString [], 0, false⟩, 0, 0⟩

private def noEdit : FullVersionEdit FileMetaData :=
  ⟨fun _ => 0, 0, 0, 0, false, false, false, false, false, ∅, []⟩

private def oneFile : List Call :=
  [.setLastSequence 300, .deleteFile 0 4, .addFile 2 5 1000 (bound 97) (bound 98)]

private def twoFiles : List Call :=
  [.addFile 0 1 1000 (bound 97) (bound 98), .addFile 0 2 1000 (bound 99) (bound 100)]

theorem edit_round_trip_iff_oneFile :
    RoundTrips (noEdit.build oneFile) ↔ OneFile (noEdit.build oneFile) :=
  edit_round_trip_iff noEdit oneFile (by decide) (by decide +kernel)

/-- Of two files, the second one is read back twice. -/
theorem second_file_twice :
    (∀ c ∈ twoFiles, c.Ok ∧ c.Prefixable) ∧ ¬ RoundTrips (noEdit.build twoFiles) ∧
      ((noEdit.build twoFiles).encodeTo [] >>= noEdit.decodeFrom blank).map
        (fun r => (r.1, r.2.new_files_.map fun it => it.2.number)) = some (.ok, [2, 2]) := by
  have hok : ∀ c ∈ twoFiles, c.Ok ∧ c.Prefixable := by decide +kernel
  refine ⟨hok, fun h => ?_, by decide +kernel⟩
  have hone := ((Built.build noEdit fun c hc => (hok c hc).1).roundTrips_iff
    (prefixable_build noEdit fun c hc => (hok c hc).2)).1 h
  have := hone _ List.mem_cons_self _ (List.mem_cons_of_mem _ List.mem_cons_self)
  revert this
  decide

end Runs

end FullVersionEdit

end Yangkv
