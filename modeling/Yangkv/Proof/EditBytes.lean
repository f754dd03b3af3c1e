import Yangkv.Lib.PrefixCode
import Yangkv.Proof.VersionEdit

/-!
# What the bytes of a version edit tell

`EncodeTo` writes the three numbers, the deleted files and the new files, each behind
its tag; it does not write the log numbers, and of a sequence number there are 56 bits.

* `Record.bytes_delimited`: each record is read off whatever is behind it.
* `bytes_eq_iff`: two edits have the same bytes exactly if the same is written of them.
* `loses_nothing_iff`: when the bytes of two edits tell them apart.
-/

namespace Yangkv

open Lib

/-! ## Entries -/

/-- A number of 64 bits. -/
theorem varint_delimited : SelfDelimiting (fun n => n < 2 ^ 64) Varint.encode := by
  have hread : ∀ n < 2 ^ 64, ∀ s, Varint.decode 10 (Varint.encode n ++ s) = some (n, s) :=
    fun n hn s => Varint.decode_encode (by decide) (by omega) s
  exact .of_read hread

theorem leBytes_mod (k n : ℕ) : leBytes k (n % 256 ^ k) = leBytes k n := by
  have h := leBytes_leNat (leBytes k n)
  rw [length_leBytes, leNat_leBytes] at h
  exact h

namespace MemEntry

/-- The entry with the 56 bits of its sequence number that are written. -/
def clip (e : Entry) : Entry := { e with seq_num := e.seq_num % 2 ^ 56 }

theorem record_clip (e : Entry) : e.clip.record = e.record := by
  have hinfo : e.clip.info % 256 ^ 8 = e.info % 256 ^ 8 := by
    rw [info_eq, info_eq]
    show (e.seq_num % 2 ^ 56 * 256 + e.value_type.toNat) % 256 ^ 8 = _
    have hb : e.value_type.toNat < 2 := Bool.toNat_lt _
    omega
  have hbytes : encodeFixed64 e.clip.info = encodeFixed64 e.info := by
    unfold encodeFixed64
    rw [← leBytes_mod, hinfo, leBytes_mod]
  unfold record
  rw [hbytes]
  rfl

/-- **A record tells its entry**, but for the first bits of the sequence number. -/
theorem clip_of_record {e e' : Entry} (h : e.Fits) (h' : e'.Fits) (heq : e.record = e'.record) :
    e.clip = e'.clip := by
  have hd := decodeMemEntry_record h []
  rw [heq, decodeMemEntry_record h' [], Option.some.injEq] at hd
  have hr := read_views e []
  rw [heq, ← hd, read_views e' []] at hr
  exact hr.symm

end MemEntry

theorem prefixed_delimited {e e' : Entry} (h : e.Prefixable) (h' : e'.Prefixable) {s t : Bytes}
    (heq : prefixed e ++ s = prefixed e' ++ t) : e.clip = e'.clip ∧ s = t := by
  have hread := getLengthPrefixedSlice_encode h s
  rw [show Varint.encode e.record.length ++ e.record ++ s = prefixed e ++ s from rfl, heq,
    prefixed, getLengthPrefixedSlice_encode h' t, Option.some.injEq, Prod.mk.injEq] at hread
  exact ⟨MemEntry.clip_of_record h.fits h'.fits hread.1.symm, hread.2.symm⟩

/-- The file with the bounds that are written. -/
def FileMetaData.clip (f : FileMetaData) : FileMetaData :=
  { f with
    smallest := f.smallest.clip
    largest := f.largest.clip }

namespace FullVersionEdit

open Decoder

/-! ## Records -/

/-- A record of an edit. -/
inductive Record
  | number (tag : Tag) (num : ℕ)
  | deleted (it : ℕ ×ₗ ℕ)
  | file (it : ℕ × FileMetaData)

namespace Record

def tag : Record → Tag
  | number tag _ => tag
  | deleted _ => .kDeletedFile
  | file _ => .kNewFile

/-- The bytes behind the tag. -/
def body : Record → Bytes
  | number _ num => Varint.encode num
  | deleted it => Varint.encode (ofLex it).1 ++ Varint.encode (ofLex it).2
  | file it => Varint.encode it.1 ++ (Varint.encode it.2.number ++
      (Varint.encode it.2.file_size ++ (prefixed it.2.smallest ++ prefixed it.2.largest)))

def bytes (r : Record) : Bytes := Varint.encode r.tag.code ++ r.body

/-- A record as `EncodeTo` writes it: the numbers are in the range of their types, and the entries
have encodings with a 32-bit length. -/
def Ok : Record → Prop
  | number tag num => (tag ≠ .kDeletedFile ∧ tag ≠ .kNewFile) ∧ num < 2 ^ 64
  | deleted it => (ofLex it).1 < 2 ^ 32 ∧ (ofLex it).2 < 2 ^ 64
  | file it => FileFits it ∧ Prefixable it ∧ it.2.clip = it.2

theorem tag_inj {t t' : Tag} (h : t.code = t'.code) : t = t' := by
  cases t <;> cases t' <;> first | rfl | cases h

theorem lt64 {n : ℕ} (h : n < 2 ^ 32) : n < 2 ^ 64 := by omega

theorem body_delimited {r r' : Record} (h : r.Ok) (h' : r'.Ok) (htag : r.tag = r'.tag) {s t : Bytes}
    (heq : r.body ++ s = r'.body ++ t) : r = r' ∧ s = t := by
  cases r with
  | number tag num =>
    cases r' with
    | number tag' num' =>
      obtain ⟨rfl, hs⟩ := varint_delimited h.2 h'.2 heq
      exact ⟨by rw [show tag = tag' from htag], hs⟩
    | deleted it => exact absurd htag h.1.1
    | file it => exact absurd htag h.1.2
  | deleted it =>
    cases r' with
    | number tag num => exact absurd htag.symm h'.1.1
    | deleted it' =>
      simp only [body, List.append_assoc] at heq
      obtain ⟨hl, heq⟩ := varint_delimited (lt64 h.1) (lt64 h'.1) heq
      obtain ⟨hn, hs⟩ := varint_delimited h.2 h'.2 heq
      exact ⟨congrArg deleted (ofLex.injective (Prod.ext hl hn)), hs⟩
    | file it' => cases htag
  | file it =>
    cases r' with
    | number tag num => exact absurd htag.symm h'.1.2
    | deleted it' => cases htag
    | file it' =>
      obtain ⟨hf, hp, hc⟩ := h
      obtain ⟨hf', hp', hc'⟩ := h'
      simp only [body, List.append_assoc] at heq
      obtain ⟨h1, heq⟩ := varint_delimited (lt64 hf.level) (lt64 hf'.level) heq
      obtain ⟨h2, heq⟩ := varint_delimited hf.number hf'.number heq
      obtain ⟨h3, heq⟩ := varint_delimited hf.file_size hf'.file_size heq
      obtain ⟨h4, heq⟩ := prefixed_delimited hp.1 hp'.1 heq
      obtain ⟨h5, hs⟩ := prefixed_delimited hp.2 hp'.2 heq
      have hclip : it.2.clip = it'.2.clip := by
        unfold FileMetaData.clip
        rw [h2, h3, h4, h5]
      rw [hc, hc'] at hclip
      exact ⟨congrArg file (Prod.ext h1 hclip), hs⟩

/-- **A record is read off whatever is behind it.** -/
theorem bytes_delimited : SelfDelimiting Ok bytes := by
  intro r r' h h' s t heq
  unfold bytes at heq
  rw [List.append_assoc, List.append_assoc] at heq
  have hcode : ∀ t : Tag, t.code < 2 ^ 64 := by
    intro t
    cases t <;> decide
  obtain ⟨htag, hbody⟩ := varint_delimited (hcode r.tag) (hcode r'.tag) heq
  exact body_delimited h h' (tag_inj htag) hbody

theorem bytes_ne (r : Record) : r.bytes ≠ [] := by
  have hpos := Varint.encode_length_pos r.tag.code
  rw [← List.length_pos_iff]
  unfold bytes
  rw [List.length_append]
  omega

end Record

/-- What `EncodeTo` writes of an edit. -/
@[ext]
structure Written where
  prev_log_number_ : Option ℕ
  next_file_number_ : Option ℕ
  last_sequence_ : Option ℕ
  deleted_files_ : Finset (ℕ ×ₗ ℕ)
  new_files_ : List (ℕ × FileMetaData)

/-- The numbers that are set, the deleted files, and the new files with the 56 bits of the sequence
numbers in their bounds. -/
def written (e : FullVersionEdit FileMetaData) : Written where
  prev_log_number_ := if e.has_prev_log_number_ then some e.prev_log_number_ else none
  next_file_number_ := if e.has_next_file_number_ then some e.next_file_number_ else none
  last_sequence_ := if e.has_last_sequence_ then some e.last_sequence_ else none
  deleted_files_ := e.deleted_files_
  new_files_ := e.new_files_.map fun it => (it.1, it.2.clip)

namespace Written

/-- In the order of a `std::set`. -/
def ascending {α : Type} [LinearOrder α] (s : Finset α) : List α := s.sort (· ≤ ·)

/-- The records, in the order of `EncodeTo`. -/
def records (w : Written) : List Record :=
  w.prev_log_number_.toList.map (.number .kPrevLogNumber) ++
    (w.next_file_number_.toList.map (.number .kNextFileNumber) ++
      (w.last_sequence_.toList.map (.number .kLastSequence) ++
        ((ascending w.deleted_files_).map .deleted ++ w.new_files_.map .file)))

/-- The number of a record with this tag. -/
def numberOf (tag : Tag) : Record → Option ℕ
  | .number tag' num => if tag' = tag then some num else none
  | _ => none

def deletedOf : Record → Option (ℕ ×ₗ ℕ)
  | .deleted it => some it
  | _ => none

def fileOf : Record → Option (ℕ × FileMetaData)
  | .file it => some it
  | _ => none

theorem toList_inj {α : Type} {o o' : Option α} (h : o.toList = o'.toList) : o = o' := by
  simpa using congrArg List.head? h

/-- **The records tell what is written.** -/
theorem records_inj {w w' : Written} (h : w.records = w'.records) : w = w' := by
  have hnum : ∀ tag, w.records.filterMap (numberOf tag) = w'.records.filterMap (numberOf tag) :=
    fun tag => by rw [h]
  have hdel : w.records.filterMap deletedOf = w'.records.filterMap deletedOf := by rw [h]
  have hfile : w.records.filterMap fileOf = w'.records.filterMap fileOf := by rw [h]
  have hprev := hnum .kPrevLogNumber
  have hnext := hnum .kNextFileNumber
  have hlast := hnum .kLastSequence
  simp only [records, List.filterMap_append, List.filterMap_map, Function.comp_def, numberOf,
    deletedOf, fileOf, reduceCtorEq, if_false, if_true, List.filterMap_some, List.filterMap_none,
    List.append_nil, List.nil_append] at hprev hnext hlast hdel hfile
  refine Written.ext (toList_inj hprev) (toList_inj hnext) (toList_inj hlast) ?_ hfile
  have hset := congrArg List.toFinset hdel
  unfold ascending at hset
  rw [Finset.sort_toFinset, Finset.sort_toFinset] at hset
  exact hset

end Written

/-! ## Edits -/

variable {F F' : Type} {e e' : FullVersionEdit FileMetaData}

theorem fileBytes_clip (it : ℕ × FileMetaData) : (Record.file (it.1, it.2.clip)).bytes = fileBytes it := by
  simp only [Record.bytes, Record.body, Record.tag, fileBytes, FileMetaData.clip, prefixed,
    MemEntry.record_clip]

theorem numberBytes_eq (tag : Tag) (has : Bool) (num : ℕ) : numberBytes tag has num =
    ((if has then some num else none).toList.map (Record.number tag)).flatMap Record.bytes := by
  cases has with
  | false => rfl
  | true => exact (List.append_nil _).symm

/-- The bytes of an edit are those of its records. -/
theorem bytes_eq (e : FullVersionEdit FileMetaData) : e.bytes = e.written.records.flatMap Record.bytes := by
  have hdeleted : e.deletedFiles.flatMap deletedBytes =
      (e.deletedFiles.map Record.deleted).flatMap Record.bytes := by
    rw [List.flatMap_map]
    rfl
  have hfiles : e.new_files_.flatMap fileBytes =
      (e.written.new_files_.map Record.file).flatMap Record.bytes := by
    simp only [written, List.flatMap_map, fileBytes_clip]
  unfold bytes Written.records
  simp only [List.flatMap_append, numberBytes_eq, hdeleted, hfiles]
  rfl

/-- What the setters leave in an edit, with their arguments in the range of their types. -/
structure InRange (e : FullVersionEdit FileMetaData) : Prop where
  comparator : e.has_comparator_ = false
  prev : e.has_prev_log_number_ = true → e.prev_log_number_ < 2 ^ 64
  next : e.has_next_file_number_ = true → e.next_file_number_ < 2 ^ 64
  last : e.has_last_sequence_ = true → e.last_sequence_ < 2 ^ 64
  noNext : e.has_next_file_number_ = false → e.next_file_number_ = 0
  noLast : e.has_last_sequence_ = false → e.last_sequence_ = 0
  deleted : ∀ it ∈ e.deleted_files_, (ofLex it).1 < 2 ^ 32 ∧ (ofLex it).2 < 2 ^ 64
  files : ∀ it ∈ e.new_files_, FileFits it ∧ Prefixable it

theorem InRange.encodeTo (h : InRange e) (dst : Bytes) : e.encodeTo dst = some (dst ++ e.bytes) :=
  encodeTo_append h.prev h.next h.last
    (fun it hit => h.deleted it ((Finset.mem_sort (· ≤ ·)).1 hit)) h.files dst

theorem clip_clip (f : FileMetaData) : f.clip.clip = f.clip := by
  simp only [FileMetaData.clip, MemEntry.clip, Nat.mod_mod]

theorem InRange.records_ok (h : InRange e) : ∀ r ∈ e.written.records, r.Ok := by
  intro r hr
  unfold Written.records Written.ascending written at hr
  simp only [List.mem_append, List.mem_map, Option.mem_toList, Option.ite_none_right_eq_some,
    Option.some.injEq, Finset.mem_sort] at hr
  rcases hr with ⟨_, ⟨hs, rfl⟩, rfl⟩ | ⟨_, ⟨hs, rfl⟩, rfl⟩ | ⟨_, ⟨hs, rfl⟩, rfl⟩ | ⟨it, hit, rfl⟩ |
    ⟨_, ⟨it, hit, rfl⟩, rfl⟩
  · exact ⟨⟨by decide, by decide⟩, h.prev hs⟩
  · exact ⟨⟨by decide, by decide⟩, h.next hs⟩
  · exact ⟨⟨by decide, by decide⟩, h.last hs⟩
  · exact h.deleted it hit
  · obtain ⟨hf, hp⟩ := h.files it hit
    refine ⟨⟨hf.level, hf.number, hf.file_size⟩, ?_, clip_clip _⟩
    unfold Decoder.Prefixable MemEntry.Prefixable at hp ⊢
    simp only [FileMetaData.clip, MemEntry.record_clip]
    exact hp

/-- **The same bytes are appended exactly if the same is written.** -/
theorem bytes_eq_iff (h : InRange e) (h' : InRange e') : e.bytes = e'.bytes ↔ e.written = e'.written := by
  rw [bytes_eq, bytes_eq]
  constructor
  · intro heq
    exact Written.records_inj (Record.bytes_delimited.flatMap_inj (fun r _ => r.bytes_ne) h.records_ok
      h'.records_ok heq)
  · intro heq
    rw [heq]

/-! ## Setters -/

/-- The arguments are in the range of their types; a level is not negative. -/
def Setter.InRange : Setter → Prop
  | .setLogNumber num _ => num < 2 ^ 64
  | .call (.setPrevLogNumber num) | .call (.setNextFile num) | .call (.setLastSequence num) =>
    num < 2 ^ 64
  | .call (.deleteFile level file) => level < 2 ^ 31 ∧ file < 2 ^ 64
  | .call (.addFile level file file_size smallest largest) =>
    level < 2 ^ 31 ∧ file < 2 ^ 64 ∧ file_size < 2 ^ 64 ∧ smallest.seq_num < 2 ^ 64 ∧
      largest.seq_num < 2 ^ 64

/-- The bounds of an added file have encodings with a 32-bit length. -/
def Setter.Prefixable : Setter → Prop
  | .setLogNumber _ _ => True
  | .call c => c.Prefixable

theorem InRange.clear (e : FullVersionEdit F) : InRange (e.clear : FullVersionEdit FileMetaData) where
  comparator := rfl
  prev := by rintro ⟨⟩
  next := by rintro ⟨⟩
  last := by rintro ⟨⟩
  noNext := fun _ => rfl
  noLast := fun _ => rfl
  deleted := fun it hit => absurd hit (Finset.notMem_empty it)
  files := fun it hit => absurd hit List.not_mem_nil

/-- **A setter keeps an edit in range.** -/
theorem InRange.set (h : InRange e) {s : Setter} (hs : s.InRange) (hp : s.Prefixable) :
    InRange (e.set s) := by
  have hlevel : ∀ {level : ℕ}, level < 2 ^ 31 → level < 2 ^ 32 := fun hl => by omega
  cases s with
  | setLogNumber num writerid => exact { h with }
  | call c =>
    cases c with
    | setPrevLogNumber num => exact { h with prev := fun _ => hs }
    | setNextFile num => exact { h with next := fun _ => hs, noNext := by rintro ⟨⟩ }
    | setLastSequence seq => exact { h with last := fun _ => hs, noLast := by rintro ⟨⟩ }
    | deleteFile level file =>
      refine { h with deleted := fun it hit => ?_ }
      rcases Finset.mem_insert.1 hit with rfl | hit
      · exact ⟨hlevel hs.1, hs.2⟩
      · exact h.deleted it hit
    | addFile level file file_size smallest largest =>
      refine { h with files := fun it hit => ?_ }
      rcases List.mem_append.1 hit with hit | hit
      · exact h.files it hit
      · rw [List.mem_singleton.1 hit]
        exact ⟨⟨hlevel hs.1, hs.2.1, hs.2.2.1⟩, hp⟩

theorem InRange.buildAll (e : FullVersionEdit F) {setters : List Setter}
    (h : ∀ s ∈ setters, s.InRange ∧ s.Prefixable) : InRange (e.buildAll setters) := by
  suffices hfold : ∀ {e' : FullVersionEdit FileMetaData}, InRange e' →
      InRange (setters.foldl FullVersionEdit.set e') from hfold (.clear e)
  induction setters with
  | nil => exact id
  | cons s setters ih =>
    intro e' he
    obtain ⟨hs, hp⟩ := h s List.mem_cons_self
    exact ih (fun s' h' => h s' (List.mem_cons_of_mem _ h')) (he.set hs hp)

/-- Where `EncodeTo` appends the same bytes for both, the edits have the same fields set to the same
values. -/
def LosesNothing (e e' : FullVersionEdit FileMetaData) : Prop :=
  ∀ dst dst' bs, e.encodeTo dst = some (dst ++ bs) → e'.encodeTo dst' = some (dst' ++ bs) → Same e e'

/-- The sequence numbers of the bounds of the new files. -/
def boundNumbers (e : FullVersionEdit FileMetaData) : List (ℕ × ℕ) :=
  e.new_files_.map fun it => (it.2.smallest.seq_num, it.2.largest.seq_num)

/-- The edits agree in what is not written: the log numbers, and all of the sequence numbers. -/
structure SameUnwritten (e e' : FullVersionEdit FileMetaData) : Prop where
  log : e'.has_log_number_ = e.has_log_number_
  log_number_ : e'.log_number_ = e.log_number_
  numbers : e'.boundNumbers = e.boundNumbers

/-- Two maps of a list, and what is made of both. -/
theorem map_both {α β γ δ : Type} {f : α → β} {g : α → γ} {k : α → δ} {xs ys : List α}
    (hk : ∀ x ∈ xs, ∀ y ∈ ys, f x = f y → g x = g y → k x = k y) (hf : xs.map f = ys.map f)
    (hg : xs.map g = ys.map g) : xs.map k = ys.map k := by
  induction xs generalizing ys with
  | nil =>
    obtain rfl := List.map_eq_nil_iff.1 hf.symm
    rfl
  | cons x xs ih =>
    cases ys with
    | nil => cases hf
    | cons y ys =>
      simp only [List.map_cons, List.cons.injEq] at hf hg ⊢
      refine ⟨hk x List.mem_cons_self y List.mem_cons_self hf.1 hg.1, ?_⟩
      exact ih (fun x' hx y' hy => hk x' (List.mem_cons_of_mem _ hx) y' (List.mem_cons_of_mem _ hy))
        hf.2 hg.2

theorem number_of_some {has has' : Bool} {num num' : ℕ}
    (h : (if has then some num else none) = if has' then some num' else none) :
    has' = has ∧ (has = true → num' = num) := by
  cases has <;> cases has' <;> simp_all

/-- A number that is 0 where it is not set. -/
theorem number_eq {has has' : Bool} {num num' : ℕ}
    (h : (if has then some num else none) = if has' then some num' else none)
    (h0 : has = false → num = 0) (h0' : has' = false → num' = 0) : num' = num := by
  obtain ⟨rfl, heq⟩ := number_of_some h
  cases has' with
  | false => rw [h0 rfl, h0' rfl]
  | true => exact heq rfl

/-- A file shows what is written of it and all of its sequence numbers. -/
theorem shown_of_clip {f f' : FileMetaData} (h : f.clip = f'.clip)
    (hs : f.smallest.seq_num = f'.smallest.seq_num) (hl : f.largest.seq_num = f'.largest.seq_num) :
    shown f = shown f' := by
  obtain ⟨⟨k₁, v₁, s₁, t₁⟩, ⟨k₂, v₂, s₂, t₂⟩, size, number⟩ := f
  obtain ⟨⟨k₁', v₁', s₁', t₁'⟩, ⟨k₂', v₂', s₂', t₂'⟩, size', number'⟩ := f'
  simp only [FileMetaData.clip, MemEntry.clip, FileMetaData.mk.injEq, MemEntry.mk.injEq] at h
  obtain ⟨⟨rfl, rfl, -, rfl⟩, ⟨rfl, rfl, -, rfl⟩, rfl, rfl⟩ := h
  dsimp only at hs hl
  rw [hs, hl]

/-- What is written and what is not are all that an edit has set. -/
theorem same_of_written (h : InRange e) (h' : InRange e') (hw : e.written = e'.written)
    (hu : SameUnwritten e e') : Same e e' := by
  have hprev := congrArg Written.prev_log_number_ hw
  have hnext := congrArg Written.next_file_number_ hw
  have hlast := congrArg Written.last_sequence_ hw
  have hfiles := congrArg Written.new_files_ hw
  exact
    { log_number_ := hu.log_number_
      comparator := h'.comparator.trans h.comparator.symm
      log := hu.log
      has_prev := (number_of_some hprev).1
      has_next := (number_of_some hnext).1
      has_last := (number_of_some hlast).1
      prev := (number_of_some hprev).2
      next := number_eq hnext h.noNext h'.noNext
      last := number_eq hlast h.noLast h'.noLast
      deleted := (congrArg Written.deleted_files_ hw).symm
      files := by
        refine (map_both ?_ hfiles hu.numbers.symm).symm
        intro it _ it' _ hclip hnum
        rw [Prod.mk.injEq] at hclip hnum
        exact Prod.ext hclip.1 (shown_of_clip hclip.2 hnum.1 hnum.2) }

theorem SameUnwritten.of_same (h : Same e e') : SameUnwritten e e' := by
  refine ⟨h.log, h.log_number_, ?_⟩
  have hnum := congrArg (List.map fun it : ℕ × (ℕ × ℕ × MemEntry Bytes × MemEntry Bytes) =>
    (it.2.2.2.1.seq_num, it.2.2.2.2.seq_num)) h.files
  rw [List.map_map, List.map_map] at hnum
  exact hnum

/-- **The bytes of two edits tell them apart** exactly if it is not only in their log numbers, or in the
first bits of the sequence numbers of their bounds, that they differ. -/
theorem loses_nothing_iff (e : FullVersionEdit F) (e' : FullVersionEdit F')
    (setters setters' : List Setter) (h : ∀ s ∈ setters, s.InRange ∧ s.Prefixable)
    (h' : ∀ s ∈ setters', s.InRange ∧ s.Prefixable) :
    LosesNothing (e.buildAll setters) (e'.buildAll setters') ↔
      ((e.buildAll setters).written = (e'.buildAll setters').written →
        SameUnwritten (e.buildAll setters) (e'.buildAll setters')) := by
  have hr := InRange.buildAll e h
  have hr' := InRange.buildAll e' h'
  constructor
  · intro hl hw
    have hbytes := (bytes_eq_iff hr hr').2 hw
    exact .of_same (hl [] [] _ (hr.encodeTo []) (hbytes ▸ hr'.encodeTo []))
  · intro hu dst dst' bs henc henc'
    rw [hr.encodeTo, Option.some.injEq, List.append_cancel_left_eq] at henc
    rw [hr'.encodeTo, Option.some.injEq, List.append_cancel_left_eq] at henc'
    have hw := (bytes_eq_iff hr hr').1 (henc.trans henc'.symm)
    exact same_of_written hr hr' hw (hu hw)

section Runs

private def fresh : FullVersionEdit FileMetaData :=
  ⟨fun _ => 0, 0, 0, 0, false, false, false, false, false, ∅, []⟩

theorem loses_nothing_iff_sequence :
    LosesNothing (fresh.buildAll [.call (.setLastSequence 1)]) (fresh.buildAll []) ↔
      ((fresh.buildAll [.call (.setLastSequence 1)]).written = (fresh.buildAll []).written →
        SameUnwritten (fresh.buildAll [.call (.setLastSequence 1)]) (fresh.buildAll [])) := by
  refine loses_nothing_iff fresh fresh _ [] ?_ ?_
  · intro s hs
    rw [List.mem_singleton.1 hs]
    exact ⟨show 1 < 2 ^ 64 by decide, trivial⟩
  · intro s hs
    cases hs

/-- **A log number leaves no byte.** The edit in which one is set and the edit in which nothing is have
the same encoding. -/
theorem log_number_lost :
    (fresh.buildAll [.setLogNumber 7 2]).encodeTo [] = some [] ∧
      (fresh.buildAll []).encodeTo [] = some [] ∧
      ¬ LosesNothing (fresh.buildAll [.setLogNumber 7 2]) (fresh.buildAll []) := by
  have h1 : (fresh.buildAll [.setLogNumber 7 2]).encodeTo [] = some [] := by decide +kernel
  have h2 : (fresh.buildAll []).encodeTo [] = some [] := by decide +kernel
  refine ⟨h1, h2, fun h => ?_⟩
  have hlog := (h [] [] [] h1 h2).log
  cases hlog

end Runs

end FullVersionEdit

end Yangkv
