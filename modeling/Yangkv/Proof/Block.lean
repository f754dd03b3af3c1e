import Yangkv.Lib.Lex
import Yangkv.Proof.Codec
import Yangkv.Spec.Block

/-!
# Blocks, built and read back

* `sliceCompare_eq`: the comparator orders keys as the maps of the lists do.
* `shortening_sound`: the shortened keys stay between the blocks they separate, and
  are not longer.
* `BlockOk.add`, `BlockOk.entries`: a builder accepts every larger key, and the block
  it finishes reads back as exactly what was added.
-/

namespace Yangkv

open Lib

/-! ## The comparator -/

/-- **`Compare` is the lexicographic order of the bytes.** -/
theorem sliceCompare_eq (a b : Bytes) : sliceCompare a b = compare a b := by
  induction a generalizing b with
  | nil => cases b <;> rfl
  | cons x a ih =>
    cases b with
    | nil => rfl
    | cons y b =>
      have hmin : (if (x :: a).length < (y :: b).length then (x :: a).length else (y :: b).length) =
          (if a.length < b.length then a.length else b.length) + 1 := by
        simp only [List.length_cons, Nat.add_lt_add_iff_right]
        split <;> rfl
      unfold sliceCompare
      simp only [hmin, List.take_succ_cons, memcmp]
      rw [List.compare_cons_cons]
      by_cases hlt : x < y
      · rw [if_pos hlt, Std.compare_eq_lt.2 hlt]; rfl
      rw [if_neg hlt]
      by_cases hgt : y < x
      · rw [if_pos hgt, Std.compare_eq_gt.2 hgt]; rfl
      rw [if_neg hgt]
      have hxy : compare x y = .eq := by
        cases hc : compare x y with
        | lt => exact absurd (Std.compare_eq_lt.1 hc) hlt
        | gt => exact absurd (Std.compare_eq_gt.1 hc) hgt
        | eq => rfl
      rw [hxy, Ordering.eq_then, ← ih]
      simp only [sliceCompare, List.length_cons, Nat.add_lt_add_iff_right]

/-- The common prefix of two strings, and what is behind it in each. -/
theorem sharedLength_spec (a b : Bytes) : ∃ p xs ys, a = p ++ xs ∧ b = p ++ ys ∧
    p.length = sharedLength a b ∧ ∀ x xs' y ys', xs = x :: xs' → ys = y :: ys' → x ≠ y := by
  induction a generalizing b with
  | nil => exact ⟨[], [], b, rfl, rfl, rfl, fun x xs' y ys' h => by cases h⟩
  | cons x a ih =>
    cases b with
    | nil => exact ⟨[], x :: a, [], rfl, rfl, rfl, fun x xs' y ys' _ h => by cases h⟩
    | cons y b =>
      unfold sharedLength
      by_cases hxy : x = y
      · subst hxy
        obtain ⟨p, xs, ys, rfl, rfl, hp, hne⟩ := ih b
        exact ⟨x :: p, xs, ys, rfl, rfl, by rw [if_pos rfl, ← hp]; rfl, hne⟩
      · refine ⟨[], x :: a, y :: b, rfl, rfl, (if_neg hxy).symm, ?_⟩
        rintro x' xs' y' ys' ⟨⟩ ⟨⟩
        exact hxy

theorem lt_succ_byte {b : UInt8} (h : b < 0xff) : b < b + 1 := by
  have hb : b.toNat < 255 := UInt8.lt_iff_toNat_lt.1 h
  rw [UInt8.lt_iff_toNat_lt, UInt8.toNat_add]
  show b.toNat < (b.toNat + 1) % 256
  omega

/-- **A separator is not below the first key and below the second.** -/
theorem findShortestSeparator_spec {start limit : Bytes} (h : compare start limit = .lt) :
    (compare start (findShortestSeparator start limit)).isLE ∧
      compare (findShortestSeparator start limit) limit = .lt := by
  obtain ⟨p, xs, ys, rfl, rfl, hp, hne⟩ := sharedLength_spec start limit
  have hself : (compare (p ++ xs) (p ++ xs)).isLE ∧ compare (p ++ xs) (p ++ ys) = .lt :=
    ⟨Std.ReflOrd.isLE_rfl, h⟩
  unfold findShortestSeparator
  rw [← hp]
  simp only [List.getElem?_append_right le_rfl, Nat.sub_self, List.take_left]
  cases xs with
  | nil => exact hself
  | cons x xs =>
    cases ys with
    | nil => exact hself
    | cons y ys =>
      simp only [List.getElem?_cons_zero]
      split
      · rename_i hc
        obtain ⟨hx, hlt⟩ := hc
        have hs := lt_succ_byte hx
        have hy : x + 1 < y := by
          have hb : x.toNat < 255 := UInt8.lt_iff_toNat_lt.1 hx
          rw [UInt8.lt_iff_toNat_lt, UInt8.toNat_add]
          show (x.toNat + 1) % 256 < y.toNat
          omega
        rw [compare_append_left, compare_append_left]
        constructor
        · rw [compare_lt_of_head (Std.compare_eq_lt.2 hs)]; rfl
        · exact compare_lt_of_head (Std.compare_eq_lt.2 hy) _ _
      · exact hself

theorem length_findShortestSeparator_le (start limit : Bytes) :
    (findShortestSeparator start limit).length ≤ start.length := by
  unfold findShortestSeparator
  simp only
  split
  · split
    · rename_i h _ _
      have := (List.getElem?_eq_some_iff.1 h).1
      simp only [List.length_append, List.length_take, List.length_singleton]
      omega
    · exact le_rfl
  · exact le_rfl

theorem length_findShortSuccessor_le (key : Bytes) :
    (findShortSuccessor key).length ≤ key.length := by
  induction key with
  | nil => exact le_rfl
  | cons b key ih =>
    unfold findShortSuccessor
    split
    · simp
    · simpa using ih

theorem findShortSuccessor_spec (key : Bytes) : (compare key (findShortSuccessor key)).isLE := by
  induction key with
  | nil => rfl
  | cons b key ih =>
    unfold findShortSuccessor
    split
    · rename_i hb
      have hlt : b < 0xff := by
        rw [UInt8.lt_iff_toNat_lt]
        have h1 : b.toNat ≠ 255 := fun h => hb (UInt8.toNat_inj.1 h)
        have h2 := b.toNat_lt
        show b.toNat < 255
        omega
      rw [compare_lt_of_head (Std.compare_eq_lt.2 (lt_succ_byte hlt))]; rfl
    · rw [List.compare_cons_cons, Std.ReflOrd.compare_self]; exact ih

/-- **Index keys are shortened safely.** The separator of two keys in the comparator's order is not
below the first and below the second, the successor of a key is not below it, and neither is longer
than the key it is made from. -/
theorem shortening_sound (start limit key : Bytes) :
    (sliceCompare start limit = .lt →
      sliceCompare start (findShortestSeparator start limit) ≠ .gt ∧
      sliceCompare (findShortestSeparator start limit) limit = .lt ∧
      (findShortestSeparator start limit).length ≤ start.length) ∧
    sliceCompare key (findShortSuccessor key) ≠ .gt ∧
    (findShortSuccessor key).length ≤ key.length := by
  simp only [sliceCompare_eq, ne_eq, Ordering.ne_gt_iff_isLE]
  refine ⟨?_, findShortSuccessor_spec key, length_findShortSuccessor_le key⟩
  intro hlt
  obtain ⟨hle, hbelow⟩ := findShortestSeparator_spec hlt
  exact ⟨hle, hbelow, length_findShortestSeparator_le start limit⟩

/-- Between `a\x7f\xff` and `a\x81` there is the shorter `a\x80`. -/
theorem shortening_sound_signed :
    findShortestSeparator [97, 0x7f, 0xff] [97, 0x81] = [97, 0x80] ∧
      sliceCompare [97, 0x80] [97, 0x81] = .lt := by
  have h := (shortening_sound [97, 0x7f, 0xff] [97, 0x81] []).1 (by decide)
  have heq : findShortestSeparator [97, 0x7f, 0xff] [97, 0x81] = [97, 0x80] := by decide
  rw [heq] at h
  exact ⟨heq, h.2.1⟩

/-! ## Entries -/

theorem encodeVarint32_ofNat {n : ℕ} (hn : n < 2 ^ 32) :
    encodeVarint32 (.ofNat n) = Varint.encode n := by
  rw [encodeVarint32_eq, UInt32.toNat_ofNat', Nat.mod_eq_of_lt hn]

/-- The bytes of an entry that shares `n` bytes with the key before it. -/
def entryBytes (n : ℕ) (key value : Bytes) : Bytes :=
  Varint.encode n ++ (Varint.encode (key.length - n) ++ (Varint.encode value.length ++
    (key.drop n ++ value)))

/-- `p` is the entries `es` one behind the other, the first one behind the key `last_key`. -/
inductive Packed : Bytes → List (Bytes × Bytes) → Bytes → Prop
  | nil {last_key} : Packed last_key [] []
  | cons {last_key n key value es p} : n ≤ last_key.length → n ≤ key.length →
      last_key.take n = key.take n → Packed key es p →
      Packed last_key ((key, value) :: es) (entryBytes n key value ++ p)

/-- The last key of `es`, `last_key` if there is none. -/
def lastKey (last_key : Bytes) (es : List (Bytes × Bytes)) : Bytes :=
  es.foldl (fun _ e => e.1) last_key

@[simp] theorem lastKey_snoc (last_key : Bytes) (es : List (Bytes × Bytes)) (e : Bytes × Bytes) :
    lastKey last_key (es ++ [e]) = e.1 := by
  simp [lastKey]

theorem lastKey_of_getLast? {last_key : Bytes} {es : List (Bytes × Bytes)} {e : Bytes × Bytes}
    (h : es.getLast? = some e) : lastKey last_key es = e.1 := by
  rcases List.eq_nil_or_concat es with rfl | ⟨es, z, rfl⟩
  · cases h
  · rw [List.concat_eq_append] at h ⊢
    rw [lastKey_snoc]
    simp only [List.getLast?_append, List.getLast?_singleton, Option.some_or, Option.some.injEq] at h
    rw [h]

theorem lastKey_lt {last_key key : Bytes} {es : List (Bytes × Bytes)} (hne : es ≠ [])
    (hlt : ∀ e, es.getLast? = some e → compare e.1 key = .lt) :
    compare (lastKey last_key es) key = .lt := by
  have hz := List.getLast?_eq_some_getLast hne
  rw [lastKey_of_getLast? hz]
  exact hlt _ hz

theorem Packed.snoc {last_key p : Bytes} {es : List (Bytes × Bytes)} (h : Packed last_key es p)
    {n : ℕ} {key value : Bytes} (h1 : n ≤ (lastKey last_key es).length) (h2 : n ≤ key.length)
    (h3 : (lastKey last_key es).take n = key.take n) :
    Packed last_key (es ++ [(key, value)]) (p ++ entryBytes n key value) := by
  induction h with
  | nil =>
    rw [List.nil_append, List.nil_append, ← List.append_nil (entryBytes n key value)]
    exact .cons h1 h2 h3 .nil
  | cons g1 g2 g3 _ ih =>
    rw [List.append_assoc]
    exact .cons g1 g2 g3 (ih h1 h3)

/-- Every entry takes three lengths at least. -/
theorem Packed.length_le {last_key p : Bytes} {es : List (Bytes × Bytes)} (h : Packed last_key es p) :
    3 * es.length ≤ p.length := by
  induction h with
  | nil => exact le_rfl
  | @cons last_key n key value es p _ _ _ _ ih =>
    have h1 := Varint.encode_length_pos n
    have h2 := Varint.encode_length_pos (key.length - n)
    have h3 := Varint.encode_length_pos value.length
    simp only [entryBytes, List.length_append, List.length_cons]
    omega

/-- The sizes of an entry fit its length fields. -/
def Short (e : Bytes × Bytes) : Prop := e.1.length < 2 ^ 32 ∧ e.2.length < 2 ^ 32

theorem decodeEntry_entryBytes {last_key key value : Bytes} {n : ℕ} (hs : Short (key, value))
    (h1 : n ≤ last_key.length) (h2 : n ≤ key.length) (h3 : last_key.take n = key.take n)
    (p : Bytes) :
    Block.decodeEntry last_key (entryBytes n key value ++ p) = some ((key, value), p) := by
  obtain ⟨hk, hv⟩ := hs
  have hnat : ∀ {m : ℕ}, m < 2 ^ 32 → (UInt32.ofNat m).toNat = m := fun hm => by
    rw [UInt32.toNat_ofNat', Nat.mod_eq_of_lt hm]
  have hk' : key.length < 2 ^ 32 := hk
  have hv' : value.length < 2 ^ 32 := hv
  unfold Block.decodeEntry entryBytes
  simp only [List.append_assoc, getVarint32Ptr_encode (show n < 2 ^ 32 by omega),
    getVarint32Ptr_encode (show key.length - n < 2 ^ 32 by omega), getVarint32Ptr_encode hv',
    Option.bind_eq_bind, Option.bind_some]
  rw [hnat (by omega), hnat (by omega), hnat hv']
  have hlen : ¬ (last_key.length < n ∨
      (key.drop n ++ (value ++ p)).length < key.length - n + value.length) := by
    simp only [List.length_append, List.length_drop]
    omega
  have htake : (key.drop n ++ (value ++ p)).take (key.length - n) = key.drop n :=
    List.take_left' (by simp)
  have hdrop : (key.drop n ++ (value ++ p)).drop (key.length - n) = value ++ p :=
    List.drop_left' (by simp)
  rw [if_neg hlen, htake, hdrop, List.take_left, List.drop_left, h3, List.take_append_drop]

/-- **Packed entries read back.** -/
theorem Packed.decode {last_key p : Bytes} {es : List (Bytes × Bytes)} (h : Packed last_key es p)
    (hs : ∀ e ∈ es, Short e) : ∀ {fuel : ℕ}, p.length ≤ fuel →
    Block.decodeEntries last_key p fuel = some es := by
  induction h with
  | nil => intro fuel _; cases fuel <;> rfl
  | @cons last_key n key value es p h1 h2 h3 _ ih =>
    intro fuel hf
    have hpos : 0 < (Varint.encode n).length := Varint.encode_length_pos n
    have hlen : (entryBytes n key value).length ≥ 1 := by
      unfold entryBytes
      rw [List.length_append]
      omega
    rw [List.length_append] at hf
    obtain ⟨fuel, rfl⟩ : ∃ m, fuel = m + 1 := ⟨fuel - 1, by omega⟩
    have hne : (entryBytes n key value ++ p).isEmpty = false := by
      rw [List.isEmpty_eq_false_iff, ← List.length_pos_iff, List.length_append]
      omega
    rw [Block.decodeEntries, hne]
    simp only [Bool.false_eq_true, if_false,
      decodeEntry_entryBytes (hs _ List.mem_cons_self) h1 h2 h3, Option.bind_eq_bind,
      Option.bind_some]
    rw [ih (fun e he => hs e (List.mem_cons_of_mem _ he)) (by omega)]
    rfl

theorem BlockBuilder.length_finish (b : BlockBuilder) :
    b.finish.buffer_.length = b.currentSizeEstimate := by
  have hfixed : (encodeFixed32 b.restarts_.length).length = 4 := length_leBytes 4 _
  unfold BlockBuilder.finish BlockBuilder.currentSizeEstimate
  simp only [List.length_append, length_flatMap_fixed32, hfixed]
  omega

/-- The last word of a finished block is the number of its restarts. -/
theorem BlockBuilder.finish_count (b : BlockBuilder) (hr : b.restarts_.length < 2 ^ 32) :
    decodeFixed32 (b.finish.buffer_.drop (b.finish.buffer_.length - 4)) =
      some b.restarts_.length := by
  have hlen : _ = b.buffer_.length + b.restarts_.length * 4 + 4 := b.length_finish
  have hdrop : b.finish.buffer_.drop (b.finish.buffer_.length - 4) =
      encodeFixed32 b.restarts_.length :=
    List.drop_left' (by rw [List.length_append, length_flatMap_fixed32, hlen]; omega)
  rw [hdrop, ← List.append_nil (encodeFixed32 _), decodeFixed32_append hr]

/-- **`Block` accepts what `Finish` leaves**: the restarts begin where the entries end. -/
theorem BlockBuilder.new_finish (b : BlockBuilder) (hr : b.restarts_.length < 2 ^ 32) :
    Block.new b.finish.buffer_ =
        ⟨b.finish.buffer_, b.finish.buffer_.length, b.buffer_.length⟩ ∧
      b.finish.buffer_.take b.buffer_.length = b.buffer_ := by
  have hlen : _ = b.buffer_.length + b.restarts_.length * 4 + 4 := b.length_finish
  have hoff : b.finish.buffer_.length - (1 + b.restarts_.length) * 4 = b.buffer_.length := by omega
  constructor
  · unfold Block.new
    simp only [b.finish_count hr]
    rw [if_neg (by omega), hoff]
  · unfold BlockBuilder.finish
    rw [List.append_assoc, List.take_left]

/-! ## The builder -/

namespace BlockBuilder

/-- How many bytes of the last key are left out of an entry. -/
def shared (b : BlockBuilder) (key : Bytes) : ℕ :=
  if ¬ b.counter_ < b.block_restart_interval then 0 else sharedLength b.last_key_ key

/-- With or without compression, these are bytes of the last key. -/
theorem shared_spec (b : BlockBuilder) (key : Bytes) : b.shared key ≤ b.last_key_.length ∧
    b.shared key ≤ key.length ∧ b.last_key_.take (b.shared key) = key.take (b.shared key) := by
  unfold shared
  split
  · exact ⟨Nat.zero_le _, Nat.zero_le _, rfl⟩
  · obtain ⟨p, xs, ys, hl, hr, hp, -⟩ := sharedLength_spec b.last_key_ key
    rw [← hp, hl, hr]
    simp

/-- The builder after `Add`. -/
def withEntry (b : BlockBuilder) (key value : Bytes) : BlockBuilder :=
  { b with
    buffer_ := b.buffer_ ++ (encodeVarint32 (.ofNat (b.shared key)) ++
      (encodeVarint32 (.ofNat (key.length - b.shared key)) ++ (encodeVarint32 (.ofNat value.length) ++
        (key.drop (b.shared key) ++ value))))
    restarts_ := if ¬ b.counter_ < b.block_restart_interval then
      b.restarts_ ++ [b.buffer_.length % 2 ^ 32] else b.restarts_
    counter_ := (if ¬ b.counter_ < b.block_restart_interval then 0 else b.counter_) + 1
    last_key_ := key }

/-- **`Add` takes a larger key**, and no assertion fires. -/
theorem add_eq {b : BlockBuilder} (hf : b.finished_ = false) (hc : b.counter_ ≤ b.block_restart_interval)
    {key : Bytes} (hkey : b.buffer_.isEmpty = true ∨ sliceCompare key b.last_key_ = .gt)
    (value : Bytes) : b.add key value = some (b.withEntry key value) := by
  obtain ⟨-, -, htake⟩ := b.shared_spec key
  have hall : (key.drop (b.shared key)).take (key.length - b.shared key) = key.drop (b.shared key) :=
    List.take_of_length_le (by simp)
  have hlast : b.last_key_.take (b.shared key) ++ key.drop (b.shared key) = key := by
    rw [htake, List.take_append_drop]
  unfold add
  rw [hf, if_neg Bool.false_ne_true, if_neg (Nat.not_lt.2 hc), if_neg (not_not.2 hkey)]
  unfold shared at hall hlast
  simp only [hall, hlast, hf, ne_eq, not_true_eq_false, if_false, withEntry, shared,
    List.append_assoc]

theorem length_restarts_withEntry (b : BlockBuilder) (key value : Bytes) :
    (b.withEntry key value).restarts_.length ≤ b.restarts_.length + 1 := by
  show (if ¬ b.counter_ < b.block_restart_interval then
    b.restarts_ ++ [b.buffer_.length % 2 ^ 32] else b.restarts_).length ≤ b.restarts_.length + 1
  split
  · rw [List.length_append]
    exact le_rfl
  · exact Nat.le_succ _

theorem counter_withEntry {b : BlockBuilder} (hk : 1 ≤ b.block_restart_interval) (key value : Bytes) :
    (b.withEntry key value).counter_ ≤ b.block_restart_interval := by
  show (if ¬ b.counter_ < b.block_restart_interval then 0 else b.counter_) + 1 ≤
    b.block_restart_interval
  split <;> omega

/-- A number of 32 bits takes five bytes at most. -/
theorem length_encodeVarint32_le (v : UInt32) : (encodeVarint32 v).length ≤ 5 := by
  have hlt := v.toNat_lt
  rw [encodeVarint32_eq]
  exact Varint.length_encode_le (by omega) (by omega)

theorem size_withEntry (b : BlockBuilder) (key value : Bytes) :
    (b.withEntry key value).currentSizeEstimate ≤
      b.currentSizeEstimate + key.length + value.length + 19 := by
  have h1 := length_encodeVarint32_le (.ofNat (b.shared key))
  have h2 := length_encodeVarint32_le (.ofNat (key.length - b.shared key))
  have h3 := length_encodeVarint32_le (.ofNat value.length)
  have h4 := b.length_restarts_withEntry key value
  unfold currentSizeEstimate
  simp only [withEntry, List.length_append, List.length_drop] at h4 ⊢
  omega

end BlockBuilder

/-- A builder to which the entries `es` were added since its last `Reset`. -/
structure BlockOk (k : ℕ) (es : List (Bytes × Bytes)) (b : BlockBuilder) : Prop where
  pos : 1 ≤ k
  interval : b.block_restart_interval = k
  packed : Packed [] es b.buffer_
  last : b.last_key_ = lastKey [] es
  counter : b.counter_ ≤ k
  restarts : b.restarts_.length ≤ es.length + 1
  building : b.finished_ = false

namespace BlockOk

variable {k : ℕ} {es : List (Bytes × Bytes)} {b : BlockBuilder}

theorem new (hk : 1 ≤ k) : ∃ b, BlockBuilder.new k = some b ∧ BlockOk k [] b :=
  ⟨_, if_pos hk, hk, rfl, .nil, rfl, Nat.zero_le _, le_rfl, rfl⟩

theorem empty_iff (h : BlockOk k es b) : b.empty = true ↔ es = [] := by
  unfold BlockBuilder.empty
  rw [List.isEmpty_iff]
  have hp := h.packed
  constructor
  · intro hb
    have hlen := hp.length_le
    rw [hb, List.length_nil] at hlen
    exact List.length_eq_zero_iff.1 (by omega)
  · rintro rfl
    generalize b.buffer_ = p at hp
    cases hp
    rfl

/-- **A larger key is added, and no assertion fires.** -/
theorem add (h : BlockOk k es b) {key value : Bytes} (hs : Short (key, value))
    (hlt : ∀ e, es.getLast? = some e → compare e.1 key = .lt) :
    ∃ b', b.add key value = some b' ∧ BlockOk k (es ++ [(key, value)]) b' ∧
      b'.currentSizeEstimate ≤ b.currentSizeEstimate + key.length + value.length + 19 := by
  have hcmp : b.buffer_.isEmpty = true ∨ sliceCompare key b.last_key_ = .gt := by
    by_cases hes : es = []
    · exact .inl (h.empty_iff.2 hes)
    · rw [sliceCompare_eq, h.last]
      exact .inr (Std.OrientedCmp.gt_of_lt (lastKey_lt hes hlt))
  obtain ⟨h1, h2, h3⟩ := b.shared_spec key
  have hk' : key.length < 2 ^ 32 := hs.1
  have hadd := BlockBuilder.add_eq h.building (h.interval.symm ▸ h.counter) hcmp value
  refine ⟨_, hadd, ⟨h.pos, h.interval, ?_, ?_, ?_, ?_, h.building⟩, b.size_withEntry key value⟩
  · have hbytes : (b.withEntry key value).buffer_ = b.buffer_ ++ entryBytes (b.shared key) key value := by
      unfold BlockBuilder.withEntry entryBytes
      rw [encodeVarint32_ofNat (show b.shared key < 2 ^ 32 by omega),
        encodeVarint32_ofNat (show key.length - b.shared key < 2 ^ 32 by omega),
        encodeVarint32_ofNat hs.2]
    rw [h.last] at h1 h3
    rw [hbytes]
    exact h.packed.snoc h1 h2 h3
  · show key = lastKey [] (es ++ [(key, value)])
    rw [lastKey_snoc]
  · rw [← h.interval]
    exact BlockBuilder.counter_withEntry (h.interval.symm ▸ h.pos) key value
  · have hr := b.length_restarts_withEntry key value
    have := h.restarts
    rw [List.length_append, List.length_singleton]
    omega

/-- **The finished block reads back as what was added.** -/
theorem entries (h : BlockOk k es b) (hs : ∀ e ∈ es, Short e)
    (hcount : es.length + 1 < 2 ^ 32) :
    (Block.new b.finish.buffer_).entries = some es := by
  have hr := h.restarts
  have hlen : _ = b.buffer_.length + b.restarts_.length * 4 + 4 := b.length_finish
  obtain ⟨hnew, htake⟩ := b.new_finish (by omega)
  rw [hnew]
  unfold Block.entries
  simp only
  rw [if_neg (by omega), htake]
  exact h.packed.decode hs le_rfl

end BlockOk

end Yangkv
