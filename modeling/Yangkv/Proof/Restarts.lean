import Yangkv.Proof.Block

/-!
# Restart points

* `blockCode`: what a run of `Add` leaves in the buffer, entry by entry. The entries
  whose index is a multiple of the interval share nothing with the one before.
* `Laid.add`, `exists_laid`: every run of increasing keys leaves this and the offsets
  of those entries.
* `blockCode_decode`: it decodes from any of these offsets, whatever key is taken for
  the one before.
* `finish_decodes`: the block that `Finish` leaves.
-/

namespace Yangkv

open Lib

variable {k i : ℕ} {last_key key value : Bytes} {es : List (Bytes × Bytes)}

/-! ## The layout of a block -/

/-- What entry number `i` shares with the key before it. -/
def sharedAt (k i : ℕ) (last_key key : Bytes) : ℕ :=
  if i % k = 0 then 0 else sharedLength last_key key

/-- What `Add` appends for an entry that shares `n` bytes. -/
def entryCode (n : ℕ) (key value : Bytes) : Bytes :=
  encodeVarint32 (.ofNat n) ++ encodeVarint32 (.ofNat (key.length - n)) ++
    encodeVarint32 (.ofNat value.length) ++ key.drop n ++ value

/-- The entries from number `i` on, behind the key `last_key`. -/
def blockCode (k : ℕ) : ℕ → Bytes → List (Bytes × Bytes) → Bytes
  | _, _, [] => []
  | i, last_key, (key, value) :: es =>
    entryCode (sharedAt k i last_key key) key value ++ blockCode k (i + 1) key es

theorem blockCode_append (k i : ℕ) (last_key : Bytes) (es es' : List (Bytes × Bytes)) :
    blockCode k i last_key (es ++ es') =
      blockCode k i last_key es ++ blockCode k (i + es.length) (lastKey last_key es) es' := by
  induction es generalizing i last_key with
  | nil => rfl
  | cons e es ih =>
    obtain ⟨key, value⟩ := e
    rw [List.cons_append, blockCode, blockCode, ih, List.append_assoc, List.length_cons,
      show i + 1 + es.length = i + (es.length + 1) by omega]
    rfl

/-- Where entry number `j` begins. -/
def entryOffset (k : ℕ) (es : List (Bytes × Bytes)) (j : ℕ) : ℕ :=
  (blockCode k 0 [] (es.take j)).length

/-- The entries behind which compression starts again. -/
def restartIndices (k n : ℕ) : List ℕ := (List.range n).filter fun j => j ≠ 0 ∧ j % k = 0

/-- The shared length is one of both keys. -/
theorem sharedAt_spec (k i : ℕ) (last_key key : Bytes) :
    sharedAt k i last_key key ≤ last_key.length ∧ sharedAt k i last_key key ≤ key.length ∧
      last_key.take (sharedAt k i last_key key) = key.take (sharedAt k i last_key key) := by
  unfold sharedAt
  split
  · exact ⟨Nat.zero_le _, Nat.zero_le _, rfl⟩
  · obtain ⟨p, xs, ys, hl, hr, hp, -⟩ := sharedLength_spec last_key key
    rw [← hp, hl, hr]
    simp

theorem entryCode_eq (hs : Short (key, value)) {n : ℕ} (hn : n ≤ key.length) :
    entryCode n key value = entryBytes n key value := by
  have hk : key.length < 2 ^ 32 := hs.1
  unfold entryCode entryBytes
  rw [encodeVarint32_ofNat (show n < 2 ^ 32 by omega),
    encodeVarint32_ofNat (show key.length - n < 2 ^ 32 by omega), encodeVarint32_ofNat hs.2]
  simp only [List.append_assoc]

theorem length_entryCode (n : ℕ) (key value : Bytes) :
    key.length - n + value.length ≤ (entryCode n key value).length := by
  simp only [entryCode, List.length_append, List.length_drop]
  omega

/-- **No part of a small block is too long** for its length field. -/
theorem short_of_length (k i : ℕ) (last_key : Bytes)
    (h : last_key.length + (blockCode k i last_key es).length < 2 ^ 32) :
    ∀ e ∈ es, Short e := by
  induction es generalizing i last_key with
  | nil =>
    intro e he
    cases he
  | cons e es ih =>
    obtain ⟨key, value⟩ := e
    obtain ⟨h1, -, -⟩ := sharedAt_spec k i last_key key
    have hlen := length_entryCode (sharedAt k i last_key key) key value
    rw [blockCode, List.length_append] at h
    intro e he
    rcases List.mem_cons.1 he with rfl | he
    · exact ⟨show key.length < 2 ^ 32 by omega, show value.length < 2 ^ 32 by omega⟩
    · exact ih (i + 1) key (by omega) e he

theorem packed_blockCode (hs : ∀ e ∈ es, Short e) :
    Packed last_key es (blockCode k i last_key es) := by
  induction es generalizing i last_key with
  | nil => exact .nil
  | cons e es ih =>
    obtain ⟨key, value⟩ := e
    obtain ⟨h1, h2, h3⟩ := sharedAt_spec k i last_key key
    rw [blockCode, entryCode_eq (hs _ List.mem_cons_self) h2]
    exact .cons h1 h2 h3 (ih fun e he => hs e (List.mem_cons_of_mem _ he))

/-- From a restart on, the key before does not matter. -/
theorem blockCode_restart (hi : i % k = 0) (last_key last_key' : Bytes) :
    blockCode k i last_key es = blockCode k i last_key' es := by
  cases es with
  | nil => rfl
  | cons e es =>
    obtain ⟨key, value⟩ := e
    simp only [blockCode, sharedAt, if_pos hi]

/-- Behind entry `j` the rest of the block is that of the rest of the entries. -/
theorem drop_entryOffset (k : ℕ) (es : List (Bytes × Bytes)) {j : ℕ} (hj : j ≤ es.length) :
    (blockCode k 0 [] es).drop (entryOffset k es j) =
      blockCode k j (lastKey [] (es.take j)) (es.drop j) := by
  have happ := blockCode_append k 0 [] (es.take j) (es.drop j)
  rw [List.take_append_drop, List.length_take, Nat.min_eq_left hj, Nat.zero_add] at happ
  rw [happ, entryOffset, List.drop_left]

theorem entryOffset_le (k : ℕ) (es : List (Bytes × Bytes)) (j : ℕ) :
    entryOffset k es j ≤ (blockCode k 0 [] es).length := by
  have happ := blockCode_append k 0 [] (es.take j) (es.drop j)
  rw [List.take_append_drop] at happ
  rw [happ, entryOffset, List.length_append]
  omega

/-- **Every entry decodes where it begins**, behind the key before it. -/
theorem decodeEntry_at (hs : ∀ e ∈ es, Short e) {j : ℕ} (hj : j < es.length) :
    Block.decodeEntry (lastKey [] (es.take j)) ((blockCode k 0 [] es).drop (entryOffset k es j)) =
      some (es[j], (blockCode k 0 [] es).drop (entryOffset k es (j + 1))) := by
  have hcons : es.drop j = es[j] :: es.drop (j + 1) := List.drop_eq_getElem_cons hj
  have hlast : lastKey [] (es.take (j + 1)) = es[j].1 := by
    rw [List.take_succ_eq_append_getElem hj, lastKey_snoc]
  obtain ⟨h1, h2, h3⟩ := sharedAt_spec k j (lastKey [] (es.take j)) es[j].1
  have he := hs es[j] (List.getElem_mem hj)
  rw [drop_entryOffset k es hj.le, drop_entryOffset k es (show j + 1 ≤ es.length from hj), hlast,
    hcons]
  generalize es[j] = e at h1 h2 h3 he ⊢
  obtain ⟨key, value⟩ := e
  rw [blockCode, entryCode_eq he h2, decodeEntry_entryBytes he h1 h2 h3]

/-- **The entries decode from a restart on**, whatever key is taken for the one before. -/
theorem blockCode_decode (hs : ∀ e ∈ es, Short e) {j : ℕ} (hj : j < es.length) (hr : j % k = 0)
    (last_key : Bytes) {fuel : ℕ} (hf : (blockCode k 0 [] es).length ≤ fuel) :
    Block.decodeEntries last_key ((blockCode k 0 [] es).drop (entryOffset k es j)) fuel =
      some (es.drop j) := by
  have hs' : ∀ e ∈ es.drop j, Short e := fun e he => hs e (List.mem_of_mem_drop he)
  have hlen : ((blockCode k 0 [] es).drop (entryOffset k es j)).length ≤ fuel := by
    rw [List.length_drop]
    omega
  rw [drop_entryOffset k es hj.le, blockCode_restart hr _ last_key] at hlen ⊢
  exact (packed_blockCode hs').decode hs' hlen

/-- The first number of such an entry is zero. -/
theorem restart_shared {j : ℕ} (hj : j < es.length) (hr : j % k = 0) :
    ∃ rest, getVarint32Ptr ((blockCode k 0 [] es).drop (entryOffset k es j)) = some (0, rest) := by
  have hcons : es.drop j = es[j] :: es.drop (j + 1) := List.drop_eq_getElem_cons hj
  rw [drop_entryOffset k es hj.le, hcons]
  generalize es[j] = e
  obtain ⟨key, value⟩ := e
  rw [blockCode, sharedAt, if_pos hr, entryCode]
  simp only [List.append_assoc, encodeVarint32_ofNat (show 0 < 2 ^ 32 by decide)]
  exact ⟨_, getVarint32Ptr_encode (by decide) _⟩

/-! ## A run of `Add` -/

/-- A builder to which `es` were added since it was new. -/
structure Laid (k : ℕ) (es : List (Bytes × Bytes)) (b : BlockBuilder) : Prop where
  interval : b.block_restart_interval = k
  buffer : b.buffer_ = blockCode k 0 [] es
  /-- an offset is kept as a `uint32_t` -/
  restarts : b.restarts_ =
    0 :: (restartIndices k es.length).map fun j => entryOffset k es j % 2 ^ 32
  counter : b.counter_ = if es = [] then 0 else (es.length - 1) % k + 1
  last : b.last_key_ = lastKey [] es
  building : b.finished_ = false

/-- The counter is full exactly in front of a restart. -/
theorem counter_full (hk : 1 ≤ k) {m : ℕ} : (¬ m % k + 1 < k ↔ (m + 1) % k = 0) ∧
    (m % k + 1 < k → (m + 1) % k = m % k + 1) := by
  have hlt := Nat.mod_lt m hk
  have hdiv := Nat.div_add_mod m k
  by_cases hfull : m % k + 1 < k
  · have hmod : (m + 1) % k = m % k + 1 := by
      rw [← hdiv, Nat.add_assoc, Nat.mul_add_mod, Nat.mul_add_mod, Nat.mod_mod,
        Nat.mod_eq_of_lt hfull]
    exact ⟨⟨fun h => absurd hfull h, fun h => by omega⟩, fun _ => hmod⟩
  · have hmod : (m + 1) % k = 0 := by
      have hsucc : m + 1 = k * (m / k + 1) := by
        rw [Nat.mul_add, Nat.mul_one]
        omega
      rw [hsucc, Nat.mul_mod_right]
    exact ⟨⟨fun _ => hmod, fun _ => hfull⟩, fun h => absurd h hfull⟩

theorem restarts_snoc (k : ℕ) (es : List (Bytes × Bytes)) (e : Bytes × Bytes) :
    (restartIndices k (es ++ [e]).length).map (fun j => entryOffset k (es ++ [e]) j % 2 ^ 32) =
      (restartIndices k es.length).map (fun j => entryOffset k es j % 2 ^ 32) ++
        if es ≠ [] ∧ es.length % k = 0 then [(blockCode k 0 [] es).length % 2 ^ 32] else [] := by
  have hsame : ∀ j ≤ es.length, entryOffset k (es ++ [e]) j = entryOffset k es j := by
    intro j hj
    unfold entryOffset
    rw [List.take_append_of_le_length hj]
  have hlast : entryOffset k (es ++ [e]) es.length = (blockCode k 0 [] es).length := by
    unfold entryOffset
    rw [List.take_left]
  have hold : (restartIndices k es.length).map (fun j => entryOffset k (es ++ [e]) j % 2 ^ 32) =
      (restartIndices k es.length).map fun j => entryOffset k es j % 2 ^ 32 :=
    List.map_congr_left fun j hj => by
      have hlt := List.mem_range.1 (List.mem_filter.1 hj).1
      rw [hsame j hlt.le]
  have hne : es ≠ [] ↔ es.length ≠ 0 := not_congr List.length_eq_zero_iff.symm
  rw [List.length_append, List.length_singleton, restartIndices, List.range_succ,
    List.filter_append, List.map_append]
  rw [show (List.range es.length).filter (fun j => j ≠ 0 ∧ j % k = 0) =
    restartIndices k es.length from rfl, hold]
  congr 1
  by_cases hc : es ≠ [] ∧ es.length % k = 0
  · have hc' : es.length ≠ 0 ∧ es.length % k = 0 := by rwa [← hne]
    rw [if_pos hc, List.filter_cons_of_pos (by simpa using hc'), List.filter_nil,
      List.map_singleton, hlast]
  · have hc' : ¬ (es.length ≠ 0 ∧ es.length % k = 0) := by rwa [← hne]
    rw [if_neg hc, List.filter_cons_of_neg (by simpa using hc'), List.filter_nil, List.map_nil]

/-- The counter says whether the next entry is a restart. -/
theorem Laid.counter_spec {b : BlockBuilder} (h : Laid k es b) (hk : 1 ≤ k) :
    b.counter_ ≤ k ∧ (¬ b.counter_ < k ↔ es ≠ [] ∧ es.length % k = 0) ∧
      (if ¬ b.counter_ < k then 0 else b.counter_) + 1 = es.length % k + 1 := by
  rw [h.counter]
  by_cases hes : es = []
  · have hlen : es.length = 0 := List.length_eq_zero_iff.2 hes
    rw [if_pos hes, hlen, Nat.zero_mod, if_neg (by omega)]
    exact ⟨Nat.zero_le _, ⟨fun h => by omega, fun h => absurd hes h.1⟩, rfl⟩
  · have hpos : 0 < es.length := List.length_pos_iff.2 hes
    obtain ⟨hfull, hnext⟩ := counter_full (m := es.length - 1) hk
    rw [Nat.sub_add_cancel hpos] at hfull hnext
    have hmod := Nat.mod_lt (es.length - 1) hk
    rw [if_neg hes]
    refine ⟨by omega, hfull.trans ⟨fun h => ⟨hes, h⟩, fun h => h.2⟩, ?_⟩
    by_cases hc : (es.length - 1) % k + 1 < k
    · rw [if_neg (not_not.2 hc), hnext hc]
    · rw [if_pos hc, hfull.1 hc]

/-- The length that `Add` shares with the last key. -/
theorem Laid.shared {b : BlockBuilder} (h : Laid k es b) (hk : 1 ≤ k) (key : Bytes) :
    (if ¬ b.counter_ < b.block_restart_interval then 0 else sharedLength b.last_key_ key) =
      sharedAt k es.length (lastKey [] es) key := by
  obtain ⟨-, hrestart, -⟩ := h.counter_spec hk
  rw [h.interval, h.last]
  unfold sharedAt
  by_cases hes : es = []
  · rw [hes]
    simp [lastKey, sharedLength]
  · simp only [hrestart, ne_eq, hes, not_false_eq_true, true_and]

/-- **A larger key is added where the layout says**, and no assertion fires. -/
theorem Laid.add {b : BlockBuilder} (h : Laid k es b) (hk : 1 ≤ k)
    (hlt : ∀ e, es.getLast? = some e → compare e.1 key = .lt) (value : Bytes) :
    ∃ b', b.add key value = some b' ∧ Laid k (es ++ [(key, value)]) b' := by
  have hcmp : b.buffer_.isEmpty = true ∨ sliceCompare key b.last_key_ = .gt := by
    by_cases hes : es = []
    · rw [h.buffer, hes]
      exact .inl rfl
    · rw [sliceCompare_eq, h.last]
      exact .inr (Std.OrientedCmp.gt_of_lt (lastKey_lt hes hlt))
  obtain ⟨hle, hrestart, hcounter⟩ := h.counter_spec hk
  have hshared := h.shared hk key
  obtain ⟨h1, h2, h3⟩ := sharedAt_spec k es.length (lastKey [] es) key
  set n := sharedAt k es.length (lastKey [] es) key with hn
  have htake : (key.drop n).take (key.length - n) = key.drop n := List.take_of_length_le (by simp)
  have hkey : b.last_key_.take n ++ key.drop n = key := by
    rw [h.last, h3, List.take_append_drop]
  refine ⟨{ b with
      buffer_ := b.buffer_ ++ entryCode n key value
      restarts_ := if ¬ b.counter_ < b.block_restart_interval then
        b.restarts_ ++ [b.buffer_.length % 2 ^ 32] else b.restarts_
      counter_ := (if ¬ b.counter_ < b.block_restart_interval then 0 else b.counter_) + 1
      last_key_ := key }, ?_, ?_⟩
  · unfold BlockBuilder.add
    rw [h.building, if_neg (by simp), if_neg (by rw [h.interval]; exact Nat.not_lt.2 hle),
      if_neg (not_not.2 hcmp)]
    simp only [hshared, htake, hkey, ne_eq, not_true_eq_false, if_false]
    unfold entryCode
    simp only [List.append_assoc]
  constructor
  case interval => exact h.interval
  case buffer =>
    show b.buffer_ ++ entryCode n key value = _
    rw [blockCode_append, Nat.zero_add, ← h.buffer, hn]
    simp only [blockCode, List.append_nil]
  case restarts =>
    show (if ¬ b.counter_ < b.block_restart_interval then
      b.restarts_ ++ [b.buffer_.length % 2 ^ 32] else b.restarts_) = _
    rw [restarts_snoc, h.interval, h.buffer, h.restarts]
    by_cases hc : ¬ b.counter_ < k
    · rw [if_pos hc, if_pos (hrestart.1 hc), List.cons_append]
    · rw [if_neg hc, if_neg (fun h => hc (hrestart.2 h)), List.append_nil]
  case counter =>
    show (if ¬ b.counter_ < b.block_restart_interval then 0 else b.counter_) + 1 = _
    rw [h.interval, hcounter, if_neg (by simp), List.length_append, List.length_singleton,
      Nat.add_sub_cancel]
  case last =>
    show key = lastKey [] (es ++ [(key, value)])
    rw [lastKey_snoc]
  case building => exact h.building

/-- A builder that was constructed or reset for the interval `k`. -/
def Fresh (k : ℕ) (b : BlockBuilder) : Prop :=
  BlockBuilder.new k = some b ∨
    1 ≤ k ∧ ∃ b' : BlockBuilder, b'.block_restart_interval = k ∧ b = b'.reset

theorem Fresh.laid {b : BlockBuilder} (h : Fresh k b) : 1 ≤ k ∧ Laid k [] b := by
  rcases h with hnew | ⟨hk, b', rfl, rfl⟩
  · unfold BlockBuilder.new at hnew
    split at hnew
    · rename_i hk
      cases hnew
      exact ⟨hk, rfl, rfl, rfl, rfl, rfl, rfl⟩
    · cases hnew
  · exact ⟨hk, rfl, rfl, rfl, rfl, rfl, rfl⟩

/-- **Increasing keys are all added**, and lie in the block as the layout says. -/
theorem exists_laid {b : BlockBuilder} (hk : 1 ≤ k) {done : List (Bytes × Bytes)}
    (h : Laid k done b) (hs : SortedKeys (done ++ es)) :
    ∃ b', es.foldlM (fun b e => b.add e.1 e.2) b = some b' ∧ Laid k (done ++ es) b' := by
  induction es generalizing b done with
  | nil => exact ⟨b, rfl, by rwa [List.append_nil]⟩
  | cons e es ih =>
    have hlt : ∀ z, done.getLast? = some z → compare z.1 e.1 = .lt := fun z hz =>
      (List.pairwise_append.1 hs).2.2 z (List.mem_of_getLast? hz) e List.mem_cons_self
    obtain ⟨b₁, h1, h2⟩ : ∃ b₁, b.add e.1 e.2 = some b₁ ∧ Laid k (done ++ [(e.1, e.2)]) b₁ :=
      h.add hk hlt e.2
    obtain ⟨b₂, h3, h4⟩ := ih h2 (by rw [List.append_assoc]; exact hs)
    rw [List.append_assoc] at h4
    refine ⟨b₂, ?_, h4⟩
    rw [List.foldlM_cons, h1]
    exact h3

/-! ## The finished block -/

/-- The entries with a full key. -/
def restartPoints (k n : ℕ) : List ℕ := 0 :: restartIndices k n

/-- The bytes before the restart array. -/
def Block.region (b : Block) : Bytes := b.data_.take b.restart_offset_

/-- `b` is a block of the entries `es`, which begin at the offsets `off`, with a restart at every
`k`-th of them. -/
structure Block.Holds (b : Block) (k : ℕ) (es : List (Bytes × Bytes)) (off : ℕ → ℕ) : Prop where
  first : off 0 = 0
  last : off es.length = b.restart_offset_
  entry : ∀ j, (hj : j < es.length) →
    decodeEntry (lastKey [] (es.take j)) (b.region.drop (off j)) =
      some (es[j], b.region.drop (off (j + 1)))
  /-- the restart array and its length -/
  restart : ∀ i, (hi : i < (restartPoints k es.length).length) →
    decodeFixed32 (b.data_.drop (b.restart_offset_ + 4 * i)) =
      some (off (restartPoints k es.length)[i])
  count : decodeFixed32 (b.data_.drop (b.data_.length - 4)) = some (restartPoints k es.length).length
  /-- at a restart nothing is shared, and decoding may start -/
  shared : ∀ j ∈ restartPoints k es.length, j < es.length →
    ∃ rest, getVarint32Ptr (b.region.drop (off j)) = some (0, rest)
  decode : ∀ j ∈ restartPoints k es.length, j < es.length → ∀ last_key,
    decodeEntries last_key (b.region.drop (off j)) b.data_.length = some (es.drop j)

theorem mem_restartPoints {n j : ℕ} (h : j ∈ restartPoints k n) : j % k = 0 := by
  rcases List.mem_cons.1 h with rfl | h
  · exact Nat.zero_mod k
  · have hj := (List.mem_filter.1 h).2
    simp only [decide_eq_true_eq] at hj
    exact hj.2

theorem Laid.holds {b : BlockBuilder} (h : Laid k es b) (hsize : b.finish.buffer_.length < 2 ^ 32) :
    (Block.new b.finish.buffer_).Holds k es (entryOffset k es) := by
  have hlen : _ = b.buffer_.length + b.restarts_.length * 4 + 4 := b.length_finish
  obtain ⟨hnew, htake⟩ := b.new_finish (by omega)
  have hs : ∀ e ∈ es, Short e := short_of_length k 0 [] (by
    rw [← h.buffer, List.length_nil]
    omega)
  -- no offset is cut off
  have hoff : ∀ j, entryOffset k es j % 2 ^ 32 = entryOffset k es j := by
    intro j
    have hle := entryOffset_le k es j
    rw [← h.buffer] at hle
    exact Nat.mod_eq_of_lt (by omega)
  have hrestarts : b.restarts_ = (restartPoints k es.length).map (entryOffset k es) := by
    rw [h.restarts, restartPoints, List.map_cons]
    simp only [hoff]
    rfl
  have hregion : (Block.new b.finish.buffer_).region = blockCode k 0 [] es := by
    rw [hnew, Block.region, ← h.buffer]
    exact htake
  have hcount : b.restarts_.length = (restartPoints k es.length).length := by
    rw [hrestarts, List.length_map]
  refine ⟨rfl, ?_, fun j hj => ?_, fun i hi => ?_, ?_, fun j hj hlt => ?_, fun j hj hlt last => ?_⟩
  · rw [hnew]
    show (blockCode k 0 [] (es.take es.length)).length = b.buffer_.length
    rw [List.take_length, h.buffer]
  · rw [hregion]
    exact decodeEntry_at hs hj
  · rw [hnew]
    show decodeFixed32 (b.finish.buffer_.drop (b.buffer_.length + 4 * i)) = _
    have hword : b.restarts_[i]? = some (entryOffset k es (restartPoints k es.length)[i]) := by
      rw [hrestarts, List.getElem?_map, List.getElem?_eq_getElem hi, Option.map_some]
    have hle := entryOffset_le k es (restartPoints k es.length)[i]
    rw [← h.buffer] at hle
    unfold BlockBuilder.finish
    simp only
    rw [← List.drop_drop, List.append_assoc, List.drop_left]
    exact decodeFixed32_table hword (by omega) _
  · rw [hnew]
    rw [← hcount]
    exact b.finish_count (by omega)
  · rw [hregion]
    exact restart_shared hlt (mem_restartPoints hj)
  · rw [hregion, hnew]
    refine blockCode_decode hs hlt (mem_restartPoints hj) last ?_
    rw [← h.buffer]
    show b.buffer_.length ≤ b.finish.buffer_.length
    omega

/-- **What `Finish` leaves decodes to what was added.** After the constructor or a `Reset`, all
increasing keys are added; the estimate is the finished size; and `Block` accepts the bytes, whose
entries decode one by one, and from every restart on. -/
theorem finish_decodes {b : BlockBuilder} (hb : Fresh k b)
    (hs : es.Pairwise fun a b => sliceCompare a.1 b.1 = .lt) :
    ∃ b', es.foldlM (fun b e => b.add e.1 e.2) b = some b' ∧
      b'.currentSizeEstimate = b'.finish.buffer_.length ∧
      (b'.finish.buffer_.length < 2 ^ 32 →
        (Block.new b'.finish.buffer_).size_ = b'.finish.buffer_.length ∧
        (Block.new b'.finish.buffer_).restart_offset_ = b'.buffer_.length ∧
        (Block.new b'.finish.buffer_).entries = some es ∧
        ∃ off, (Block.new b'.finish.buffer_).Holds k es off) := by
  obtain ⟨hk, h0⟩ := hb.laid
  have hsort : SortedKeys es := by simpa only [SortedKeys, sliceCompare_eq] using hs
  obtain ⟨b', h1, h2⟩ := exists_laid hk h0 (show SortedKeys ([] ++ es) from hsort)
  rw [List.nil_append] at h2
  have hlen : _ = b'.buffer_.length + b'.restarts_.length * 4 + 4 := b'.length_finish
  refine ⟨b', h1, by unfold BlockBuilder.currentSizeEstimate; omega, fun hsize => ?_⟩
  obtain ⟨hnew, htake⟩ := b'.new_finish (by omega)
  have hshort : ∀ e ∈ es, Short e := short_of_length k 0 [] (by
    rw [← h2.buffer, List.length_nil]
    omega)
  refine ⟨by rw [hnew], by rw [hnew], ?_, _, h2.holds hsize⟩
  rw [hnew]
  unfold Block.entries
  simp only
  rw [if_neg (by omega), htake, h2.buffer]
  exact (packed_blockCode hshort).decode hshort le_rfl

/-- Three keys with a common beginning, and a restart at every other one. -/
theorem finish_decodes_two : ∃ b b', BlockBuilder.new 2 = some b ∧
    [([97], [1]), ([97, 98], []), ([97, 98, 99], [2])].foldlM (fun b e => b.add e.1 e.2) b =
      some b' ∧
    (Block.new b'.finish.buffer_).entries =
      some [([97], [1]), ([97, 98], []), ([97, 98, 99], [2])] := by
  have hnew : BlockBuilder.new 2 = some ⟨2, [], [0], 0, false, []⟩ := rfl
  have hs : ([([97], [1]), ([97, 98], []), ([97, 98, 99], [2])] : List (Bytes × Bytes)).Pairwise
      fun a b => sliceCompare a.1 b.1 = .lt := by decide +kernel
  obtain ⟨b', h1, h2, h3⟩ := finish_decodes (.inl hnew) hs
  have hsize : (([([97], [1]), ([97, 98], []), ([97, 98, 99], [2])] :
      List (Bytes × Bytes)).foldlM (fun (b : BlockBuilder) e => b.add e.1 e.2)
        ⟨2, [], [0], 0, false, []⟩).all fun b => b.finish.buffer_.length < 2 ^ 32 := by
    decide +kernel
  rw [h1] at hsize
  obtain ⟨-, -, h4, -⟩ := h3 (by simpa using hsize)
  exact ⟨_, b', hnew, h1, h4⟩

end Yangkv
