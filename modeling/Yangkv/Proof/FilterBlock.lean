import Mathlib.Data.List.Range
import Yangkv.Proof.Codec
import Yangkv.Spec.FilterBlock

/-!
# Filter blocks match what was added

A filter is made for the keys of all blocks that begin in the same 2 KB, and the reader
finds it by the offset of any of these blocks.

* `build_holds`: what the builder holds after any blocks; its assertion does not fail.
* `finish_eq`: the bytes of the filter block.
* `blockBytes_word`, `blockBytes_filter`: the words of its table, and the filters between them.
* `keyMayMatch_eq`: the reader asks the policy about the filter of the block.
* `no_false_negatives_iff`: so a key is missed only behind the first `(int) n` of `n` keys.
-/

namespace Yangkv

open Lib

/-- What the comments on `FilterPolicy` promise. -/
structure FilterPolicy.Contract (p : FilterPolicy) : Prop where
  appends : ∀ (keys : List Bytes) (n : ℤ) (dst : Bytes), n ≤ keys.length →
    dst <+: p.createFilter keys n dst
  mayMatch : ∀ (keys : List Bytes) (n : ℤ) (dst : Bytes), n ≤ keys.length →
    ∀ key ∈ keys.take n.toNat,
      p.keyMayMatch key ((p.createFilter keys n dst).drop dst.length) = true

namespace FilterBlockBuilder

variable {policy : FilterPolicy} {b : FilterBlockBuilder} {g g' : ℕ → List Bytes} {m : ℕ}

/-- The number of the keys that `CreateFilter` is told. -/
def passed (keys : List Bytes) : ℤ := Int.bmod keys.length (2 ^ 32)

theorem passed_le (keys : List Bytes) : passed keys ≤ keys.length := by
  unfold passed
  rw [Int.bmod_def]
  split
  · omega
  · omega

theorem passed_eq {keys : List Bytes} (h : keys.length < 2 ^ 31) : passed keys = keys.length := by
  unfold passed
  rw [Int.bmod_def]
  split
  · omega
  · omega

theorem passed_nonpos {keys : List Bytes} (h : keys.length = 2 ^ 31) : passed keys ≤ 0 := by
  unfold passed
  rw [h]
  decide

/-- The filters up to the one with the index `i`, where `g` gives the keys of each of them. -/
def filters (policy : FilterPolicy) (g : ℕ → List Bytes) : ℕ → Bytes
  | 0 => []
  | i + 1 =>
    if g i = [] then filters policy g i
    else policy.createFilter (g i) (passed (g i)) (filters policy g i)

/-- The filter with the index `i`. -/
def filterAt (policy : FilterPolicy) (g : ℕ → List Bytes) (i : ℕ) : Bytes :=
  (filters policy g (i + 1)).drop (filters policy g i).length

/-- The keys of the filter with the given index. -/
def keysOf (blocks : List (ℕ × List Bytes)) (index : ℕ) : List Bytes :=
  (blocks.filter fun it => it.1 / kFilterBase = index).flatMap Prod.snd

/-! ## The filters -/

theorem filters_congr (h : ∀ i < m, g' i = g i) : filters policy g' m = filters policy g m := by
  induction m with
  | zero => rfl
  | succ m ih =>
    rw [filters, filters, h m (Nat.lt_succ_self m), ih fun i hi => h i (hi.trans (Nat.lt_succ_self m))]

theorem filters_succ (hp : policy.Contract) (i : ℕ) :
    filters policy g i <+: filters policy g (i + 1) := by
  rw [filters]
  split
  · exact List.prefix_rfl
  · exact hp.appends _ _ _ (passed_le _)

theorem filters_mono (hp : policy.Contract) {i j : ℕ} (h : i ≤ j) :
    filters policy g i <+: filters policy g j := by
  induction j, h using Nat.le_induction with
  | base => exact List.prefix_rfl
  | succ j _ ih => exact ih.trans (filters_succ hp j)

theorem filterAt_matches (hp : policy.Contract) {i : ℕ} {key : Bytes}
    (hkey : key ∈ (g i).take (passed (g i)).toNat) :
    policy.keyMayMatch key (filterAt policy g i) = true := by
  have hne : g i ≠ [] := by
    intro e
    rw [e, List.take_nil] at hkey
    cases hkey
  rw [filterAt, filters, if_neg hne]
  exact hp.mayMatch _ _ _ (passed_le _) key hkey

/-! ## The builder -/

/-- What the builder holds when it has made `m` filters, and has the keys of the next one. -/
structure Holds (b : FilterBlockBuilder) (policy : FilterPolicy) (g : ℕ → List Bytes) (m : ℕ) :
    Prop where
  same : b.policy_ = policy
  keys : b.keys_ = (g m).flatten
  start : b.start_ = starts 0 (g m)
  result : b.result_ = filters policy g m
  offsets : b.filter_offsets_ =
    (List.range m).map fun i => (filters policy g i).length % 2 ^ 32

theorem Holds.length (h : Holds b policy g m) : b.filter_offsets_.length = m := by
  rw [h.offsets, List.length_map, List.length_range]

theorem Holds.generateFilter (h : Holds b policy g m) (hnext : g (m + 1) = []) :
    Holds b.generateFilter policy g (m + 1) := by
  have hoffsets : b.filter_offsets_ ++ [b.result_.length % 2 ^ 32] =
      (List.range (m + 1)).map fun i => (filters policy g i).length % 2 ^ 32 := by
    rw [h.offsets, h.result, List.range_succ, List.map_append]
    rfl
  have hlength : b.start_.length = (g m).length := by rw [h.start, length_starts]
  unfold FilterBlockBuilder.generateFilter
  by_cases hm : g m = []
  · have hnone : b.start_.length = 0 := by rw [hlength, hm, List.length_nil]
    rw [if_pos hnone]
    have hkeys : b.keys_ = (g (m + 1)).flatten := by rw [h.keys, hm, hnext]
    have hstart : b.start_ = starts 0 (g (m + 1)) := by rw [h.start, hm, hnext]
    refine ⟨h.same, hkeys, hstart, ?_, hoffsets⟩
    rw [filters, if_pos hm]
    exact h.result
  · have hsome : b.start_.length ≠ 0 := by
      rw [hlength]
      exact fun e => hm (List.length_eq_zero_iff.1 e)
    have htmp : slices b.keys_ (b.start_ ++ [b.keys_.length]) = g m := by
      have hcut := slices_starts [] (g m)
      rw [List.nil_append, List.length_nil, Nat.zero_add] at hcut
      rw [h.keys, h.start]
      exact hcut
    rw [if_neg hsome]
    refine ⟨h.same, ?_, ?_, ?_, hoffsets⟩
    · rw [hnext]
      rfl
    · rw [hnext]
      rfl
    · rw [filters, if_neg hm]
      dsimp only
      rw [htmp, hlength, h.same, h.result]
      rfl

theorem Holds.generateFilters (h : Holds b policy g m) {index : ℕ} (hle : m ≤ index)
    (hnone : ∀ i, m < i → i ≤ index → g i = []) :
    Holds (generateFilters index b) policy g index := by
  obtain ⟨k, rfl⟩ := Nat.exists_eq_add_of_le hle
  induction k generalizing b m with
  | zero =>
    rw [Nat.add_zero, FilterBlockBuilder.generateFilters, h.length, if_neg (Nat.lt_irrefl m)]
    exact h
  | succ k ih =>
    have hlt : m < m + (k + 1) := by omega
    have hnext := h.generateFilter (hnone (m + 1) (by omega) (by omega))
    have hindex : m + (k + 1) = m + 1 + k := by omega
    rw [FilterBlockBuilder.generateFilters, h.length, if_pos hlt, hindex]
    exact ih hnext (by omega) fun i hi hi' => hnone i (by omega) (by omega)

theorem foldl_addKey (keys : List Bytes) (b : FilterBlockBuilder) : keys.foldl addKey b =
    { b with
      keys_ := b.keys_ ++ keys.flatten
      start_ := b.start_ ++ starts b.keys_.length keys } := by
  induction keys generalizing b with
  | nil => simp [starts]
  | cons key keys ih =>
    rw [List.foldl_cons, ih]
    simp [addKey, starts]

theorem Holds.addKeys (h : Holds b policy g m) {keys : List Bytes} (hsame : ∀ i < m, g' i = g i)
    (hm : g' m = g m ++ keys) : Holds (keys.foldl addKey b) policy g' m := by
  rw [foldl_addKey]
  constructor
  case same => exact h.same
  case keys =>
    dsimp only
    rw [h.keys, hm, List.flatten_append]
  case start =>
    dsimp only
    rw [h.start, h.keys, hm, starts_append, Nat.zero_add]
  case result => exact h.result.trans (filters_congr hsame).symm
  case offsets =>
    refine h.offsets.trans (List.map_congr_left fun i hi => ?_)
    have hi' := List.mem_range.1 hi
    rw [filters_congr fun j hj => hsame j (hj.trans hi')]

/-! ## The blocks -/

variable {blocks : List (ℕ × List Bytes)}

theorem keysOf_snoc (it : ℕ × List Bytes) (i : ℕ) : keysOf (blocks ++ [it]) i =
    keysOf blocks i ++ if it.1 / kFilterBase = i then it.2 else [] := by
  unfold keysOf
  rw [List.filter_append, List.flatMap_append]
  by_cases h : it.1 / kFilterBase = i
  · simp [h]
  · simp [h]

theorem mem_keysOf {key : Bytes} {i : ℕ} :
    key ∈ keysOf blocks i ↔ ∃ it ∈ blocks, it.1 / kFilterBase = i ∧ key ∈ it.2 := by
  unfold keysOf
  simp only [List.mem_flatMap, List.mem_filter, decide_eq_true_eq, and_assoc]

theorem length_keysOf (i : ℕ) : (keysOf blocks i).length ≤ (blocks.flatMap Prod.snd).length := by
  induction blocks using List.reverseRecOn with
  | nil => exact le_rfl
  | append_singleton blocks it ih =>
    rw [keysOf_snoc, List.flatMap_append, List.length_append, List.length_append,
      List.flatMap_singleton]
    split
    · omega
    · rw [List.length_nil]
      omega

theorem keysOf_eq_nil {i : ℕ} (h : ∀ it ∈ blocks, it.1 / kFilterBase < i) : keysOf blocks i = [] := by
  refine List.eq_nil_iff_forall_not_mem.2 fun key hkey => ?_
  obtain ⟨it, hit, hi, -⟩ := mem_keysOf.1 hkey
  have hlt := h it hit
  omega

/-- **The calls before `Finish`**, of blocks that come in order: no assertion fails. -/
theorem build_holds (hmono : (blocks.map Prod.fst).Pairwise (· ≤ ·)) :
    ∃ b m, build policy blocks = some b ∧ Holds b policy (keysOf blocks) m ∧
      (∀ it ∈ blocks, it.1 / kFilterBase ≤ m) ∧
      ∀ offset, (∀ it ∈ blocks, it.1 ≤ offset) → m ≤ offset / kFilterBase := by
  induction blocks using List.reverseRecOn with
  | nil =>
    refine ⟨new policy, 0, rfl, ⟨rfl, rfl, rfl, rfl, rfl⟩, fun it hit => ?_, fun _ _ => Nat.zero_le _⟩
    cases hit
  | append_singleton blocks it ih =>
    rw [List.map_append, List.pairwise_append] at hmono
    obtain ⟨b, m, hb, h, hle, hnext⟩ := ih hmono.1
    have hlast : ∀ x ∈ blocks, x.1 ≤ it.1 := fun x hx =>
      hmono.2.2 _ (List.mem_map_of_mem hx) _ (List.mem_singleton_self _)
    set index := it.1 / kFilterBase with hindex
    have hm : m ≤ index := hnext it.1 hlast
    have hnone : ∀ i, m < i → i ≤ index → keysOf blocks i = [] := fun i hi _ =>
      keysOf_eq_nil fun x hx => (hle x hx).trans_lt hi
    have hstart : b.startBlock it.1 = some (b.generateFilters index) := by
      unfold startBlock
      dsimp only
      rw [h.length, if_pos hm]
    have hadd : Holds (it.2.foldl addKey (b.generateFilters index)) policy
        (keysOf (blocks ++ [it])) index := by
      refine (h.generateFilters hm hnone).addKeys (fun i hi => ?_) ?_
      · rw [keysOf_snoc, if_neg hi.ne', List.append_nil]
      · rw [keysOf_snoc, if_pos rfl]
    refine ⟨_, index, ?_, hadd, fun x hx => ?_, fun offset hoffset => ?_⟩
    · rw [build, List.foldlM_append]
      rw [build] at hb
      rw [hb, Option.bind_eq_bind, Option.bind_some, List.foldlM_cons, hstart]
      rfl
    · rcases List.mem_append.1 hx with hx | hx
      · exact (hle x hx).trans hm
      · rw [List.mem_singleton.1 hx]
    · exact Nat.div_le_div_right (hoffset it (by simp))

/-! ## The bytes -/

/-- The block with `n` filters: its last words are the lengths of the filters up to each one, and up
to the end. -/
def blockBytes (policy : FilterPolicy) (g : ℕ → List Bytes) (n : ℕ) : Bytes :=
  filters policy g n ++
    ((List.range (n + 1)).map fun i => (filters policy g i).length % 2 ^ 32).flatMap encodeFixed32 ++
      [UInt8.ofNat kFilterBaseLg]

theorem length_blockBytes (n : ℕ) :
    (blockBytes policy g n).length = (filters policy g n).length + 4 * (n + 1) + 1 := by
  rw [blockBytes, List.length_append, List.length_append, length_flatMap_fixed32, List.length_map,
    List.length_range]
  rfl

theorem foldl_encodeFixed32 (offsets : List ℕ) (dst : Bytes) :
    offsets.foldl (fun result_ o => result_ ++ encodeFixed32 o) dst =
      dst ++ offsets.flatMap encodeFixed32 := by
  induction offsets generalizing dst with
  | nil => simp
  | cons o offsets ih => rw [List.foldl_cons, ih, List.flatMap_cons, ← List.append_assoc]

/-- What `Finish` writes in front of its last byte. -/
theorem Holds.bytes (h : Holds b policy g m) :
    b.filter_offsets_.foldl (fun result_ o => result_ ++ encodeFixed32 o) b.result_ ++
      encodeFixed32 (b.result_.length % 2 ^ 32) ++ [UInt8.ofNat kFilterBaseLg] =
        blockBytes policy g m := by
  rw [foldl_encodeFixed32, h.offsets, h.result, blockBytes, List.append_assoc _ _ (encodeFixed32 _),
    List.range_succ, List.map_append, List.flatMap_append]
  simp

theorem finish_eq (h : Holds b policy g m) (hnext : g (m + 1) = []) :
    b.finish = blockBytes policy g (if g m = [] then m else m + 1) := by
  unfold finish
  dsimp only
  by_cases hm : g m = []
  · have hstart : b.start_.isEmpty = true := by rw [h.start, hm]; rfl
    rw [if_pos hstart, if_pos hm, h.bytes]
  · have hstart : ¬ b.start_.isEmpty = true := by
      rw [h.start, List.isEmpty_iff_length_eq_zero, length_starts]
      exact fun e => hm (List.length_eq_zero_iff.1 e)
    rw [if_neg hstart, if_neg hm, (h.generateFilter hnext).bytes]

/-! ## The reader -/

variable {n : ℕ}

/-- A word of the table is the length of the filters up to its index. -/
theorem blockBytes_word (hp : policy.Contract) (hlen : (blockBytes policy g n).length < 2 ^ 32)
    {i : ℕ} (hi : i ≤ n) :
    decodeFixed32 ((blockBytes policy g n).drop ((filters policy g n).length + 4 * i)) =
      some (filters policy g i).length := by
  rw [length_blockBytes] at hlen
  have hlt : (filters policy g i).length < 2 ^ 32 := by
    have hle := (filters_mono (g := g) hp hi).length_le
    omega
  have hword : ((List.range (n + 1)).map fun i => (filters policy g i).length % 2 ^ 32)[i]? =
      some (filters policy g i).length := by
    rw [List.getElem?_map, List.getElem?_range (Nat.lt_succ_of_le hi), Option.map_some,
      Nat.mod_eq_of_lt hlt]
  rw [blockBytes, List.append_assoc, ← List.drop_drop, List.drop_left]
  exact decodeFixed32_table hword hlt _

/-- A filter is between the lengths at its index and at the next one. -/
theorem blockBytes_filter (hp : policy.Contract) {i : ℕ} (hi : i < n) :
    ((blockBytes policy g n).drop (filters policy g i).length).take
      ((filters policy g (i + 1)).length - (filters policy g i).length) = filterAt policy g i := by
  obtain ⟨rest, hrest⟩ := filters_mono (g := g) hp hi
  have hle := (filters_succ (g := g) hp i).length_le
  rw [blockBytes, ← hrest, List.append_assoc, List.append_assoc, List.drop_append_of_le_length hle,
    filterAt, List.take_left' (List.length_drop ..)]

theorem reader_new (hp : policy.Contract) (hlen : (blockBytes policy g n).length < 2 ^ 32) :
    FilterBlockReader.new policy (blockBytes policy g n) =
      some ⟨policy, blockBytes policy g n, (filters policy g n).length, n, kFilterBaseLg⟩ := by
  have hlength : (blockBytes policy g n).length = (filters policy g n).length + 4 * (n + 1) + 1 :=
    length_blockBytes n
  have hlast : (blockBytes policy g n)[(blockBytes policy g n).length - 1]? =
      some (UInt8.ofNat kFilterBaseLg) := by
    rw [blockBytes, List.length_append, List.length_singleton, Nat.add_sub_cancel]
    exact List.getElem?_concat_length
  have hmany : ¬ (blockBytes policy g n).length < 5 := by omega
  have h5 : (blockBytes policy g n).length - 5 = (filters policy g n).length + 4 * n := by omega
  have hin : ¬ (filters policy g n).length + 4 * n < (filters policy g n).length := by omega
  have hnum : ((blockBytes policy g n).length - 5 - (filters policy g n).length) / 4 = n := by omega
  unfold FilterBlockReader.new
  dsimp only
  rw [if_neg hmany, hlast, h5, blockBytes_word hp hlen le_rfl, Option.bind_eq_bind,
    Option.bind_some, Option.bind_eq_bind, Option.bind_some, if_neg hin, ← h5, hnum]
  rfl

/-- **The reader** asks the policy about the filter of the block. -/
theorem keyMayMatch_eq (hp : policy.Contract) {contents : Bytes}
    (hcontents : contents = blockBytes policy g n) (hlen : contents.length < 2 ^ 32) :
    ∃ r, FilterBlockReader.new policy contents = some r ∧
      ∀ offset key, offset / kFilterBase < n → r.keyMayMatch offset key =
        some (policy.keyMayMatch key (filterAt policy g (offset / kFilterBase))) := by
  subst hcontents
  refine ⟨_, reader_new hp hlen, fun offset key hindex => ?_⟩
  set index := offset / kFilterBase with hdef
  have hlg : ¬ 64 ≤ kFilterBaseLg := by decide
  have hshift : offset >>> kFilterBaseLg = index := by
    rw [Nat.shiftRight_eq_div_pow, hdef]
    rfl
  have hstart : (filters policy g n).length + index * 4 =
      (filters policy g n).length + 4 * index := by omega
  have hlimit : (filters policy g n).length + 4 * index + 4 =
      (filters policy g n).length + 4 * (index + 1) := by omega
  have horder : (filters policy g index).length ≤ (filters policy g (index + 1)).length ∧
      (filters policy g (index + 1)).length ≤ (filters policy g n).length :=
    ⟨(filters_succ hp index).length_le, (filters_mono hp hindex).length_le⟩
  unfold FilterBlockReader.keyMayMatch
  dsimp only
  rw [if_neg hlg, hshift, if_pos hindex, hstart, hlimit, blockBytes_word hp hlen hindex.le,
    Option.bind_eq_bind, Option.bind_some, blockBytes_word hp hlen hindex, Option.bind_some,
    if_pos horder, blockBytes_filter hp hindex]

/-- What the reader says of the offset of a block to which keys were added. -/
theorem reader_answers (hp : policy.Contract) (hmono : (blocks.map Prod.fst).Pairwise (· ≤ ·)) :
    ∃ b, build policy blocks = some b ∧ (b.finish.length < 2 ^ 32 →
      ∃ r, FilterBlockReader.new policy b.finish = some r ∧
        ∀ it ∈ blocks, it.2 ≠ [] → ∀ key, r.keyMayMatch it.1 key = some (policy.keyMayMatch key
          (filterAt policy (keysOf blocks) (it.1 / kFilterBase)))) := by
  obtain ⟨b, m, hb, h, hle, -⟩ := @build_holds policy blocks hmono
  refine ⟨b, hb, fun hlen => ?_⟩
  have hnone : ∀ i, m < i → keysOf blocks i = [] := fun i hi =>
    keysOf_eq_nil fun it hit => (hle it hit).trans_lt hi
  have hn : ∀ i, (if keysOf blocks m = [] then m else m + 1) ≤ i → keysOf blocks i = [] := by
    intro i hi
    by_cases hm : keysOf blocks m = []
    · rw [if_pos hm] at hi
      rcases Nat.eq_or_lt_of_le hi with rfl | hlt
      · exact hm
      · exact hnone i hlt
    · rw [if_neg hm] at hi
      exact hnone i hi
  obtain ⟨r, hr, hanswer⟩ :=
    keyMayMatch_eq hp (finish_eq h (hnone (m + 1) (Nat.lt_succ_self m))) hlen
  refine ⟨r, hr, fun it hit hkeys key => hanswer it.1 key ?_⟩
  by_contra hge
  obtain ⟨key', hkey'⟩ := List.exists_mem_of_ne_nil _ hkeys
  have hin := mem_keysOf.2 ⟨it, hit, rfl, hkey'⟩
  rw [hn _ (Nat.le_of_not_lt hge)] at hin
  cases hin

/-- **No false negatives**, but for the keys that the cast of their number cuts off. No assertion
fails; and every added key matches if and only if those behind the first `(int) n` of the `n` keys of
a filter happen to match it. -/
theorem no_false_negatives_iff (hp : policy.Contract)
    (hmono : (blocks.map Prod.fst).Pairwise (· ≤ ·)) :
    ∃ b, build policy blocks = some b ∧ (b.finish.length < 2 ^ 32 →
      ∃ r, FilterBlockReader.new policy b.finish = some r ∧
        ((∀ it ∈ blocks, ∀ key ∈ it.2, r.keyMayMatch it.1 key = some true) ↔
          ∀ index, ∀ key ∈ (keysOf blocks index).drop (passed (keysOf blocks index)).toNat,
            policy.keyMayMatch key (filterAt policy (keysOf blocks) index) = true) ∧
        ((∀ index, (keysOf blocks index).length < 2 ^ 31) →
          ∀ it ∈ blocks, ∀ key ∈ it.2, r.keyMayMatch it.1 key = some true)) := by
  obtain ⟨b, hb, hread⟩ := reader_answers hp hmono
  refine ⟨b, hb, fun hlen => ?_⟩
  obtain ⟨r, hr, hanswer⟩ := hread hlen
  have hiff : (∀ it ∈ blocks, ∀ key ∈ it.2, r.keyMayMatch it.1 key = some true) ↔
      ∀ index, ∀ key ∈ (keysOf blocks index).drop (passed (keysOf blocks index)).toNat,
        policy.keyMayMatch key (filterAt policy (keysOf blocks) index) = true := by
    constructor
    · intro hall index key hkey
      obtain ⟨it, hit, rfl, hin⟩ := mem_keysOf.1 (List.mem_of_mem_drop hkey)
      have hmatch := hall it hit key hin
      rw [hanswer it hit (List.ne_nil_of_mem hin)] at hmatch
      exact Option.some.inj hmatch
    · intro hcut it hit key hin
      rw [hanswer it hit (List.ne_nil_of_mem hin)]
      have hkey := mem_keysOf.2 ⟨it, hit, rfl, hin⟩
      rw [← List.take_append_drop (passed (keysOf blocks (it.1 / kFilterBase))).toNat
        (keysOf blocks (it.1 / kFilterBase)), List.mem_append] at hkey
      rcases hkey with hkey | hkey
      · rw [filterAt_matches hp hkey]
      · rw [hcut _ key hkey]
  refine ⟨r, hr, hiff, fun hfew => hiff.2 fun index key hkey => ?_⟩
  rw [passed_eq (hfew index), Int.toNat_natCast, List.drop_length] at hkey
  cases hkey

/-- A policy whose filters only say whether there were any keys. -/
def anyKey : FilterPolicy where
  createFilter := fun keys n dst => if keys.take n.toNat = [] then dst else dst ++ [1]
  keyMayMatch := fun _ filter => !filter.isEmpty

theorem anyKey_contract : anyKey.Contract := by
  constructor
  case appends =>
    intro keys n dst _
    change dst <+: if keys.take n.toNat = [] then dst else dst ++ [1]
    split
    · exact List.prefix_rfl
    · exact List.prefix_append dst [1]
  case mayMatch =>
    intro keys n dst _ key hkey
    have hne : keys.take n.toNat ≠ [] := List.ne_nil_of_mem hkey
    change (!((if keys.take n.toNat = [] then dst else dst ++ [1]).drop dst.length).isEmpty) = true
    rw [if_neg hne, List.drop_left]
    rfl

theorem length_anyKey (n : ℕ) : (filters anyKey g n).length ≤ n := by
  induction n with
  | zero => exact le_rfl
  | succ n ih =>
    rw [filters]
    unfold anyKey at ih ⊢
    dsimp only at ih ⊢
    split
    · omega
    · split
      · omega
      · rw [List.length_append, List.length_singleton]
        omega

/-- Three blocks with two filters. -/
theorem no_false_negatives_iff_blocks : ∃ b r,
    build anyKey [(0, [[97], []]), (100, [[98]]), (5000, [[99]])] = some b ∧
      FilterBlockReader.new anyKey b.finish = some r ∧ r.keyMayMatch 0 [] = some true ∧
        r.keyMayMatch 100 [98] = some true ∧ r.keyMayMatch 5000 [99] = some true := by
  obtain ⟨b, hb, h⟩ := @no_false_negatives_iff anyKey
    [(0, [[97], []]), (100, [[98]]), (5000, [[99]])] anyKey_contract (by decide)
  have hlen : b.finish.length < 2 ^ 32 := by
    obtain ⟨b', m, hb', hholds, hle, hm⟩ := @build_holds anyKey
      [(0, [[97], []]), (100, [[98]]), (5000, [[99]])] (by decide)
    obtain rfl : b = b' := Option.some.inj (hb.symm.trans hb')
    have hm' : m ≤ 2 := hm 5000 (by decide)
    have hnext := keysOf_eq_nil fun it hit => (hle it hit).trans_lt (Nat.lt_succ_self m)
    rw [finish_eq hholds hnext, length_blockBytes]
    split
    · have := length_anyKey (g := keysOf [(0, [[97], []]), (100, [[98]]), (5000, [[99]])]) m
      omega
    · have := length_anyKey (g := keysOf [(0, [[97], []]), (100, [[98]]), (5000, [[99]])]) (m + 1)
      omega
  obtain ⟨r, hr, -, hfew⟩ := h hlen
  have hall := hfew fun index => (length_keysOf index).trans_lt (by decide)
  exact ⟨b, r, hb, hr, hall (0, [[97], []]) (by decide) [] (by decide),
    hall (100, [[98]]) (by decide) [98] (by decide), hall (5000, [[99]]) (by decide) [99] (by decide)⟩

/-- Of keys whose number is not positive as an `int`, none is in the filter. -/
theorem anyKey_misses {keys : List Bytes} (hne : keys ≠ []) (hpassed : passed keys ≤ 0) :
    ∃ b r, build anyKey [(0, keys)] = some b ∧ b.finish.length < 2 ^ 32 ∧
      FilterBlockReader.new anyKey b.finish = some r ∧ ∀ key, r.keyMayMatch 0 key = some false := by
  obtain ⟨b, m, hb, h, -, hm⟩ :=
    @build_holds anyKey [(0, keys)] (List.pairwise_singleton _ 0)
  obtain rfl : m = 0 := by
    have hzero := hm 0 (by simp)
    rw [Nat.zero_div] at hzero
    omega
  have hpos : 0 < kFilterBase := by decide
  have hof : keysOf [(0, keys)] 0 = keys := by simp [keysOf, hpos]
  have hfilters : filters anyKey (keysOf [(0, keys)]) 1 = [] := by
    rw [filters, hof, if_neg hne]
    unfold anyKey
    dsimp only
    rw [Int.toNat_of_nonpos hpassed, List.take_zero, if_pos rfl, filters]
  have hfilter : filterAt anyKey (keysOf [(0, keys)]) 0 = [] := by
    rw [filterAt, hfilters]
    rfl
  have hnext : keysOf [(0, keys)] (0 + 1) = [] :=
    keysOf_eq_nil fun it hit => by
      rw [List.mem_singleton.1 hit, Nat.zero_div]
      exact Nat.zero_lt_one
  have hsome : keysOf [(0, keys)] 0 ≠ [] := by rwa [hof]
  have hfinish := finish_eq h hnext
  rw [if_neg hsome] at hfinish
  have hlen : b.finish.length < 2 ^ 32 := by
    rw [hfinish, length_blockBytes, hfilters]
    decide
  obtain ⟨r, hr, hanswer⟩ := keyMayMatch_eq anyKey_contract hfinish hlen
  refine ⟨b, r, hb, hlen, hr, fun key => ?_⟩
  have hindex : 0 / kFilterBase < 0 + 1 := by
    rw [Nat.zero_div]
    exact Nat.zero_lt_one
  rw [hanswer 0 key hindex, Nat.zero_div, hfilter]
  rfl

/-- One block with 2 ^ 31 keys, a number that is negative as an `int`. -/
theorem key_cut_off : anyKey.Contract ∧ ([97] : Bytes) ∈ List.replicate (2 ^ 31) [97] ∧
    ∃ b r, build anyKey [(0, List.replicate (2 ^ 31) [97])] = some b ∧ b.finish.length < 2 ^ 32 ∧
      FilterBlockReader.new anyKey b.finish = some r ∧ r.keyMayMatch 0 [97] = some false := by
  have hin : ([97] : Bytes) ∈ List.replicate (2 ^ 31) [97] :=
    List.mem_replicate.2 ⟨by decide, rfl⟩
  have hpassed : passed (List.replicate (2 ^ 31) [97]) ≤ 0 :=
    passed_nonpos (List.length_replicate ..)
  obtain ⟨b, r, hb, hlen, hr, hmiss⟩ := anyKey_misses (List.ne_nil_of_mem hin) hpassed
  exact ⟨anyKey_contract, hin, b, r, hb, hlen, hr, hmiss [97]⟩

end FilterBlockBuilder

end Yangkv
