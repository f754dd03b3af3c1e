import Yangkv.Proof.Layers

/-!
# What `search` finds in the queue

A snapshot lookup with number `seq` is to answer from the newest slot in
`[r_ptr, w_ptr)` that holds the key with a number of at most `seq`; so `getEntry`
reads the active list (`getEntry_isSome`). `search` keeps the entries with a number
of at least `seq` instead.

* `searchSlot_eq_some`: the slot `search` answers from.
* `snapshotLookup_iff`: `search` is the snapshot lookup exactly where the queue does
  not hold the key, or the newest slot with the key has the number `seq` itself.
-/

namespace Yangkv

open Lib

/-- The filter of `getEntry`: entries that the snapshot `seq` contains. -/
def MemEntry.InSnapshot (e : Entry) (seq : ℕ) : Prop := e.seq_num ≤ seq

/-- `getEntry` passes over exactly the entries that the snapshot does not contain. -/
theorem Writer.getEntry_isSome {wr : Writer} {key : Bytes} {seq : ℕ} {e : Entry}
    (h : wr.list_.find key = some e) :
    (∃ result, wr.getEntry key seq = some (some result)) ↔ e.InSnapshot seq := by
  obtain ⟨slice, hget, hdec⟩ := Option.bind_eq_some_iff.1 h
  unfold Writer.getEntry MemEntry.InSnapshot
  rw [hget]
  simp only [hdec, Option.map_some, Option.some.injEq]
  by_cases hseq : seq < e.seq_num
  · rw [if_pos hseq]
    constructor
    · rintro ⟨result, hr⟩
      cases hr
    · omega
  · rw [if_neg hseq]
    refine ⟨fun _ => by omega, fun _ => ?_⟩
    by_cases hdel : e.value_type = true
    · exact ⟨_, by rw [if_pos hdel]⟩
    · exact ⟨_, by rw [if_neg hdel]⟩

namespace MessageQueue

variable {q : MessageQueue Slice} {key : Bytes} {seq i : ℕ}

/-- Slot `i` counts and holds the key. -/
def HasKey (q : MessageQueue Slice) (key : Bytes) (i : ℕ) : Prop :=
  q.r_ptr ≤ i ∧ i < q.w_ptr ∧ (q.ring.get i).key.bytes = key

/-- Slot `i` counts and holds the key with a number in the snapshot. -/
def Visible (q : MessageQueue Slice) (key : Bytes) (seq i : ℕ) : Prop :=
  q.HasKey key i ∧ (q.ring.get i).InSnapshot seq

/-- Slot `i` is the newest with the key. -/
def NewestKey (q : MessageQueue Slice) (key : Bytes) (i : ℕ) : Prop :=
  q.HasKey key i ∧ ∀ j, q.HasKey key j → j ≤ i

/-- Slot `i` is the newest with the key in the snapshot. -/
def NewestVisible (q : MessageQueue Slice) (key : Bytes) (seq i : ℕ) : Prop :=
  q.Visible key seq i ∧ ∀ j, q.Visible key seq j → j ≤ i

/-! ## The slot that answers -/

/-- The slot from which the loop of `search` answers. -/
def searchSlotLoop (q : MessageQueue Slice) (key : Bytes) (seq last : ℕ) : ℕ → Option ℕ
  | 0 => none
  | turns + 1 =>
    if key = (q.ring.get (last + turns)).key.bytes ∧ seq ≤ (q.ring.get (last + turns)).seq_num then
      some (last + turns)
    else q.searchSlotLoop key seq last turns

/-- The slot from which `search` answers. -/
def searchSlot (q : MessageQueue Slice) (key : Bytes) (seq : ℕ) : Option ℕ :=
  q.searchSlotLoop key seq q.r_ptr (q.w_ptr - q.r_ptr)

/-- What an answer from `entry` returns, and what it leaves in `*value` and `*s`. -/
def answerInto (entry : Entry) (value : Bytes) : Bool × Bytes × Status :=
  if entry.value_type then (true, value, .notFound) else (true, entry.value.bytes, .ok)

theorem answerInto_fst (entry : Entry) (value : Bytes) : (answerInto entry value).1 = true := by
  unfold answerInto
  split <;> rfl

/-- `search` answers from its slot, and without one it assigns nothing. -/
theorem searchInto_eq (q : MessageQueue Slice) (key : Bytes) (seq : ℕ) (value : Bytes)
    (s : Status) : q.searchInto key seq value s =
      (q.searchSlot key seq).elim (false, value, s) fun i => answerInto (q.ring.get i) value := by
  have hloop : ∀ turns, q.searchIntoLoop key seq q.r_ptr value s turns =
      (q.searchSlotLoop key seq q.r_ptr turns).elim (false, value, s)
        fun i => answerInto (q.ring.get i) value := by
    intro turns
    induction turns with
    | zero => rfl
    | succ turns ih =>
      unfold searchIntoLoop searchSlotLoop
      by_cases hc : key = (q.ring.get (q.r_ptr + turns)).key.bytes ∧
          seq ≤ (q.ring.get (q.r_ptr + turns)).seq_num
      · simp only [if_pos hc]
        rfl
      · simp only [if_neg hc]
        exact ih
  exact hloop _

/-- It is the `search` of `getValue`. -/
theorem search_eq (q : MessageQueue Slice) (key : Bytes) (seq : ℕ) :
    q.search key seq = (q.searchSlot key seq).bind fun i => check (q.ring.get i) key seq := by
  have hloop : ∀ turns, q.searchLoop key seq q.r_ptr turns =
      (q.searchSlotLoop key seq q.r_ptr turns).bind fun i => check (q.ring.get i) key seq := by
    intro turns
    induction turns with
    | zero => rfl
    | succ turns ih =>
      unfold searchLoop searchSlotLoop
      by_cases hc : key = (q.ring.get (q.r_ptr + turns)).key.bytes ∧
          seq ≤ (q.ring.get (q.r_ptr + turns)).seq_num
      · have hsome : ∃ r, check (q.ring.get (q.r_ptr + turns)) key seq = some r := by
          unfold check
          rw [if_pos hc]
          split <;> exact ⟨_, rfl⟩
        obtain ⟨r, hr⟩ := hsome
        rw [if_pos hc, Option.bind_some, hr, Option.some_or]
      · have hnone : check (q.ring.get (q.r_ptr + turns)) key seq = none := by
          unfold check
          rw [if_neg hc]
        rw [if_neg hc, hnone, Option.none_or, ih]
  exact hloop _

/-- **`search` answers from the newest slot whose number is not below `seq`.** -/
theorem searchSlot_eq_some : q.searchSlot key seq = some i ↔
    q.HasKey key i ∧ seq ≤ (q.ring.get i).seq_num ∧
      ∀ j, q.HasKey key j → seq ≤ (q.ring.get j).seq_num → j ≤ i := by
  have hloop : ∀ turns, q.searchSlotLoop key seq q.r_ptr turns = some i ↔
      (q.r_ptr ≤ i ∧ i < q.r_ptr + turns ∧ (q.ring.get i).key.bytes = key ∧
        seq ≤ (q.ring.get i).seq_num) ∧
      ∀ j, q.r_ptr ≤ j → j < q.r_ptr + turns → (q.ring.get j).key.bytes = key →
        seq ≤ (q.ring.get j).seq_num → j ≤ i := by
    intro turns
    induction turns with
    | zero =>
      constructor
      · intro h
        cases h
      · rintro ⟨⟨h1, h2, -⟩, -⟩
        omega
    | succ turns ih =>
      unfold searchSlotLoop
      by_cases hc : key = (q.ring.get (q.r_ptr + turns)).key.bytes ∧
          seq ≤ (q.ring.get (q.r_ptr + turns)).seq_num
      · rw [if_pos hc]
        constructor
        · rintro ⟨⟩
          exact ⟨⟨by omega, by omega, hc.1.symm, hc.2⟩, fun j _ hj _ _ => by omega⟩
        · rintro ⟨⟨h1, h2, -⟩, h3⟩
          have hle := h3 (q.r_ptr + turns) (by omega) (by omega) hc.1.symm hc.2
          rw [show q.r_ptr + turns = i by omega]
      · rw [if_neg hc, ih]
        -- the slot looked at first is none of those in question
        have hne : ∀ j, (q.ring.get j).key.bytes = key → seq ≤ (q.ring.get j).seq_num →
            j ≠ q.r_ptr + turns := by
          rintro j h1 h2 rfl
          exact hc ⟨h1.symm, h2⟩
        constructor
        · rintro ⟨⟨h1, h2, h3, h4⟩, h5⟩
          refine ⟨⟨h1, by omega, h3, h4⟩, fun j g1 g2 g3 g4 => h5 j g1 ?_ g3 g4⟩
          have := hne j g3 g4
          omega
        · rintro ⟨⟨h1, h2, h3, h4⟩, h5⟩
          have := hne i h3 h4
          exact ⟨⟨h1, by omega, h3, h4⟩, fun j g1 g2 g3 g4 => h5 j g1 (by omega) g3 g4⟩
  have hle : q.r_ptr ≤ q.w_ptr := q.ring.le
  unfold searchSlot HasKey
  rw [hloop, Nat.add_sub_cancel' hle]
  constructor
  · rintro ⟨⟨h1, h2, h3, h4⟩, h5⟩
    exact ⟨⟨h1, h2, h3⟩, h4, fun j ⟨g1, g2, g3⟩ g4 => h5 j g1 g2 g3 g4⟩
  · rintro ⟨⟨h1, h2, h3⟩, h4, h5⟩
    exact ⟨⟨h1, h2, h3, h4⟩, fun j g1 g2 g3 g4 => h5 j ⟨g1, g2, g3⟩ g4⟩

/-- A key in the queue has a newest slot. -/
theorem HasKey.newest (h : q.HasKey key i) : ∃ j, q.NewestKey key j := by
  have hdec : DecidablePred (q.HasKey key) := fun _ => inferInstanceAs (Decidable (_ ∧ _ ∧ _))
  refine ⟨Nat.findGreatest (q.HasKey key) q.w_ptr, Nat.findGreatest_spec h.2.1.le h, ?_⟩
  exact fun j hj => Nat.le_findGreatest hj.2.1.le hj

/-! ## The snapshot lookup -/

/-- `search` is a snapshot lookup. -/
structure SnapshotLookup (q : MessageQueue Slice) (key : Bytes) (seq : ℕ) : Prop where
  /-- it returns true exactly when some slot shows the key in the snapshot -/
  found : ∀ value s, (q.searchInto key seq value s).1 = true ↔ ∃ i, q.Visible key seq i
  /-- it answers from the newest of these slots -/
  newest : ∀ i, q.searchSlot key seq = some i → q.NewestVisible key seq i ∧
    ∀ value s, q.searchInto key seq value s = answerInto (q.ring.get i) value
  /-- where it returns false it assigns nothing -/
  unchanged : ∀ value s, (q.searchInto key seq value s).1 = false →
    q.searchInto key seq value s = (false, value, s)
  /-- `getEntry` has the same filter for the entry in the active list -/
  filter : ∀ (wr : Writer) e, wr.list_.find key = some e →
    ((∃ result, wr.getEntry key seq = some (some result)) ↔ e.InSnapshot seq)

theorem searchInto_of_slot (hs : q.searchSlot key seq = some i) (value : Bytes) (s : Status) :
    q.searchInto key seq value s = answerInto (q.ring.get i) value := by
  rw [searchInto_eq, hs]
  rfl

theorem searchInto_of_none (hs : q.searchSlot key seq = none) (value : Bytes) (s : Status) :
    q.searchInto key seq value s = (false, value, s) := by
  rw [searchInto_eq, hs]
  rfl

/-- A snapshot lookup never passes over the newest slot with the key, nor answers from a newer one. -/
theorem SnapshotLookup.seq_eq (h : q.SnapshotLookup key seq) (hi : q.NewestKey key i) :
    (q.ring.get i).seq_num = seq := by
  obtain ⟨hkey, hmax⟩ := hi
  by_contra hne
  by_cases hlt : (q.ring.get i).seq_num < seq
  · -- the slot is visible, but `search` passes over it
    have hvis : q.Visible key seq i := ⟨hkey, hlt.le⟩
    have htrue := (h.found [] .ok).2 ⟨i, hvis⟩
    cases hs : q.searchSlot key seq with
    | none =>
      rw [searchInto_of_none hs] at htrue
      cases htrue
    | some j =>
      have hij := (h.newest j hs).1.2 i hvis
      obtain ⟨hj, hge, -⟩ := searchSlot_eq_some.1 hs
      have hji := hmax j hj
      rw [show j = i by omega] at hge
      omega
  · -- `search` answers from the slot, which is newer than the snapshot
    have hs : q.searchSlot key seq = some i :=
      searchSlot_eq_some.2 ⟨hkey, by omega, fun j hj _ => hmax j hj⟩
    have hle : (q.ring.get i).seq_num ≤ seq := (h.newest i hs).1.1.2
    omega

/-- A slot with the key makes `search` answer from the newest one. -/
theorem searchSlot_newest (h : ∀ i, q.NewestKey key i → (q.ring.get i).seq_num = seq)
    (hi : q.HasKey key i) : ∃ j, q.searchSlot key seq = some j ∧ q.NewestVisible key seq j := by
  obtain ⟨j, hj⟩ := hi.newest
  have hseq := h j hj
  exact ⟨j, searchSlot_eq_some.2 ⟨hj.1, by omega, fun k hk _ => hj.2 k hk⟩,
    ⟨hj.1, by unfold MemEntry.InSnapshot; omega⟩, fun k hk => hj.2 k hk.1⟩

/-- **`search` is the snapshot lookup exactly where the newest slot with the key has the number
`seq` itself**, or no slot has the key. -/
theorem snapshotLookup_iff : q.SnapshotLookup key seq ↔
    ∀ i, q.NewestKey key i → (q.ring.get i).seq_num = seq := by
  refine ⟨fun h i hi => h.seq_eq hi, fun h => ?_⟩
  constructor
  case found =>
    intro value s
    constructor
    · intro htrue
      cases hs : q.searchSlot key seq with
      | none =>
        rw [searchInto_of_none hs] at htrue
        cases htrue
      | some i =>
        obtain ⟨j, -, hj⟩ := searchSlot_newest h (searchSlot_eq_some.1 hs).1
        exact ⟨j, hj.1⟩
    · rintro ⟨j, hj⟩
      obtain ⟨i, hs, -⟩ := searchSlot_newest h hj.1
      rw [searchInto_of_slot hs, answerInto_fst]
  case newest =>
    intro i hs
    refine ⟨?_, searchInto_of_slot hs⟩
    obtain ⟨j, hs', hj⟩ := searchSlot_newest h (searchSlot_eq_some.1 hs).1
    rw [hs] at hs'
    cases hs'
    exact hj
  case unchanged =>
    intro value s hf
    cases hs : q.searchSlot key seq with
    | none => exact searchInto_of_none hs value s
    | some i =>
      rw [searchInto_of_slot hs, answerInto_fst] at hf
      cases hf
  case filter => exact fun wr e => Writer.getEntry_isSome

end MessageQueue

/-! ## A run -/

/-- One call of `setKey`, to its end, with no step of the writer thread. -/
def queuedWrite : List Store.Label :=
  .callSet 0 [97] [98] false :: List.replicate 8 (.client 0)

/-- **A write that has returned is not found in the queue.** Slot 1 holds it with number 1, and
`getValue` searches with number 2. -/
theorem search_misses_queued : ∃ s,
    Store.machine.Exec Store.SizedStep freshStore (oneWriteEvents) s ∧
      (s.writer_ 2).queue_.Visible [97] s.idx_ 1 ∧
      ¬ (s.writer_ 2).queue_.SnapshotLookup [97] s.idx_ := by
  have hr : (Store.machine.exec Store.SizedStep freshStore queuedWrite).map (fun r =>
      (r.1, (r.2.writer_ 2).queue_.r_ptr, (r.2.writer_ 2).queue_.w_ptr,
        ((r.2.writer_ 2).queue_.ring.get 1).key.bytes,
        ((r.2.writer_ 2).queue_.ring.get 1).seq_num, r.2.idx_)) =
      some (oneWriteEvents, 1, 2, [97], 1, 2) := by decide +kernel
  obtain ⟨⟨h, s⟩, hexec, hr⟩ := Option.map_eq_some_iff.1 hr
  simp only [Prod.mk.injEq] at hr
  obtain ⟨rfl, hrd, hwr, hkey, hnum, hidx⟩ := hr
  have hhas : (s.writer_ 2).queue_.HasKey [97] 1 := ⟨hrd.le, by omega, hkey⟩
  have hvis : (s.writer_ 2).queue_.Visible [97] s.idx_ 1 :=
    ⟨hhas, by unfold MemEntry.InSnapshot; omega⟩
  refine ⟨s, Machine.exec_sound hexec, hvis, fun hsnap => ?_⟩
  have htrue := (hsnap.found [] .ok).2 ⟨1, hvis⟩
  rw [MessageQueue.searchInto_eq] at htrue
  cases hs : (s.writer_ 2).queue_.searchSlot [97] s.idx_ with
  | none =>
    rw [hs] at htrue
    cases htrue
  | some i =>
    obtain ⟨⟨hle, hlt, -⟩, hge, -⟩ := MessageQueue.searchSlot_eq_some.1 hs
    rw [show i = 1 by omega] at hge
    omega

end Yangkv
