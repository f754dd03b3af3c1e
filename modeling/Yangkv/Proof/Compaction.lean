import Yangkv.Proof.Merge
import Yangkv.Spec.Compacter

/-!
# A round of the compacter

`compact` writes the frozen lists into a table and `apply` makes a version that has the
table and no lists. `Version::Get` does not look into tables.

* `compactRound_returns`: a round of a full version ends, and its table has the newest
  value of every key.
* `compactRound_spec`: the round changes the version only, which is left without lists.
* `compaction_invisible_iff`: a key reads the same before and after the round exactly if
  the queue or the active list answers for it, or its newest frozen entry is no value.
-/

namespace Yangkv

open Lib

/-! ## The round -/

section

variable {s s' : Store} {c c' : Compacter} {file file' : WritableFile}

/-- The files of a version, with one more on level 0. -/
def withFile (files : Fin kMaxLevel → List FileMetaData) (f : FileMetaData) :
    Fin kMaxLevel → List FileMetaData :=
  Function.update files 0 (files 0 ++ [f])

/-- **A round replaces the version by one without lists**, and changes nothing else. -/
theorem compactRound_spec (hr : s.compactRound c file = some (c', file', s'))
    (hfull : s.current_.isFull = true) :
    ∃ f, buildTable s.current_.list_ file c'.file_seq_num_ = some (file', f) ∧
      s' = { s with current_ := { Version.new with files_ := withFile s.current_.files_ f } } := by
  unfold Store.compactRound at hr
  rw [if_pos hfull] at hr
  obtain ⟨⟨c₁, file₁, v⟩, hround, hr⟩ := Option.map_eq_some_iff.1 hr
  cases hr
  unfold Compacter.round Compacter.compact at hround
  simp only [Option.bind_eq_bind] at hround
  cases hb : buildTable s.current_.list_ file ((c.file_seq_num_ + 1) % 2 ^ 32) with
  | none => rw [hb] at hround; cases hround
  | some p =>
    rw [hb] at hround
    cases hround
    exact ⟨p.2, hb, rfl⟩

/-- **A round of a full version ends, with a table of the newest values.** -/
theorem compactRound_returns (hfull : s.current_.isFull = true) (h : Routed s.current_.list_)
    (hne : kept s.current_.list_ ≠ []) (hn : (MergeIterator.new s.current_.list_).size < 2 ^ 28)
    {ws : List WriteResult} (hw : WriteResult.fail ∉ ws) (ss cs : List Bool) (c : Compacter) :
    ∃ c' file' s' table, s.compactRound c (.create ws ss cs) = some (c', file', s') ∧
      tableBlocks file'.fd = some table ∧ table.flatMap Prod.snd = kept s.current_.list_ := by
  obtain ⟨-, table, file', f, -, h2, -, -, h3, h4, -⟩ :=
    buildTable_stored h hne hn hw ss cs ((c.file_seq_num_ + 1) % 2 ^ 32)
  refine ⟨⟨(c.file_seq_num_ + 1) % 2 ^ 32⟩, file',
    { s with current_ := { Version.new with files_ := withFile s.current_.files_ f } }, table, ?_,
    h3, h4⟩
  unfold Store.compactRound
  rw [if_pos hfull]
  unfold Compacter.round Compacter.compact
  simp only [h2, Option.bind_eq_bind, Option.bind_some]
  rfl

end

/-! ## Reading -/

theorem MessageQueue.check_isSome {e : Entry} {k : Bytes} {seq : ℕ} :
    (MessageQueue.check e k seq).isSome = true ↔ e.key.bytes = k ∧ seq ≤ e.seq_num := by
  unfold MessageQueue.check
  split
  · rename_i h
    refine ⟨fun _ => ⟨h.1.symm, h.2⟩, fun _ => ?_⟩
    split <;> rfl
  · rename_i h
    exact ⟨fun hs => (by cases hs), fun hs => absurd ⟨hs.1.symm, hs.2⟩ h⟩

theorem MessageQueue.searchLoop_isSome {q : MessageQueue Slice} {k : Bytes} {seq last turns : ℕ} :
    (q.searchLoop k seq last turns).isSome = true ↔
      ∃ i < turns, (q.ring.get (last + i)).key.bytes = k ∧ seq ≤ (q.ring.get (last + i)).seq_num := by
  induction turns with
  | zero => exact ⟨fun h => (by cases h), fun ⟨i, hi, _⟩ => absurd hi (Nat.not_lt_zero i)⟩
  | succ turns ih =>
    unfold MessageQueue.searchLoop
    rw [Option.isSome_or, Bool.or_eq_true, ih, MessageQueue.check_isSome]
    constructor
    · rintro (h | ⟨i, hi, h⟩)
      · exact ⟨turns, Nat.lt_succ_self _, h⟩
      · exact ⟨i, Nat.lt_succ_of_lt hi, h⟩
    · rintro ⟨i, hi, h⟩
      rcases Nat.lt_succ_iff_lt_or_eq.1 hi with hi | rfl
      · exact .inr ⟨i, hi, h⟩
      · exact .inl h

/-- `search` answers from a slot whose number is not below the given one. -/
theorem MessageQueue.search_isSome {q : MessageQueue Slice} {k : Bytes} {seq : ℕ} :
    (q.search k seq).isSome = true ↔ ∃ e ∈ q.contents, e.key.bytes = k ∧ seq ≤ e.seq_num := by
  unfold MessageQueue.search MessageQueue.contents Ring.contents
  rw [MessageQueue.searchLoop_isSome]
  constructor
  · rintro ⟨i, hi, h⟩
    exact ⟨_, List.mem_map.2 ⟨i, List.mem_range.2 hi, rfl⟩, h⟩
  · rintro ⟨e, he, h⟩
    obtain ⟨i, hi, rfl⟩ := List.mem_map.1 he
    exact ⟨i, List.mem_range.1 hi, h⟩

/-- The queue or the active list of the key's writer answers for it. -/
def Shadowed (s : Store) (k : Bytes) : Prop :=
  (∃ e ∈ (s.writer_ (writerOf k)).queue_.contents, e.key.bytes = k ∧ s.idx_ ≤ e.seq_num) ∨
    ∃ e, (s.writer_ (writerOf k)).list_.find k = some e ∧ e.seq_num ≤ s.idx_

variable {s : Store} {k : Bytes}

/-- What answers above the version does so whatever the version is. -/
theorem getValue_shadowed (h : Shadowed s k) (v : Version SkipList) :
    { s with current_ := v }.getValue k = s.getValue k := by
  unfold Store.getValue Store.readLists
  cases hq : (s.writer_ (writerOf k)).queue_.search k s.idx_ with
  | some r => rfl
  | none =>
    rcases h with h | ⟨e, he, hle⟩
    · rw [← MessageQueue.search_isSome, hq] at h
      cases h
    · obtain ⟨slice, hg, hd⟩ := Option.bind_eq_some_iff.1 he
      have : (s.writer_ (writerOf k)).getEntry k s.idx_ = some (some (answerOf (some e))) := by
        unfold Writer.getEntry
        rw [hg]
        simp only [hd, Option.map_some, if_neg (Nat.not_lt.2 hle), answerOf]
        split <;> rfl
      simp only [this, Option.bind_some]

/-- What nothing above the version answers for is read from the version. -/
theorem getValue_version (ha : (s.writer_ (writerOf k)).list_.From MemEntry.Bounded)
    (h : ¬ Shadowed s k) (v : Version SkipList) :
    { s with current_ := v }.getValue k = { s with current_ := v }.readVersion k := by
  obtain ⟨h1, h2⟩ := not_or.1 h
  have hq : (s.writer_ (writerOf k)).queue_.search k s.idx_ = none := by
    rw [← MessageQueue.search_isSome] at h1
    exact Option.not_isSome_iff_eq_none.1 h1
  have he : (s.writer_ (writerOf k)).getEntry k s.idx_ = some none := by
    unfold Writer.getEntry
    cases hg : (s.writer_ (writerOf k)).list_.get k with
    | none => rfl
    | some slice =>
      obtain ⟨e, hd, hf, -⟩ := ha.get_some hg
      have hlt : s.idx_ < e.seq_num := Nat.lt_of_not_le fun hle => h2 ⟨e, hf, hle⟩
      simp only [hd, Option.map_some, if_pos hlt]
  unfold Store.getValue Store.readLists
  simp only [hq, he, Option.bind_some]

/-- Without lists nothing is found. -/
theorem readVersion_noLists (s : Store) (files : Fin kMaxLevel → List FileMetaData) (k : Bytes) :
    { s with current_ := { Version.new with files_ := files } }.readVersion k =
      some (.notFound, none) :=
  Store.readVersion_ok fun _ hl => absurd hl List.not_mem_nil

/-- What a reader finds in the version: no value where the newest entry is a deletion. -/
theorem answerOf_notFound {o : Option Entry} :
    answerOf o = (.notFound, none) ↔ ∀ e, o = some e → e.value_type = true := by
  cases o with
  | none => exact ⟨fun _ e he => (by cases he), fun _ => rfl⟩
  | some e =>
    simp only [answerOf]
    by_cases hd : e.value_type = true
    · rw [if_pos hd]
      exact ⟨fun _ _ he => Option.some.inj he ▸ hd, fun _ => rfl⟩
    · rw [if_neg hd]
      exact ⟨fun h => (by cases h), fun h => absurd (h e rfl) hd⟩

section

variable {s' : Store} {c c' : Compacter} {file file' : WritableFile}

/-- **A key reads the same before and after a round of the compacter exactly if the queue or the
active list answers for it, or its newest frozen entry is no value.** -/
theorem compaction_invisible_iff (hr : s.compactRound c file = some (c', file', s'))
    (hfull : s.current_.isFull = true)
    (hl : ∀ l ∈ s.current_.list_ (writerOf k), l.From MemEntry.Bounded)
    (ha : (s.writer_ (writerOf k)).list_.From MemEntry.Bounded) :
    s'.getValue k = s.getValue k ↔
      Shadowed s k ∨ ∀ e, newest s.current_.list_ k = some e → e.value_type = true := by
  obtain ⟨f, -, rfl⟩ := compactRound_spec hr hfull
  by_cases hs : Shadowed s k
  · exact ⟨fun _ => .inl hs, fun _ => getValue_shadowed hs _⟩
  have hbefore : s.getValue k = some (answerOf (newest s.current_.list_ k)) :=
    (getValue_version ha hs s.current_).trans (Store.readVersion_ok hl)
  have hafter := (getValue_version ha hs _).trans
    (readVersion_noLists s (withFile s.current_.files_ f) k)
  rw [hbefore, hafter, Option.some_inj, eq_comm, answerOf_notFound]
  exact ⟨.inr, fun h => h.resolve_left hs⟩

end

/-! ## A full version -/

/-- A frozen list of ten keys of the writer of the key 97, numbered from `id` on. -/
def tenKeys (id : ℕ) : SkipList :=
  (List.range kMaxActiveListSize).foldl
    (fun l i => (l.insert (Store.entryOf [.ofNat (97 + 4 * i)] [49] (id + i) false)).getD l) .empty

/-- The store after ten keys were written ten times. -/
def fullStore : Store :=
  { freshStore with
    idx_ := 101
    current_ :=
      { list_ := fun w =>
          if w = 2 then (List.range kMaxFrozenList).map fun i => tenKeys (1 + 10 * i) else []
        list_count_ := kMaxFrozenList
        files_ := fun _ => [] } }

theorem tenKeys_from {id : ℕ} (hid : id + kMaxActiveListSize ≤ 2 ^ 56) :
    (tenKeys id).From fun e => e.Bounded ∧ writerOf e.key.bytes = 2 := by
  have hentry : ∀ i ∈ List.range kMaxActiveListSize,
      (Store.entryOf [.ofNat (97 + 4 * i)] [49] (id + i) false).Bounded ∧
        writerOf [.ofNat (97 + 4 * i)] = 2 := by
    have hw : ∀ i ∈ List.range kMaxActiveListSize, writerOf [.ofNat (97 + 4 * i)] = 2 := by decide
    intro i hi
    have hlt := List.mem_range.1 hi
    exact ⟨bounded_entryOf (show 1 + 9 < 2 ^ 32 by decide) (show 1 + 1 < 2 ^ 32 by decide) (by omega),
      hw i hi⟩
  unfold tenKeys
  refine List.foldlRecOn _ _ SkipList.from_empty fun l hl i hi => ?_
  cases h : l.insert (Store.entryOf [.ofNat (97 + 4 * i)] [49] (id + i) false) with
  | none => exact hl
  | some l' => exact hl.insert (hentry i hi) h

theorem fullStore_routed : Routed fullStore.current_.list_ := by
  intro w l hl
  by_cases hw : w = 2
  · subst hw
    obtain ⟨i, hi, rfl⟩ := List.mem_map.1 hl
    have hlt : i < 10 := List.mem_range.1 hi
    exact tenKeys_from (by rw [show kMaxActiveListSize = 10 from rfl]; omega)
  · have hnil : fullStore.current_.list_ w = [] := if_neg hw
    rw [hnil] at hl
    cases hl

theorem compaction_invisible_iff_fullStore : ∃ c' file' s',
    fullStore.compactRound ⟨0⟩ (.create [] [] []) = some (c', file', s') ∧
      s'.getValue [97] ≠ fullStore.getValue [97] := by
  have hne : kept fullStore.current_.list_ ≠ [] := by decide +kernel
  obtain ⟨c', file', s', -, hr, -⟩ := compactRound_returns (by decide) fullStore_routed hne
    (by decide +kernel) List.not_mem_nil [] [] ⟨0⟩
  refine ⟨c', file', s', hr, fun heq => ?_⟩
  rcases (compaction_invisible_iff hr (by decide) fullStore_routed.bounded SkipList.from_empty).1 heq
    with (⟨e, he, -⟩ | ⟨e, he, -⟩) | hdel
  · exact absurd he List.not_mem_nil
  · rw [show fullStore.writer_ = freshStore.writer_ from rfl] at he
    exact absurd he (by simp [freshStore])
  · have hnew : (newest fullStore.current_.list_ [97]).map (·.value_type) = some false := by
      decide +kernel
    obtain ⟨e, he, hv⟩ := Option.map_eq_some_iff.1 hnew
    rw [hdel e he] at hv
    cases hv

/-- A round makes a key that was written and never deleted read as not found. -/
theorem compaction_forgets : ∃ (s s' : Store) (c c' : Compacter) (file file' : WritableFile),
    s.current_.isFull = true ∧ Routed s.current_.list_ ∧ s.compactRound c file = some (c', file', s') ∧
    s.getValue [97] = some (.ok, some [49]) ∧ s'.getValue [97] = some (.notFound, none) := by
  have hr : (fullStore.compactRound ⟨0⟩ (.create [] [] [])).map (fun r => r.2.2.getValue [97]) =
      some (some (.notFound, none)) := by decide +kernel
  obtain ⟨⟨c', file', s'⟩, h1, h2⟩ := Option.map_eq_some_iff.1 hr
  exact ⟨fullStore, s', ⟨0⟩, c', _, file', by decide, fullStore_routed, h1, by decide +kernel, h2⟩

end Yangkv
