import Yangkv.Proof.FilterBlock

/-!
# Reading any bytes as a filter block

Nothing but two words at the end of a filter block says where its table is. The reader is made
for any bytes, and takes what it does not understand for a match.

* `new_inside`: the table of a reader lies inside its bytes.
* `keyMayMatch_of_shift`: so all words that it reads do.
* `reader_any_iff`: when a lookup is defined, and when its answer is no.
-/

namespace Yangkv.FilterBlockReader

open Lib

variable {policy : FilterPolicy} {contents : Bytes} {r : FilterBlockReader}

/-- The last byte is no width for a shift. -/
def BadShift (contents : Bytes) : Prop :=
  5 ≤ contents.length ∧ ∃ c ∈ contents.getLast?, 64 ≤ c.toNat

theorem charToSize_lt_iff (c : UInt8) : charToSize c < 64 ↔ c.toNat < 64 := by
  unfold charToSize
  have hc := c.toNat_lt
  split
  · rfl
  · rename_i hlt
    have hge : ¬ c.toNat < 128 := fun h => hlt (UInt8.lt_iff_toNat_lt.2 h)
    omega

/-- What the fields of a reader have to do with its bytes. -/
structure Inside (r : FilterBlockReader) (contents : Bytes) : Prop where
  table : r.num_ = 0 ∨ r.data_ = contents ∧ r.offset_ + 4 * r.num_ + 5 ≤ contents.length
  shift : 64 ≤ r.base_lg_ ↔ BadShift contents

theorem decodeFixed32_some {bs : Bytes} (h : 4 ≤ bs.length) : ∃ n, decodeFixed32 bs = some n :=
  ⟨leNat (bs.take 4), if_pos h⟩

/-- **A reader is made for any bytes.** -/
theorem new_inside (policy : FilterPolicy) (contents : Bytes) :
    ∃ r, new policy contents = some r ∧ r.policy_ = policy ∧ r.Inside contents := by
  unfold new
  dsimp only
  by_cases hn : contents.length < 5
  · rw [if_pos hn]
    refine ⟨_, rfl, rfl, .inl rfl, ⟨fun h => absurd (show 64 ≤ 0 from h) (by decide), fun h => ?_⟩⟩
    have h5 := h.1
    omega
  rw [if_neg hn]
  have hlt : contents.length - 1 < contents.length := by omega
  have hfour : 4 ≤ (contents.drop (contents.length - 5)).length := by
    rw [List.length_drop]
    omega
  obtain ⟨last_word, hword⟩ := decodeFixed32_some hfour
  have hshift : 64 ≤ charToSize contents[contents.length - 1] ↔ BadShift contents := by
    rw [← not_lt, charToSize_lt_iff, not_lt]
    have hlast : contents.getLast? = some contents[contents.length - 1] := by
      rw [List.getLast?_eq_getElem?, List.getElem?_eq_getElem hlt]
    unfold BadShift
    rw [hlast]
    refine ⟨fun h => ⟨by omega, _, rfl, h⟩, ?_⟩
    rintro ⟨-, c, hc, h⟩
    cases hc
    exact h
  rw [List.getElem?_eq_getElem hlt, hword]
  simp only [Option.bind_eq_bind, Option.bind_some]
  split
  · exact ⟨_, rfl, rfl, .inl rfl, hshift⟩
  · refine ⟨_, rfl, rfl, .inr ⟨rfl, ?_⟩, hshift⟩
    dsimp only
    omega

/-- The table has these words at the index. -/
def EntryAt (r : FilterBlockReader) (index start limit : ℕ) : Prop :=
  index < r.num_ ∧ decodeFixed32 (r.data_.drop (r.offset_ + index * 4)) = some start ∧
    decodeFixed32 (r.data_.drop (r.offset_ + index * 4 + 4)) = some limit

/-- Every index of the table has its two words. -/
theorem Inside.entry (h : r.Inside contents) {index : ℕ} (hi : index < r.num_) :
    ∃ start limit, r.EntryAt index start limit := by
  obtain ⟨hdata, hend⟩ := h.table.resolve_left (Nat.ne_of_gt (Nat.zero_lt_of_lt hi))
  have hword : ∀ o, o + 4 ≤ contents.length → ∃ n, decodeFixed32 (r.data_.drop o) = some n := by
    intro o ho
    apply decodeFixed32_some
    rw [hdata, List.length_drop]
    omega
  obtain ⟨start, hstart⟩ := hword (r.offset_ + index * 4) (by omega)
  obtain ⟨limit, hlimit⟩ := hword (r.offset_ + index * 4 + 4) (by omega)
  exact ⟨start, limit, hi, hstart, hlimit⟩

/-- What the reader says of the filter between two words. -/
def matchIn (r : FilterBlockReader) (start limit : ℕ) (key : Bytes) : Bool :=
  if start ≤ limit ∧ limit ≤ r.offset_ then
    r.policy_.keyMayMatch key ((r.data_.drop start).take (limit - start))
  else start ≠ limit

theorem keyMayMatch_of_entry {offset start limit : ℕ} (hb : r.base_lg_ < 64)
    (he : r.EntryAt (offset >>> r.base_lg_) start limit) (key : Bytes) :
    r.keyMayMatch offset key = some (r.matchIn start limit key) := by
  obtain ⟨hi, hstart, hlimit⟩ := he
  unfold keyMayMatch matchIn
  rw [if_neg (by omega)]
  dsimp only
  rw [if_pos hi, hstart, hlimit]
  simp only [Option.bind_eq_bind, Option.bind_some]
  split
  · rfl
  · by_cases heq : start = limit
    · simp [heq]
    · simp [heq]

theorem keyMayMatch_of_le {offset : ℕ} (hb : r.base_lg_ < 64) (hi : r.num_ ≤ offset >>> r.base_lg_)
    (key : Bytes) : r.keyMayMatch offset key = some true := by
  unfold keyMayMatch
  rw [if_neg (not_le.2 hb)]
  exact if_neg (not_lt.2 hi)

theorem keyMayMatch_of_shift (h : r.Inside contents) (hb : r.base_lg_ < 64) (offset : ℕ)
    (key : Bytes) : ∃ answer, r.keyMayMatch offset key = some answer := by
  by_cases hi : offset >>> r.base_lg_ < r.num_
  · obtain ⟨start, limit, he⟩ := h.entry hi
    exact ⟨_, keyMayMatch_of_entry hb he key⟩
  · exact ⟨true, keyMayMatch_of_le hb (not_lt.1 hi) key⟩

/-- **A filter block of any bytes.** The reader is made. Its lookups read no byte outside, and are
defined unless the last byte is no width for a shift. A lookup that is defined says no only where
the table has two words for it: if a filter lies between them the policy has to say no, and if not
they have to be equal. -/
theorem reader_any_iff (policy : FilterPolicy) (contents : Bytes) :
    ∃ r, new policy contents = some r ∧ ∀ offset key,
      (r.keyMayMatch offset key = none ↔ BadShift contents) ∧
      (¬ BadShift contents → (r.keyMayMatch offset key = some false ↔
        ∃ start limit, r.EntryAt (offset >>> r.base_lg_) start limit ∧
          if start ≤ limit ∧ limit ≤ r.offset_ then
            limit ≤ contents.length ∧
              policy.keyMayMatch key ((contents.drop start).take (limit - start)) = false
          else start = limit)) := by
  obtain ⟨r, hnew, hpolicy, hin⟩ := new_inside policy contents
  refine ⟨r, hnew, fun offset key => ⟨?_, fun hgood => ?_⟩⟩
  · rw [← hin.shift]
    constructor
    · intro hnone
      by_contra hb
      obtain ⟨answer, hsome⟩ := keyMayMatch_of_shift hin (not_le.1 hb) offset key
      rw [hnone] at hsome
      cases hsome
    · exact fun hb => if_pos hb
  · have hb : r.base_lg_ < 64 := not_le.1 fun hb => hgood (hin.shift.1 hb)
    by_cases hi : offset >>> r.base_lg_ < r.num_
    · obtain ⟨hdata, hend⟩ := hin.table.resolve_left (Nat.ne_of_gt (Nat.zero_lt_of_lt hi))
      have hanswer : ∀ start limit, r.matchIn start limit key = false ↔
          if start ≤ limit ∧ limit ≤ r.offset_ then
            limit ≤ contents.length ∧
              policy.keyMayMatch key ((contents.drop start).take (limit - start)) = false
          else start = limit := by
        intro start limit
        unfold matchIn
        rw [hpolicy, hdata]
        split
        · rename_i hinside
          exact ⟨fun h => ⟨by omega, h⟩, fun h => h.2⟩
        · simp
      constructor
      · intro hno
        obtain ⟨start, limit, he⟩ := hin.entry hi
        rw [keyMayMatch_of_entry hb he, Option.some.injEq] at hno
        exact ⟨start, limit, he, (hanswer start limit).1 hno⟩
      · rintro ⟨start, limit, he, hno⟩
        rw [keyMayMatch_of_entry hb he, (hanswer start limit).2 hno]
    · constructor
      · intro hno
        rw [keyMayMatch_of_le hb (not_lt.1 hi)] at hno
        cases hno
      · rintro ⟨start, limit, he, -⟩
        exact absurd he.1 hi

end Yangkv.FilterBlockReader
