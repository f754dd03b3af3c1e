import Yangkv.Proof.Merge
import Yangkv.Proof.MergeLookup

/-!
# Looking a key up in a table file

The separators in the index of a table are there for a reader that takes the first block
whose separator is not below its key. No code here reads tables, so `findInTable` is that
reader.

* `findInTable_eq`: where the separators lead to every entry, it finds what the blocks hold.
* `buildTable_finds`: in the table of frozen lists it finds the values of the newest entries,
  if no block is too large.
* `buildTable_bounds`: the metadata of the table let their keys be searched in it.
-/

namespace Yangkv

open Lib

/-- The value of a key in a table file, from the one block that may hold it. -/
def findInTable (file key : Bytes) : Option Bytes := do
  let table ← readTable file
  let block ← table.find? fun t => sliceCompare key t.1 ≠ .gt
  let entry ← block.2.find? fun e => e.1 = key
  some entry.2

/-- **One block is enough.** -/
theorem findInTable_eq {file : Bytes} {table : List (Bytes × List (Bytes × Bytes))}
    (hread : readTable file = some table) (hs : SortedKeys (table.flatMap Prod.snd))
    (hl : LeadsTo table) (k : Bytes) :
    findInTable file k = ((table.flatMap Prod.snd).find? fun e => e.1 = k).map Prod.snd := by
  unfold findInTable
  simp only [hread, Option.bind_eq_bind, Option.bind_some]
  by_cases hk : ∃ e ∈ table.flatMap Prod.snd, e.1 = k
  · obtain ⟨e, he, rfl⟩ := hk
    obtain ⟨t, ht, het⟩ := hl e he
    have hblock : SortedKeys t.2 :=
      (List.pairwise_flatMap.1 hs).1 t (List.mem_of_find?_eq_some ht)
    rw [ht, Option.bind_some, hblock.find_key het, hs.find_key he]
    rfl
  · have hnone : (table.flatMap Prod.snd).find? (fun e => e.1 = k) = none :=
      List.find?_eq_none.2 fun e he => by simpa using fun h => hk ⟨e, he, h⟩
    rw [hnone, Option.map_none]
    cases ht : table.find? fun t => sliceCompare k t.1 ≠ .gt with
    | none => rfl
    | some t =>
      have hempty : t.2.find? (fun e => e.1 = k) = none :=
        List.find?_eq_none.2 fun e he => by
          have hmem := List.mem_flatMap.2 ⟨t, List.mem_of_find?_eq_some ht, he⟩
          simpa using fun h => hk ⟨e, hmem, h⟩
      rw [Option.bind_some, hempty]
      rfl

/-! ## The table of frozen lists -/

section

variable {lists : Fin kMaxWriter → List SkipList} {file file' : WritableFile} {number : ℕ}
  {f : FileMetaData} {k : Bytes}

theorem buildTable_metadata (h : buildTable lists file number = some (file', f)) :
    (MergeIterator.new lists).setMetaData = some (f.smallest, f.largest) ∧ f.number = number := by
  unfold buildTable at h
  simp only [Option.bind_eq_bind, Option.bind_eq_some_iff] at h
  obtain ⟨r₀, -, ⟨smallest, largest⟩, hm, r₁, -, r₂, -, h⟩ := h
  rw [hm]
  simp only at h
  split at h
  · split at h
    · cases h
    · cases h
      exact ⟨rfl, rfl⟩
  · cases h
    exact ⟨rfl, rfl⟩

theorem mem_kept (h : Routed lists) {v : Bytes} :
    (k, v) ∈ kept lists ↔ (newest lists k).map (·.value.bytes) = some v := by
  rw [← h.kept_get k]
  exact Std.TreeMap.mem_toList_iff_getElem?_eq_some

/-- The keys of the lists are between the bounds of the table. -/
theorem buildTable_bounds (h : Routed lists) (hb : buildTable lists file number = some (file', f))
    (hk : (newest lists k).isSome) : f.mayInFile k = true := by
  obtain ⟨e, he⟩ := Option.isSome_iff_exists.1 hk
  rw [h.newest_eq] at he
  obtain ⟨slice, hs, -⟩ := Option.bind_eq_some_iff.1 he
  have hmem : (k, slice) ∈ (MergeIterator.new lists).toList :=
    Std.TreeMap.mem_toList_iff_getElem?_eq_some.2 hs
  have hkeys : ∀ it ∈ (MergeIterator.new lists).toList, ∀ e, decodeSlice it.2 = some e →
      e.key.bytes = it.1 := by
    intro it hit e he
    obtain ⟨e', h1, h2⟩ := h.decodes it hit
    rw [he, Option.some.injEq] at h1
    rw [h1]
    exact h2
  obtain ⟨entries, hall, -⟩ := exists_forall₂ h.decodes
  obtain ⟨smallest, largest, hm, -, -, hin⟩ :=
    setMetaData_bounds hall hkeys (sorted_keys _) (List.ne_nil_of_mem hmem)
  rw [(buildTable_metadata hb).1, Option.some.injEq, Prod.mk.injEq] at hm
  have hk := hin f.file_size f.number _ hmem
  rw [← hm.1, ← hm.2] at hk
  exact hk

/-- **Lookups in the table of frozen lists**, where `ReadBlock` reads all of its blocks. -/
theorem buildTable_finds (h : Routed lists) (hn : (MergeIterator.new lists).size < 2 ^ 28)
    {ws : List WriteResult} (hw : WriteResult.fail ∉ ws) {ss cs : List Bool}
    (hb : buildTable lists (.create ws ss cs) number = some (file', f))
    (hsmall : SmallBlocks .default (keptCalls lists)) (k : Bytes) :
    findInTable file'.fd k = (newest lists k).map (·.value.bytes) := by
  have hne : kept lists ≠ [] := by
    intro hnil
    rw [buildTable_nil hnil] at hb
    cases hb
  obtain ⟨r, table, file, metadata, -, hb', -, -, -, hflat, hl, hread⟩ :=
    buildTable_stored h hne hn hw ss cs number
  rw [hb, Option.some.injEq, Prod.mk.injEq] at hb'
  rw [← hb'.1] at hread
  rw [findInTable_eq (hread hsmall) (hflat ▸ sorted_kept lists) hl, hflat]
  cases hv : (newest lists k).map (·.value.bytes) with
  | some v => rw [(sorted_kept lists).find_key ((mem_kept h).2 hv), Option.map_some]
  | none =>
    have hnone : (kept lists).find? (fun e => e.1 = k) = none := by
      refine List.find?_eq_none.2 fun e he => ?_
      have hek : e.1 ≠ k := by
        rintro rfl
        rw [mem_kept h, hv] at he
        cases he
      simpa using hek
    rw [hnone, Option.map_none]

end

end Yangkv
