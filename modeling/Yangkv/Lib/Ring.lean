import Mathlib.Data.List.Basic
import Mathlib.Data.List.Range
import Mathlib.Data.Nat.ModEq

/-!
# Bounded ring buffers

`n` slots addressed modulo `n` by two counters that only grow. The counters carry
`rd ≤ wr ≤ rd + n`, so a ring that holds more than it has room for cannot be built.
`contents` lists the slots between the counters, oldest first.

* `contents_push`, `contents_pop`: a push appends, a pop drops the front.
* `contents_put`: writing the slot behind a ring that is not full shows nothing.
-/

namespace Yangkv.Lib

/-- A ring of `n` slots, read at `rd` and written at `wr`. -/
structure Ring (α : Type*) (n : ℕ) where
  slot : ℕ → α
  rd : ℕ
  wr : ℕ
  le : rd ≤ wr
  room : wr ≤ rd + n

namespace Ring

variable {α β : Type*} {n : ℕ}

/-- A ring with nothing in it and both counters at `i`. -/
def emptyAt (slot : ℕ → α) (i : ℕ) : Ring α n := ⟨slot, i, i, le_rfl, Nat.le_add_right i n⟩

/-- What slot number `i` holds. -/
def get (q : Ring α n) (i : ℕ) : α := q.slot (i % n)

/-- The entries in the ring, oldest first. -/
def contents (q : Ring α n) : List α := (List.range (q.wr - q.rd)).map fun i => q.get (q.rd + i)

def isFull (q : Ring α n) : Bool := q.wr - q.rd == n

def isEmpty (q : Ring α n) : Bool := q.wr == q.rd

/-- Write the slot behind the last entry, without counting it in. -/
def put (q : Ring α n) (a : α) : Ring α n :=
  { q with slot := Function.update q.slot (q.wr % n) a }

/-- Count in the slot behind the last entry. -/
def advance (q : Ring α n) (h : q.isFull = false) : Ring α n :=
  { q with
    wr := q.wr + 1
    le := by have := q.le; omega
    room := by
      have := q.le
      have := q.room
      have h : q.wr - q.rd ≠ n := by simpa [isFull] using h
      omega }

/-- Drop the front entry. -/
def pop (q : Ring α n) (h : q.isEmpty = false) : Ring α n :=
  { q with
    rd := q.rd + 1
    le := by
      have := q.le
      have h : q.wr ≠ q.rd := by simpa [isEmpty] using h
      omega
    room := by have := q.room; omega }

/-- The ring with every entry rewritten. -/
def map (f : α → β) (q : Ring α n) : Ring β n :=
  { slot := fun i => f (q.slot i), rd := q.rd, wr := q.wr, le := q.le, room := q.room }

variable {q : Ring α n} {a : α}

@[simp] theorem contents_emptyAt (slot : ℕ → α) (i : ℕ) :
    (emptyAt slot i : Ring α n).contents = [] := by
  simp [contents, emptyAt]

@[simp] theorem length_contents : q.contents.length = q.wr - q.rd := by simp [contents]

theorem isFull_iff : q.isFull = true ↔ q.contents.length = n := by
  simp [isFull]

theorem isEmpty_iff : q.isEmpty = true ↔ q.contents = [] := by
  have := q.le
  rw [← List.length_eq_zero_iff, length_contents, isEmpty, beq_iff_eq]; omega

theorem length_contents_le : q.contents.length ≤ n := by
  have := q.room; rw [length_contents]; omega

theorem contents_getElem? {i : ℕ} (hi : i < q.wr - q.rd) :
    q.contents[i]? = some (q.get (q.rd + i)) := by
  simp [contents, List.getElem?_range hi]

/-- A slot between the counters holds one of the entries. -/
theorem get_mem {i : ℕ} (h1 : q.rd ≤ i) (h2 : i < q.wr) : q.get i ∈ q.contents := by
  have := contents_getElem? (q := q) (i := i - q.rd) (by omega)
  rw [Nat.add_sub_cancel' h1] at this
  exact List.mem_of_getElem? this

theorem contents_front (h : q.isEmpty = false) : q.contents.head? = some (q.get q.rd) := by
  have := q.le
  have h : q.wr ≠ q.rd := by simpa [isEmpty] using h
  rw [List.head?_eq_getElem?, contents_getElem? (by omega), Nat.add_zero]

theorem contents_pop (h : q.isEmpty = false) : (q.pop h).contents = q.contents.tail := by
  have := q.le
  have hne : q.wr ≠ q.rd := by simpa [isEmpty] using h
  obtain ⟨m, hm⟩ : ∃ m, q.wr - q.rd = m + 1 := ⟨q.wr - q.rd - 1, by omega⟩
  have hm' : q.wr - (q.rd + 1) = m := by omega
  simp only [contents, pop, hm, hm', List.range_succ_eq_map, List.map_cons, List.tail_cons,
    List.map_map]
  refine List.map_congr_left fun i _ => ?_
  simp only [Function.comp, get]
  congr 2; omega

@[simp] theorem put_rd : (q.put a).rd = q.rd := rfl

@[simp] theorem put_wr : (q.put a).wr = q.wr := rfl

@[simp] theorem isFull_put : (q.put a).isFull = q.isFull := rfl

theorem get_put (i : ℕ) : (q.put a).get i = if i % n = q.wr % n then a else q.get i := by
  simp only [get, put, Function.update_apply]

/-- The slot behind the entries of a ring that is not full is none of theirs. -/
theorem slot_ne {i : ℕ} (hf : q.isFull = false) (h1 : q.rd ≤ i) (h2 : i < q.wr) :
    i % n ≠ q.wr % n := by
  have := q.room
  have hf : q.wr - q.rd ≠ n := by simpa [isFull] using hf
  intro he
  have hd : n ∣ q.wr - i := (Nat.modEq_iff_dvd' h2.le).1 he
  have := Nat.le_of_dvd (by omega) hd
  omega

theorem get_put_ne {i : ℕ} (hf : q.isFull = false) (h1 : q.rd ≤ i) (h2 : i < q.wr) :
    (q.put a).get i = q.get i := by
  rw [get_put, if_neg (slot_ne hf h1 h2)]

/-- Writing the slot behind the entries changes none of them. -/
theorem contents_put (hf : q.isFull = false) : (q.put a).contents = q.contents := by
  refine List.map_congr_left fun i hi => ?_
  rw [put_wr, put_rd, List.mem_range] at hi
  have := q.le
  exact get_put_ne hf (by simp) (by rw [put_rd]; omega)

/-- Counting in the written slot appends its entry. -/
theorem contents_advance (hf : q.isFull = false) :
    (q.advance hf).contents = q.contents ++ [q.get q.wr] := by
  have := q.le
  have h1 : q.wr + 1 - q.rd = (q.wr - q.rd) + 1 := by omega
  have h2 : q.rd + (q.wr - q.rd) = q.wr := by omega
  simp only [contents, advance, h1, List.range_succ, List.map_append, List.map_cons, List.map_nil]
  congr 2
  simp only [get, h2]

theorem get_put_self : (q.put a).get q.wr = a := by simp [put, get]

/-- **A push appends.** -/
theorem contents_push (hf : (q.put a).isFull = false) :
    ((q.put a).advance hf).contents = q.contents ++ [a] := by
  rw [contents_advance, contents_put (by simpa using hf), put_wr, get_put_self]

theorem contents_map (f : α → β) : (q.map f).contents = q.contents.map f := by
  simp [contents, map, get]

end Ring

end Yangkv.Lib
