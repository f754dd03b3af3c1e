import Mathlib.Data.List.Induction
import Yangkv.Proof.Format
import Yangkv.Proof.Restarts

/-!
# The layout of a table file

Where a `TableBuilder` cuts what is added into blocks, and where in the file each of them
lies, is a function of the calls and the options. `Table` shows that the builder follows
it.

* `blockSize`: the bytes of a finished block, from its entries (`Laid.size`).
* `Layout.of`: what is cut after some calls, and `Layout.finish` what `Finish` cuts.
* `added_of`: the blocks are the entries of the calls, in order.
* `SmallBlocks`: one `::pread` moves every block with its trailer.
-/

namespace Yangkv

open Lib

/-! ## The size of a block -/

/-- The bytes of a finished block, without its trailer. -/
def blockSize (k : ℕ) (es : List (Bytes × Bytes)) : ℕ :=
  (blockCode k 0 [] es).length + (restartPoints k es.length).length * 4 + 4

variable {k : ℕ} {es : List (Bytes × Bytes)} {b : BlockBuilder} {key value : Bytes}

theorem Laid.size (h : Laid k es b) : b.currentSizeEstimate = blockSize k es := by
  unfold BlockBuilder.currentSizeEstimate blockSize restartPoints
  rw [h.buffer, h.restarts, List.length_cons, List.length_map, List.length_cons]

theorem Laid.ok (h : Laid k es b) (hk : 1 ≤ k) (hs : ∀ e ∈ es, Short e) : BlockOk k es b where
  pos := hk
  interval := h.interval
  packed := h.buffer ▸ packed_blockCode hs
  last := h.last
  counter := (h.counter_spec hk).1
  restarts := by
    have hle := (List.length_filter_le (fun j => j ≠ 0 ∧ j % k = 0) (List.range es.length))
    rw [List.length_range] at hle
    rw [h.restarts, List.length_cons, List.length_map]
    exact Nat.succ_le_succ hle
  building := h.building

theorem Laid.reset (h : Laid k es b) (hk : 1 ≤ k) : Laid k [] b.finish.reset :=
  (Fresh.laid (.inr ⟨hk, b.finish, h.interval, rfl⟩)).2

theorem length_entryCode_le (n : ℕ) (key value : Bytes) :
    (entryCode n key value).length ≤ key.length + value.length + 15 := by
  have h1 := BlockBuilder.length_encodeVarint32_le (.ofNat n)
  have h2 := BlockBuilder.length_encodeVarint32_le (.ofNat (key.length - n))
  have h3 := BlockBuilder.length_encodeVarint32_le (.ofNat value.length)
  simp only [entryCode, List.length_append, List.length_drop]
  omega

/-- The size of a block of one entry. -/
theorem blockSize_singleton (k : ℕ) (key value : Bytes) :
    key.length + value.length + 8 ≤ blockSize k [(key, value)] ∧
      blockSize k [(key, value)] ≤ key.length + value.length + 23 := by
  have hshared : sharedAt k 0 [] key = 0 := Nat.le_zero.1 (sharedAt_spec k 0 [] key).1
  have hle := length_entryCode_le 0 key value
  have hge := length_entryCode 0 key value
  have hcode : (blockCode k 0 [] [(key, value)]).length = (entryCode 0 key value).length := by
    rw [blockCode, blockCode, hshared, List.append_nil]
  have hpoints : (restartPoints k 1).length = 1 := rfl
  unfold blockSize
  rw [hcode, List.length_singleton, hpoints]
  omega

/-! ## Cutting blocks -/

/-- A finished block, with its index entry. -/
structure Cut where
  sep : Bytes
  handle : BlockHandle
  entries : List (Bytes × Bytes)
  deriving DecidableEq, Repr

/-- A block that is written and waits for its separator. -/
abbrev Pend := Option (BlockHandle × List (Bytes × Bytes))

/-- The entries of the waiting block. -/
def Pend.entries (pend : Pend) : List (Bytes × Bytes) := pend.elim [] Prod.snd

structure Layout where
  done : List Cut
  pend : Pend
  /-- the entries of the block that is being filled -/
  cur : List (Bytes × Bytes)
  /-- where the next block will lie -/
  offset : ℕ
  deriving DecidableEq, Repr

namespace Layout

def empty : Layout := ⟨[], none, [], 0⟩

/-- Everything that was added, in order. -/
def added (l : Layout) : List (Bytes × Bytes) :=
  l.done.flatMap Cut.entries ++ (l.pend.entries ++ l.cur)

/-- The entries of the index block. -/
def index (l : Layout) : List (Bytes × Bytes) := l.done.map fun c => (c.sep, c.handle.bytes)

/-- The last key that was added. -/
def lastKey (l : Layout) : Bytes := Yangkv.lastKey [] l.added

/-- The block being filled is cut, if it has entries. -/
def flush (k : ℕ) (l : Layout) : Layout :=
  if l.cur = [] then l
  else { l with
    pend := some (⟨l.offset, blockSize k l.cur⟩, l.cur)
    cur := []
    offset := l.offset + blockSize k l.cur + kBlockTrailerSize }

/-- The waiting block, if there is one, gets its separator. -/
def settle (sep : Bytes) (l : Layout) : Layout :=
  match l.pend with
  | none => l
  | some (handle, entries) => { l with done := l.done ++ [⟨sep, handle, entries⟩], pend := none }

/-- The block being filled takes an entry. -/
def take (key value : Bytes) (l : Layout) : Layout := { l with cur := l.cur ++ [(key, value)] }

def add (options : Options) (key value : Bytes) (l : Layout) : Layout :=
  let l := (l.settle (findShortestSeparator l.lastKey key)).take key value
  if options.block_size ≤ blockSize options.block_restart_interval l.cur then
    l.flush options.block_restart_interval
  else l

def call (options : Options) (l : Layout) : TableBuilder.Call → Layout
  | .add key value => l.add options key value
  | .flush => l.flush options.block_restart_interval

/-- The layout after these calls. -/
def of (options : Options) (calls : List TableBuilder.Call) : Layout :=
  calls.foldl (call options) empty

/-- The layout after `Finish`, with the metaindex block in front of `offset`. -/
def finish (k : ℕ) (l : Layout) : Layout :=
  let l := l.flush k
  { l.settle (findShortSuccessor l.lastKey) with
    offset := l.offset + blockSize k [] + kBlockTrailerSize }

/-- The bytes of the finished file: the index block and the footer lie behind `offset`. -/
def fileSize (l : Layout) : ℕ :=
  l.offset + blockSize 1 l.index + kBlockTrailerSize + Footer.kEncodedLength

/-- One `::pread` moves every block of the table with its trailer. -/
def Small (l : Layout) : Prop :=
  (∀ c ∈ l.done, c.handle.size_ + kBlockTrailerSize ≤ maxRwCount) ∧
    blockSize 1 l.index + kBlockTrailerSize ≤ maxRwCount

instance (l : Layout) : Decidable l.Small := inferInstanceAs (Decidable (_ ∧ _))

variable {l : Layout} {sep : Bytes}

/-- While a block waits, none is being filled. -/
def Apart (l : Layout) : Prop := l.pend = none ∨ l.cur = []

theorem Apart.flush (h : l.Apart) (k : ℕ) : (l.flush k).Apart := by
  unfold Layout.flush
  split
  · exact h
  · exact .inr rfl

@[simp] theorem flush_cur (k : ℕ) (l : Layout) : (l.flush k).cur = [] := by
  unfold flush
  split
  · assumption
  · rfl

theorem added_flush (h : l.Apart) (k : ℕ) : (l.flush k).added = l.added := by
  unfold flush
  split
  · rfl
  · rename_i hcur
    have hpend := h.resolve_right hcur
    simp [added, hpend, Pend.entries]

@[simp] theorem settle_pend (sep : Bytes) (l : Layout) : (l.settle sep).pend = none := by
  unfold settle
  split
  · assumption
  · rfl

@[simp] theorem settle_cur (sep : Bytes) (l : Layout) : (l.settle sep).cur = l.cur := by
  unfold settle
  split
  · rfl
  · rfl

/-- Where the next block lies makes no difference to the separator. -/
theorem settle_at (sep : Bytes) (l : Layout) (offset : ℕ) :
    settle sep { l with offset := offset } = { l.settle sep with offset := offset } := by
  obtain ⟨done, pend, cur, _⟩ := l
  cases pend with
  | none => rfl
  | some p => rfl

@[simp] theorem added_settle (sep : Bytes) (l : Layout) : (l.settle sep).added = l.added := by
  unfold settle
  split
  · rfl
  · rename_i handle entries hpend
    simp [added, hpend, Pend.entries]

theorem settle_some {handle : BlockHandle} {entries : List (Bytes × Bytes)}
    (h : l.pend = some (handle, entries)) (sep : Bytes) :
    l.settle sep = { l with done := l.done ++ [⟨sep, handle, entries⟩], pend := none } := by
  unfold settle
  rw [h]

theorem settle_none (h : l.pend = none) (sep : Bytes) : l.settle sep = l := by
  unfold settle
  rw [h]

/-- The separators of a layout are the old ones and the new one. -/
theorem mem_settle {c : Cut} (h : c ∈ (l.settle sep).done) :
    c ∈ l.done ∨ l.pend ≠ none ∧ c.sep = sep := by
  cases hp : l.pend with
  | none =>
    rw [settle_none hp] at h
    exact .inl h
  | some p =>
    rw [settle_some hp] at h
    obtain h | h := List.mem_append.1 h
    · exact .inl h
    · exact .inr ⟨by simp, by rw [List.mem_singleton.1 h]⟩

@[simp] theorem added_take (key value : Bytes) (l : Layout) :
    (l.take key value).added = l.added ++ [(key, value)] := by
  simp [added, take]

theorem apart_take (h : l.pend = none) (key value : Bytes) : (l.take key value).Apart := .inl h

theorem added_add (options : Options) (key value : Bytes) (l : Layout) :
    (l.add options key value).added = l.added ++ [(key, value)] := by
  unfold add
  dsimp only
  split
  · rw [added_flush (apart_take (settle_pend _ l) key value), added_take, added_settle]
  · rw [added_take, added_settle]

theorem Apart.call (h : l.Apart) (options : Options) (c : TableBuilder.Call) :
    (l.call options c).Apart := by
  cases c with
  | flush => exact h.flush _
  | add key value =>
    have htake := apart_take (settle_pend (findShortestSeparator l.lastKey key) l) key value
    show (l.add options key value).Apart
    unfold add
    dsimp only
    split
    · exact htake.flush _
    · exact htake

theorem of_snoc (options : Options) (calls : List TableBuilder.Call) (c : TableBuilder.Call) :
    of options (calls ++ [c]) = (of options calls).call options c := List.foldl_concat ..

theorem apart_of (options : Options) (calls : List TableBuilder.Call) : (of options calls).Apart := by
  induction calls using List.reverseRecOn with
  | nil => exact .inl rfl
  | append_singleton calls c ih =>
    rw [of_snoc]
    exact ih.call options c

/-- **The layout holds the entries of the calls**, in order. -/
theorem added_of (options : Options) (calls : List TableBuilder.Call) :
    (of options calls).added = TableBuilder.addsOf calls := by
  induction calls using List.reverseRecOn with
  | nil => rfl
  | append_singleton calls c ih =>
    have hadds : TableBuilder.addsOf (calls ++ [c]) =
        TableBuilder.addsOf calls ++ TableBuilder.addsOf [c] := List.filterMap_append
    rw [of_snoc, hadds, ← ih]
    cases c with
    | flush => exact (added_flush (apart_of options calls) _).trans (List.append_nil _).symm
    | add key value => exact added_add options key value _

/-- **A finished layout is blocks alone.** -/
theorem finish_entries (h : l.Apart) (k : ℕ) :
    (l.finish k).done.flatMap Cut.entries = l.added := by
  have hall : (l.finish k).added = l.added := (added_settle _ _).trans (added_flush h k)
  have hpend : (l.finish k).pend = none := settle_pend _ _
  have hcur : (l.finish k).cur = [] := (settle_cur _ _).trans (flush_cur k l)
  rw [← hall, added, hpend, hcur]
  simp [Pend.entries]

end Layout

/-- One `::pread` moves every block of the finished table with its trailer: every data block, and
the index block. -/
def SmallBlocks (options : Options) (calls : List TableBuilder.Call) : Prop :=
  ((Layout.of options calls).finish options.block_restart_interval).Small

instance (options : Options) (calls : List TableBuilder.Call) : Decidable (SmallBlocks options calls) :=
  inferInstanceAs (Decidable (Layout.Small _))

end Yangkv
