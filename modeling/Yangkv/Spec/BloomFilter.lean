import Mathlib.Logic.Function.Basic
import Yangkv.Lib.Bytes
import Yangkv.Lib.Decimal

/-!
# The Bloom filter (`utils/bloomfilter.h`, `utils/bloomfilter.cpp`)

A filter keeps its slots in memory, and in a text file, to which it appends the index of
every slot that it fills. The file can be opened and written.
-/

namespace Yangkv

open Lib

namespace BloomFilter

def kMaxSize : ℕ := 1000000

def SeedSet : List UInt64 := [131, 1919, 10007, 100000007, 1000000007]

/-- `HashVal` of one seed, in `unsigned long long` arithmetic; a `char` is signed. -/
def hashVal (str : Bytes) (seed : UInt64) : Fin kMaxSize :=
  let HashVal := str.foldl (fun HashVal ch => (HashVal + UInt64.ofInt ch.toInt8.toInt) * seed) 1
  ⟨HashVal.toNat % kMaxSize, Nat.mod_lt _ (by decide)⟩

end BloomFilter

/-- `fout` is what has been written to the open stream. -/
structure BloomFilter where
  fout : Option (List Char)
  Slot_ : Fin BloomFilter.kMaxSize → Bool

namespace BloomFilter

/-- A filter with what the file at `SaveFilePath` holds, if there is one. -/
structure Saved where
  filter : BloomFilter
  file : Option (List Char)

/-- `Init`, which truncates the file. -/
def init (_file : Option (List Char)) : Saved := ⟨⟨some [], fun _ => false⟩, some []⟩

/-- What the loop of `Recover` does with an index, under its assertion. -/
def fill (Slot_ : Fin kMaxSize → Bool) (FilledIdx : ℤ) : Option (Fin kMaxSize → Bool) :=
  if h : 0 ≤ FilledIdx ∧ FilledIdx < kMaxSize then
    some (Function.update Slot_ ⟨FilledIdx.toNat, (Int.toNat_lt h.1).2 h.2⟩ true)
  else none

/-- The numbers that `fin >>` finds; each of them takes one character at least. -/
def indices (text : List Char) : List ℤ := readInts text.length text

/-- `Recover` of a new object. -/
def recover (file : Option (List Char)) : Option Saved :=
  match file with
  | none => some ⟨⟨some [], fun _ => false⟩, some []⟩
  | some text => ((indices text).foldlM fill fun _ => false).map fun Slot_ => ⟨⟨some [], Slot_⟩, file⟩

/-- One turn of the loop of `Insert`. -/
def insertSeed (str : Bytes) (b : BloomFilter) (seed : UInt64) : BloomFilter :=
  let HashVal := hashVal str seed
  if b.Slot_ HashVal then b
  else
    { fout := b.fout.map fun out => out ++ ' ' :: Nat.toDigits 10 HashVal
      Slot_ := Function.update b.Slot_ HashVal true }

def insert (b : BloomFilter) (str : Bytes) : BloomFilter :=
  if str = [] then b else SeedSet.foldl (insertSeed str) b

def query (b : BloomFilter) (str : Bytes) : Bool :=
  if str = [] then false else SeedSet.all fun seed => b.Slot_ (hashVal str seed)

/-- The file after `close`, which writes out the stream. -/
def close (s : Saved) : Option (List Char) :=
  match s.filter.fout with
  | some out => s.file.map (· ++ out)
  | none => s.file

/-! ## Histories -/

/-- How a history begins: with `Init`, whatever is in the file, or with `Recover` of no file. -/
inductive First
  | init (file : Option (List Char))
  | recover

def first : First → Option Saved
  | .init file => some (init file)
  | .recover => recover none

inductive Call
  | insert (str : Bytes)
  /-- `close`, and `Recover` into a new object -/
  | restart

def call (s : Saved) : Call → Option Saved
  | .insert str => some { s with filter := s.filter.insert str }
  | .restart => recover (close s)

def run (begin : First) (calls : List Call) : Option Saved := do
  let s ← first begin
  calls.foldlM call s

/-- The strings that the calls insert. -/
def inserted (calls : List Call) : List Bytes :=
  calls.filterMap fun
    | .insert str => some str
    | .restart => none

end BloomFilter

end Yangkv
