import Std.Data.TreeMap
import Yangkv.Spec.DbFormat

/-!
# Keys and lists of encoded entries (`utils/hash_helper.cpp`, `memory/skiplist.h`)
-/

namespace Yangkv

open Lib

/-- `strHash`, in `uint64_t` arithmetic; a `char` is signed. -/
def strHash (str : Bytes) (seed : Int) : UInt64 :=
  str.foldl (fun val ch => (val + UInt64.ofInt ch.toInt8.toInt) * UInt64.ofInt seed) 1

/-- The writer of a key: `strHash(key, kSeedForWriter) % kMaxWriter`. -/
def writerOf (key : Bytes) : Fin kMaxWriter :=
  ⟨(strHash key kSeedForWriter).toNat % kMaxWriter, Nat.mod_lt _ (by decide)⟩

/-- `SkipList`: a `std::map`, whose keys are compared as byte strings. -/
structure SkipList where
  id_ : ℕ
  list_ : Std.TreeMap Bytes Bytes

namespace SkipList

/-- A new list. -/
def empty : SkipList := ⟨0, ∅⟩

def size (l : SkipList) : ℕ := l.list_.size

/-- `insert`; no result when the assertion of `EncodeMemEntry` fails. -/
def insert (l : SkipList) (entry : Entry) : Option SkipList :=
  (encodeMemEntry entry).map fun s =>
    ⟨if l.size = 0 then entry.seq_num else l.id_, l.list_.insert entry.key.bytes s⟩

/-- `get`: the encoded entry; no result is `NotFound`. -/
def get (l : SkipList) (key : Bytes) : Option Bytes := l.list_[key]?

end SkipList

/-- The entry `DecodeMemEntry` reads from an encoded one. -/
def decodeSlice (slice : Bytes) : Option Entry := (decodeMemEntry slice).map (·.read slice)

/-- What a lookup answers: the status, and the value where it assigns one. No answer is the
return value `false`. -/
abbrev Answer := Option (Status × Option Bytes)

end Yangkv
