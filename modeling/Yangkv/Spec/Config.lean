import Yangkv.Lib.Bytes

/-!
# Constants and status codes (`utils/env.h`, `utils/status.h`)
-/

namespace Yangkv

def kSeedForWriter : Int := 37
def kMaxWriter : ℕ := 4
def kMaxLevel : ℕ := 7
def kMaxFrozenList : ℕ := 10
def kMaxActiveListSize : ℕ := 10
def kWritableFileBufferSize : ℕ := 65536
def kTableMagicNumber : ℕ := 0xdb4775248b80fb57
def kBlockTrailerSize : ℕ := 5
def kMaxRecordSize : ℕ := 100000

/-- The messages a `Status` is built with; `ok` is the empty one. -/
inductive Status
  | ok
  | notFound
  | error
  | corruption
  deriving DecidableEq, Repr

end Yangkv
