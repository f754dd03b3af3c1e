import Yangkv.Spec.Config

/-!
# Files (`utils/env.h`, `utils/env.cpp`)

A `WritableFile` carries what its descriptor's file holds and what the system
calls it will make return. `buf` is `buf_[0, pos_)`. Behind `buf_` lies `pos_` itself,
so a store past `kWritableFileBufferSize` has no result here.
-/

namespace Yangkv

open Lib

/-- What a `::write` returns: a count, `EINTR`, or another error. -/
inductive WriteResult
  | wrote (n : ℕ)
  | eintr
  | fail
  deriving DecidableEq, Repr

structure WritableFile where
  /-- the bytes written to `fd_` -/
  fd : Bytes
  buf : Bytes
  /-- the results of the next `::write` calls; after them every call writes all it is given -/
  writes : List WriteResult
  /-- whether the next `::fdatasync` calls succeed -/
  syncs : List Bool
  /-- whether the next `::close` calls succeed -/
  closes : List Bool
  deriving DecidableEq, Repr

namespace WritableFile

/-- `NewWritableFile` truncates the file it opens. -/
def create (writes : List WriteResult) (syncs closes : List Bool) : WritableFile :=
  ⟨[], [], writes, syncs, closes⟩

/-- The loop of `WriteUnbuffered`, with the results the calls return. -/
def writeLoop (fd data : Bytes) : List WriteResult → Status × Bytes × List WriteResult
  | [] => (.ok, fd ++ data, [])
  | w :: ws =>
    if data.isEmpty then (.ok, fd, w :: ws)
    else match w with
      | .eintr => writeLoop fd data ws
      | .fail => (.error, fd, ws)
      | .wrote n =>
        -- a count from 1 to the requested size
        let n := max 1 (min n data.length)
        writeLoop (fd ++ data.take n) (data.drop n) ws

def writeUnbuffered (f : WritableFile) (data : Bytes) : Status × WritableFile :=
  let r := writeLoop f.fd data f.writes
  (r.1, { f with fd := r.2.1, writes := r.2.2 })

def flushBuffer (f : WritableFile) : Status × WritableFile :=
  let r := f.writeUnbuffered f.buf
  (r.1, { r.2 with buf := [] })

/-- `AppendSize` copies the eight bytes of a `size_t` behind `pos_` without a look at the room that
is left. Where there are not eight bytes it overwrites `pos_`, which it then counts on. -/
def appendSize (f : WritableFile) (value : ℕ) : Option WritableFile :=
  if f.buf.length + 8 ≤ kWritableFileBufferSize then some { f with buf := f.buf ++ leBytes 8 value }
  else none

/-- `kWritableFileBufferSize - pos_` as a `size_t`. -/
def bufferRoom (f : WritableFile) : ℕ :=
  (kWritableFileBufferSize + (2 ^ 64 - f.buf.length)) % 2 ^ 64

def append (f : WritableFile) (data : Bytes) : Status × WritableFile :=
  let copy_size := min data.length f.bufferRoom
  let f := { f with buf := f.buf ++ data.take copy_size }
  let write_data := data.drop copy_size
  if write_data.isEmpty then (.ok, f)
  else
    let r := f.flushBuffer
    if r.1 ≠ .ok then r
    else if write_data.length < kWritableFileBufferSize then (.ok, { r.2 with buf := write_data })
    else r.2.writeUnbuffered write_data

def flush (f : WritableFile) : Status × WritableFile := f.flushBuffer

/-- `Sync`; `IsManifest` is false for every name, so no directory is synced. -/
def sync (f : WritableFile) : Status × WritableFile :=
  let r := f.flushBuffer
  if r.1 ≠ .ok then r
  else (if r.2.syncs.headD true then .ok else .error, { r.2 with syncs := r.2.syncs.tail })

def close (f : WritableFile) : Status × WritableFile :=
  let r := f.flushBuffer
  (if r.1 = .ok ∧ r.2.closes.headD true = false then .error else r.1,
    { r.2 with closes := r.2.closes.tail })

/-- Everything appended so far: what is on `fd_` and what is still buffered. -/
def stream (f : WritableFile) : Bytes := f.fd ++ f.buf

/-- The calls that write to a file. -/
inductive Call
  | append (data : Bytes)
  | appendSize (value : ℕ)
  | flush
  | sync
  deriving DecidableEq, Repr

/-- The status a call returns, and the file after it; no result where it stores outside `buf_`. -/
def call (f : WritableFile) : Call → Option (Status × WritableFile)
  | .append data => some (f.append data)
  | .appendSize value => (f.appendSize value).map fun f => (.ok, f)
  | .flush => some f.flush
  | .sync => some f.sync

/-- The data a call is to add. -/
def Call.data : Call → Bytes
  | .append data => data
  | .appendSize value => leBytes 8 value
  | .flush | .sync => []

end WritableFile

/-! ## Reading -/

/-- The most bytes that Linux moves in one `::pread`. -/
def maxRwCount : ℕ := 0x7ffff000

/-- `::pread` on a file with the given contents. It is an error where the end of the range is no
`off_t`; a read of more than `maxRwCount` bytes is a short one. -/
def pread (contents : Bytes) (n offset : ℕ) : Option Bytes :=
  if offset + n < 2 ^ 63 then some ((contents.drop offset).take (min n maxRwCount)) else none

/-- `ReadSize`: the word in `scratch` afterwards, and `scratch`. A short read leaves the
bytes behind it as they were. -/
def readSize (contents : Bytes) (offset : ℕ) (scratch : Bytes) : ℕ × Bytes :=
  let scratch := overlay ((pread contents 8 offset).getD []) scratch
  (leNat (scratch.take 8), scratch)

/-- `Read`: the status, the size of the slice at the front of `scratch`, and `scratch`. -/
def readAt (contents : Bytes) (offset n : ℕ) (scratch : Bytes) : Status × ℕ × Bytes :=
  match pread contents n offset with
  | none => (.error, 0, scratch)
  | some data => (.ok, data.length, overlay data scratch)

end Yangkv
