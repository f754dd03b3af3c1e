import Yangkv.Proof.Codec
import Yangkv.Spec.Log

/-!
# Log files, written and read back

* `append_wrote`, `flush_wrote`: a call adds its data to the stream, or a `::write`
  fails and the call says so.
* `addRecord_ok`: each `AddRecord` puts one frame, the size word and the record,
  at the end of the file and leaves the buffer empty.
* `readRecord_ok`: at a frame, `ReadRecord` decodes its record and leaves it at
  the front of `buf_`, over whatever was read there before.
-/

namespace Yangkv

open Lib

/-! ## Writing -/

namespace WritableFile

/-- No `::write` will fail. -/
def NoFail (f : WritableFile) : Prop := WriteResult.fail ∉ f.writes

/-- Writing in parts, with any number of interrupted calls, writes everything in order; a call that
fails leaves a part. `used` are the results of the calls. -/
theorem writeLoop_spec (ws : List WriteResult) (fd data : Bytes) :
    ∃ used, ws = used ++ (writeLoop fd data ws).2.2 ∧
      (WriteResult.fail ∉ used →
        (writeLoop fd data ws).1 = .ok ∧ (writeLoop fd data ws).2.1 = fd ++ data) ∧
      (WriteResult.fail ∈ used →
        (writeLoop fd data ws).1 ≠ .ok ∧ (writeLoop fd data ws).2.1 <+: fd ++ data) := by
  induction ws generalizing fd data with
  | nil => exact ⟨[], rfl, fun _ => ⟨rfl, rfl⟩, fun h => by cases h⟩
  | cons w ws ih =>
    unfold writeLoop
    by_cases hd : data.isEmpty = true
    · rw [if_pos hd]
      have hnil : data = [] := List.isEmpty_iff.1 hd
      exact ⟨[], rfl, fun _ => ⟨rfl, by rw [hnil, List.append_nil]⟩, fun h => by cases h⟩
    rw [if_neg hd]
    cases w with
    | eintr =>
      obtain ⟨used, h1, h2, h3⟩ := ih fd data
      refine ⟨.eintr :: used, by rw [List.cons_append, ← h1], fun h => h2 ?_, fun h => h3 ?_⟩
      · exact fun hmem => h (List.mem_cons_of_mem _ hmem)
      · exact (List.mem_cons.1 h).resolve_left (by simp)
    | fail =>
      refine ⟨[.fail], rfl, fun h => absurd List.mem_cons_self h, fun _ => ⟨by simp, ?_⟩⟩
      exact List.prefix_append fd data
    | wrote n =>
      simp only
      set m := max 1 (min n data.length) with hm
      obtain ⟨used, h1, h2, h3⟩ := ih (fd ++ data.take m) (data.drop m)
      rw [List.append_assoc, List.take_append_drop] at h2 h3
      refine ⟨.wrote n :: used, by rw [List.cons_append, ← h1], fun h => h2 ?_, fun h => h3 ?_⟩
      · exact fun hmem => h (List.mem_cons_of_mem _ hmem)
      · exact (List.mem_cons.1 h).resolve_left (by simp)

variable {f f' : WritableFile} {data : Bytes} {used : List WriteResult} {r : Status × WritableFile}

/-- What a call that is to add `data` to the stream of `f` can do, by the results `used` of its
`::write` calls. -/
structure Wrote (f : WritableFile) (data : Bytes) (used : List WriteResult)
    (r : Status × WritableFile) : Prop where
  writes : f.writes = used ++ r.2.writes
  buf : r.2.buf.length ≤ kWritableFileBufferSize
  whole : WriteResult.fail ∉ used → r.1 = .ok ∧ r.2.stream = f.stream ++ data
  part : WriteResult.fail ∈ used → r.1 ≠ .ok ∧ r.2.fd <+: f.stream ++ data

theorem Wrote.fail_iff (h : f.Wrote data used r) : WriteResult.fail ∈ used ↔ r.1 ≠ .ok := by
  refine ⟨fun hmem => (h.part hmem).1, fun hne => ?_⟩
  by_contra hmem
  exact hne (h.whole hmem).1

theorem Wrote.of_ok (h : f.Wrote data used r) (hok : r.1 = .ok) :
    WriteResult.fail ∉ used ∧ r.2.stream = f.stream ++ data := by
  have hmem : WriteResult.fail ∉ used := fun hmem => h.fail_iff.1 hmem hok
  exact ⟨hmem, (h.whole hmem).2⟩

theorem Wrote.of_noFail (h : f.Wrote data used r) (hf : f.NoFail) :
    r.1 = .ok ∧ r.2.stream = f.stream ++ data ∧ r.2.NoFail := by
  unfold NoFail at hf ⊢
  rw [h.writes, List.mem_append, not_or] at hf
  obtain ⟨h1, h2⟩ := h.whole hf.1
  exact ⟨h1, h2, hf.2⟩

theorem writeUnbuffered_ok (hf : f.NoFail) (data : Bytes) :
    ∃ f', f.writeUnbuffered data = (.ok, f') ∧ f'.fd = f.fd ++ data ∧ f'.buf = f.buf ∧
      f'.NoFail := by
  obtain ⟨used, h1, h2, -⟩ := writeLoop_spec f.writes f.fd data
  unfold NoFail at hf
  rw [h1, List.mem_append, not_or] at hf
  obtain ⟨hok, hfd⟩ := h2 hf.1
  exact ⟨(f.writeUnbuffered data).2, Prod.ext hok rfl, hfd, rfl, hf.2⟩

/-- `Flush` moves the buffer to the file, or a part of it. -/
theorem flush_wrote (f : WritableFile) :
    f.flush.2.buf = [] ∧ ∃ used, f.Wrote [] used f.flush := by
  obtain ⟨used, h1, h2, h3⟩ := writeLoop_spec f.writes f.fd f.buf
  refine ⟨rfl, used, h1, Nat.zero_le _, fun h => ?_, fun h => ?_⟩
  · obtain ⟨hok, hfd⟩ := h2 h
    refine ⟨hok, ?_⟩
    rw [List.append_nil]
    exact (List.append_nil _).trans hfd
  · rw [List.append_nil]
    exact h3 h

/-- **`Flush` moves the buffer to the file.** -/
theorem flush_ok (hf : f.NoFail) :
    ∃ f', f.flush = (.ok, f') ∧ f'.fd = f.stream ∧ f'.buf = [] ∧ f'.NoFail := by
  obtain ⟨hbuf, used, h⟩ := f.flush_wrote
  obtain ⟨h1, h2, h3⟩ := h.of_noFail hf
  rw [stream, hbuf, List.append_nil, List.append_nil] at h2
  exact ⟨f.flush.2, Prod.ext h1 rfl, h2, hbuf, h3⟩

theorem bufferRoom_eq (hb : f.buf.length ≤ kWritableFileBufferSize) :
    f.bufferRoom = kWritableFileBufferSize - f.buf.length := by
  unfold bufferRoom
  unfold kWritableFileBufferSize at hb ⊢
  omega

/-- **What `Append` can do**, on each of its four paths. -/
theorem append_wrote (hb : f.buf.length ≤ kWritableFileBufferSize) (data : Bytes) :
    ∃ used, f.Wrote data used (f.append data) := by
  unfold append
  simp only [bufferRoom_eq hb]
  set c := min data.length (kWritableFileBufferSize - f.buf.length) with hc
  set f₁ : WritableFile := { f with buf := f.buf ++ data.take c } with hf₁
  have hs : f₁.stream ++ data.drop c = f.stream ++ data := by
    simp only [hf₁, stream, List.append_assoc, List.take_append_drop]
  by_cases hd : (data.drop c).isEmpty = true
  · -- everything fits
    rw [if_pos hd]
    rw [List.isEmpty_iff] at hd
    rw [hd, List.append_nil] at hs
    refine ⟨[], rfl, ?_, fun _ => ⟨rfl, hs⟩, fun h => by cases h⟩
    simp only [hf₁, List.length_append, List.length_take]
    omega
  rw [if_neg hd]
  obtain ⟨hbuf, used, hflush⟩ := f₁.flush_wrote
  change f₁.flushBuffer.2.buf = [] at hbuf
  change f₁.Wrote [] used f₁.flushBuffer at hflush
  by_cases hok : f₁.flushBuffer.1 = .ok
  · obtain ⟨hmem, hstream⟩ := hflush.of_ok hok
    rw [List.append_nil, stream, hbuf, List.append_nil] at hstream
    rw [if_neg (not_not.2 hok)]
    split
    · -- the rest goes to the emptied buffer
      rename_i hlt
      refine ⟨used, hflush.writes, hlt.le, fun _ => ⟨rfl, ?_⟩, fun h => absurd h hmem⟩
      rw [← hs, ← hstream]
      rfl
    · -- the rest is written directly
      set f₂ := f₁.flushBuffer.2 with hf₂
      obtain ⟨used', h1, h2, h3⟩ := writeLoop_spec f₂.writes f₂.fd (data.drop c)
      have hfd : f₂.fd ++ data.drop c = f.stream ++ data := by rw [hstream, hs]
      rw [hfd] at h2 h3
      have hdirect : (f₂.writeUnbuffered (data.drop c)).2.buf = [] := hbuf
      refine ⟨used ++ used', ?_, by rw [hdirect]; exact Nat.zero_le _, fun h => ?_, fun h => ?_⟩
      · rw [List.append_assoc, hflush.writes]
        exact congrArg _ h1
      · obtain ⟨g1, g2⟩ := h2 fun hmem' => h (List.mem_append_right _ hmem')
        refine ⟨g1, ?_⟩
        rw [stream, hdirect, List.append_nil]
        exact g2
      · exact h3 ((List.mem_append.1 h).resolve_left hmem)
  · rw [if_pos hok]
    have hmem := hflush.fail_iff.2 hok
    refine ⟨used, hflush.writes, hflush.buf, fun h => absurd hmem h, fun _ => ⟨hok, ?_⟩⟩
    have hpart := (hflush.part hmem).2
    rw [List.append_nil] at hpart
    exact hpart.trans (hs ▸ List.prefix_append _ _)

/-- **`Append` adds its data to the stream**, whichever of its four paths it takes. -/
theorem append_ok (hf : f.NoFail) (hb : f.buf.length ≤ kWritableFileBufferSize) (data : Bytes) :
    ∃ f', f.append data = (.ok, f') ∧ f'.stream = f.stream ++ data ∧
      f'.buf.length ≤ kWritableFileBufferSize ∧ f'.NoFail := by
  obtain ⟨used, h⟩ := append_wrote hb data
  obtain ⟨h1, h2, h3⟩ := h.of_noFail hf
  exact ⟨(f.append data).2, Prod.ext h1 rfl, h2, h.buf, h3⟩

/-! A call that reports no error has written everything, whatever the calls after it will do. -/

theorem flush_of_ok (h : f.flush = (.ok, f')) : f'.fd = f.stream ∧ f'.buf = [] := by
  obtain ⟨hbuf, used, hw⟩ := f.flush_wrote
  obtain ⟨-, hs⟩ := hw.of_ok (congrArg Prod.fst h)
  rw [stream, hbuf, List.append_nil, List.append_nil, h] at hs
  rw [h] at hbuf
  exact ⟨hs, hbuf⟩

theorem append_of_ok (hb : f.buf.length ≤ kWritableFileBufferSize)
    (h : f.append data = (.ok, f')) :
    f'.stream = f.stream ++ data ∧ f'.buf.length ≤ kWritableFileBufferSize := by
  obtain ⟨used, hw⟩ := append_wrote hb data
  rw [h] at hw
  exact ⟨(hw.of_ok rfl).2, hw.buf⟩

end WritableFile

/-- What `AddRecord` writes for a record: its size and its bytes. -/
def frame (record : Bytes) : Bytes := leBytes 8 record.length ++ record

/-- The bytes of a log of entries. -/
def logBytes (es : List Entry) : Bytes := es.flatMap fun e => frame e.record

theorem logBytes_append (es es' : List Entry) : logBytes (es ++ es') = logBytes es ++ logBytes es' := by
  simp [logBytes]

theorem logBytes_cons (e : Entry) (es : List Entry) :
    logBytes (e :: es) = frame e.record ++ logBytes es := rfl

@[simp] theorem length_frame (r : Bytes) : (frame r).length = 8 + r.length := by simp [frame]

/-- A log file between two `AddRecord` calls. -/
structure LogFileOk (f : WritableFile) : Prop where
  buf : f.buf = []
  noFail : f.NoFail

theorem LogFileOk.create {ws : List WriteResult} (h : WriteResult.fail ∉ ws) (ss cs : List Bool) :
    LogFileOk (.create ws ss cs) := ⟨rfl, h⟩

/-- `AppendSize` has room in an empty buffer. -/
theorem appendSize_of_empty {f : WritableFile} (hb : f.buf = []) (n : ℕ) :
    f.appendSize n = some { f with buf := leBytes 8 n } := by
  unfold WritableFile.appendSize
  rw [hb, if_pos (by decide), List.nil_append]

/-- **`AddRecord` adds one frame to the file.** -/
theorem addRecord_ok {f : WritableFile} (hf : LogFileOk f) {e : Entry} (he : e.Fits) :
    ∃ f', addRecord f e = some f' ∧ f'.fd = f.fd ++ frame e.record ∧ LogFileOk f' := by
  have hsize : (leBytes 8 e.record.length).length ≤ kWritableFileBufferSize := by
    rw [length_leBytes]
    decide
  obtain ⟨f₁, b1, b2, b3, b4⟩ := WritableFile.append_ok
    (f := { f with buf := leBytes 8 e.record.length }) hf.noFail hsize e.record
  obtain ⟨f₂, c1, c2, c3, c4⟩ := WritableFile.flush_ok b4
  refine ⟨f₂, ?_, ?_, c3, c4⟩
  · unfold addRecord
    simp [encodeMemEntry_fits he, appendSize_of_empty hf.buf, b1, c1]
  · rw [c2, b2, frame, ← List.append_assoc]
    rfl

/-- `bytes` is the contents of a log file after `AddRecord` of `es`, with no write error. -/
def Logged (es : List Entry) (bytes : Bytes) : Prop :=
  ∃ ws ss cs f, WriteResult.fail ∉ ws ∧ es.foldlM addRecord (.create ws ss cs) = some f ∧ f.fd = bytes

theorem foldlM_addRecord {es : List Entry} (hes : ∀ e ∈ es, e.Fits) : ∀ {f : WritableFile},
    LogFileOk f → ∃ f', es.foldlM addRecord f = some f' ∧ f'.fd = f.fd ++ logBytes es ∧
      LogFileOk f' := by
  induction es with
  | nil => intro f hf; exact ⟨f, rfl, by simp [logBytes], hf⟩
  | cons e es ih =>
    intro f hf
    obtain ⟨f₁, a1, a2, a3⟩ := addRecord_ok hf (hes e List.mem_cons_self)
    obtain ⟨f₂, b1, b2, b3⟩ := ih (fun x hx => hes x (List.mem_cons_of_mem _ hx)) a3
    refine ⟨f₂, ?_, ?_, b3⟩
    · rw [List.foldlM_cons, a1]; exact b1
    · rw [b2, a2, logBytes_cons, List.append_assoc]

/-- **What the log writer leaves in a file is the frames of its entries.** -/
theorem logged_iff {es : List Entry} (hes : ∀ e ∈ es, e.Fits) {bytes : Bytes} :
    Logged es bytes ↔ bytes = logBytes es := by
  constructor
  · rintro ⟨ws, ss, cs, f, hw, hf, rfl⟩
    obtain ⟨f', h1, h2, -⟩ := foldlM_addRecord hes (LogFileOk.create hw ss cs)
    rw [hf] at h1
    obtain rfl := Option.some.inj h1
    rw [h2]; rfl
  · rintro rfl
    obtain ⟨f', h1, h2, -⟩ :=
      foldlM_addRecord hes (LogFileOk.create (List.not_mem_nil (a := WriteResult.fail)) [] [])
    exact ⟨[], [], [], f', by simp, h1, by rw [h2]; rfl⟩

/-! ## Reading -/

/-- A read that is not too long for one call. -/
theorem pread_eq {contents : Bytes} {n offset : ℕ} (ho : offset + n < 2 ^ 63) (hn : n ≤ maxRwCount) :
    pread contents n offset = some ((contents.drop offset).take n) := by
  unfold pread
  rw [if_pos ho, Nat.min_eq_left hn]

theorem readSize_frame {contents : Bytes} {p : ℕ} {r rest : Bytes} (hp : p + 8 < 2 ^ 63)
    (hr : r.length < 2 ^ 64) (h : contents.drop p = frame r ++ rest) (scratch : Bytes) :
    readSize contents p scratch = (r.length, overlay (leBytes 8 r.length) scratch) := by
  have hread : pread contents 8 p = some (leBytes 8 r.length) := by
    rw [pread_eq hp (by decide), h, frame, List.append_assoc, take_leBytes]
  have hpre := overlay_prefix (leBytes 8 r.length) scratch
  rw [length_leBytes] at hpre
  unfold readSize
  rw [hread]
  simp only [Option.getD_some, hpre]
  rw [leNat_leBytes_of_lt (by omega)]

theorem readAt_frame {contents : Bytes} {p : ℕ} {r rest : Bytes} (hp : p + 8 + r.length < 2 ^ 63)
    (hr : r.length ≤ maxRwCount) (h : contents.drop p = frame r ++ rest) (scratch : Bytes) :
    readAt contents (p + 8) r.length scratch = (.ok, r.length, overlay r scratch) := by
  have hread : pread contents r.length (p + 8) = some r := by
    rw [pread_eq hp hr, ← List.drop_drop, h, frame, List.append_assoc, drop_leBytes, List.take_left]
  unfold readAt
  rw [hread]

/-- One `::pread` reads the record of the entry. -/
structure MemEntry.Readable (e : Entry) : Prop where
  fits : e.Fits
  length : e.record.length ≤ maxRwCount

/-- **`ReadRecord` at a frame** decodes its record and leaves it at the front of `buf_`. -/
theorem readRecord_ok {rd : Reader} {e : Entry} {rest : Bytes} (he : e.Readable)
    (ho : rd.offset + (frame e.record).length < 2 ^ 63)
    (h : rd.dest.drop rd.offset = frame e.record ++ rest) :
    rd.readRecord = some (e.views,
      { rd with offset := rd.offset + (frame e.record).length, buf := overlay e.record rd.buf }) := by
  rw [length_frame] at ho
  have hov : overlay e.record (overlay (leBytes 8 e.record.length) rd.buf) =
      overlay e.record rd.buf :=
    overlay_overlay (by have := length_record_ge e; simp; omega) rd.buf
  unfold Reader.readRecord
  rw [readSize_frame (by omega) (by omega) h]
  simp only
  rw [Nat.mod_eq_of_lt (by omega), readAt_frame (by omega) he.length h]
  simp only [hov]
  rw [show overlay e.record rd.buf = e.record ++ rd.buf.drop e.record.length by rfl,
    decodeMemEntry_record he.fits, length_frame, Nat.mod_eq_of_lt (by omega)]
  rfl

/-- The loose end-of-file test is exact on whole frames. -/
theorem atEnd_frames {rd : Reader} {es : List Entry} (ho : rd.offset < 2 ^ 63)
    (hs : rd.size = rd.dest.length) (hle : rd.offset ≤ rd.dest.length)
    (h : rd.dest.drop rd.offset = logBytes es) : rd.atEnd = es.isEmpty := by
  have hlen := congrArg List.length h
  rw [List.length_drop] at hlen
  unfold Reader.atEnd
  rw [Nat.mod_eq_of_lt (by omega), hs]
  cases es with
  | nil => simp [logBytes] at hlen ⊢; omega
  | cons e es =>
    have := length_record_ge e
    rw [logBytes_cons, List.length_append, length_frame] at hlen
    simp only [List.isEmpty_cons, decide_eq_false_iff_not]
    omega

end Yangkv
