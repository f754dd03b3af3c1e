import Yangkv.Lib.Machine
import Yangkv.Proof.LogFile

/-!
# A file as a stream of bytes

Runs of `Append`, `AppendSize`, `Flush` and `Sync` on a new file. `AppendSize`
copies behind `pos_` without asking whether there is room; the other calls do. A run
ends before an `AppendSize` that stores outside `buf_`.

* `exec_stream`: while no `::write` has failed, a file is the stream of the data
  appended to it, if every `AppendSize` had room.
* `stream_of_calls`: without `AppendSize`, it is this in every run, and a call in
  which a `::write` fails says so and leaves a prefix on the file.
* `appendSize_iff`: `AppendSize` is `Append` of the eight bytes exactly where these
  fit the buffer.
-/

namespace Yangkv.WritableFile

open Lib

/-- The results that the `::write` calls between two states of a file returned. -/
def resultsUsed (f f' : WritableFile) : List WriteResult :=
  f.writes.take (f.writes.length - f'.writes.length)

/-- What a run shows of a call. -/
structure Event where
  call : Call
  status : Status
  used : List WriteResult
  deriving DecidableEq, Repr

/-- The calls on one file, one after the other. -/
def machine : Machine WritableFile Call Event :=
  ⟨fun f c => (f.call c).map Prod.snd,
    fun f c => (f.call c).map fun r => ⟨c, r.1, resultsUsed f r.2⟩⟩

/-- All data appended, in order. -/
def appended (h : List Event) : Bytes := h.flatMap (·.call.data)

/-- No `::write` has failed. -/
def NoneFailed (h : List Event) : Prop := ∀ ev ∈ h, WriteResult.fail ∉ ev.used

/-- The call is not `AppendSize`, or the eight bytes fit the buffer. -/
def HasRoom (f : WritableFile) : Call → Prop
  | .appendSize _ => f.buf.length + 8 ≤ kWritableFileBufferSize
  | _ => True

/-- The call is not `AppendSize`. -/
def NoSize (_ : WritableFile) : Call → Prop
  | .appendSize _ => False
  | _ => True

instance (f : WritableFile) (c : Call) : Decidable (f.NoSize c) := by
  cases c <;> unfold NoSize <;> infer_instance

theorem NoSize.hasRoom {f : WritableFile} {c : Call} (h : f.NoSize c) : f.HasRoom c := by
  cases c with
  | appendSize => exact h.elim
  | _ => trivial

variable {f f' : WritableFile} {c : Call} {h : List Event} {r : Status × WritableFile}

/-! ## One call -/

/-- What a call with the result `r` does to a file. -/
structure CallOk (f : WritableFile) (c : Call) (r : Status × WritableFile) : Prop where
  buf : r.2.buf.length ≤ kWritableFileBufferSize
  whole : WriteResult.fail ∉ resultsUsed f r.2 → r.2.stream = f.stream ++ c.data
  part : WriteResult.fail ∈ resultsUsed f r.2 → r.1 ≠ .ok ∧ r.2.fd <+: f.stream ++ c.data

theorem resultsUsed_eq {used : List WriteResult} (hw : f.writes = used ++ f'.writes) :
    resultsUsed f f' = used := by
  unfold resultsUsed
  rw [hw, List.length_append, Nat.add_sub_cancel, List.take_left]

theorem Wrote.callOk {used : List WriteResult} (hw : f.Wrote c.data used r) : f.CallOk c r := by
  have hused := resultsUsed_eq hw.writes
  refine ⟨hw.buf, fun hf => ?_, fun hf => ?_⟩
  · rw [hused] at hf
    exact (hw.whole hf).2
  · rw [hused] at hf
    exact hw.part hf

/-- `Sync` writes as `Flush` does. -/
theorem sync_callOk (f : WritableFile) : f.CallOk .sync f.sync := by
  obtain ⟨hbuf, used, hw⟩ := f.flush_wrote
  change f.flushBuffer.2.buf = [] at hbuf
  change f.Wrote [] used f.flushBuffer at hw
  by_cases hok : f.flushBuffer.1 = .ok
  · -- only the status may still be that of `fdatasync`
    have hsync : f.sync = (if f.flushBuffer.2.syncs.headD true then .ok else .error,
        { f.flushBuffer.2 with syncs := f.flushBuffer.2.syncs.tail }) := by
      unfold sync
      simp only [hok, ne_eq, not_true_eq_false, if_false]
    obtain ⟨hmem, hs⟩ := hw.of_ok hok
    have hused : resultsUsed f f.sync.2 = used := resultsUsed_eq (by rw [hsync]; exact hw.writes)
    refine ⟨?_, fun _ => ?_, fun hf => ?_⟩
    · rw [hsync]
      exact hw.buf
    · rw [hsync]
      exact hs
    · rw [hused] at hf
      exact absurd hf hmem
  · have hsync : f.sync = f.flushBuffer := by
      unfold sync
      simp only [ne_eq, hok, not_false_eq_true, if_true]
    have hcall : f.Wrote (Call.data .sync) used f.sync := by
      rw [hsync]
      exact hw
    exact hcall.callOk

theorem append_of_room {data : Bytes} (hr : f.buf.length + data.length ≤ kWritableFileBufferSize) :
    f.append data = (.ok, { f with buf := f.buf ++ data }) := by
  have hroom : f.bufferRoom = kWritableFileBufferSize - f.buf.length := bufferRoom_eq (by omega)
  have hmin : min data.length f.bufferRoom = data.length := by omega
  unfold append
  simp only [hmin, List.take_length, List.drop_length, List.isEmpty_nil, if_true]

theorem appendSize_of_room {value : ℕ} (hr : f.buf.length + 8 ≤ kWritableFileBufferSize) :
    f.appendSize value = some { f with buf := f.buf ++ leBytes 8 value } := if_pos hr

/-- **A call adds its data to the stream**, or a `::write` fails and the call says so. -/
theorem call_ok (hb : f.buf.length ≤ kWritableFileBufferSize) (hr : f.HasRoom c) :
    ∃ r, f.call c = some r ∧ f.CallOk c r := by
  cases c with
  | append data =>
    obtain ⟨used, hw⟩ := append_wrote hb data
    exact ⟨_, rfl, hw.callOk⟩
  | appendSize value =>
    have hroom : f.buf.length + 8 ≤ kWritableFileBufferSize := hr
    set f' : WritableFile := { f with buf := f.buf ++ leBytes 8 value } with hf'
    have hcall : f.call (.appendSize value) = some (.ok, f') := by
      show (f.appendSize value).map _ = _
      rw [appendSize_of_room hroom]
      rfl
    have hused : resultsUsed f f' = [] := resultsUsed_eq rfl
    refine ⟨_, hcall, ?_, fun _ => ?_, fun hf => ?_⟩
    · show (f.buf ++ leBytes 8 value).length ≤ _
      rw [List.length_append, length_leBytes]
      exact hroom
    · show f.fd ++ (f.buf ++ leBytes 8 value) = f.fd ++ f.buf ++ leBytes 8 value
      rw [List.append_assoc]
    · dsimp only at hf
      rw [hused] at hf
      cases hf
  | flush =>
    obtain ⟨-, used, hw⟩ := f.flush_wrote
    have hcall : f.Wrote (Call.data .flush) used f.flush := hw
    exact ⟨_, rfl, hcall.callOk⟩
  | sync => exact ⟨_, rfl, f.sync_callOk⟩

/-- What a step of the machine is: a call that has a result. -/
theorem machine_step (hs : machine.step f c = some f') : ∃ s, f.call c = some (s, f') ∧
    (machine.event f c).toList = [⟨c, s, resultsUsed f f'⟩] := by
  obtain ⟨⟨s, f''⟩, hcall, rfl⟩ := Option.map_eq_some_iff.1 hs
  refine ⟨s, hcall, ?_⟩
  show ((f.call c).map _).toList = _
  rw [hcall]
  rfl

/-! ## Runs -/

section

variable {ws : List WriteResult} {ss cs : List Bool}

/-- **While no `::write` has failed, a file is the stream of the data appended to it.** -/
theorem exec_stream (hx : machine.Exec HasRoom (.create ws ss cs) h f) :
    f.buf.length ≤ kWritableFileBufferSize ∧ (NoneFailed h → f.stream = appended h) := by
  refine hx.induct (I := fun h f => f.buf.length ≤ kWritableFileBufferSize ∧
    (NoneFailed h → f.stream = appended h)) ⟨Nat.zero_le _, fun _ => rfl⟩ ?_
  rintro h f c f' ⟨hb, hs⟩ hr hstep
  obtain ⟨s, hcall, hev⟩ := machine_step hstep
  obtain ⟨r, hcall', hok⟩ := call_ok hb hr
  obtain rfl : (s, f') = r := Option.some.inj (hcall.symm.trans hcall')
  rw [hev]
  refine ⟨hok.buf, fun hnone => ?_⟩
  have hlast : WriteResult.fail ∉ resultsUsed f f' :=
    hnone ⟨c, s, resultsUsed f f'⟩ (List.mem_append_right _ List.mem_cons_self)
  have hold : NoneFailed h := fun ev hev => hnone ev (List.mem_append_left _ hev)
  have happ : appended (h ++ [⟨c, s, resultsUsed f f'⟩]) = appended h ++ c.data := by
    simp [appended]
  rw [happ, hok.whole hlast, hs hold]

/-- A call in which a `::write` fails says so. -/
theorem exec_failed (hx : machine.Exec HasRoom (.create ws ss cs) h f)
    (hok : ∀ ev ∈ h, ev.status = .ok) : NoneFailed h := by
  refine (hx.induct (I := fun h f => f.buf.length ≤ kWritableFileBufferSize ∧
    ((∀ ev ∈ h, ev.status = .ok) → NoneFailed h)) ⟨Nat.zero_le _, fun _ ev hev => by cases hev⟩
    ?_).2 hok
  rintro h f c f' ⟨hb, ih⟩ hr hstep
  obtain ⟨s, hcall, hnew⟩ := machine_step hstep
  obtain ⟨r, hcall', hok'⟩ := call_ok hb hr
  obtain rfl : (s, f') = r := Option.some.inj (hcall.symm.trans hcall')
  rw [hnew]
  refine ⟨hok'.buf, fun hok ev hev => ?_⟩
  rcases List.mem_append.1 hev with hold | hlast
  · exact ih (fun ev hev => hok ev (List.mem_append_left _ hev)) ev hold
  · intro hfail
    have hstatus := hok ev hev
    rw [List.mem_singleton.1 hlast] at hfail hstatus
    exact (hok'.part hfail).1 hstatus

/-- **`Append`, `Flush` and `Sync` make a file a faithful stream of bytes.** While no call has
failed, what is on `fd_` and in the buffer is all data appended, the buffer keeps its bound, and
`Flush` empties it. A call in which the first `::write` fails does not return OK, and then a prefix
of the data appended, its own included, is on `fd_`. -/
theorem stream_of_calls (hx : machine.Exec NoSize (.create ws ss cs) h f) :
    ((∀ ev ∈ h, ev.status = .ok) → f.stream = appended h ∧
      f.buf.length ≤ kWritableFileBufferSize ∧ f.flush.2.buf = []) ∧
    ∀ c, f.NoSize c → ∃ s f', f.call c = some (s, f') ∧
      (NoneFailed h → WriteResult.fail ∈ resultsUsed f f' →
        s ≠ .ok ∧ f'.fd <+: appended h ++ c.data) := by
  have hx := hx.mono fun f c => NoSize.hasRoom (f := f) (c := c)
  obtain ⟨hb, hs⟩ := exec_stream hx
  refine ⟨fun hok => ⟨hs (exec_failed hx hok), hb, rfl⟩, fun c hc => ?_⟩
  obtain ⟨⟨s, f'⟩, hcall, hok⟩ := call_ok hb hc.hasRoom
  refine ⟨s, f', hcall, fun hnone hfail => ?_⟩
  rw [← hs hnone]
  exact hok.part hfail

/-- A file on which the first byte is written and then an error occurs. -/
theorem stream_of_calls_error : ∃ f s f',
    machine.Exec NoSize (.create [.wrote 1, .eintr, .fail] [] []) [⟨.append [1, 2], .ok, []⟩] f ∧
      f.stream = [1, 2] ∧ f.call .flush = some (s, f') ∧ s ≠ .ok ∧ f'.fd <+: [1, 2] := by
  have hr : (machine.exec NoSize (.create [.wrote 1, .eintr, .fail] [] []) [.append [1, 2]]) =
      some ([⟨.append [1, 2], .ok, []⟩], ⟨[], [1, 2], [.wrote 1, .eintr, .fail], [], []⟩) := by
    decide +kernel
  have hx := Machine.exec_sound hr
  obtain ⟨hstream, hfail⟩ := stream_of_calls hx
  obtain ⟨hs, -⟩ := hstream (by decide)
  obtain ⟨s, f', hcall, hpart⟩ := hfail .flush trivial
  have hused : WriteResult.fail ∈ resultsUsed ⟨[], [1, 2], [.wrote 1, .eintr, .fail], [], []⟩ f' := by
    cases hcall
    decide +kernel
  obtain ⟨hstatus, hfd⟩ := hpart (by unfold NoneFailed; decide) hused
  exact ⟨_, s, f', hx, hs, hcall, hstatus, hfd⟩

/-! ## `AppendSize` -/

/-- `AppendSize` returns, has the effect of `Append` on the stream, and keeps to the buffer. -/
def SameAsAppend (f : WritableFile) (value : ℕ) : Prop :=
  ∃ f', f.appendSize value = some f' ∧ f'.stream = (f.append (leBytes 8 value)).2.stream ∧
    f'.buf.length ≤ kWritableFileBufferSize ∧
    -- the subtraction of the next `Append` does not wrap
    f'.bufferRoom + f'.buf.length = kWritableFileBufferSize

theorem bufferRoom_add (hb : f.buf.length ≤ kWritableFileBufferSize) :
    f.bufferRoom + f.buf.length = kWritableFileBufferSize := by
  rw [bufferRoom_eq hb]
  omega

/-- Without room for the eight bytes there is no result. -/
theorem SameAsAppend.room {value : ℕ} (h : f.SameAsAppend value) :
    f.buf.length + 8 ≤ kWritableFileBufferSize := by
  obtain ⟨f', hf', -⟩ := h
  by_contra hroom
  unfold appendSize at hf'
  rw [if_neg hroom] at hf'
  cases hf'

/-- **`AppendSize` is `Append` of the eight bytes exactly where these fit the buffer.** Where every
`AppendSize` of a run finds room for them, all states of the run are sound. -/
theorem appendSize_iff (f : WritableFile) (value : ℕ) (ws : List WriteResult)
    (ss cs : List Bool) :
    (f.SameAsAppend value ↔ f.buf.length + 8 ≤ kWritableFileBufferSize) ∧
    ∀ h f', machine.Exec HasRoom (.create ws ss cs) h f' →
      f'.buf.length ≤ kWritableFileBufferSize ∧
      f'.bufferRoom + f'.buf.length = kWritableFileBufferSize ∧
      (NoneFailed h → f'.stream = appended h) := by
  refine ⟨⟨SameAsAppend.room, fun hroom => ?_⟩, fun h f' hx => ?_⟩
  · have hlen : (leBytes 8 value).length = 8 := length_leBytes 8 value
    have hin : (f.buf ++ leBytes 8 value).length ≤ kWritableFileBufferSize := by
      rw [List.length_append, hlen]
      exact hroom
    refine ⟨_, appendSize_of_room hroom, ?_, hin, bufferRoom_add hin⟩
    rw [append_of_room (by rw [hlen]; exact hroom)]
  · obtain ⟨hb, hs⟩ := exec_stream hx
    exact ⟨hb, bufferRoom_add hb, hs⟩

/-- **Seven bytes of room are not enough**: after `Append` of 65529 bytes to a new file, `AppendSize`
stores one byte behind the buffer, where `pos_` is. `Append` of the eight bytes does not. -/
theorem appendSize_overflows : ∃ f h, machine.Exec Machine.Any (.create [] [] []) h f ∧
    (∀ ev ∈ h, ev.status = .ok) ∧ f.buf.length = 65529 ∧
    ∀ value, f.appendSize value = none ∧ ¬ f.SameAsAppend value ∧
      (f.append (leBytes 8 value)).1 = .ok ∧
      (f.append (leBytes 8 value)).2.stream = f.stream ++ leBytes 8 value := by
  obtain ⟨data, hlen⟩ : ∃ data : Bytes, data.length = 65529 :=
    ⟨List.replicate 65529 0, List.length_replicate⟩
  set f : WritableFile := ⟨[], data, [], [], []⟩ with hf
  have happ : (create [] [] []).append data = (.ok, f) :=
    append_of_room (by simp only [create, List.length_nil, hlen]; decide)
  have hbuf : f.buf.length = 65529 := hlen
  have hstep : machine.step (create [] [] []) (.append data) = some f := by
    show (some ((create [] [] []).append data)).map Prod.snd = _
    rw [happ]
    rfl
  have hx := Machine.Exec.next (G := Machine.Any) .start trivial hstep
  refine ⟨f, _, hx, fun ev hev => ?_, hbuf, fun value => ⟨?_, fun hsame => ?_, ?_⟩⟩
  · obtain rfl := List.mem_singleton.1 hev
    exact congrArg Prod.fst happ
  · unfold appendSize
    rw [hbuf, if_neg (by decide)]
  · have hroom := hsame.room
    rw [hbuf] at hroom
    exact absurd hroom (by decide)
  · have hnone : f.NoFail := List.not_mem_nil
    obtain ⟨f', h1, h2, -⟩ := append_ok hnone (by rw [hbuf]; decide) (leBytes 8 value)
    rw [h1]
    exact ⟨rfl, h2⟩

end

end Yangkv.WritableFile
