import Yangkv.Lib.Pieces
import Yangkv.Proof.Stream

/-!
# What a file loses to errors

A `::write` that fails leaves `pos_` at 0, and the call that made it returns its error once.
The calls after it go on with what the file has.

* `call_grows`: no call takes anything off the file.
* `CallOk.keeps`: no call adds anything but its data or keeps what a failed `::write` has not
  written.
* `stream_of_failures`: so after any failures a file has front parts of the data, in order, and
  all data since the last failure.
-/

namespace Yangkv.WritableFile

open Lib

variable {f f' : WritableFile} {c : Call} {h : List Event} {r : Status × WritableFile}

/-! ## Files only grow -/

theorem writeLoop_grows (ws : List WriteResult) : ∀ fd data : Bytes, fd <+: (writeLoop fd data ws).2.1 := by
  induction ws with
  | nil =>
    intro fd data
    exact List.prefix_append fd data
  | cons w ws ih =>
    intro fd data
    unfold writeLoop
    split
    · exact List.prefix_rfl
    cases w with
    | eintr => exact ih fd data
    | fail => exact List.prefix_rfl
    | wrote n => exact (List.prefix_append fd _).trans (ih _ _)

theorem flush_grows (f : WritableFile) : f.fd <+: f.flush.2.fd := writeLoop_grows f.writes f.fd f.buf

theorem append_grows (f : WritableFile) (data : Bytes) : f.fd <+: (f.append data).2.fd := by
  unfold append
  simp only
  split
  · exact List.prefix_rfl
  set f₁ : WritableFile := { f with buf := f.buf ++ data.take (min data.length f.bufferRoom) }
  have h1 : f.fd <+: f₁.flushBuffer.2.fd := f₁.flush_grows
  split
  · exact h1
  split
  · exact h1
  · exact h1.trans (writeLoop_grows _ _ _)

theorem sync_grows (f : WritableFile) : f.fd <+: f.sync.2.fd := by
  have h1 : f.fd <+: f.flushBuffer.2.fd := f.flush_grows
  unfold sync
  simp only
  split
  · exact h1
  · exact h1

theorem appendSize_grows {value : ℕ} (hf : f.appendSize value = some f') : f.fd <+: f'.fd := by
  unfold appendSize at hf
  split at hf
  · obtain rfl := Option.some.inj hf
    exact List.prefix_rfl
  · cases hf

theorem call_grows (hc : f.call c = some r) : f.fd <+: r.2.fd := by
  cases c with
  | append data =>
    obtain rfl := Option.some.inj hc
    exact f.append_grows data
  | appendSize value =>
    obtain ⟨f', hf, rfl⟩ := Option.map_eq_some_iff.1 hc
    exact appendSize_grows hf
  | flush =>
    obtain rfl := Option.some.inj hc
    exact f.flush_grows
  | sync =>
    obtain rfl := Option.some.inj hc
    exact f.sync_grows

/-! ## One call -/

/-- What holds of a call with the result `r` whether or not it fails. -/
structure CallKeeps (f : WritableFile) (c : Call) (r : Status × WritableFile) : Prop where
  stream : r.2.stream <+: f.stream ++ c.data
  /-- what is not on the file then is lost -/
  failed : WriteResult.fail ∈ resultsUsed f r.2 → r.2.buf = []

/-- An `Append` that fails has written from the buffer. -/
theorem append_ok_or_empty (f : WritableFile) (data : Bytes) :
    (f.append data).1 = .ok ∨ (f.append data).2.buf = [] := by
  unfold append
  simp only
  split
  · exact .inl rfl
  split
  · exact .inr rfl
  split
  · exact .inl rfl
  · exact .inr rfl

theorem sync_buf (f : WritableFile) : f.sync.2.buf = [] := by
  unfold sync
  simp only
  split
  · rfl
  · rfl

/-- An `AppendSize` writes nothing to the file. -/
theorem appendSize_ok {value : ℕ} (hc : f.call (.appendSize value) = some r) : r.1 = .ok := by
  obtain ⟨f', -, rfl⟩ := Option.map_eq_some_iff.1 hc
  rfl

/-- **A call adds nothing but its data**, and keeps nothing of it for later if it fails. -/
theorem CallOk.keeps (hok : f.CallOk c r) (hc : f.call c = some r) : f.CallKeeps c r := by
  have hempty : WriteResult.fail ∈ resultsUsed f r.2 → r.2.buf = [] := by
    intro hfail
    have hstatus := (hok.part hfail).1
    cases c with
    | append data =>
      obtain rfl := Option.some.inj hc
      exact (f.append_ok_or_empty data).resolve_left hstatus
    | appendSize value => exact absurd (appendSize_ok hc) hstatus
    | flush =>
      obtain rfl := Option.some.inj hc
      rfl
    | sync =>
      obtain rfl := Option.some.inj hc
      exact f.sync_buf
  refine ⟨?_, hempty⟩
  by_cases hfail : WriteResult.fail ∈ resultsUsed f r.2
  · rw [stream, hempty hfail, List.append_nil]
    exact (hok.part hfail).2
  · exact hok.whole hfail ▸ List.prefix_rfl

/-! ## Runs -/

section

variable {ws : List WriteResult} {ss cs : List Bool}

/-- What is left of the data of the calls: front parts in order, and all of it since a failure. -/
structure Left (h : List Event) (pieces : List Bytes) : Prop where
  begins : Begins pieces (h.map (·.call.data))
  since : ∀ h₁ h₂, h = h₁ ++ h₂ → NoneFailed h₂ → h₂.map (·.call.data) <:+ pieces

theorem Left.whole {pieces : List Bytes} {ev : Event} (hl : Left h pieces) :
    Left (h ++ [ev]) (pieces ++ [ev.call.data]) := by
  refine ⟨?_, fun h₁ h₂ hsplit hnone => ?_⟩
  · rw [List.map_append]
    exact hl.begins.concat (List.prefix_refl _)
  · rcases List.eq_nil_or_concat h₂ with rfl | ⟨h₂, ev', rfl⟩
    · exact List.nil_suffix
    · rw [List.concat_eq_append] at hsplit hnone ⊢
      rw [← List.append_assoc] at hsplit
      obtain ⟨hh, hev⟩ := List.append_inj' hsplit rfl
      have hbefore := hl.since h₁ h₂ hh fun e he => hnone e (List.mem_append_left _ he)
      rw [List.map_append, ← hev]
      obtain ⟨front, hfront⟩ := hbefore
      refine ⟨front, ?_⟩
      rw [← List.append_assoc, hfront]
      rfl

/-- A failure may cut any of the strings. -/
theorem Left.cut {pieces cut : List Bytes} {ev : Event} (hl : Left h pieces)
    (hcut : Begins cut (pieces ++ [ev.call.data])) (hfail : WriteResult.fail ∈ ev.used) :
    Left (h ++ [ev]) cut := by
  refine ⟨?_, fun h₁ h₂ hsplit hnone => ?_⟩
  · rw [List.map_append]
    exact hcut.trans (hl.begins.concat (List.prefix_refl _))
  · rcases List.eq_nil_or_concat h₂ with rfl | ⟨h₂, ev', rfl⟩
    · exact List.nil_suffix
    · -- the failure is the last event
      rw [List.concat_eq_append] at hsplit hnone
      rw [← List.append_assoc] at hsplit
      obtain ⟨-, hev⟩ := List.append_inj' hsplit rfl
      have hlast := hnone ev' (by simp)
      rw [← List.singleton_inj.1 hev] at hlast
      exact absurd hfail hlast

theorem exec_left (hx : machine.Exec HasRoom (.create ws ss cs) h f) :
    f.buf.length ≤ kWritableFileBufferSize ∧
      ∃ pieces, Left h pieces ∧ f.stream = pieces.flatten := by
  refine hx.induct (I := fun h f => f.buf.length ≤ kWritableFileBufferSize ∧
    ∃ pieces, Left h pieces ∧ f.stream = pieces.flatten) ⟨Nat.zero_le _, [], ⟨.nil, ?_⟩, rfl⟩ ?_
  · intro h₁ h₂ hsplit _
    rw [(List.append_eq_nil_iff.1 hsplit.symm).2]
    exact List.nil_suffix
  · rintro h f c f' ⟨hb, pieces, hl, hs⟩ hr hstep
    obtain ⟨s, hcall, hev⟩ := machine_step hstep
    obtain ⟨r, hcall', hok⟩ := call_ok hb hr
    obtain rfl : (s, f') = r := Option.some.inj (hcall.symm.trans hcall')
    refine ⟨hok.buf, ?_⟩
    set ev : Event := ⟨c, s, resultsUsed f f'⟩
    rw [hev]
    by_cases hfail : WriteResult.fail ∈ resultsUsed f f'
    · have hkept := (hok.keeps hcall).stream
      have hflat : f.stream ++ c.data = (pieces ++ [c.data]).flatten := by
        rw [hs, List.flatten_append, List.flatten_singleton]
      rw [hflat] at hkept
      obtain ⟨cut, hcut, hcutFlat⟩ := exists_begins hkept
      exact ⟨cut, hl.cut hcut hfail, hcutFlat⟩
    · have hwhole : Left (h ++ [ev]) (pieces ++ [c.data]) := hl.whole
      refine ⟨_, hwhole, ?_⟩
      rw [hok.whole hfail, hs, List.flatten_append, List.flatten_singleton]

theorem exec_grows (hx : machine.Exec HasRoom f h f') : f.fd <+: f'.fd := by
  refine hx.invariant (I := fun g => f.fd <+: g.fd) List.prefix_rfl ?_
  rintro g c g' hg - hstep
  obtain ⟨s, hcall, -⟩ := machine_step hstep
  exact hg.trans (call_grows hcall)

/-- **What a file has after any failures.** It is front parts of the data appended, in order, and
all data of the calls since the last failure. What is on `fd_` stays there, and a call in which a
`::write` fails leaves nothing to write later. -/
theorem stream_of_failures (hx : machine.Exec HasRoom (.create ws ss cs) h f) :
    (∃ pieces, Begins pieces (h.map (·.call.data)) ∧ f.stream = pieces.flatten ∧
      ∀ h₁ h₂, h = h₁ ++ h₂ → NoneFailed h₂ → h₂.map (·.call.data) <:+ pieces) ∧
    (∀ h' f', machine.Exec HasRoom f h' f' → f.fd <+: f'.fd) ∧
    ∀ c, f.HasRoom c → ∃ s f', f.call c = some (s, f') ∧
      (WriteResult.fail ∈ resultsUsed f f' → s ≠ .ok ∧ f'.stream = f'.fd) := by
  obtain ⟨hb, pieces, hl, hs⟩ := exec_left hx
  refine ⟨⟨pieces, hl.begins, hs, hl.since⟩, fun h' f' => exec_grows, fun c hr => ?_⟩
  obtain ⟨⟨s, f'⟩, hcall, hok⟩ := call_ok hb hr
  refine ⟨s, f', hcall, fun hfail => ⟨(hok.part hfail).1, ?_⟩⟩
  have hempty : f'.buf = [] := (hok.keeps hcall).failed hfail
  rw [stream, hempty, List.append_nil]

instance (f : WritableFile) : (c : Call) → Decidable (f.HasRoom c)
  | .appendSize _ => Nat.decLe ..
  | .append _ | .flush | .sync => instDecidableTrue

/-- The middle of three bytes is lost, and the third one is on the file behind the first. -/
theorem stream_of_failures_middle : ∃ h f,
    machine.Exec HasRoom (.create [.wrote 1, .fail] [] []) h f ∧
      h.map (·.status) = [.ok, .error, .ok, .ok] ∧ f.fd = [1, 3] ∧
        ∃ pieces, Begins pieces [[1, 2], [], [3], []] ∧ f.stream = pieces.flatten ∧
          [[3], []] <:+ pieces := by
  let calls : List Call := [.append [1, 2], .flush, .append [3], .flush]
  have hr : machine.exec HasRoom (.create [.wrote 1, .fail] [] []) calls = some
      ([⟨.append [1, 2], .ok, []⟩, ⟨.flush, .error, [.wrote 1, .fail]⟩, ⟨.append [3], .ok, []⟩,
        ⟨.flush, .ok, []⟩], ⟨[1, 3], [], [], [], []⟩) := by
    decide +kernel
  have hx := Machine.exec_sound hr
  obtain ⟨⟨pieces, hbegins, hs, hsince⟩, -⟩ := stream_of_failures hx
  have hlast := hsince [⟨.append [1, 2], .ok, []⟩, ⟨.flush, .error, [.wrote 1, .fail]⟩]
    [⟨.append [3], .ok, []⟩, ⟨.flush, .ok, []⟩] rfl (by unfold NoneFailed; decide)
  exact ⟨_, _, hx, rfl, rfl, pieces, hbegins, hs, hlast⟩

end

end Yangkv.WritableFile
