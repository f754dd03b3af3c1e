import Yangkv.Proof.Recovery

/-!
# Logs that end in the middle of a record

A crash leaves the first `n` bytes of what the log writer meant to write. The replay
gets the records that are whole, and stops if at most four bytes are left behind them:
`end()` does not ask for a whole size word, and neither read looks at how much it got.

* `replayTrace`: the replay, with the entries as they are when they are pushed.
* `replayTrace_frames`: the turns of the loop over whole records.
* `torn_log_iff`: when exactly the whole records are replayed.
-/

namespace Yangkv

open Lib MessageQueue

/-! ## What is left of a log -/

/-- The entries whose frames lie within the first `n` bytes of their log. -/
def wholeIn : ℕ → List Entry → List Entry
  | _, [] => []
  | n, e :: es =>
    if (frame e.record).length ≤ n then e :: wholeIn (n - (frame e.record).length) es else []

/-- The bytes of the first `n` that are behind the whole records. -/
def tornIn : ℕ → List Entry → Bytes
  | _, [] => []
  | n, e :: es =>
    if (frame e.record).length ≤ n then tornIn (n - (frame e.record).length) es
    else (frame e.record).take n

theorem take_logBytes (n : ℕ) (es : List Entry) :
    (logBytes es).take n = logBytes (wholeIn n es) ++ tornIn n es := by
  induction es generalizing n with
  | nil => simp [logBytes, wholeIn, tornIn]
  | cons e es ih =>
    rw [logBytes_cons, wholeIn, tornIn]
    split
    case isTrue h =>
      rw [List.take_append, List.take_of_length_le h, ih, logBytes_cons, List.append_assoc]
    case isFalse h =>
      rw [List.take_append_of_le_length (by omega)]
      rfl

theorem wholeIn_subset {n : ℕ} {es : List Entry} {e : Entry} (h : e ∈ wholeIn n es) : e ∈ es := by
  induction es generalizing n with
  | nil => exact h
  | cons x es ih =>
    rw [wholeIn] at h
    split at h
    · obtain rfl | h := List.mem_cons.1 h
      · exact List.mem_cons_self
      · exact List.mem_cons_of_mem _ (ih h)
    · exact absurd h List.not_mem_nil

/-! ## The replay, with the entries it pushes -/

/-- `replay`, with the entries as they are read from `buf_` when they are pushed. -/
def replayTrace (file : ℕ) : ℕ → Reader → MessageQueue BufView →
    Option ((Reader × MessageQueue BufView) × List Entry)
  | 0, _, _ => none
  | fuel + 1, reader, q =>
    if reader.atEnd then some ((reader, q), [])
    else do
      let (entry, reader) ← reader.readRecord
      let q := { q with max_id_ := max q.max_id_ entry.seq_num }
      let q ← q.pushReplayed (entry.map (⟨file, ·⟩)) fuel
      let (r, entries) ← replayTrace file fuel reader q
      some (r, entry.read reader.buf :: entries)

/-- It is the same loop. -/
theorem replayTrace_fst (file fuel : ℕ) (rd : Reader) (q : MessageQueue BufView) :
    (replayTrace file fuel rd q).map Prod.fst = replay file fuel rd q := by
  induction fuel generalizing rd q with
  | zero => rfl
  | succ fuel ih =>
    rw [replayTrace, replay]
    split
    · rfl
    · simp only [Option.bind_eq_bind, Option.map_bind]
      congr 1
      funext x
      simp only [Function.comp, Option.map_bind]
      congr 1
      funext q'
      rw [← ih]
      cases replayTrace file fuel x.2 q' with
      | none => rfl
      | some r => rfl

/-! ## Whole records -/

/-- An entry as its record gives it back. -/
def MemEntry.stored (e : Entry) : Entry := { e with seq_num := e.seq_num % 2 ^ 56 }

section

variable {file : ℕ} {rd : Reader} {q : MessageQueue BufView} {e : Entry} {es : List Entry}
  {tail : Bytes}

/-- The reader stands at some bytes that more than four bytes are left of. -/
theorem atEnd_eq (ho : rd.offset < 2 ^ 62) (hs : rd.size = rd.dest.length)
    (hle : rd.offset ≤ rd.dest.length) : rd.atEnd = decide ((rd.dest.drop rd.offset).length ≤ 4) := by
  unfold Reader.atEnd
  rw [Nat.mod_eq_of_lt (by omega), hs, List.length_drop]
  exact decide_eq_decide.2 ⟨by omega, by omega⟩

/-- A reader of a log file that is cut off. -/
structure Reader.Cut (rd : Reader) (es : List Entry) (tail : Bytes) : Prop where
  rest : rd.dest.drop rd.offset = logBytes es ++ tail
  size : rd.size = rd.dest.length
  inside : rd.offset ≤ rd.dest.length

/-- A turn at a whole record. -/
theorem replayTrace_frame (he : e.Readable) (hcut : rd.Cut (e :: es) tail) (ho : rd.offset < 2 ^ 62)
    (fuel : ℕ) : replayTrace file (fuel + 1) rd q =
      (({ q with max_id_ := max q.max_id_ (e.seq_num % 2 ^ 56) } : MessageQueue BufView).pushReplayed
        (e.views.map (⟨file, ·⟩)) fuel).bind fun q' =>
          (replayTrace file fuel { rd with
            offset := rd.offset + (frame e.record).length
            buf := overlay e.record rd.buf } q').map fun r => (r.1, e.stored :: r.2) := by
  have hrest := hcut.rest
  rw [logBytes_cons, List.append_assoc] at hrest
  have hend : rd.atEnd = false := by
    rw [atEnd_eq ho hcut.size hcut.inside, hrest, decide_eq_false_iff_not, List.length_append,
      length_frame]
    omega
  have hfr := length_frame_lt he.fits
  rw [replayTrace, hend, if_neg Bool.false_ne_true, readRecord_ok he (by omega) hrest]
  simp only [Option.bind_eq_bind, Option.bind_some]
  rw [show e.views.read (overlay e.record rd.buf) = e.stored from read_views e _]
  simp only [Option.map_eq_bind]
  rfl

theorem Reader.Cut.next (h : rd.Cut (e :: es) tail) (buf : Bytes) :
    ({ rd with offset := rd.offset + (frame e.record).length, buf := buf } : Reader).Cut es tail := by
  have hl := congrArg List.length h.rest
  rw [List.length_drop, logBytes_cons, List.append_assoc, List.length_append] at hl
  refine ⟨?_, h.size, ?_⟩
  · change rd.dest.drop (rd.offset + _) = _
    rw [← List.drop_drop, h.rest, logBytes_cons, List.append_assoc, List.drop_left]
  · have := length_frame e.record
    change rd.offset + _ ≤ rd.dest.length
    omega

/-- **The turns over whole records that find room.** -/
theorem replayTrace_frames (file : ℕ) (hes : ∀ e ∈ es, e.Readable) (hcut : rd.Cut es tail)
    (hroom : q.contents.length + es.length ≤ kQueueSize) (ho : rd.offset ≤ q.contents.length * 2 ^ 41) :
    ∃ rd' q', rd'.Cut [] tail ∧ q'.contents.length = q.contents.length + es.length ∧
      rd'.offset ≤ q'.contents.length * 2 ^ 41 ∧
      ∀ fuel, 0 < fuel → replayTrace file (es.length + fuel) rd q =
        (replayTrace file fuel rd' q').map fun r => (r.1, es.map MemEntry.stored ++ r.2) := by
  induction es generalizing rd q with
  | nil =>
    refine ⟨rd, q, hcut, rfl, ho, fun fuel _ => ?_⟩
    simp
  | cons e es ih =>
    rw [List.length_cons] at hroom
    have hq : q.contents.length ≤ 40 := by simp only [kQueueSize] at hroom; omega
    have he := hes e List.mem_cons_self
    have hfr := length_frame_lt he.fits
    obtain ⟨q₁, a1, a2, -, -, -⟩ := pushReplayed_ok
      (q := { q with max_id_ := max q.max_id_ (e.seq_num % 2 ^ 56) })
      (e := e.views.map (⟨file, ·⟩)) (show q.contents.length < kQueueSize by omega)
    have hlen : q₁.contents.length = q.contents.length + 1 := by
      rw [a2, List.length_append]; rfl
    obtain ⟨rd', q', b1, b2, b3, b4⟩ := ih (q := q₁)
      (fun x hx => hes x (List.mem_cons_of_mem _ hx)) (hcut.next (overlay e.record rd.buf)) (by omega)
      (by rw [hlen]; change rd.offset + _ ≤ _; omega)
    refine ⟨rd', q', b1, by rw [b2, hlen, List.length_cons]; omega, b3, fun fuel hf => ?_⟩
    rw [List.length_cons, show es.length + 1 + fuel = es.length + fuel + 1 by omega,
      replayTrace_frame he hcut (by omega), a1 _ (by omega), Option.bind_some, b4 fuel hf,
      Option.map_map]
    rfl

/-- **A record that finds no room** is pushed forever. -/
theorem replayTrace_stuck (file : ℕ) (he : e.Readable) (hcut : rd.Cut (e :: es) tail)
    (hfull : q.contents.length = kQueueSize) (ho : rd.offset ≤ q.contents.length * 2 ^ 41) (fuel : ℕ) :
    replayTrace file fuel rd q = none := by
  cases fuel with
  | zero => rfl
  | succ fuel =>
    have hq : q.contents.length = 40 := hfull
    rw [replayTrace_frame he hcut (by omega), pushReplayed_stuck
      (q := { q with max_id_ := max q.max_id_ (e.seq_num % 2 ^ 56) }) hfull fuel]
    rfl

/-! ## The end of the log -/

/-- Behind the whole records the replay ends, or pushes more. -/
theorem replayTrace_tail (file : ℕ) (q : MessageQueue BufView) (hcut : rd.Cut [] tail)
    (ho : rd.offset < 2 ^ 62) (fuel : ℕ) :
    (tail.length ≤ 4 ∧ replayTrace file (fuel + 1) rd q = some ((rd, q), [])) ∨
      (4 < tail.length ∧ ∀ r, replayTrace file (fuel + 1) rd q = some r → r.2 ≠ []) := by
  have hend := atEnd_eq ho hcut.size hcut.inside
  rw [hcut.rest, show logBytes [] ++ tail = tail from rfl] at hend
  rw [replayTrace, hend]
  by_cases h4 : tail.length ≤ 4
  · refine .inl ⟨h4, ?_⟩
    rw [if_pos (decide_eq_true h4)]
  · refine .inr ⟨by omega, fun r hr => ?_⟩
    rw [if_neg (by simpa using h4)] at hr
    simp only [Option.bind_eq_bind, Option.bind_eq_some_iff] at hr
    obtain ⟨x, -, q', -, r', -, hr⟩ := hr
    cases hr
    exact List.cons_ne_nil _ _

end

/-- The replay of the first `n` bytes returns, and has pushed exactly the whole records, each as it
was written. -/
def ReplaysWhole (file : ℕ) (q : MessageQueue BufView) (bytes scratch : Bytes) (n : ℕ)
    (es : List Entry) : Prop :=
  ∃ r, Returns (fun fuel => replayTrace file fuel (.new (bytes.take n) scratch) q) (r, wholeIn n es)

section

variable {n : ℕ} {es : List Entry} (scratch : Bytes) (file : ℕ) (q : MessageQueue BufView)

theorem reader_cut (n : ℕ) (es : List Entry) :
    (Reader.new ((logBytes es).take n) scratch).Cut (wholeIn n es) (tornIn n es) :=
  ⟨take_logBytes n es, rfl, Nat.zero_le _⟩

/-- Without room the replay never returns. -/
theorem replayTrace_hangs (hes : ∀ e ∈ es, e.Readable)
    (hroom : kQueueSize < q.contents.length + (wholeIn n es).length) :
    Hangs fun fuel => replayTrace file fuel (.new ((logBytes es).take n) scratch) q := by
  have hle : q.contents.length ≤ kQueueSize := Ring.length_contents_le
  set room := kQueueSize - q.contents.length with hdef
  have hcut := reader_cut scratch n es
  have hfit : ∀ e ∈ wholeIn n es, e.Readable := fun e he => hes e (wholeIn_subset he)
  obtain ⟨e, rest, hrest⟩ : ∃ e rest, (wholeIn n es).drop room = e :: rest :=
    List.exists_cons_of_ne_nil fun h => by
      have := List.drop_eq_nil_iff.1 h
      omega
  -- the records that fill the queue, and the one that does not find room
  rw [← List.take_append_drop room (wholeIn n es)] at hcut hfit
  have hlen : ((wholeIn n es).take room).length = room := List.length_take_of_le (by omega)
  have hcut' : (Reader.new ((logBytes es).take n) scratch).Cut ((wholeIn n es).take room)
      (logBytes (e :: rest) ++ tornIn n es) :=
    ⟨by rw [hcut.rest, logBytes_append, hrest, List.append_assoc], hcut.size, hcut.inside⟩
  obtain ⟨rd', q', h1, h2, h3, h4⟩ := replayTrace_frames file (q := q)
    (fun e he => hfit e (List.mem_append_left _ he)) hcut' (by omega) (Nat.zero_le _)
  have hstuck := replayTrace_stuck file
    (hfit e (List.mem_append_right _ (by rw [hrest]; exact List.mem_cons_self)))
    ⟨h1.rest, h1.size, h1.inside⟩ (by omega) h3
  intro fuel
  have hnone := h4 (fuel + 1) (Nat.succ_pos fuel)
  rw [hstuck, Option.map_none, hlen] at hnone
  -- what less fuel gives, more fuel gives
  cases hr : replayTrace file fuel (.new ((logBytes es).take n) scratch) q with
  | none => exact hr
  | some r =>
    have hsome := congrArg (Option.map Prod.fst) hr
    rw [replayTrace_fst, Option.map_some] at hsome
    have hmore := replay_mono (show fuel ≤ room + (fuel + 1) by omega) hsome
    rw [← replayTrace_fst, hnone] at hmore
    cases hmore

theorem stored_eq_iff {es : List Entry} :
    es.map MemEntry.stored = es ↔ ∀ e ∈ es, e.seq_num < 2 ^ 56 := by
  conv_lhs => rhs; rw [← List.map_id es]
  rw [List.map_inj_left]
  refine forall₂_congr fun e _ => ⟨fun h => ?_, fun h => ?_⟩
  · have hseq : e.seq_num % 2 ^ 56 = e.seq_num := congrArg MemEntry.seq_num h
    rw [← hseq]
    exact Nat.mod_lt _ (by decide)
  · rw [MemEntry.stored, Nat.mod_eq_of_lt h]
    rfl

/-- The turns over the whole records of a cut log. -/
theorem replayTrace_whole (hes : ∀ e ∈ es, e.Readable)
    (hroom : q.contents.length + (wholeIn n es).length ≤ kQueueSize) :
    ∃ rd' q', rd'.Cut [] (tornIn n es) ∧ rd'.offset < 2 ^ 62 ∧ ∀ fuel, 0 < fuel →
      replayTrace file ((wholeIn n es).length + fuel) (.new ((logBytes es).take n) scratch) q =
        (replayTrace file fuel rd' q').map fun r =>
          (r.1, (wholeIn n es).map MemEntry.stored ++ r.2) := by
  obtain ⟨rd', q', h1, h2, h3, h4⟩ := replayTrace_frames file
    (fun e he => hes e (wholeIn_subset he)) (reader_cut scratch n es) hroom (Nat.zero_le _)
  refine ⟨rd', q', h1, ?_, h4⟩
  simp only [kQueueSize] at hroom
  omega

variable {scratch file q}

theorem ReplaysWhole.of_torn (hes : ∀ e ∈ es, e.Readable) (hle : (tornIn n es).length ≤ 4)
    (hroom : q.contents.length + (wholeIn n es).length ≤ kQueueSize)
    (hseq : ∀ e ∈ wholeIn n es, e.seq_num < 2 ^ 56) :
    ReplaysWhole file q (logBytes es) scratch n es := by
  obtain ⟨rd', q', h1, ho, h2⟩ := replayTrace_whole scratch file q hes hroom
  refine ⟨(rd', q'), (wholeIn n es).length + 1, fun fuel hf => ?_⟩
  obtain ⟨m, rfl⟩ : ∃ m, fuel = (wholeIn n es).length + (m + 1) :=
    ⟨fuel - (wholeIn n es).length - 1, by omega⟩
  obtain ⟨-, htail⟩ | ⟨hlt, -⟩ := replayTrace_tail file q' h1 ho m
  · refine (h2 _ (Nat.succ_pos m)).trans ?_
    rw [htail, Option.map_some, List.append_nil, stored_eq_iff.2 hseq]
  · omega

theorem ReplaysWhole.torn (hes : ∀ e ∈ es, e.Readable)
    (h : ReplaysWhole file q (logBytes es) scratch n es) :
    (tornIn n es).length ≤ 4 ∧ q.contents.length + (wholeIn n es).length ≤ kQueueSize ∧
      ∀ e ∈ wholeIn n es, e.seq_num < 2 ^ 56 := by
  obtain ⟨r, hr⟩ := h
  have hroom : q.contents.length + (wholeIn n es).length ≤ kQueueSize := by
    by_contra hlt
    exact (replayTrace_hangs scratch file q hes (by omega)).not_returns _ hr
  obtain ⟨rd', q', h1, ho, h2⟩ := replayTrace_whole scratch file q hes hroom
  obtain ⟨m, hm⟩ := hr
  obtain ⟨r', hr', hx⟩ := Option.map_eq_some_iff.1
    ((h2 (m + 1) (Nat.succ_pos m)).symm.trans (hm _ (by omega)))
  -- nothing is pushed behind the whole records
  have hpushed : (wholeIn n es).map MemEntry.stored ++ r'.2 = wholeIn n es := (Prod.mk.inj hx).2
  have hnil : r'.2 = [] := by
    have := congrArg List.length hpushed
    simp only [List.length_append, List.length_map] at this
    exact List.length_eq_zero_iff.1 (by omega)
  rw [hnil, List.append_nil, stored_eq_iff] at hpushed
  obtain ⟨hle, -⟩ | ⟨-, hmore⟩ := replayTrace_tail file q' h1 ho m
  · exact ⟨hle, hroom, hpushed⟩
  · exact absurd hnil (hmore r' hr')

/-- **A cut log is replayed right** exactly if at most four bytes are left behind its whole records,
the queue has room for these, and their sequence numbers have 56 bits. -/
theorem torn_log_iff {bytes : Bytes} (scratch : Bytes) (file : ℕ) (q : MessageQueue BufView) (n : ℕ)
    (hes : ∀ e ∈ es, e.Recordable) (hlog : Logged es bytes) :
    ReplaysWhole file q bytes scratch n es ↔
      (tornIn n es).length ≤ 4 ∧ q.contents.length + (wholeIn n es).length ≤ kQueueSize ∧
        ∀ e ∈ wholeIn n es, e.seq_num < 2 ^ 56 := by
  have hread : ∀ e ∈ es, e.Readable := fun e he => (hes e he).readable
  obtain rfl := (logged_iff fun e he => (hes e he).fits).1 hlog
  exact ⟨ReplaysWhole.torn hread, fun ⟨hle, hroom, hseq⟩ => .of_torn hread hle hroom hseq⟩

end

section Runs

private def emptyQueue : MessageQueue BufView :=
  ⟨.emptyAt slot0 1, .create [] [] [], 2, 0, 0, false⟩

private def twoWrites : List Entry := [put1 97 49 1, put1 97 50 2]

private theorem twoWrites_recordable : ∀ e ∈ twoWrites, e.Recordable := by
  simp only [twoWrites, List.forall_mem_cons, List.not_mem_nil, false_imp_iff, implies_true,
    and_true]
  exact ⟨put1_recordable _ _ _, put1_recordable _ _ _⟩

theorem torn_log_iff_twoWrites : ReplaysWhole 1 emptyQueue (logBytes twoWrites) [] 25 twoWrites ↔
    (tornIn 25 twoWrites).length ≤ 4 ∧
      emptyQueue.contents.length + (wholeIn 25 twoWrites).length ≤ kQueueSize ∧
      ∀ e ∈ wholeIn 25 twoWrites, e.seq_num < 2 ^ 56 := by
  exact torn_log_iff [] 1 emptyQueue 25 twoWrites_recordable
    ((logged_iff fun e he => (twoWrites_recordable e he).fits).2 rfl)

/-- **Two bytes short**, the second write of a key is replayed with the value of the first. -/
theorem stale_value_replayed :
    (replayTrace 1 5 (.new ((logBytes twoWrites).take 42) []) emptyQueue).map Prod.snd =
        some [put1 97 49 1, put1 97 49 2] ∧
      wholeIn 42 twoWrites = [put1 97 49 1] ∧
      ¬ ReplaysWhole 1 emptyQueue (logBytes twoWrites) [] 42 twoWrites := by
  refine ⟨by decide +kernel, by decide +kernel, fun h => ?_⟩
  have htorn := (h.torn fun e he => (twoWrites_recordable e he).readable).1
  have hlen : (tornIn 42 twoWrites).length = 20 := by decide +kernel
  omega

end Runs

end Yangkv
