import Yangkv.Lib.Fuel
import Yangkv.Proof.LogFile
import Yangkv.Spec.MessageQueue

/-!
# Recovery

What the constructor of the message queue makes of the logs of earlier starts,
`segs[i]` being the entries logged in file `i + 1`.

* `construct_ok`: with at most `kQueueSize` records in all, it returns, with the
  largest sequence number and, in order, the views of every record.
* `construct_stuck`: with more, it never returns: nothing pops while it runs.
* `recovery_restores_iff`: the views read back the logged entries exactly when no
  record of a file was stored over another one's key or value. All records of a
  file are read into one buffer, and the queue keeps no copies.
-/

namespace Yangkv

open Lib MessageQueue

/-! ## One push, one record -/

section

variable {σ : Type} {q : MessageQueue σ} {e : MemEntry σ}

theorem pushReplayed_ok (h : q.contents.length < kQueueSize) :
    ∃ q', (∀ fuel, 0 < fuel → q.pushReplayed e fuel = some q') ∧ q'.contents = q.contents ++ [e] ∧
      q'.max_id_ = q.max_id_ ∧ q'.log_ = q.log_ ∧ q'.r_ptr = q.r_ptr := by
  have hnf : q.ring.isFull = false := by
    rw [Bool.eq_false_iff]
    intro hfull
    have := Ring.isFull_iff.1 hfull
    unfold contents at h
    omega
  have hnp : (q.ring.put e).isFull = false := hnf
  refine ⟨{ q with ring := (q.ring.put e).advance hnp }, ?_, Ring.contents_push hnp, rfl, rfl, rfl⟩
  intro fuel hf
  obtain ⟨fuel, rfl⟩ : ∃ n, fuel = n + 1 := ⟨fuel - 1, by omega⟩
  unfold pushReplayed
  rw [show q.isFull = false from hnf]
  unfold advance
  exact dif_pos hnp

/-- A push to a full queue turns forever. -/
theorem pushReplayed_stuck (h : q.contents.length = kQueueSize) : Hangs (q.pushReplayed e) := by
  intro fuel
  have hfull : q.isFull = true := Ring.isFull_iff.2 h
  induction fuel with
  | zero => rfl
  | succ fuel ih => unfold pushReplayed; rw [hfull]; exact ih

end

/-- The reader stands at the first of the records of `es`, the last ones of its file. -/
structure Reader.At (rd : Reader) (es : List Entry) : Prop where
  rest : rd.dest.drop rd.offset = logBytes es
  size : rd.size = rd.dest.length
  inside : rd.offset ≤ rd.dest.length

/-- The buffer after the records of `es` were read into it, one after the other. -/
def readOver (es : List Entry) (buf : Bytes) : Bytes := es.foldl (fun b e => overlay e.record b) buf

/-- The largest sequence number the records of `es` give back, `m` at least. -/
def maxSeq (es : List Entry) (m : ℕ) : ℕ := es.foldl (fun m e => max m (e.seq_num % 2 ^ 56)) m

/-- What the replay of `es` pushes: their parts as views into the buffer of file `i`. -/
def viewsIn (i : ℕ) (es : List Entry) : List (MemEntry BufView) :=
  es.map fun e => e.views.map (⟨i, ·⟩)

theorem length_frame_lt {e : Entry} (he : e.Fits) : (frame e.record).length < 2 ^ 41 := by
  obtain ⟨hk, hv⟩ := he
  have h1 := Varint.length_encode_le (k := 5) (n := e.key.bytes.length + 9) (by omega) (by omega)
  have h2 := Varint.length_encode_le (k := 5) (n := e.value.bytes.length + 1) (by omega) (by omega)
  rw [length_frame, length_record]; omega

theorem Reader.At.next {rd : Reader} {e : Entry} {es : List Entry} (h : rd.At (e :: es)) (buf : Bytes) :
    ({ rd with offset := rd.offset + (frame e.record).length, buf := buf } : Reader).At es := by
  have hl := congrArg List.length h.rest
  rw [List.length_drop, logBytes_cons, List.length_append] at hl
  refine ⟨?_, h.size, ?_⟩
  · show rd.dest.drop (rd.offset + _) = _
    rw [← List.drop_drop, h.rest, logBytes_cons, List.drop_left]
  · have := length_frame e.record
    show rd.offset + _ ≤ rd.dest.length
    omega

section

variable {q : MessageQueue BufView} {rd : Reader} {es : List Entry} {file : ℕ}

/-- One turn of the replay loop at a record. -/
theorem replay_step {e : Entry} (he : e.Readable) (hat : rd.At (e :: es)) (ho : rd.offset < 2 ^ 62)
    (fuel : ℕ) :
    replay file (fuel + 1) rd q =
      (({ q with max_id_ := max q.max_id_ (e.seq_num % 2 ^ 56) } : MessageQueue BufView).pushReplayed
        (e.views.map (⟨file, ·⟩)) fuel).bind fun q' =>
          replay file fuel { rd with
            offset := rd.offset + (frame e.record).length
            buf := overlay e.record rd.buf } q' := by
  have hend := atEnd_frames (by omega) hat.size hat.inside hat.rest
  rw [replay, hend, if_neg (by simp)]
  have hfr := length_frame_lt he.fits
  rw [readRecord_ok he (by omega) (by rw [hat.rest, logBytes_cons])]
  rfl

/-- **The replay of a file whose records find room** pushes all of them. -/
theorem replay_ok (file : ℕ) : ∀ {es : List Entry} (rd : Reader) {q : MessageQueue BufView},
    (∀ e ∈ es, e.Readable) → rd.At es → q.contents.length + es.length ≤ kQueueSize →
    rd.offset ≤ q.contents.length * 2 ^ 41 →
    ∃ rd' q', (∀ fuel, es.length < fuel → replay file fuel rd q = some (rd', q')) ∧
      rd'.buf = readOver es rd.buf ∧ q'.contents = q.contents ++ viewsIn file es ∧
      q'.max_id_ = maxSeq es q.max_id_ ∧ q'.log_ = q.log_ ∧ q'.r_ptr = q.r_ptr := by
  intro es
  induction es with
  | nil =>
    intro rd q _ hat hroom ho
    have hq : q.contents.length ≤ 40 := by simpa [kQueueSize] using hroom
    have hend := atEnd_frames (by omega) hat.size hat.inside hat.rest
    refine ⟨rd, q, ?_, rfl, by simp [viewsIn], rfl, rfl, rfl⟩
    intro fuel hf
    obtain ⟨fuel, rfl⟩ : ∃ n, fuel = n + 1 := ⟨fuel - 1, by omega⟩
    rw [replay, hend]; rfl
  | cons e es ih =>
    intro rd q hes hat hroom ho
    rw [List.length_cons] at hroom
    have hq : q.contents.length ≤ 40 := by simp only [kQueueSize] at hroom; omega
    have he := hes e List.mem_cons_self
    obtain ⟨q₁, a1, a2, a3, a4, a5⟩ := pushReplayed_ok
      (q := { q with max_id_ := max q.max_id_ (e.seq_num % 2 ^ 56) })
      (e := e.views.map (⟨file, ·⟩)) (show q.contents.length < kQueueSize by omega)
    have a2' : q₁.contents = q.contents ++ [e.views.map (⟨file, ·⟩)] := a2
    have hlen : q₁.contents.length = q.contents.length + 1 := by rw [a2']; simp
    have hfr := length_frame_lt he.fits
    obtain ⟨rd', q', b1, b2, b3, b4, b5, b6⟩ := ih
      { rd with
        offset := rd.offset + (frame e.record).length
        buf := overlay e.record rd.buf } (q := q₁)
      (fun x hx => hes x (List.mem_cons_of_mem _ hx)) (hat.next _) (by omega)
      (by rw [hlen]; show rd.offset + _ ≤ _; omega)
    refine ⟨rd', q', ?_, b2, ?_, ?_, b5.trans a4, b6.trans a5⟩
    · intro fuel hf
      rw [List.length_cons] at hf
      obtain ⟨fuel, rfl⟩ : ∃ n, fuel = n + 1 := ⟨fuel - 1, by omega⟩
      rw [replay_step he hat (by omega), a1 fuel (by omega)]
      exact b1 fuel (by omega)
    · rw [b3, a2', List.append_assoc]; rfl
    · rw [b4, a3]; rfl

/-- **The replay of a file with more records than room** hangs in a push. -/
theorem replay_stuck : ∀ {es : List Entry} {rd : Reader} {q : MessageQueue BufView},
    (∀ e ∈ es, e.Readable) → rd.At es → kQueueSize < q.contents.length + es.length →
    rd.offset ≤ q.contents.length * 2 ^ 41 → Hangs (fun fuel => replay file fuel rd q) := by
  intro es
  induction es with
  | nil =>
    intro rd q _ _ hroom _
    have : q.contents.length ≤ kQueueSize := Ring.length_contents_le
    simp at hroom
    omega
  | cons e es ih =>
    intro rd q hes hat hroom ho fuel
    cases fuel with
    | zero => rfl
    | succ fuel =>
      have hle : q.contents.length ≤ kQueueSize := Ring.length_contents_le
      have he := hes e List.mem_cons_self
      have ho' : rd.offset < 2 ^ 62 := by simp only [kQueueSize] at hle; omega
      show replay file (fuel + 1) rd q = none
      rw [replay_step he hat ho']
      rcases Nat.eq_or_lt_of_le hle with hfull | hlt
      · rw [pushReplayed_stuck
          (q := { q with max_id_ := max q.max_id_ (e.seq_num % 2 ^ 56) }) hfull fuel]
        rfl
      cases fuel with
      | zero => rfl
      | succ fuel =>
        obtain ⟨q₁, a1, a2, -, -, -⟩ := pushReplayed_ok
          (q := { q with max_id_ := max q.max_id_ (e.seq_num % 2 ^ 56) })
          (e := e.views.map (⟨file, ·⟩)) hlt
        have a2' : q₁.contents = q.contents ++ [e.views.map (⟨file, ·⟩)] := a2
        have hlen : q₁.contents.length = q.contents.length + 1 := by rw [a2']; simp
        have hfr := length_frame_lt he.fits
        rw [List.length_cons] at hroom
        rw [a1 _ (Nat.succ_pos fuel), Option.bind_some]
        exact ih (fun x hx => hes x (List.mem_cons_of_mem _ hx)) (hat.next _) (by omega)
          (by rw [hlen]; show rd.offset + _ ≤ _; omega) (fuel + 1)

end

theorem pushReplayed_mono {σ : Type} {q q' : MessageQueue σ} {e : MemEntry σ} {fuel : ℕ} :
    q.pushReplayed e fuel = some q' → q.pushReplayed e (fuel + 1) = some q' := by
  induction fuel with
  | zero => intro h; cases h
  | succ fuel ih =>
    intro h
    unfold pushReplayed at h ⊢
    split at h
    · rename_i hf; rw [if_pos hf]; exact ih h
    · rename_i hf; rw [if_neg hf]; exact h

theorem replay_succ {file : ℕ} {r : Reader × MessageQueue BufView} : ∀ {fuel : ℕ} {rd : Reader}
    {q : MessageQueue BufView}, replay file fuel rd q = some r →
      replay file (fuel + 1) rd q = some r := by
  intro fuel
  induction fuel with
  | zero => intro rd q h; cases h
  | succ fuel ih =>
    intro rd q h
    rw [replay] at h ⊢
    split at h
    · rename_i he; rw [if_pos he]; exact h
    · rename_i he
      rw [if_neg he]
      simp only [Option.bind_eq_bind, Option.bind_eq_some_iff, Prod.exists] at h ⊢
      obtain ⟨v, rd', h1, q', h2, h3⟩ := h
      exact ⟨v, rd', h1, q', pushReplayed_mono h2, ih h3⟩

/-- More fuel does not change what a replay returns. -/
theorem replay_mono {file fuel fuel' : ℕ} (hle : fuel ≤ fuel') {rd : Reader}
    {q : MessageQueue BufView} {r : Reader × MessageQueue BufView}
    (h : replay file fuel rd q = some r) : replay file fuel' rd q = some r := by
  induction hle with
  | refl => exact h
  | step _ ih => exact replay_succ ih

/-! ## All files -/

/-- What the replay of the files from number `i` on pushes. -/
def viewsFrom : ℕ → List (List Entry) → List (MemEntry BufView)
  | _, [] => []
  | i, es :: segs => viewsIn i es ++ viewsFrom (i + 1) segs

/-- The buffers after the replay of the files from number `i` on. -/
def bufsFrom : ℕ → List (List Entry) → (ℕ → Bytes) → ℕ → Bytes
  | _, [], bufs => bufs
  | i, es :: segs, bufs => bufsFrom (i + 1) segs (Function.update bufs i (readOver es (bufs i)))

/-- File `i + j` holds the log of `segs[j]`. -/
def LogsAt (files : ℕ → Option Bytes) (i : ℕ) (segs : List (List Entry)) : Prop :=
  ∀ j, (h : j < segs.length) → files (i + j) = some (logBytes segs[j])

theorem LogsAt.tail {files : ℕ → Option Bytes} {i : ℕ} {es : List Entry} {segs : List (List Entry)}
    (h : LogsAt files i (es :: segs)) : LogsAt files (i + 1) segs := by
  intro j hj
  have := h (j + 1) (by simpa using hj)
  rw [show i + (j + 1) = i + 1 + j by omega] at this
  exact this

theorem reader_new {es : List Entry} (scratch : Bytes) : (Reader.new (logBytes es) scratch).At es :=
  ⟨rfl, rfl, Nat.zero_le _⟩

theorem replayLogs_ok {files : ℕ → Option Bytes} : ∀ {segs : List (List Entry)} {i : ℕ}
    {q : MessageQueue BufView} (bufs : ℕ → Bytes),
    (∀ es ∈ segs, ∀ e ∈ es, e.Readable) → LogsAt files i segs →
    q.contents.length + segs.flatten.length ≤ kQueueSize →
    ∃ q', (∀ fuel, segs.flatten.length < fuel →
        replayLogs fuel files (List.range' i segs.length) (q, bufs) =
          some (q', bufsFrom i segs bufs)) ∧
      q'.contents = q.contents ++ viewsFrom i segs ∧ q'.max_id_ = maxSeq segs.flatten q.max_id_ ∧
      q'.log_ = q.log_ ∧ q'.r_ptr = q.r_ptr := by
  intro segs
  induction segs with
  | nil => intro i q bufs _ _ _; exact ⟨q, fun _ _ => rfl, by simp [viewsFrom], rfl, rfl, rfl⟩
  | cons es segs ih =>
    intro i q bufs hfit hlog hroom
    rw [List.flatten_cons, List.length_append] at hroom
    have h0 : files i = some (logBytes es) := by have := hlog 0 (by simp); simpa using this
    obtain ⟨rd', q₁, a1, a2, a3, a4, a5, a6⟩ := replay_ok i _ (q := q)
      (hfit es List.mem_cons_self) (reader_new (bufs i)) (by omega) (Nat.zero_le _)
    have hlen : q₁.contents.length = q.contents.length + es.length := by
      rw [a3]; simp [viewsIn]
    obtain ⟨q', b1, b2, b3, b4, b5⟩ := ih (i := i + 1) (q := q₁)
      (Function.update bufs i (readOver es (bufs i)))
      (fun x hx => hfit x (List.mem_cons_of_mem _ hx)) hlog.tail (by omega)
    have a2' : rd'.buf = readOver es (bufs i) := a2
    refine ⟨q', ?_, ?_, ?_, b4.trans a5, b5.trans a6⟩
    · intro fuel hf
      rw [List.flatten_cons, List.length_append] at hf
      rw [List.length_cons, List.range'_succ, replayLogs, h0]
      simp only [Option.bind_eq_bind, Option.bind_some, a1 fuel (by omega), a2']
      exact b1 fuel (by omega)
    · rw [b2, a3, List.append_assoc]; rfl
    · rw [b3, a4, List.flatten_cons]; simp [maxSeq]

theorem replayLogs_stuck {files : ℕ → Option Bytes} : ∀ {segs : List (List Entry)} {i : ℕ}
    {q : MessageQueue BufView} (bufs : ℕ → Bytes),
    (∀ es ∈ segs, ∀ e ∈ es, e.Readable) → LogsAt files i segs →
    kQueueSize < q.contents.length + segs.flatten.length →
    Hangs fun fuel => replayLogs fuel files (List.range' i segs.length) (q, bufs) := by
  intro segs
  induction segs with
  | nil =>
    intro i q bufs _ _ hroom
    have : q.contents.length ≤ kQueueSize := Ring.length_contents_le
    simp at hroom
    omega
  | cons es segs ih =>
    intro i q bufs hfit hlog hroom fuel
    rw [List.flatten_cons, List.length_append] at hroom
    have h0 : files i = some (logBytes es) := by have := hlog 0 (by simp); simpa using this
    have hes := hfit es List.mem_cons_self
    show replayLogs fuel files _ (q, bufs) = none
    rw [List.length_cons, List.range'_succ, replayLogs, h0]
    simp only [Option.bind_eq_bind, Option.bind_some]
    rcases Nat.lt_or_ge kQueueSize (q.contents.length + es.length) with hlt | hge
    · have hs : replay i fuel (Reader.new (logBytes es) (bufs i)) q = none :=
        replay_stuck hes (reader_new (bufs i)) hlt (Nat.zero_le _) fuel
      rw [hs]; rfl
    -- this file finds room: whatever its replay gives, the next ones do not
    cases hr : replay i fuel (Reader.new (logBytes es) (bufs i)) q with
    | none => rfl
    | some r =>
      obtain ⟨rd₁, q₁⟩ := r
      obtain ⟨rd', q', a1, -, a3, -, -, -⟩ := replay_ok i _ (q := q)
        hes (reader_new (bufs i)) hge (Nat.zero_le _)
      have hq : (rd', q') = (rd₁, q₁) := Option.some.inj
        ((a1 (fuel + es.length + 1) (by omega)).symm.trans (replay_mono (by omega) hr))
      have hlen : q₁.contents.length = q.contents.length + es.length := by
        rw [← (Prod.mk.inj hq).2, a3]; simp [viewsIn]
      simp only [Option.bind_some]
      exact ih _ (fun x hx => hfit x (List.mem_cons_of_mem _ hx)) hlog.tail (by omega) fuel

section

variable {files : ℕ → Option Bytes} (logfile : WritableFile) (slots : ℕ → MemEntry BufView)
  (scratch : ℕ → Bytes) (writerID : ℕ) {segs : List (List Entry)}

/-- **With room for every record the constructor returns**, ready, with their views in order. -/
theorem construct_ok (hfit : ∀ es ∈ segs, ∀ e ∈ es, e.Readable) (hlog : LogsAt files 1 segs)
    (hroom : segs.flatten.length ≤ kQueueSize) :
    ∃ q, Returns (fun fuel => construct fuel files logfile slots scratch writerID (segs.length + 1))
        (q, bufsFrom 1 segs scratch) ∧
      q.contents = viewsFrom 1 segs ∧ q.max_id_ = maxSeq segs.flatten 0 ∧ q.ready_ = true ∧
      q.log_ = logfile ∧ q.r_ptr = 1 := by
  obtain ⟨q, h1, h2, h3, h4, h5⟩ := replayLogs_ok scratch
    (q := ⟨.emptyAt slots 1, logfile, segs.length + 1, writerID, 0, false⟩)
    hfit hlog (by simpa only [contents, Ring.contents_emptyAt, List.length_nil, Nat.zero_add] using hroom)
  refine ⟨{ q with ready_ := true }, ⟨segs.flatten.length + 1, ?_⟩, ?_, h3, rfl, h4, h5⟩
  · intro fuel hf
    unfold construct
    simp only [Nat.add_sub_cancel, h1 fuel (by omega), Option.bind_eq_bind, Option.bind_some]
  · rw [show ({ q with ready_ := true } : MessageQueue BufView).contents = q.contents from rfl, h2]
    simp only [contents, Ring.contents_emptyAt, List.nil_append]

/-- **With more records than slots the constructor never returns.** -/
theorem construct_stuck (hfit : ∀ es ∈ segs, ∀ e ∈ es, e.Readable) (hlog : LogsAt files 1 segs)
    (hroom : kQueueSize < segs.flatten.length) :
    Hangs fun fuel => construct fuel files logfile slots scratch writerID (segs.length + 1) := by
  intro fuel
  have h := replayLogs_stuck scratch
    (q := ⟨.emptyAt slots 1, logfile, segs.length + 1, writerID, 0, false⟩)
    hfit hlog
    (by simpa only [contents, Ring.contents_emptyAt, List.length_nil, Nat.zero_add] using hroom) fuel
  simp only at h
  simp only [construct, Nat.add_sub_cancel, h]
  rfl

end

/-! ## What the slots read afterwards -/

/-- The contents of an entry. -/
def MemEntry.data (e : Entry) : Bytes × Bytes × ℕ × Bool :=
  (e.key.bytes, e.value.bytes, e.seq_num, e.value_type)

/-- The byte at position `p` of the last record that reaches so far. -/
def lastByte (records : List Bytes) (p : ℕ) : Option UInt8 := records.reverse.findSome? (·[p]?)

/-- Position `p` lies in the view. -/
def View.Covers (v : View) (p : ℕ) : Prop := v.off ≤ p ∧ p < v.off + v.len

instance (v : View) (p : ℕ) : Decidable (v.Covers p) := inferInstanceAs (Decidable (_ ∧ _))

/-- At the positions of each record's key and value, the last record of the file that reaches
so far has the same byte. -/
def Unclobbered (es : List Entry) : Prop :=
  ∀ e ∈ es, ∀ p < e.record.length, e.views.key.Covers p ∨ e.views.value.Covers p →
    lastByte (es.map MemEntry.record) p = e.record[p]?

instance (es : List Entry) : Decidable (Unclobbered es) :=
  inferInstanceAs (Decidable (∀ e ∈ es, ∀ p < e.record.length, _ → _))

theorem lastByte_append (rs : List Bytes) (r : Bytes) (p : ℕ) :
    lastByte (rs ++ [r]) p = r[p]?.or (lastByte rs p) := by
  unfold lastByte
  rw [List.reverse_append, List.reverse_singleton, List.singleton_append, List.findSome?_cons]
  cases r[p]? <;> rfl

theorem getElem?_readOver (es : List Entry) (buf : Bytes) (p : ℕ) :
    (readOver es buf)[p]? = (lastByte (es.map MemEntry.record) p).or buf[p]? := by
  induction es using List.reverseRecOn with
  | nil => simp [readOver, lastByte]
  | append_singleton es e ih =>
    have h : readOver (es ++ [e]) buf = overlay e.record (readOver es buf) := by simp [readOver]
    rw [h, getElem?_overlay, List.map_append, List.map_singleton, lastByte_append]
    split
    · rename_i hp; simp [List.getElem?_eq_getElem hp]
    · rename_i hp
      rw [ih, List.getElem?_eq_none (l := e.record) (by omega), Option.none_or]

theorem lastByte_isSome {es : List Entry} {e : Entry} (he : e ∈ es) {p : ℕ}
    (hp : p < e.record.length) : (lastByte (es.map MemEntry.record) p).isSome := by
  unfold lastByte
  rw [List.findSome?_isSome_iff]
  exact ⟨e.record, List.mem_reverse.2 (List.mem_map_of_mem he), by simp [hp]⟩

/-- Two buffers show the same through a view exactly when they agree where it looks. -/
theorem view_eq_iff {a b : Bytes} (v : View) :
    (a.drop v.off).take v.len = (b.drop v.off).take v.len ↔ ∀ p, v.Covers p → a[p]? = b[p]? := by
  constructor
  · rintro h p ⟨h1, h2⟩
    have hp := congrArg (fun l : Bytes => l[p - v.off]?) h
    simp only [List.getElem?_take, List.getElem?_drop] at hp
    rw [if_pos (by omega), if_pos (by omega), Nat.add_sub_cancel' h1] at hp
    exact hp
  · intro h
    apply List.ext_getElem?
    intro i
    simp only [List.getElem?_take, List.getElem?_drop]
    split
    · rename_i hi; exact h _ ⟨by omega, by omega⟩
    · rfl

theorem covers_lt {e : Entry} {p : ℕ} (h : e.views.key.Covers p ∨ e.views.value.Covers p) :
    p < e.record.length := by
  rw [length_record]
  unfold View.Covers MemEntry.views at h
  simp only at h
  omega

/-- **A replayed entry reads as logged exactly when its key and value survived in the buffer.** -/
theorem data_readOver_iff {es : List Entry} {e : Entry} (he : e ∈ es) (hs : e.seq_num < 2 ^ 56)
    (buf : Bytes) :
    (e.views.read (readOver es buf)).data = e.data ↔
      ∀ p < e.record.length, e.views.key.Covers p ∨ e.views.value.Covers p →
        lastByte (es.map MemEntry.record) p = e.record[p]? := by
  have hself := read_views e []
  rw [List.append_nil] at hself
  have hk := congrArg (fun x : Entry => x.key.bytes) hself
  have hv := congrArg (fun x : Entry => x.value.bytes) hself
  simp only [MemEntry.read, MemEntry.map, View.read] at hk hv
  have hseq : e.views.seq_num = e.seq_num := Nat.mod_eq_of_lt hs
  have hpos : ∀ p, p < e.record.length →
      ((readOver es buf)[p]? = e.record[p]? ↔
        lastByte (es.map MemEntry.record) p = e.record[p]?) := by
    intro p hp
    obtain ⟨b, hb⟩ := Option.isSome_iff_exists.1 (lastByte_isSome he hp)
    rw [getElem?_readOver, hb, Option.some_or]
  simp only [MemEntry.data, MemEntry.read, MemEntry.map, View.read, Prod.mk.injEq, hseq,
    show e.views.value_type = e.value_type from rfl, and_true]
  conv_lhs => rw [← hk, ← hv]
  rw [view_eq_iff, view_eq_iff]
  constructor
  · rintro ⟨h1, h2⟩ p hp (h | h)
    · exact (hpos p hp).1 (h1 p h)
    · exact (hpos p hp).1 (h2 p h)
  · intro h
    exact ⟨fun p hc => (hpos p (covers_lt (.inl hc))).2 (h p (covers_lt (.inl hc)) (.inl hc)),
      fun p hc => (hpos p (covers_lt (.inr hc))).2 (h p (covers_lt (.inr hc)) (.inr hc))⟩

theorem bufsFrom_lt : ∀ (segs : List (List Entry)) (i k : ℕ) (bufs : ℕ → Bytes), k < i →
    bufsFrom i segs bufs k = bufs k := by
  intro segs
  induction segs with
  | nil => intro i k bufs _; rfl
  | cons es segs ih =>
    intro i k bufs hk
    rw [bufsFrom, ih _ _ _ (by omega), Function.update_of_ne (by omega)]

theorem data_viewsFrom_iff : ∀ (segs : List (List Entry)) (i : ℕ) (bufs : ℕ → Bytes),
    (∀ es ∈ segs, ∀ e ∈ es, e.seq_num < 2 ^ 56) →
    ((viewsFrom i segs).map (fun v =>
        (v.map fun w => w.view.read (bufsFrom i segs bufs w.file)).data) =
      segs.flatten.map MemEntry.data ↔ ∀ es ∈ segs, Unclobbered es) := by
  intro segs
  induction segs with
  | nil => intro i bufs _; simp [viewsFrom]
  | cons es segs ih =>
    intro i bufs hs
    have hbuf : bufsFrom i (es :: segs) bufs i = readOver es (bufs i) := by
      rw [bufsFrom, bufsFrom_lt _ _ _ _ (Nat.lt_succ_self i), Function.update_self]
    have hfile : (viewsIn i es).map (fun v =>
        (v.map fun w => w.view.read (bufsFrom i (es :: segs) bufs w.file)).data) =
        es.map fun e => (e.views.read (readOver es (bufs i))).data := by
      rw [viewsIn, List.map_map]
      refine List.map_congr_left fun e _ => ?_
      simp only [Function.comp, MemEntry.map, hbuf, MemEntry.read]
    rw [viewsFrom, List.map_append, hfile, List.flatten_cons, List.map_append]
    rw [List.append_eq_append_iff_of_size_eq_left (by simp), List.forall_mem_cons]
    refine and_congr ?_ (ih (i + 1) _ fun x hx => hs x (List.mem_cons_of_mem _ hx))
    rw [List.map_inj_left]
    exact forall₂_congr fun e he => data_readOver_iff he (hs es List.mem_cons_self e he) (bufs i)

/-- The slots after the constructor returned read as logged exactly when no file's records
overwrote each other's parts. -/
theorem data_resolve_iff {q : MessageQueue BufView} {segs : List (List Entry)} {scratch : ℕ → Bytes}
    (hq : q.contents = viewsFrom 1 segs) (hs : ∀ es ∈ segs, ∀ e ∈ es, e.seq_num < 2 ^ 56) :
    (q.resolve (bufsFrom 1 segs scratch)).contents.map MemEntry.data =
      segs.flatten.map MemEntry.data ↔ ∀ es ∈ segs, Unclobbered es := by
  have hc : (q.resolve (bufsFrom 1 segs scratch)).contents =
      (viewsFrom 1 segs).map fun v => v.map fun w => w.view.read (bufsFrom 1 segs scratch w.file) := by
    rw [← hq]; exact Ring.contents_map _
  rw [hc, List.map_map]
  exact data_viewsFrom_iff segs 1 scratch hs

/-! ## Recovery as a whole -/

/-- Log file `i + 1` of the writer is what `AddRecord` left of the entries `segs[i]`. -/
def LogFilesOf (files : ℕ → Option Bytes) (segs : List (List Entry)) : Prop :=
  ∀ i, (h : i < segs.length) → ∃ bytes, files (i + 1) = some bytes ∧ Logged segs[i] bytes

theorem LogFilesOf.logsAt {files : ℕ → Option Bytes} {segs : List (List Entry)}
    (h : LogFilesOf files segs) (hfit : ∀ es ∈ segs, ∀ e ∈ es, e.Fits) : LogsAt files 1 segs := by
  intro i hi
  obtain ⟨bytes, h1, h2⟩ := h i hi
  rw [logged_iff (hfit _ (List.getElem_mem hi))] at h2
  rw [Nat.add_comm, h1, h2]

/-- The encoded record of the entry has at most `kMaxRecordSize` bytes. -/
def MemEntry.Recordable (e : Entry) : Prop :=
  ∃ record, encodeMemEntry e = some record ∧ record.length ≤ kMaxRecordSize

theorem MemEntry.Recordable.fits {e : Entry} (h : e.Recordable) : e.Fits := by
  obtain ⟨r, h1, h2⟩ := h
  unfold encodeMemEntry at h1
  simp only [Option.ite_none_right_eq_some, Option.some.injEq] at h1
  obtain ⟨-, rfl⟩ := h1
  simp only [List.length_append, List.length_singleton, encodeFixed64, length_leBytes,
    kMaxRecordSize] at h2
  exact ⟨by omega, by omega⟩

theorem MemEntry.Recordable.readable {e : Entry} (h : e.Recordable) : e.Readable := by
  refine ⟨h.fits, ?_⟩
  obtain ⟨r, h1, h2⟩ := h
  rw [encodeMemEntry_fits (MemEntry.Recordable.fits ⟨r, h1, h2⟩)] at h1
  cases h1
  exact h2.trans (by decide)

/-- The next start's constructor returns with exactly the logged entries in its slots, each
slice read from its buffer as the constructor leaves it, and with the largest logged number. -/
def Restores (files : ℕ → Option Bytes) (logfile : WritableFile) (slots : ℕ → MemEntry BufView)
    (scratch : ℕ → Bytes) (writerID : ℕ) (segs : List (List Entry)) : Prop :=
  ∃ q bufs, Returns (fun fuel => construct fuel files logfile slots scratch writerID
      (segs.length + 1)) (q, bufs) ∧
    (q.resolve bufs).contents.map MemEntry.data = segs.flatten.map MemEntry.data ∧
    q.max_id_ = (segs.flatten.map (·.seq_num)).foldl max 0

theorem maxSeq_eq {es : List Entry} (hs : ∀ e ∈ es, e.seq_num < 2 ^ 56) : ∀ m,
    maxSeq es m = (es.map (·.seq_num)).foldl max m := by
  induction es with
  | nil => intro m; rfl
  | cons e es ih =>
    intro m
    have := ih (fun x hx => hs x (List.mem_cons_of_mem _ hx)) (max m e.seq_num)
    simp only [maxSeq, List.foldl_cons, List.map_cons,
      Nat.mod_eq_of_lt (hs e List.mem_cons_self)] at this ⊢
    exact this

/-! ## Sample logs -/

/-- A short write. -/
def put1 (key value : UInt8) (seq : ℕ) : Entry :=
  ⟨.ofString [key], .ofString [value], seq, false⟩

/-- Log files that hold the given entries and nothing else. -/
def filesOf (segs : List (List Entry)) (i : ℕ) : Option Bytes :=
  if i = 0 then none else (segs[i - 1]?).map logBytes

theorem filesOf_logs {segs : List (List Entry)} (hfit : ∀ es ∈ segs, ∀ e ∈ es, e.Fits) :
    LogFilesOf (filesOf segs) segs := by
  intro i hi
  refine ⟨logBytes segs[i], ?_, (logged_iff (hfit _ (List.getElem_mem hi))).2 rfl⟩
  simp [filesOf, hi]

theorem put1_recordable (k v : UInt8) (n : ℕ) : (put1 k v n).Recordable := by
  have hfit : (put1 k v n).Fits := ⟨by simp [put1, Slice.ofString], by simp [put1, Slice.ofString]⟩
  refine ⟨_, encodeMemEntry_fits hfit, ?_⟩
  have h : (Varint.encode 10).length = 1 ∧ (Varint.encode 2).length = 1 := by decide +kernel
  rw [length_record]
  simp [put1, Slice.ofString, kMaxRecordSize, h.1, h.2]

theorem put1_ok (segs : List (List Entry))
    (h : ∀ es ∈ segs, ∀ e ∈ es, ∃ k v, ∃ n < 2 ^ 56, e = put1 k v n) :
    (∀ es ∈ segs, ∀ e ∈ es, e.Recordable) ∧ ∀ es ∈ segs, ∀ e ∈ es, e.seq_num < 2 ^ 56 := by
  constructor <;> intro es hes e he <;> obtain ⟨k, v, n, hn, rfl⟩ := h es hes e he
  · exact put1_recordable k v n
  · exact hn


/-- What the memory of a fresh constructor holds, here all zero. -/
def slot0 : ℕ → MemEntry BufView := fun _ => ⟨⟨0, ⟨0, 0⟩⟩, ⟨0, ⟨0, 0⟩⟩, 0, false⟩

/-! ## The constructor of the next start -/

section

variable {files : ℕ → Option Bytes} {logfile : WritableFile} {slots : ℕ → MemEntry BufView}
  {scratch : ℕ → Bytes} {writerID : ℕ} {segs : List (List Entry)}

theorem restores_of_unclobbered (hlog : LogFilesOf files segs)
    (hrec : ∀ es ∈ segs, ∀ e ∈ es, e.Recordable) (hs : ∀ es ∈ segs, ∀ e ∈ es, e.seq_num < 2 ^ 56)
    (hq : segs.flatten.length ≤ kQueueSize) (hu : ∀ es ∈ segs, Unclobbered es) :
    Restores files logfile slots scratch writerID segs := by
  have hfit : ∀ es ∈ segs, ∀ e ∈ es, e.Fits := fun es h e he => (hrec es h e he).fits
  obtain ⟨q, h1, h2, h3, -, -, -⟩ := construct_ok logfile slots scratch writerID
    (fun es h e he => (hrec es h e he).readable) (hlog.logsAt hfit) hq
  refine ⟨q, _, h1, (data_resolve_iff h2 hs).2 hu, ?_⟩
  rw [h3, maxSeq_eq]
  intro e he
  obtain ⟨es, hes, hin⟩ := List.mem_flatten.1 he
  exact hs es hes e hin

theorem Restores.unclobbered (hr : Restores files logfile slots scratch writerID segs)
    (hlog : LogFilesOf files segs) (hrec : ∀ es ∈ segs, ∀ e ∈ es, e.Recordable)
    (hs : ∀ es ∈ segs, ∀ e ∈ es, e.seq_num < 2 ^ 56) (hq : segs.flatten.length ≤ kQueueSize) :
    ∀ es ∈ segs, Unclobbered es := by
  have hfit : ∀ es ∈ segs, ∀ e ∈ es, e.Fits := fun es h e he => (hrec es h e he).fits
  obtain ⟨q, h1, h2, -⟩ := construct_ok logfile slots scratch writerID
    (fun es h e he => (hrec es h e he).readable) (hlog.logsAt hfit) hq
  obtain ⟨q', bufs, g1, g2, -⟩ := hr
  obtain ⟨rfl, rfl⟩ := Prod.mk.inj (h1.unique g1)
  exact (data_resolve_iff h2 hs).1 g2

/-- **Recovery restores the logged writes exactly when no record of a file was read over the
key or value of another one.** A file of at most one record always meets this. -/
theorem recovery_restores_iff (hlog : LogFilesOf files segs)
    (hrec : ∀ es ∈ segs, ∀ e ∈ es, e.Recordable) (hs : ∀ es ∈ segs, ∀ e ∈ es, e.seq_num < 2 ^ 56)
    (hq : segs.flatten.length ≤ kQueueSize) :
    Restores files logfile slots scratch writerID segs ↔ ∀ es ∈ segs, Unclobbered es :=
  ⟨fun h => h.unclobbered hlog hrec hs hq, restores_of_unclobbered hlog hrec hs hq⟩

/-- One record in each of two files: both are restored. -/
theorem recovery_restores_iff_split :
    Restores (filesOf [[put1 97 49 1], [put1 98 50 2]]) (.create [] [] []) slot0 (fun _ => []) 0
        [[put1 97 49 1], [put1 98 50 2]] ↔
      ∀ es ∈ [[put1 97 49 1], [put1 98 50 2]], Unclobbered es := by
  have h := put1_ok [[put1 97 49 1], [put1 98 50 2]] (by
    simp only [List.mem_cons, List.not_mem_nil, or_false, forall_eq_or_imp, forall_eq]
    exact ⟨⟨97, 49, 1, by decide, rfl⟩, ⟨98, 50, 2, by decide, rfl⟩⟩)
  exact recovery_restores_iff (filesOf_logs fun es hes e he => (h.1 es hes e he).fits) h.1 h.2
    (by decide)

/-- Two records in one file: the first one's slot reads the key and value of the second. -/
theorem recovery_clobbers :
    ¬ Restores (filesOf [[put1 97 49 1, put1 98 50 2]]) (.create [] [] []) slot0 (fun _ => []) 0
        [[put1 97 49 1, put1 98 50 2]] := by
  have h := put1_ok [[put1 97 49 1, put1 98 50 2]] (by
    simp only [List.mem_cons, List.not_mem_nil, or_false, forall_eq_or_imp, forall_eq]
    exact ⟨⟨97, 49, 1, by decide, rfl⟩, ⟨98, 50, 2, by decide, rfl⟩⟩)
  intro hr
  have hu := hr.unclobbered (filesOf_logs fun es hes e he => (h.1 es hes e he).fits) h.1 h.2
    (by decide) _ List.mem_cons_self
  revert hu
  decide +kernel

/-- **Recovery returns exactly when the old logs hold at most `kQueueSize` records.** -/
theorem recovery_returns_iff (hlog : LogFilesOf files segs)
    (hrec : ∀ es ∈ segs, ∀ e ∈ es, e.Recordable) :
    (∃ r, Returns (fun fuel => construct fuel files logfile slots scratch writerID
      (segs.length + 1)) r) ↔ segs.flatten.length ≤ kQueueSize := by
  have hat := hlog.logsAt fun es hes e he => (hrec es hes e he).fits
  have hread : ∀ es ∈ segs, ∀ e ∈ es, e.Readable := fun es hes e he => (hrec es hes e he).readable
  constructor
  · rintro ⟨r, hr⟩
    by_contra hroom
    exact (construct_stuck _ _ _ _ hread hat (by omega)).not_returns r hr
  · intro hroom
    obtain ⟨q, h1, -⟩ := construct_ok logfile slots scratch writerID hread hat hroom
    exact ⟨_, h1⟩

/-- Two files, with records of different lengths. -/
def twoFiles : List (List Entry) :=
  [[⟨.ofString [97], .ofString [], 1, true⟩, put1 97 49 2],
    [⟨.ofString [98, 99], .ofString [49, 50, 51], 3, false⟩]]

theorem twoFiles_recordable : ∀ es ∈ twoFiles, ∀ e ∈ es, e.Recordable := by
  have hlen : ∀ es ∈ twoFiles, ∀ e ∈ es, (encodeMemEntry e).any (·.length ≤ kMaxRecordSize) := by
    decide +kernel
  intro es hes e he
  obtain ⟨record, h1, h2⟩ := (Option.any_eq_true _ _).1 (hlen es hes e he)
  exact ⟨record, h1, of_decide_eq_true h2⟩

theorem recovery_returns_iff_twoFiles :
    ∃ r, Returns (fun fuel => construct fuel (filesOf twoFiles) (.create [] [] []) slot0
      (fun _ => []) 0 3) r := by
  have hlog := filesOf_logs fun es hes e he => (twoFiles_recordable es hes e he).fits
  exact (recovery_returns_iff hlog twoFiles_recordable).2 (by decide)

/-- One log of 41 records: the push of the last one waits forever. -/
theorem recovery_hangs :
    ¬ ∃ r, Returns (fun fuel => construct fuel (filesOf [List.replicate 41 (put1 97 49 1)])
      (.create [] [] []) slot0 (fun _ => []) 0 2) r := by
  have h := put1_ok [List.replicate 41 (put1 97 49 1)] (by
    simp only [List.mem_cons, List.not_mem_nil, or_false, forall_eq]
    intro e he
    exact ⟨97, 49, 1, by decide, List.eq_of_mem_replicate he⟩)
  have hat := (filesOf_logs fun es hes e he => (h.1 es hes e he).fits).logsAt
    fun es hes e he => (h.1 es hes e he).fits
  rintro ⟨r, hr⟩
  exact (construct_stuck _ _ _ _ (fun es hes e he => (h.1 es hes e he).readable) hat
    (by decide)).not_returns r hr

end

end Yangkv
