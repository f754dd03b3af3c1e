import Yangkv.Proof.Database
import Yangkv.Proof.Ids
import Yangkv.Proof.StreamErrors
import Yangkv.Proof.TornLog
import Yangkv.Proof.Wal

/-!
# What a crash leaves of the writes

The process can end between two steps, and inside the `Append` or the `Flush` of an
`AddRecord` after any of its `::write` calls.

* `Store.Crashed`: what is in a log file then.
* `Durable.move`: every step keeps the completed records in the file.
* `crash_keeps_writes`: the next start replays every entry that was counted in, in the
  order of the pushes, before anything else it makes of the file.
-/

namespace Yangkv

open Lib

/-! ## A log cut in the middle of a record -/

/-- Every record that is in the file whole is one of the whole records. -/
theorem prefix_wholeIn {es pend : List Entry} : ∀ {n : ℕ}, (logBytes es).length ≤ n →
    es <+: wholeIn n (es ++ pend) := by
  induction es with
  | nil => exact fun _ => List.nil_prefix
  | cons e es ih =>
    intro n hn
    rw [logBytes_cons, List.length_append] at hn
    have hle : (frame e.record).length ≤ n := by omega
    rw [List.cons_append, wholeIn, if_pos hle]
    exact (List.prefix_cons_inj e).2 (ih (by omega))

section

variable {n : ℕ} {es : List Entry} {scratch : Bytes} {file : ℕ} {q : MessageQueue BufView}

/-- Whatever is behind the whole records, these are replayed first. -/
theorem replays_whole_first (hes : ∀ e ∈ es, e.Readable) (hseq : ∀ e ∈ es, e.seq_num < 2 ^ 56)
    {r : (Reader × MessageQueue BufView) × List Entry}
    (hr : Returns (fun fuel => replayTrace file fuel (.new ((logBytes es).take n) scratch) q) r) :
    wholeIn n es <+: r.2 := by
  have hroom : q.contents.length + (wholeIn n es).length ≤ kQueueSize := by
    by_contra hlt
    exact (replayTrace_hangs scratch file q hes (by omega)).not_returns _ hr
  obtain ⟨rd', q', -, -, h2⟩ := replayTrace_whole scratch file q hes hroom
  obtain ⟨m, hm⟩ := hr
  obtain ⟨r', -, hx⟩ := Option.map_eq_some_iff.1
    ((h2 (m + 1) (Nat.succ_pos m)).symm.trans (hm _ (by omega)))
  have hstored : (wholeIn n es).map MemEntry.stored = wholeIn n es := by
    exact stored_eq_iff.2 fun e he => hseq e (wholeIn_subset he)
  rw [← hx, hstored]
  exact List.prefix_append _ _

end

/-! ## The store at a crash -/

namespace Store

/-- What a crash can leave in the log of the queue of `w`. A `::write` that fails is where the
process ends inside a call. -/
inductive Crashed (s : Store) (w : Fin kMaxWriter) : Bytes → Prop
  | between : Crashed s w (s.writer_ w).queue_.log_.fd
  | append {t e slice} (ws : List WriteResult) : s.client t = .set .sized e → home e = w →
      encodeMemEntry e = some slice →
      Crashed s w ({ (s.writer_ w).queue_.log_ with writes := ws }.append slice).2.fd
  | flush {t e} (ws : List WriteResult) : s.client t = .set .appended e → home e = w →
      Crashed s w { (s.writer_ w).queue_.log_ with writes := ws }.flush.2.fd

/-- The entry can be written and read back. -/
def Loggable (e : Entry) : Prop := e.Recordable ∧ e.seq_num < 2 ^ 56

theorem Loggable.bounded {e : Entry} (h : Loggable e) : e.Bounded := ⟨h.1.fits, h.2⟩

/-- A step before the ids reach `2 ^ 56`, of writes whose records fit the buffer of the reader. -/
def RecordedStep (s : Store) : Label → Prop
  | .callSet _ key value del_flag =>
    s.idx_ < 2 ^ 56 ∧ ∀ id, (entryOf key value id del_flag).Recordable
  | _ => s.idx_ < 2 ^ 56

/-- The completed records of every log are in its file. -/
structure Durable (h : List Event) (s : Store) : Prop where
  clients : s.ClientsOk
  called : ∀ t key value del_flag, s.client t = .setCalled key value del_flag →
    ∀ id, (entryOf key value id del_flag).Recordable
  entry : ∀ t p e, s.client t = .set p e → Loggable e
  logged : ∀ w, ∀ e ∈ loggedTo w h, Loggable e
  wal : ∀ w, s.WalOk (loggedTo w h) (pushedTo w h) w
  file : ∀ w, logBytes (loggedTo w h) <+: (s.writer_ w).queue_.log_.fd

variable {s s' : Store} {l : Label} {h : List Event} {w : Fin kMaxWriter}

theorem Durable.framed (hd : Durable h s) {base : Bytes} (hb : Framed (loggedTo w h) base) :
    base = logBytes (loggedTo w h) :=
  hb.eq_logBytes fun e he => (hd.logged w e he).bounded.fits

/-- No step takes bytes out of a log. -/
theorem Move.log_grows (hm : Move s l s') (w : Fin kMaxWriter) :
    (s.writer_ w).queue_.log_.fd <+: (s'.writer_ w).queue_.log_.fd := by
  -- a step of a thread on the log of `home e`
  have own : ∀ {t e pc f}, (s.writer_ (home e)).queue_.log_.fd <+: f.fd →
      s' = s.onQueue t (home e) pc { (s.writer_ (home e)).queue_ with log_ := f } →
      (s.writer_ w).queue_.log_.fd <+: (s'.writer_ w).queue_.log_.fd := by
    intro t e pc f hf hs
    rw [hs, onQueue, setClient_writer, setWriter_writer]
    by_cases hw : w = home e
    · rw [hw, Function.update_self]
      exact hf
    · exact Function.update_of_ne hw .. ▸ List.prefix_rfl
  have same : (s'.writer_ w).queue_.log_ = (s.writer_ w).queue_.log_ →
      (s.writer_ w).queue_.log_.fd <+: (s'.writer_ w).queue_.log_.fd := by
    exact fun hl => hl ▸ List.prefix_rfl
  cases hm with
  | @size t e slice f _ _ _ hf => exact own (WritableFile.appendSize_grows hf) rfl
  | @append t e slice f _ _ hf =>
    have hgrow := (s.writer_ (home e)).queue_.log_.append_grows slice
    rw [hf] at hgrow
    exact own hgrow rfl
  | @flush t e f _ hf =>
    have hgrow := (s.writer_ (home e)).queue_.log_.flush_grows
    rw [hf] at hgrow
    exact own hgrow rfl
  | pop _ hq =>
    obtain ⟨he, rfl⟩ := MessageQueue.pop_some hq
    exact same (keeps_field (·.queue_.log_) rfl rfl)
  | count _ hq =>
    obtain ⟨hf, rfl⟩ := MessageQueue.advance_some hq
    exact same (keeps_field (·.queue_.log_) rfl rfl)
  | put | lock | unlock | acquire | release | insert | check | freeze | renew =>
    exact same (keeps_field (·.queue_.log_) rfl rfl)
  | _ => exact same rfl

/-- **Every step keeps the completed records in the file.** -/
theorem Durable.file_step (hd : Durable h s) (hm : Move s l s') (w : Fin kMaxWriter) :
    logBytes (loggedTo w (h ++ (s.event l).toList)) <+: (s'.writer_ w).queue_.log_.fd := by
  have hgrow := (hd.file w).trans (hm.log_grows w)
  rw [loggedTo_append]
  obtain hnone | ⟨t, e, rfl, ht, hone⟩ := loggedTo_event (s := s) (l := l) w
  · rw [hnone, List.append_nil]
    exact hgrow
  by_cases hw : home e = w
  · -- the flush that completes the record of `e`
    subst hw
    rw [hone, if_pos rfl]
    obtain ⟨-, base, record, hbase, henc, hstream, -⟩ := (hd.wal (home e)).at hd.clients ht rfl (by simp)
    rw [encodeMemEntry_fits (hd.entry t _ e ht).bounded.fits, Option.some.injEq] at henc
    have hbytes : (s.writer_ (home e)).queue_.log_.stream =
        logBytes (loggedTo (home e) h ++ [e]) := by
      rw [hstream, hd.framed hbase, logBytes_append, ← henc, logBytes_cons]
      exact congrArg _ (List.append_nil _).symm
    cases hm with
    | @flush _ e' f ht' hf =>
      rw [ht] at ht'
      cases ht'
      have hfd : (((s.onQueue t (home e) (.set .logged e)
          { (s.writer_ (home e)).queue_ with log_ := f }).writer_ (home e)).queue_.log_).fd = f.fd := by
        rw [onQueue, setClient_writer, setWriter_writer, Function.update_self]
      rw [hfd, (WritableFile.flush_of_ok hf).1]
      exact hbytes ▸ List.prefix_rfl
    | get hr =>
      rw [ht] at hr
      cases hr
    | _ ht' =>
      rw [ht] at ht'
      cases ht'
  · rw [hone, if_neg hw, List.append_nil]
    exact hgrow

theorem Durable.move (hd : Durable h s) (hg : s.RecordedStep l) (hm : Move s l s') :
    Durable (h ++ (s.event l).toList) s' := by
  have hidx : s.idx_ < 2 ^ 56 := by
    cases l with
    | callSet => exact hg.1
    | _ => exact hg
  refine ⟨hd.clients.step hm, ?_, ?_, ?_, ?_, hd.file_step hm⟩
  · intro t key value del_flag ht
    obtain hold | rfl := hm.called_cases ht
    · exact hd.called t key value del_flag hold
    · exact hg.2
  · intro t p e ht
    obtain ⟨p', hold⟩ | ⟨key, value, del_flag, hcall, rfl, -⟩ := hm.set_cases ht
    · exact hd.entry t p' e hold
    · exact ⟨hd.called t key value del_flag hcall s.idx_, hidx⟩
  · intro w e he
    rw [loggedTo_append, List.mem_append] at he
    obtain he | he := he
    · exact hd.logged w e he
    obtain hnone | ⟨t, e', -, ht, hone⟩ := loggedTo_event (s := s) (l := l) w
    · rw [hnone] at he
      cases he
    · rw [hone] at he
      split at he
      · rw [List.mem_singleton.1 he]
        exact hd.entry t _ e' ht
      · cases he
  · intro w
    have hstep := (hd.wal w).step hd.clients hm
    rw [← loggedTo_append, ← pushedTo_append] at hstep
    exact hstep

/-- Whatever else happens to the lists is nothing to the logs. -/
theorem Durable.keep (hd : Durable h s) (hc : s'.client = s.client)
    (hq : ∀ w, (s'.writer_ w).queue_ = (s.writer_ w).queue_)
    (hl : ∀ w, (s'.writer_ w).lock_ = (s.writer_ w).lock_) : Durable h s' := by
  have hstage : ∀ w st, s.AtStage w st → s'.AtStage w st := fun w st hst =>
    hst.congr fun t p e _ _ => by rw [hc]
  refine ⟨?_, ?_, ?_, hd.logged, fun w => ?_, fun w => ?_⟩
  · exact hd.clients.frame hl (fun w => by rw [hq w]) fun t p e ht => .inl (hc ▸ ht)
  · intro t key value del_flag ht
    exact hd.called t key value del_flag (hc ▸ ht)
  · intro t p e ht
    exact hd.entry t p e (hc ▸ ht)
  · exact (hd.wal w).frame (by rw [hq w]) (by rw [hq w]) (hstage w)
  · rw [hq w]
    exact hd.file w

/-! ## What the file holds after the crash -/

/-- The bytes that a crash leaves are those of the completed records, and possibly a part of the
record on its way. -/
theorem Durable.crashed (hd : Durable h s) {bytes : Bytes} (hc : s.Crashed w bytes) :
    ∃ es, loggedTo w h <+: es ∧ es.length ≤ (pushedTo w h).length + 1 ∧ (∀ e ∈ es, Loggable e) ∧
      logBytes (loggedTo w h) <+: bytes ∧ bytes <+: logBytes es := by
  -- the log at a thread in `AddRecord` of `e`, whose call will have written a part of the stream
  have within : ∀ {t p e base record f} (data : Bytes), s.client t = .set p e →
      loggedTo w h = pushedTo w h → Framed (loggedTo w h) base → encodeMemEntry e = some record →
      (s.writer_ w).queue_.log_.stream ++ data = base ++ frame record →
      (s.writer_ w).queue_.log_.fd <+: f → f <+: (s.writer_ w).queue_.log_.stream ++ data →
      ∃ es, loggedTo w h <+: es ∧ es.length ≤ (pushedTo w h).length + 1 ∧ (∀ e ∈ es, Loggable e) ∧
        logBytes (loggedTo w h) <+: f ∧ f <+: logBytes es := by
    intro t p e base record f data ht hpush hbase henc hstream hlow hhigh
    have hkept := hd.entry t p e ht
    rw [encodeMemEntry_fits hkept.bounded.fits, Option.some.injEq] at henc
    refine ⟨loggedTo w h ++ [e], List.prefix_append _ _, ?_, ?_, (hd.file w).trans hlow, ?_⟩
    · rw [hpush, List.length_append, List.length_singleton]
    · intro x hx
      obtain hx | hx := List.mem_append.1 hx
      · exact hd.logged w x hx
      · exact List.mem_singleton.1 hx ▸ hkept
    · rw [hstream, hd.framed hbase, ← henc] at hhigh
      rw [logBytes_append, logBytes_cons]
      exact hhigh.trans (List.prefix_append_right_inj _ |>.2 (List.prefix_append _ _))
  -- a call that is to write `data` leaves a part of it
  have called : ∀ {f : WritableFile} {data : Bytes} {used r}, f.Wrote data used r →
      r.2.fd <+: f.stream ++ data := by
    intro f data used r hr
    by_cases hfail : WriteResult.fail ∈ used
    · exact (hr.part hfail).2
    · rw [← (hr.whole hfail).2]
      exact List.prefix_append _ _
  cases hc with
  | between =>
    by_cases hat : ∃ t e, home e = w ∧ s.client t = .set .appended e
    · obtain ⟨t, e, hw, ht⟩ := hat
      obtain ⟨hpush, base, record, hbase, henc, hstream, -⟩ :=
        (hd.wal w).at hd.clients ht hw (by simp)
      refine within [] ht hpush hbase henc ?_ List.prefix_rfl ?_
      · rw [List.append_nil, hstream]
      · rw [List.append_nil]
        exact List.prefix_append _ _
    · have hbase := (hd.wal w).framed fun t e hw ht => hat ⟨t, e, hw, ht⟩
      obtain ⟨pend, heq, hlen⟩ := (hd.wal w).pending
      refine ⟨loggedTo w h, List.prefix_rfl, ?_, hd.logged w, hd.file w, ?_⟩
      · rw [heq, List.length_append]
        omega
      · exact hd.framed hbase ▸ List.prefix_rfl
  | @append t e slice ws ht hw henc =>
    obtain ⟨hpush, hbase, record, henc', hbuf⟩ := (hd.wal w).at hd.clients ht hw (by simp)
    obtain rfl : slice = record := Option.some.inj (henc.symm.trans henc')
    set f : WritableFile := { (s.writer_ w).queue_.log_ with writes := ws }
    have hroom : f.buf.length ≤ kWritableFileBufferSize := by
      have hlen : f.buf = leBytes 8 slice.length := hbuf
      rw [hlen, length_leBytes]
      decide
    obtain ⟨used, hwrote⟩ := WritableFile.append_wrote hroom slice
    have hpart := called hwrote
    refine within slice ht hpush hbase henc ?_ (f.append_grows slice) hpart
    rw [WritableFile.stream, hbuf, List.append_assoc]
    rfl
  | @flush t e ws ht hw =>
    obtain ⟨hpush, base, record, hbase, henc, hstream, -⟩ :=
      (hd.wal w).at hd.clients ht hw (by simp)
    set f : WritableFile := { (s.writer_ w).queue_.log_ with writes := ws }
    obtain ⟨-, used, hwrote⟩ := f.flush_wrote
    have hpart := called hwrote
    refine within [] ht hpush hbase henc ?_ f.flush_grows hpart
    rw [List.append_nil, hstream]

/-- The log of a queue as the constructor leaves it. -/
structure NewLog (q : MessageQueue Slice) : Prop where
  ready : q.ready_ = true
  fd : q.log_.fd = []
  buf : q.log_.buf = []

theorem Started.wal (h0 : s.Started) (hlog : NewLog (s.writer_ w).queue_) : s.WalOk [] [] w := by
  have hidle : s.AtStage w .idle := by
    refine .inl ⟨rfl, fun t p e ht => ?_⟩
    rw [h0.client t] at ht
    cases ht
  refine ⟨hlog.ready, .idle, hidle, rfl, ?_, hlog.buf⟩
  rw [hlog.fd]
  exact .nil

end Store

/-! ## The database -/

namespace Database

/-- The bounds of `Store.RecordedStep`. -/
def RecordedStep (d : Database) : Label → Prop
  | .store l => d.store.RecordedStep l
  | _ => True

variable {d d' d₀ : Database} {hist : List Event} {w : Fin kMaxWriter}

theorem Started.durable (h0 : d₀.Started) (hlog : ∀ w, Store.NewLog (d₀.store.writer_ w).queue_) :
    d₀.store.Durable [] := by
  refine ⟨h0.store.ok.clients, ?_, ?_, fun _ e he => absurd he List.not_mem_nil,
    fun w => h0.store.wal (hlog w), fun w => List.nil_prefix⟩
  · intro t key value del_flag ht
    rw [h0.store.client t] at ht
    cases ht
  · intro t p e ht
    rw [h0.store.client t] at ht
    cases ht

theorem durable_step (hd : d.store.Durable (storeEvents hist)) {l : Label} (hg : d.RecordedStep l)
    (hs : d.step l = some d') : d'.store.Durable (storeEvents (hist ++ (d.event l).toList)) := by
  have happ : storeEvents (hist ++ (d.event l).toList) =
      storeEvents hist ++ storeEvents (d.event l).toList := List.filterMap_append
  rw [happ]
  obtain ⟨l', rfl, hm, hev⟩ | ⟨hev, hc, hq⟩ := store_cases hs
  · rw [hev]
    exact hd.move hg hm
  · rw [hev, List.append_nil]
    exact hd.keep hc (fun w => (hq w).1) fun w => (hq w).2

/-- **A crash loses no write that was counted in.** Whenever the process ends, the log of a writer
is that of the entries it has completed, behind which there may be a part of one more record. These
are the entries counted in, in the order of the pushes, and at most one more. A start that replays
the log pushes them before anything else; it ends if they have room and at most four bytes of a
record are left behind them. -/
theorem crash_keeps_writes (h0 : d₀.Started) (hlog : ∀ w, Store.NewLog (d₀.store.writer_ w).queue_)
    (hx : machine.Exec RecordedStep d₀ hist d) {bytes : Bytes} (hc : d.store.Crashed w bytes) :
    ∃ es n, bytes = (logBytes es).take n ∧
      pushedTo w (storeEvents hist) <+: wholeIn n es ∧
      es.length ≤ (pushedTo w (storeEvents hist)).length + 1 ∧
      ∀ (scratch : Bytes) (file : ℕ) (q : MessageQueue BufView),
        (∀ r, Returns (fun fuel => replayTrace file fuel (.new bytes scratch) q) r →
          wholeIn n es <+: r.2) ∧
        ((tornIn n es).length ≤ 4 → q.contents.length + (wholeIn n es).length ≤ kQueueSize →
          ∃ r, Returns (fun fuel => replayTrace file fuel (.new bytes scratch) q)
            (r, wholeIn n es)) := by
  have hd : d.store.Durable (storeEvents hist) :=
    hx.induct (I := fun h d => d.store.Durable (storeEvents h)) (h0.durable hlog)
      fun h d l d' hd hg hs => durable_step hd hg hs
  obtain ⟨es, hpre, hlen, hkept, hlow, hhigh⟩ := hd.crashed hc
  have hread : ∀ e ∈ es, e.Readable := fun e he => (hkept e he).1.readable
  have hseq : ∀ e ∈ es, e.seq_num < 2 ^ 56 := fun e he => (hkept e he).2
  have hbytes : bytes = (logBytes es).take bytes.length := List.prefix_iff_eq_take.1 hhigh
  have hwhole : loggedTo w (storeEvents hist) <+: wholeIn bytes.length es := by
    obtain ⟨pend, rfl⟩ := hpre
    exact prefix_wholeIn hlow.length_le
  refine ⟨es, bytes.length, hbytes, ((hd.wal w).inOrder).trans hwhole, hlen, fun scratch file q => ?_⟩
  refine ⟨fun r hr => ?_, fun htorn hroom => ?_⟩
  · rw [hbytes] at hr
    exact replays_whole_first hread hseq hr
  · have hall : ReplaysWhole file q (logBytes es) scratch bytes.length es :=
      .of_torn hread htorn hroom fun e he => hseq e (wholeIn_subset he)
    unfold ReplaysWhole at hall
    rw [← hbytes] at hall
    exact hall

/-! ## A crash in the second record -/

/-- A step with short keys and values. -/
def ShortStep (d : Database) : Label → Prop
  | .store (.callSet _ key value _) => d.store.idx_ < 2 ^ 56 ∧ key.length + value.length ≤ 100
  | .store _ => d.store.idx_ < 2 ^ 56
  | _ => True

instance (d : Database) (l : Label) : Decidable (ShortStep d l) :=
  match l with
  | .store (.callSet _ _ _ _) => inferInstanceAs (Decidable (_ ∧ _))
  | .store (.callGet _ _) | .store (.client _) | .store (.writer _) =>
    inferInstanceAs (Decidable (_ < _))
  | .wake _ | .compacter _ => instDecidableTrue

theorem ShortStep.recorded {l : Label} (h : ShortStep d l) : RecordedStep d l := by
  cases l with
  | store l =>
    cases l with
    | callSet t key value del_flag => exact ⟨h.1, fun id => World.recordable_of_short h.2 id del_flag⟩
    | _ => exact h
  | _ => trivial

/-- A write, and a second one up to its `Flush`. -/
def secondWrite : List Label :=
  ([Store.Label.callSet 0 [97] [98] false] ++ List.replicate 8 (Store.Label.client 0) ++
    [Store.Label.callSet 0 [97] [99] false] ++ List.replicate 4 (Store.Label.client 0)).map Label.store

theorem crash_keeps_writes_secondWrite : ∃ hist d bytes es n,
    machine.Exec RecordedStep freshDatabase hist d ∧ d.store.Crashed 2 bytes ∧
      bytes.length = 27 ∧ bytes = (logBytes es).take n ∧
      pushedTo 2 (storeEvents hist) = [Store.entryOf [97] [98] 1 false] ∧
      pushedTo 2 (storeEvents hist) <+: wholeIn n es := by
  have hr : (machine.exec ShortStep freshDatabase secondWrite).map (fun r =>
      (pushedTo 2 (storeEvents r.1), r.2.store.client 0,
        ({ (r.2.store.writer_ 2).queue_.log_ with
          writes := [.wrote 5, .fail] } : WritableFile).flush.2.fd.length)) =
      some ([Store.entryOf [97] [98] 1 false],
        .set .appended (Store.entryOf [97] [99] 2 false), 27) := by decide +kernel
  obtain ⟨⟨hist, d⟩, hr, he⟩ := Option.map_eq_some_iff.1 hr
  obtain ⟨hpush, he⟩ := Prod.mk.inj he
  obtain ⟨hclient, hlen⟩ := Prod.mk.inj he
  have hx := (Machine.exec_sound hr).mono fun d l hg => hg.recorded
  have hc : d.store.Crashed 2 _ := .flush [.wrote 5, .fail] hclient (by decide)
  have hnew : ∀ w, Store.NewLog (freshDatabase.store.writer_ w).queue_ := fun w => ⟨rfl, rfl, rfl⟩
  obtain ⟨es, n, hbytes, hpre, -, -⟩ := crash_keeps_writes freshDatabase_started hnew hx hc
  exact ⟨hist, d, _, es, n, hx, hc, hlen, hbytes, hpush, hpre⟩

end Database

end Yangkv
