import Yangkv.Proof.LogFile
import Yangkv.Proof.Layers

/-!
# The write-ahead log of one start

* `WalOk.step`: at every place of the thread inside `push`, the log of the queue
  holds exactly the records completed so far, which are those of the entries pushed
  so far and of the one on its way to its slot.
* `Visible.step`: what the slots and the lists of a writer hold was counted into its
  queue or was there at the start.
-/

namespace Yangkv

open Lib

/-- `bytes` is the frames of the encodings of the entries, one behind the other. -/
inductive Framed : List Entry → Bytes → Prop
  | nil : Framed [] []
  | snoc {es bytes e record} : Framed es bytes → encodeMemEntry e = some record →
      Framed (es ++ [e]) (bytes ++ frame record)

theorem Framed.eq_logBytes {es : List Entry} {bytes : Bytes} (h : Framed es bytes)
    (hes : ∀ e ∈ es, e.Fits) : bytes = logBytes es := by
  induction h with
  | nil => rfl
  | @snoc es bytes e record _ hr ih =>
    rw [encodeMemEntry_fits (hes e (by simp))] at hr
    rw [ih fun x hx => hes x (List.mem_append_left _ hx), logBytes_append, ← Option.some.inj hr]
    simp [logBytes]

/-- The entries whose records a history shows as completed by the log of `w`. -/
def loggedTo (w : Fin kMaxWriter) (h : List Store.Event) : List Entry :=
  h.filterMap fun
    | .logged w' e => if w' = w then some e else none
    | _ => none

@[simp] theorem loggedTo_nil (w : Fin kMaxWriter) : loggedTo w [] = [] := rfl

theorem loggedTo_append (w : Fin kMaxWriter) (h h' : List Store.Event) :
    loggedTo w (h ++ h') = loggedTo w h ++ loggedTo w h' := List.filterMap_append

namespace Store

variable {s s' : Store} {l : Label} {t t' : Tid} {w : Fin kMaxWriter} {st : ClientPc}
  {logged pushed : List Entry}

theorem loggedTo_event (w : Fin kMaxWriter) :
    loggedTo w (s.event l).toList = [] ∨ ∃ t e, l = .client t ∧ s.client t = .set .appended e ∧
      loggedTo w (s.event l).toList = if Store.home e = w then [e] else [] := by
  cases l with
  | client t =>
    simp only [event, clientEvent]
    split
    case h_1 e ht =>
      right
      refine ⟨t, e, rfl, ht, ?_⟩
      by_cases hw : Store.home e = w <;> simp [loggedTo, hw]
    all_goals left; rfl
  | _ => left; rfl

/-- The step completes no record of the log of `w` and counts no slot of its queue in. -/
def Quiet (s : Store) (l : Label) (w : Fin kMaxWriter) : Prop :=
  loggedTo w (s.event l).toList = [] ∧ pushedTo w (s.event l).toList = []

theorem Quiet.of_place {p : SetPc} {e : Entry} (ht : s.client t = .set p e)
    (h : (p ≠ .appended ∧ p ≠ .written) ∨ w ≠ home e) : Quiet s (.client t) w := by
  constructor
  · rcases loggedTo_event (s := s) (l := .client t) w with h1 | ⟨t', e', ⟨⟩, h2, h3⟩
    · exact h1
    · rw [ht] at h2
      cases h2
      rw [h3, if_neg]
      exact fun hw => h.elim (fun hp => hp.1 rfl) fun hne => hne hw.symm
  · rcases pushedTo_event (s := s) (l := .client t) w with h1 | ⟨t', e', ⟨⟩, h2, h3⟩
    · exact h1
    · rw [ht] at h2
      cases h2
      rw [h3, if_neg]
      exact fun hw => h.elim (fun hp => hp.2 rfl) fun hne => hne hw.symm

theorem Quiet.of_outside (h : ∀ t e, l = .client t → ∀ p, s.client t ≠ .set p e) : Quiet s l w := by
  constructor
  · rcases loggedTo_event (s := s) (l := l) w with h1 | ⟨t, e, h2, h3, -⟩
    · exact h1
    · exact absurd h3 (h t e h2 _)
  · rcases pushedTo_event (s := s) (l := l) w with h1 | ⟨t, e, h2, h3, -⟩
    · exact h1
    · exact absurd h3 (h t e h2 _)

/-! ## Who is inside `push` -/

/-- `st` is the place of the thread inside `push` of the queue `w`, `idle` if there is none. -/
def AtStage (s : Store) (w : Fin kMaxWriter) (st : ClientPc) : Prop :=
  (st = .idle ∧ ∀ t p e, s.client t = .set p e → home e = w → p = .taken) ∨
    ∃ t p e, s.client t = .set p e ∧ home e = w ∧ p ≠ .taken ∧ st = .set p e

theorem AtStage.congr (h : AtStage s w st)
    (hc : ∀ t p e, home e = w → p ≠ .taken → (s'.client t = .set p e ↔ s.client t = .set p e)) :
    AtStage s' w st := by
  rcases h with ⟨rfl, h⟩ | ⟨t, p, e, h1, h2, h3, h4⟩
  · refine .inl ⟨rfl, fun t p e ht hw => ?_⟩
    by_contra hp
    exact hp (h t p e ((hc t p e hw hp).1 ht) hw)
  · exact .inr ⟨t, p, e, (hc t p e h2 h3).2 h1, h2, h3, h4⟩

/-- The stage is the place of any thread inside `push`. -/
theorem AtStage.eq (h : AtStage s w st) (hc : ClientsOk s) {p : SetPc} {e : Entry}
    (ht : s.client t = .set p e) (hw : home e = w) (hp : p ≠ .taken) : st = .set p e := by
  rcases h with ⟨-, h⟩ | ⟨t', p', e', h1, h2, h3, rfl⟩
  · exact absurd (h t p e ht hw) hp
  · obtain rfl := hc.alone h1 ht h3 hp (h2.trans hw.symm)
    rw [← h1, ht]

/-- The stage of the thread that has just moved inside `push`. -/
theorem AtStage.set {p : SetPc} {e : Entry} (hp : p ≠ .taken)
    (hs : s'.client = Function.update s.client t (.set p e)) : AtStage s' (home e) (.set p e) :=
  .inr ⟨t, p, e, by rw [hs, Function.update_self], rfl, hp, rfl⟩

/-- Steps for another queue leave the stage alone. -/
theorem AtStage.other {p : SetPc} {e : Entry} {pc : ClientPc} (h : AtStage s w st)
    (ht : s.client t = .set p e) (hw : w ≠ home e) (hpc : ∀ q x, pc = .set q x → x = e)
    (hs : s'.client = Function.update s.client t pc) : AtStage s' w st := by
  refine h.congr fun t' q x hx _ => ?_
  rw [hs]
  rcases eq_or_ne t' t with rfl | hne
  · rw [Function.update_self, ht]
    constructor
    · intro h1; rw [hpc q x h1] at hx; exact absurd hx.symm hw
    · intro h1; cases h1; exact absurd hx.symm hw
  · rw [Function.update_of_ne hne]

/-- Steps outside `push` leave the stage alone. -/
theorem AtStage.outside {pc : ClientPc} (h : AtStage s w st)
    (ht : ∀ p e, s.client t = .set p e → p = .taken) (hpc : ∀ p e, pc = .set p e → p = .taken)
    (hs : s'.client = Function.update s.client t pc) : AtStage s' w st := by
  refine h.congr fun t' q x _ hq => ?_
  rw [hs]
  rcases eq_or_ne t' t with rfl | hne
  · rw [Function.update_self]
    constructor
    · intro h1; exact absurd (hpc q x h1) hq
    · intro h1; exact absurd (ht q x h1) hq
  · rw [Function.update_of_ne hne]

/-! ## The log -/

/-- The log file of a queue at each stage: `logged` are the entries whose records are complete,
`pushed` those counted in. -/
def WalAt (logged pushed : List Entry) (f : WritableFile) : ClientPc → Prop
  | .set .sized e => logged = pushed ∧ Framed logged f.fd ∧
    ∃ record, encodeMemEntry e = some record ∧ f.buf = leBytes 8 record.length
  | .set .appended e => logged = pushed ∧ ∃ base record, Framed logged base ∧
    encodeMemEntry e = some record ∧ f.stream = base ++ frame record ∧
    f.buf.length ≤ kWritableFileBufferSize
  | .set .logged e | .set .written e => logged = pushed ++ [e] ∧ Framed logged f.fd ∧ f.buf = []
  | _ => logged = pushed ∧ Framed logged f.fd ∧ f.buf = []

/-- The log of writer `w`, whose queue is ready. -/
structure WalOk (logged pushed : List Entry) (s : Store) (w : Fin kMaxWriter) : Prop where
  ready : (s.writer_ w).queue_.ready_ = true
  stage : ∃ st, AtStage s w st ∧ WalAt logged pushed (s.writer_ w).queue_.log_ st

/-- Nothing happens to the log of `w`. -/
theorem WalOk.frame (h : WalOk logged pushed s w)
    (hr : (s'.writer_ w).queue_.ready_ = (s.writer_ w).queue_.ready_)
    (hl : (s'.writer_ w).queue_.log_ = (s.writer_ w).queue_.log_)
    (hst : ∀ st, AtStage s w st → AtStage s' w st) : WalOk logged pushed s' w := by
  obtain ⟨h1, st, h2, h3⟩ := h
  exact ⟨by rw [hr]; exact h1, st, hst st h2, by rw [hl]; exact h3⟩

/-- A step of a thread inside `push` of another queue. -/
theorem WalOk.other {p : SetPc} {e : Entry} {pc : ClientPc} (h : WalOk logged pushed s w)
    (ht : s.client t = .set p e) (hw : w ≠ home e) (hpc : ∀ q x, pc = .set q x → x = e)
    (hs : s'.client = Function.update s.client t pc) (hwr : s'.writer_ w = s.writer_ w) :
    WalOk logged pushed s' w :=
  h.frame (by rw [hwr]) (by rw [hwr]) fun _ hst => hst.other ht hw hpc hs

/-- What the log of `w` is while thread `t` is inside `push` of its queue. -/
theorem WalOk.at (h : WalOk logged pushed s w) (hc : ClientsOk s) {p : SetPc} {e : Entry}
    (ht : s.client t = .set p e) (hw : home e = w) (hp : p ≠ .taken) :
    WalAt logged pushed (s.writer_ w).queue_.log_ (.set p e) := by
  obtain ⟨-, st, h1, h2⟩ := h
  rw [h1.eq hc ht hw hp] at h2
  exact h2

/-- At most the entry of the thread inside `push` is logged and not counted in. -/
theorem WalOk.pending (h : WalOk logged pushed s w) :
    ∃ pend, logged = pushed ++ pend ∧ pend.length ≤ 1 := by
  obtain ⟨-, st, -, hat⟩ := h
  unfold WalAt at hat
  split at hat
  · exact ⟨[], by rw [hat.1, List.append_nil], Nat.zero_le _⟩
  · exact ⟨[], by rw [hat.1, List.append_nil], Nat.zero_le _⟩
  · exact ⟨_, hat.1, le_rfl⟩
  · exact ⟨_, hat.1, le_rfl⟩
  · exact ⟨[], by rw [hat.1, List.append_nil], Nat.zero_le _⟩

theorem WalOk.inOrder (h : WalOk logged pushed s w) : pushed <+: logged := by
  obtain ⟨pend, rfl, -⟩ := h.pending
  exact List.prefix_append _ _

/-- Between two records the file holds every completed one. -/
theorem WalOk.framed (h : WalOk logged pushed s w)
    (hb : ∀ t e, home e = w → s.client t ≠ .set .appended e) :
    Framed logged (s.writer_ w).queue_.log_.fd := by
  obtain ⟨-, st, hst, hat⟩ := h
  unfold WalAt at hat
  split at hat
  · exact hat.2.1
  · rename_i e
    rcases hst with ⟨h1, -⟩ | ⟨t, p, e', h1, h2, -, h3⟩
    · cases h1
    · cases h3; exact absurd h1 (hb t _ h2)
  · exact hat.2.1
  · exact hat.2.1
  · exact hat.2.1

theorem WalOk.quiet (h : WalOk logged pushed s' w) (hq : Quiet s l w) :
    WalOk (logged ++ loggedTo w (s.event l).toList) (pushed ++ pushedTo w (s.event l).toList)
      s' w := by
  rw [hq.1, hq.2, List.append_nil, List.append_nil]
  exact h

/-- A step of a thread inside `push` on its own queue. -/
theorem WalOk.inside {p : SetPc} {e : Entry} {q : MessageQueue Slice} (hp : p ≠ .taken)
    (hr : q.ready_ = true) (hat : WalAt logged pushed q.log_ (.set p e)) :
    WalOk logged pushed (s.onQueue t (home e) (.set p e) q) (home e) := by
  refine ⟨?_, _, AtStage.set hp rfl, ?_⟩ <;>
    simp only [onQueue, setClient_writer, setWriter_writer, Function.update_self]
  · exact hr
  · exact hat

/-- **Every step keeps the log in order.** -/
theorem WalOk.step (h : WalOk logged pushed s w) (hc : ClientsOk s) (hm : Move s l s') :
    WalOk (logged ++ loggedTo w (s.event l).toList) (pushed ++ pushedTo w (s.event l).toList)
      s' w := by
  have hwriter : ∀ {w₀ wr}, w ≠ w₀ → Function.update s.writer_ w₀ wr w = s.writer_ w :=
    fun hne => Function.update_of_ne hne _ _
  cases hm with
  | callSet ht | callGet ht =>
    refine WalOk.quiet (h.frame rfl rfl fun _ hst => ?_) (.of_outside fun t e hl => by cases hl)
    exact hst.outside (by rw [ht]; intro p e h; cases h) (by intro p e h; cases h) rfl
  | @take t key value del_flag ht =>
    refine WalOk.quiet (h.frame rfl rfl fun _ hst => ?_) (.of_outside fun t' e hl p => ?_)
    · exact hst.outside (by rw [ht]; intro p e h; cases h) (by intro p e h; cases h; rfl) rfl
    · cases hl
      rw [ht]
      simp
  | @get t key pc ht hpc =>
    have hout : ∀ p e, s.client t ≠ .set p e := fun p e h => by rw [h] at ht; cases ht
    refine WalOk.quiet (h.frame rfl rfl fun _ hst => ?_) (.of_outside fun t' e hl p => ?_)
    · exact hst.outside (fun p e h => absurd h (hout p e)) (by rintro p e rfl; simp [reads] at hpc) rfl
    · cases hl
      exact hout p e
  | wait ht => exact h.quiet (.of_place ht (.inl (by simp)))
  | @lock t e ht hl =>
    refine WalOk.quiet ?_ (.of_place ht (.inl (by simp)))
    rcases eq_or_ne w (home e) with rfl | hne
    · obtain ⟨h1, st, h3, h4⟩ := h
      -- the lock is free, so nobody was inside
      have hst : st = .idle := by
        rcases h3 with ⟨h3, -⟩ | ⟨t', p, e', h5, h6, h7, -⟩
        · exact h3
        · have := hc.locked t' p e' h5 h7
          rw [h6, hl] at this
          cases this
      subst hst
      refine ⟨?_, _, AtStage.set (by simp) rfl, ?_⟩ <;>
        simp only [setClient_writer, setWriter_writer, Function.update_self]
      · exact h1
      · exact h4
    · exact h.other ht hne (by intro q x h; cases h; rfl) rfl (hwriter hne)
  | @size t e slice f ht hr hs hf =>
    refine WalOk.quiet ?_ (.of_place ht (.inl (by simp)))
    rcases eq_or_ne w (home e) with rfl | hne
    · obtain ⟨h1, h2, h3⟩ := h.at hc ht rfl (by simp)
      obtain rfl := Option.some.inj ((appendSize_of_empty h3 _).symm.trans hf)
      exact WalOk.inside (by simp) hr ⟨h1, h2, slice, hs, rfl⟩
    · exact h.other ht hne (by intro q x h; cases h; rfl) rfl (hwriter hne)
  | @append t e slice f ht hs hf =>
    refine WalOk.quiet ?_ (.of_place ht (.inl (by simp)))
    rcases eq_or_ne w (home e) with rfl | hne
    · obtain ⟨h1, h2, record, h3, h4⟩ := h.at hc ht rfl (by simp)
      obtain rfl : slice = record := Option.some.inj (hs.symm.trans h3)
      -- the size is still in the buffer, the record goes behind it
      obtain ⟨g1, g2⟩ := WritableFile.append_of_ok (by rw [h4, length_leBytes]; decide) hf
      refine WalOk.inside (by simp) h.ready ⟨h1, _, slice, h2, hs, ?_, g2⟩
      rw [g1, WritableFile.stream, h4, List.append_assoc]; rfl
    · exact h.other ht hne (by intro q x h; cases h; rfl) rfl (hwriter hne)
  | @flush t e f ht hf =>
    rcases eq_or_ne w (home e) with rfl | hne
    · -- this step completes the record of `e`
      obtain ⟨h1, base, record, h2, h3, h4, -⟩ := h.at hc ht rfl (by simp)
      obtain ⟨g1, g2⟩ := WritableFile.flush_of_ok hf
      have hev : s.event (.client t) = some (.logged (home e) e) := by
        simp only [event, clientEvent, ht]
      have hlog : loggedTo (home e) (s.event (.client t)).toList = [e] := by
        rw [hev]
        exact List.filterMap_cons_some (if_pos rfl)
      have hpush : pushedTo (home e) (s.event (.client t)).toList = [] := by rw [hev]; rfl
      rw [hlog, hpush, List.append_nil]
      refine WalOk.inside (by simp) h.ready ⟨by rw [h1], ?_, g2⟩
      rw [g1, h4]
      exact h2.snoc h3
    · exact (h.other ht hne (by intro q x h; cases h; rfl) rfl (hwriter hne)).quiet
        (.of_place ht (.inr hne))
  | @skip t e ht hr =>
    refine WalOk.quiet ?_ (.of_place ht (.inl (by simp)))
    rcases eq_or_ne w (home e) with rfl | hne
    · rw [h.ready] at hr; cases hr
    · exact h.other ht hne (by intro q x h; cases h; rfl) rfl rfl
  | @put t e ht hf =>
    refine WalOk.quiet ?_ (.of_place ht (.inl (by simp)))
    rcases eq_or_ne w (home e) with rfl | hne
    · have hat := h.at hc ht rfl (by simp)
      exact WalOk.inside (by simp) h.ready hat
    · exact h.other ht hne (by intro q x h; cases h; rfl) rfl (hwriter hne)
  | @count t e q ht hq =>
    obtain ⟨hf, rfl⟩ := MessageQueue.advance_some hq
    rcases eq_or_ne w (home e) with rfl | hne
    · -- this step counts the slot of `e` in
      obtain ⟨h1, h2, h3⟩ := h.at hc ht rfl (by simp)
      have hev : s.event (.client t) = some (.pushed (home e) e) := by
        simp only [event, clientEvent, ht]
      have hlog : loggedTo (home e) (s.event (.client t)).toList = [] := by rw [hev]; rfl
      have hpush : pushedTo (home e) (s.event (.client t)).toList = [e] := by
        rw [hev]
        exact List.filterMap_cons_some (if_pos rfl)
      rw [hlog, hpush, List.append_nil]
      exact WalOk.inside (by simp) h.ready ⟨h1, h2, h3⟩
    · exact (h.other ht hne (by intro q x h; cases h; rfl) rfl (hwriter hne)).quiet
        (.of_place ht (.inr hne))
  | @unlock t e ht =>
    refine WalOk.quiet ?_ (.of_place ht (.inl (by simp)))
    rcases eq_or_ne w (home e) with rfl | hne
    · have hat := h.at hc ht rfl (by simp)
      refine ⟨?_, .idle, .inl ⟨rfl, fun t' p e' ht' hw => ?_⟩, ?_⟩
      · simp only [setClient_writer, setWriter_writer, Function.update_self]; exact h.ready
      · rcases update_client ht' with ⟨hne, h1⟩ | ⟨-, h1⟩
        · by_contra hp
          exact hne (hc.alone h1 ht hp (by simp) hw)
        · cases h1
      · simp only [setClient_writer, setWriter_writer, Function.update_self]; exact hat
    · exact h.other ht hne (by intro q x h; cases h) rfl (hwriter hne)
  | pop hp hq =>
    obtain ⟨he, rfl⟩ := MessageQueue.pop_some hq
    refine WalOk.quiet (h.frame ?_ ?_ fun _ hst => hst) (.of_outside fun t e hl => by cases hl)
    · exact keeps_field (·.queue_.ready_) rfl rfl
    · exact keeps_field (·.queue_.log_) rfl rfl
  | _ =>
    refine WalOk.quiet (h.frame ?_ ?_ fun _ hst => hst) (.of_outside fun t e hl => by cases hl)
    · exact keeps_field (·.queue_.ready_) rfl rfl
    · exact keeps_field (·.queue_.log_) rfl rfl

/-! ## What readers can see -/

/-- What the slots and lists of writer `w` hold is in `S`; a slot counts once it is counted in,
with whatever it holds from then on. -/
structure Visible (S : Entry → Prop) (s : Store) (w : Fin kMaxWriter) : Prop where
  slots : SlotsIn S s w
  active : (s.writer_ w).list_.From S
  frozen : ∀ l ∈ s.current_.list_ w, l.From S

theorem Visible.mono {S S' : Entry → Prop} (h : Visible S s w) (hS : ∀ e, S e → S' e) :
    Visible S' s w :=
  ⟨h.slots.mono hS, h.active.mono hS, fun l hl => (h.frozen l hl).mono hS⟩

theorem Visible.step {S : Entry → Prop} (h : Visible S s w) (hc : ClientsOk s) (hm : Move s l s')
    (hS : ∀ t p e, s.client t = .set p e → p = .logged ∨ p = .written → home e = w → S e) :
    Visible S s' w := by
  refine ⟨h.slots.step hm hc hS, ?_, fun x hx => ?_⟩
  · rcases hm.list_cases w with hl | hl | ⟨front, hf, hl⟩
    · rw [hl]; exact h.active
    · rw [hl]; exact SkipList.from_empty
    · exact h.active.insert (h.slots.contents front hf) hl
  · rcases hm.frozen_cases w with hl | hl
    · rw [hl] at hx; exact h.frozen x hx
    · rw [hl] at hx
      rcases List.mem_append.1 hx with hx | hx
      · exact h.frozen x hx
      · rw [List.mem_singleton.1 hx]; exact h.active

end Store

end Yangkv
