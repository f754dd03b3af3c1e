import Yangkv.Proof.Layers

/-!
# Read your writes

A `getValue` of a key that nobody writes meanwhile. `search` asks for entries whose
number is at least the one `getValue` has read from `idx_`, and there are none: an
entry still in the queue is not found.

* `Reading.step`: while nobody writes `k`, every step of a `getValue(k)` keeps it on
  the way to the last entry pushed for `k`, provided that entry has left the queue
  when the active list is read.
* `read_your_writes`: all runs with that proviso read their writes.
* `read_misses_queue`: a run without it does not.
-/

namespace Yangkv

open Lib

/-! ## Histories -/

/-- Every write of `k` called in `h` has returned in it. -/
def Settled (k : Bytes) (h : List Store.Event) : Prop :=
  ∀ a t v d b, h = a ++ .callSet t k v d :: b → .retSet t k ∈ b

/-- No write of `k` is called in `h`. -/
def NoWrite (k : Bytes) (h : List Store.Event) : Prop := ∀ t v d, .callSet t k v d ∉ h

/-- No `getValue` of thread `t` returns in `h`. -/
def NoReturn (t : Tid) (h : List Store.Event) : Prop := ∀ k r, .retGet t k r ∉ h

/-- The write of `k` that was counted in last has value `v` and deletion flag `d`. -/
def LastPushed (k : Bytes) (h : List Store.Event) (v : Bytes) (d : Bool) : Prop :=
  ∃ e, lastFor (·.key.bytes) k (pushedTo (writerOf k) h) = some e ∧ e.value.bytes = v ∧
    e.value_type = d

/-- The write of `k` that was called last has value `v` and deletion flag `d`, and all others
had returned when it was called. -/
def LastCalled (k : Bytes) (h : List Store.Event) (v : Bytes) (d : Bool) : Prop :=
  ∃ a t b, h = a ++ .callSet t k v d :: b ∧ Settled k a ∧ NoWrite k b

/-- A `getValue` of `k` that was called when every write of `k` had returned, and during which
none is called, returns what the last write of `k` left. -/
def ReadsWrites (h : List Store.Event) : Prop :=
  ∀ h₁ t k h₂ r h₃ v d, h = h₁ ++ .callGet t k :: (h₂ ++ .retGet t k r :: h₃) →
    NoReturn t h₂ → Settled k h₁ → NoWrite k h₂ → (LastPushed k h₁ v d ∨ LastCalled k h₁ v d) →
    r = if d then (.notFound, none) else (.ok, some v)

theorem NoWrite.left {k : Bytes} {h h' : List Store.Event} (hn : NoWrite k (h ++ h')) : NoWrite k h :=
  fun t v d hm => hn t v d (List.mem_append_left _ hm)

theorem NoReturn.left {t : Tid} {h h' : List Store.Event} (hn : NoReturn t (h ++ h')) : NoReturn t h :=
  fun k r hm => hn k r (List.mem_append_left _ hm)

namespace Store

variable {s s' s₀ : Store} {l : Label} {t t' : Tid} {w : Fin kMaxWriter} {k : Bytes} {hist : List Event}
  {pushed : Fin kMaxWriter → List Entry}

/-! ## Threads that write a key -/

/-- Thread `t` is inside a write of `k`. -/
def Writing (s : Store) (t : Tid) (k : Bytes) : Prop :=
  (∃ v d, s.client t = .setCalled k v d) ∨ ∃ p e, s.client t = .set p e ∧ e.key.bytes = k

theorem Move.writing (hm : Move s l s') (h : s'.Writing t k) :
    s.Writing t k ∨ ∃ v d, l = .callSet t k v d := by
  rcases h with ⟨v, d, h⟩ | ⟨p, e, h, rfl⟩
  · rcases hm.called_cases h with h | h
    · exact .inl (.inl ⟨v, d, h⟩)
    · exact .inr ⟨v, d, h⟩
  · rcases hm.set_cases h with ⟨p', h1⟩ | ⟨key, v, d, h1, rfl, -⟩
    · exact .inl (.inr ⟨p', e, h1, rfl⟩)
    · exact .inl (.inl ⟨v, d, h1⟩)

theorem event_retSet (h : s.event l = some (.retSet t k)) :
    l = .client t ∧ ∃ e, s.client t = .set .counted e := by
  cases l with
  | client t' =>
    simp only [event, clientEvent] at h
    split at h
    case h_3 e ht => cases h; exact ⟨rfl, e, ht⟩
    all_goals cases h
  | _ => cases h

theorem event_retGet {r : Status × Option Bytes} (h : s.event l = some (.retGet t k r)) :
    l = .client t ∧ s.client t = .getDone k r := by
  cases l with
  | client t' =>
    simp only [event, clientEvent] at h
    split at h
    case h_4 ht => cases h; exact ⟨rfl, ht⟩
    all_goals cases h
  | _ => cases h

theorem event_callGet (h : s.event l = some (.callGet t k)) : l = .callGet t k := by
  cases l with
  | client t' =>
    simp only [event, clientEvent] at h
    split at h <;> cases h
  | callGet => cases h; rfl
  | _ => cases h

theorem event_callSet {v : Bytes} {d : Bool} (h : s.event l = some (.callSet t k v d)) :
    l = .callSet t k v d := by
  cases l with
  | client t' =>
    simp only [event, clientEvent] at h
    split at h <;> cases h
  | callSet => cases h; rfl
  | _ => cases h

/-- A thread that returns from a write is no longer in one. -/
theorem not_writing_of_ret {k' : Bytes} (he : s.event l = some (.retSet t k))
    (hs : s.step l = some s') : ¬ s'.Writing t k' := by
  obtain ⟨rfl, e, ht⟩ := event_retSet he
  simp only [step, clientStep, ht, setStep, Option.some.injEq] at hs
  subst hs
  rintro (⟨v, d, h⟩ | ⟨p, e', h, -⟩) <;>
    · rw [setClient_client, Function.update_self] at h
      cases h

/-- A thread inside a write of `k` has called it and not yet returned. -/
theorem open_call (h0 : ∀ t, s₀.client t = .idle) {G : Store → Label → Prop}
    (hx : machine.Exec G s₀ hist s) : ∀ t k, s.Writing t k →
      ∃ a v d b, hist = a ++ .callSet t k v d :: b ∧ .retSet t k ∉ b := by
  refine hx.induct (I := fun hist s => ∀ t k, s.Writing t k →
    ∃ a v d b, hist = a ++ .callSet t k v d :: b ∧ .retSet t k ∉ b) ?_ ?_
  · rintro t k (⟨v, d, h⟩ | ⟨p, e, h, -⟩) <;> rw [h0] at h <;> cases h
  · intro hist s l s' ih _ hs t k hw
    rcases (step_move hs).writing hw with h | ⟨v, d, rfl⟩
    · obtain ⟨a, v, d, b, rfl, hb⟩ := ih t k h
      refine ⟨a, v, d, b ++ (s.event l).toList, by simp [machine], fun hm => ?_⟩
      rcases List.mem_append.1 hm with hm | hm
      · exact hb hm
      · exact not_writing_of_ret (Option.mem_toList.1 hm) hs hw
    · exact ⟨hist, v, d, [], rfl, by simp⟩

/-- When every write of `k` has returned, no thread is inside one. -/
theorem quiet_of_settled (h0 : ∀ t, s₀.client t = .idle) {G : Store → Label → Prop}
    (hx : machine.Exec G s₀ hist s) (hk : Settled k hist) (t : Tid) : ¬ s.Writing t k := by
  intro hw
  obtain ⟨a, v, d, b, rfl, hb⟩ := open_call h0 hx t k hw
  exact hb (hk a t v d b rfl)

/-- Entries of other keys leave the last write of `k` as it is. -/
theorem lastFor_event {es : List Entry} (h : ∀ t e, l = .client t → s.client t = .set .written e →
    e.key.bytes ≠ k) : lastFor (·.key.bytes) k (es ++ pushedTo w (s.event l).toList) =
      lastFor (·.key.bytes) k es := by
  rcases pushedTo_event w (s := s) (l := l) with h1 | ⟨t, e, h1, h2, h3⟩
  · rw [h1, List.append_nil]
  · rw [h3]
    split
    · rw [lastFor_snoc, if_neg (h t e h1 h2)]
    · rw [List.append_nil]

/-! ## Numbers -/

/-- Every entry around has a number that was handed out. -/
structure Numbered (pushed : Fin kMaxWriter → List Entry) (s : Store) : Prop where
  entry : ∀ t p e, s.client t = .set p e → e.seq_num < s.idx_
  pushed : ∀ w, ∀ e ∈ pushed w, e.seq_num < s.idx_
  slots : ∀ w, SlotsIn (fun e => e.seq_num < s.idx_) s w

theorem Started.numbered (h : Started s) :
    Numbered (fun w => (s.writer_ w).queue_.contents) s := by
  refine ⟨fun t p e ht => ?_, fun w e he => (h.replayed w e he).2.2, fun w => ⟨?_, fun j h1 h2 => ?_⟩⟩
  · rw [h.client t] at ht; cases ht
  · exact (h.r_ptr w).ge
  · have hr : (s.writer_ w).queue_.ring.rd ≤ j := (h.r_ptr w).le.trans h1
    exact (h.replayed w _ (Ring.get_mem hr h2)).2.2

theorem Numbered.step (h : Numbered pushed s) (hc : ClientsOk s) (hs : s.step l = some s') :
    Numbered (fun w => pushed w ++ pushedTo w (s.event l).toList) s' := by
  have hm := step_move hs
  have hle := hm.idx_le
  refine ⟨fun t p e ht => ?_, fun w e he => ?_, fun w => ?_⟩
  · rcases hm.set_cases ht with ⟨p', h1⟩ | ⟨key, v, d, -, rfl, -, hi⟩
    · exact lt_of_lt_of_le (h.entry t p' e h1) hle
    · rw [hi]; exact Nat.lt_succ_self _
  · rcases List.mem_append.1 he with he | he
    · exact lt_of_lt_of_le (h.pushed w e he) hle
    · rcases pushedTo_event w (s := s) (l := l) with h1 | ⟨t, e', -, h2, h3⟩
      · rw [h1] at he; cases he
      · rw [h3] at he
        split at he
        · rw [List.mem_singleton.1 he]; exact lt_of_lt_of_le (h.entry t _ e' h2) hle
        · cases he
  · obtain ⟨h1, h2⟩ := (h.slots w).step hm hc fun t p e ht _ _ => h.entry t p e ht
    exact ⟨h1, fun j hj hlt => lt_of_lt_of_le (h2 j hj hlt) hle⟩

theorem Numbered.exec (h0 : s₀.Started) (hx : machine.Exec SizedStep s₀ hist s) :
    Numbered (fun w => allPushed s₀ w hist) s := by
  refine (hx.induct (I := fun hist s => Ok (fun w => allPushed s₀ w hist) s ∧
    Numbered (fun w => allPushed s₀ w hist) s) ?_ ?_).2
  · simpa [allPushed] using And.intro h0.ok h0.numbered
  · rintro hist s l s' ⟨i1, i2⟩ hg hs
    have j1 := i1.step hg hs
    have j2 := i2.step i1.clients hs
    simp only [allPushed, List.append_assoc, ← pushedTo_append] at j1 j2 ⊢
    exact ⟨j1, j2⟩

/-! ## The way through `search` -/

/-- A thread at `pc` is in `getValue(k)` and not past `search`; its number is at least `B`. -/
def Searching (k : Bytes) (B : ℕ) (s : Store) : ClientPc → Prop
  | .getCalled k' => k' = k
  | .getSeq k' seq => k' = k ∧ B ≤ seq
  | .getBegin k' seq w_ptr => k' = k ∧ B ≤ seq ∧ w_ptr ≤ (s.writer_ (writerOf k)).queue_.ring.wr
  | .getScan k' seq last turns => k' = k ∧ B ≤ seq ∧ 1 ≤ last ∧
    (turns = 0 ∨ last + turns ≤ (s.writer_ (writerOf k)).queue_.ring.wr)
  | _ => False

theorem Searching.frame {B : ℕ} {pc : ClientPc} (h : Searching k B s pc) (hm : Move s l s') :
    Searching k B s' pc := by
  have hwr := hm.wr_le (writerOf k)
  cases pc with
  | getBegin => exact ⟨h.1, h.2.1, h.2.2.trans hwr⟩
  | getScan => exact ⟨h.1, h.2.1, h.2.2.1, h.2.2.2.imp_right fun h => h.trans hwr⟩
  | _ => exact h

/-- **What a step of `search` can do**: go on, end without a result, or answer from a slot. -/
theorem Searching.own {B : ℕ} (h : Searching k B s (s.client t)) (hidx : B ≤ s.idx_)
    (hrd : 1 ≤ (s.writer_ (writerOf k)).queue_.ring.rd) (hs : s.clientStep t = some s') :
    Searching k B s' (s'.client t) ∨ (∃ seq, B ≤ seq ∧ s'.client t = .getActive k seq) ∨
      ∃ seq j r, B ≤ seq ∧ 1 ≤ j ∧ j < (s.writer_ (writerOf k)).queue_.ring.wr ∧
        MessageQueue.check ((s.writer_ (writerOf k)).queue_.ring.get j) k seq = some r ∧
        s'.client t = .getDone k r := by
  unfold clientStep at hs
  cases ht : s.client t with
  | idle | setCalled | set | getActive | getFrozen | getDone => rw [ht] at h; exact absurd h id
  | getCalled k' =>
    rw [ht] at hs h
    cases hs
    rw [setClient_client, Function.update_self]
    exact .inl ⟨h, hidx⟩
  | getSeq k' seq =>
    rw [ht] at hs h
    obtain ⟨rfl, hB⟩ := h
    cases hs
    rw [setClient_client, Function.update_self]
    exact .inl ⟨rfl, hB, le_rfl⟩
  | getBegin k' seq w_ptr =>
    rw [ht] at hs h
    obtain ⟨rfl, hB, hw⟩ := h
    cases hs
    rw [setClient_client, Function.update_self]
    refine .inl ⟨rfl, hB, hrd, ?_⟩
    show w_ptr - (s.writer_ (writerOf k')).queue_.ring.rd = 0 ∨
      (s.writer_ (writerOf k')).queue_.ring.rd + (w_ptr - (s.writer_ (writerOf k')).queue_.ring.rd) ≤
        (s.writer_ (writerOf k')).queue_.ring.wr
    omega
  | getScan k' seq last turns =>
    rw [ht] at hs h
    obtain ⟨rfl, hB, h1, h2⟩ := h
    cases turns with
    | zero =>
      cases hs
      rw [setClient_client, Function.update_self]
      exact .inr (.inl ⟨seq, hB, rfl⟩)
    | succ turns =>
      have hlt : last + turns < (s.writer_ (writerOf k')).queue_.ring.wr := by omega
      simp only at hs
      split at hs
      · rename_i r hc
        cases hs
        rw [setClient_client, Function.update_self]
        exact .inr (.inr ⟨seq, last + turns, r, hB, by omega, hlt, hc, rfl⟩)
      · cases hs
        rw [setClient_client, Function.update_self]
        exact .inl ⟨rfl, hB, h1, .inr hlt.le⟩

/-! ## A `getValue` while nobody writes its key -/

/-- Thread `t` is inside `getValue(k)` and will answer from the entry `o`; the entries of `k`
have numbers below `B`. -/
def OnWay (k : Bytes) (o : Option Entry) (B : ℕ) (s : Store) : ClientPc → Prop
  | .getCalled k' => k' = k
  | .getSeq k' seq => k' = k ∧ B ≤ seq
  | .getBegin k' seq w_ptr => k' = k ∧ B ≤ seq ∧ w_ptr ≤ (s.writer_ (writerOf k)).queue_.ring.wr
  | .getScan k' seq last turns => k' = k ∧ B ≤ seq ∧ 1 ≤ last ∧
    (turns = 0 ∨ last + turns ≤ (s.writer_ (writerOf k)).queue_.ring.wr)
  | .getActive k' seq => k' = k ∧ B ≤ seq
  | .getFrozen k' _ => k' = k ∧
    (∀ e ∈ (s.writer_ (writerOf k)).queue_.contents, e.key.bytes ≠ k) ∧
    (s.writer_ (writerOf k)).list_.find k = none
  | .getDone k' r => k' = k ∧ r = answerOf o
  | _ => False

/-- Nobody writes `k`, whose last entry is `o`, and thread `t` reads it. -/
structure Reading (t : Tid) (k : Bytes) (o : Option Entry) (B : ℕ)
    (pushed : Fin kMaxWriter → List Entry) (s : Store) : Prop where
  quiet : ∀ t', ¬ s.Writing t' k
  last : lastFor (·.key.bytes) k (pushed (writerOf k)) = o
  old : ∀ e ∈ pushed (writerOf k), e.key.bytes = k → e.seq_num < B
  idx : B ≤ s.idx_
  slots : SlotsIn (fun e => e.key.bytes = k → e.seq_num < B) s (writerOf k)
  way : OnWay k o B s (s.client t)

/-- When `getEntry(k)` reads the active list, no slot between the pointers holds `k` any more. -/
def Dequeued (s : Store) : ClientPc → Prop
  | .getActive k _ => ∀ e ∈ (s.writer_ (writerOf k)).queue_.contents, e.key.bytes ≠ k
  | _ => True

/-- A step, within bounds, that reads no active list too early. -/
def OutOfQueue (s : Store) : Label → Prop
  | .client t => s.SizedStep (.client t) ∧ s.Dequeued (s.client t)
  | l => s.SizedStep l

theorem OutOfQueue.sized (h : OutOfQueue s l) : s.SizedStep l := by
  cases l with
  | client => exact h.1
  | _ => exact h

instance (s : Store) (pc : ClientPc) : Decidable (s.Dequeued pc) :=
  match pc with
  | .getActive k _ => inferInstanceAs
      (Decidable (∀ e ∈ (s.writer_ (writerOf k)).queue_.contents, e.key.bytes ≠ k))
  | .idle | .setCalled _ _ _ | .set _ _ | .getCalled _ | .getSeq _ _ | .getBegin _ _ _
  | .getScan _ _ _ _ | .getFrozen _ _ | .getDone _ _ => instDecidableTrue

instance (s : Store) (l : Label) : Decidable (s.OutOfQueue l) :=
  match l with
  | .client _ => inferInstanceAs (Decidable (_ ∧ _))
  | .callSet t k v d => inferInstanceAs (Decidable (s.SizedStep (.callSet t k v d)))
  | .callGet t k => inferInstanceAs (Decidable (s.SizedStep (.callGet t k)))
  | .writer w => inferInstanceAs (Decidable (s.SizedStep (.writer w)))

/-- The filter of `search` passes over every entry of `k`. -/
theorem Reading.check_none {o : Option Entry} {B seq j : ℕ} (h : Reading t k o B pushed s)
    (hB : B ≤ seq) (h1 : 1 ≤ j) (h2 : j < (s.writer_ (writerOf k)).queue_.ring.wr) :
    MessageQueue.check ((s.writer_ (writerOf k)).queue_.ring.get j) k seq = none := by
  unfold MessageQueue.check
  rw [if_neg]
  rintro ⟨hk, hseq⟩
  have := h.slots.2 j h1 h2 hk.symm
  omega

theorem Searching.onWay {o : Option Entry} {B : ℕ} {pc : ClientPc} (h : Searching k B s pc) :
    OnWay k o B s pc := by
  cases pc with
  | idle | setCalled | set | getActive | getFrozen | getDone => exact absurd h id
  | _ => exact h

/-- The steps of other threads keep thread `t` on its way. -/
theorem OnWay.frame {o : Option Entry} {B : ℕ} {pc : ClientPc} (h : OnWay k o B s pc)
    (hm : Move s l s') (hok : Ok pushed s) (hq : ∀ t', ¬ s.Writing t' k) : OnWay k o B s' pc := by
  cases pc with
  | getBegin | getScan => exact Searching.onWay (Searching.frame h hm)
  | getFrozen =>
    obtain ⟨h1, h2, h3⟩ := h
    refine ⟨h1, fun e he => ?_, ?_⟩
    · rcases hm.contents_cases hok.clients he with he | ⟨t', ht, -⟩
      · exact h2 e he
      · exact fun hk => hq t' (.inr ⟨_, e, ht, hk⟩)
    · rcases hm.list_cases (writerOf k) with hl | hl | ⟨front, hf, hl⟩
      · rw [hl]; exact h3
      · rw [hl]; exact SkipList.find_empty k
      · have hp := hok.pipe (writerOf k)
        have hb : front.Bounded := by
          -- what is in the queue was pushed
          obtain ⟨ins, g1, ⟨pre, g2⟩, -⟩ := hp.flow
          refine hp.bounded front ?_
          rw [g1, ← g2]
          rw [← List.take_append_drop (s.writer_ (writerOf k)).pc.ahead
            (s.writer_ (writerOf k)).queue_.contents] at hf
          rcases List.mem_append.1 hf with hf | hf
          · exact List.mem_append_left _ (List.mem_append_right _ hf)
          · exact List.mem_append_right _ hf
        rw [SkipList.insert_find hb hl, if_neg (h2 front hf)]
        exact h3
  | _ => exact h

/-- **The own steps of thread `t` keep it on its way.** -/
theorem OnWay.own {o : Option Entry} {B : ℕ} (h : Reading t k o B pushed s) (hok : Ok pushed s)
    (hg : OutOfQueue s (.client t)) (hs : s.clientStep t = some s')
    (hr : ∀ r, s.client t ≠ .getDone k r) : OnWay k o B s' (s'.client t) := by
  have hway := h.way
  have hp := hok.pipe (writerOf k)
  have hlast : layered (layers (s.writer_ (writerOf k)) (s.current_.list_ (writerOf k))) k = o := by
    rw [hp.lookup k, h.last]
  have hsearch : Searching k B s (s.client t) → OnWay k o B s' (s'.client t) := by
    intro hse
    rcases hse.own h.idx h.slots.1 hs with h1 | ⟨seq, hB, h1⟩ | ⟨seq, j, r, hB, h1, h2, hc, -⟩
    · exact h1.onWay
    · rw [h1]; exact ⟨rfl, hB⟩
    · rw [h.check_none hB h1 h2] at hc; cases hc
  unfold clientStep at hs
  cases ht : s.client t with
  | idle | setCalled | set => rw [ht] at hway; exact absurd hway id
  | getCalled | getSeq | getBegin | getScan =>
    rw [ht] at hway hsearch
    exact hsearch hway
  | getActive k' seq =>
    have hq := hg.2
    rw [ht] at hs hway hq
    obtain ⟨rfl, hB⟩ := hway
    simp only at hs
    split at hs
    · rw [hp.getEntry fun e he hk => (h.old e he hk).le.trans hB] at hs
      rw [layers, layered_cons, lastFor_eq_none.2 hq, Option.none_or, listLayers, layered_cons] at hlast
      cases hf : (s.writer_ (writerOf k')).list_.find k' with
      | some e =>
        rw [hf] at hs hlast
        simp only [Option.map_some, Option.some.injEq] at hs
        subst hs
        rw [setClient_client, Function.update_self]
        rw [Option.some_or] at hlast
        exact ⟨rfl, by rw [← hlast]⟩
      | none =>
        rw [hf] at hs
        simp only [Option.map_none, Option.map_some, Option.some.injEq] at hs
        subst hs
        rw [setClient_client, Function.update_self]
        exact ⟨rfl, hq, hf⟩
    · cases hs
  | getFrozen k' seq =>
    rw [ht] at hs hway
    obtain ⟨rfl, hq, hf⟩ := hway
    rw [layers, layered_cons, lastFor_eq_none.2 hq, Option.none_or, listLayers, layered_cons, hf,
      Option.none_or] at hlast
    simp only at hs
    rw [readVersion_ok fun l hl => (hp.frozen l hl).1, hlast] at hs
    cases hs
    rw [setClient_client, Function.update_self]
    exact ⟨rfl, rfl⟩
  | getDone k' r =>
    rw [ht] at hway
    obtain ⟨rfl, -⟩ := hway
    exact absurd ht (hr r)

/-- **A step while nobody calls a write of `k`.** -/
theorem Reading.step {o : Option Entry} {B : ℕ} (h : Reading t k o B pushed s) (hok : Ok pushed s)
    (hg : OutOfQueue s l) (hs : s.step l = some s') (hno : ∀ t' v d, l ≠ .callSet t' k v d)
    (hr : ∀ r, s.event l ≠ some (.retGet t k r)) :
    Reading t k o B (fun w => pushed w ++ pushedTo w (s.event l).toList) s' := by
  have hm := step_move hs
  have hwrite : ∀ t' p e, s.client t' = .set p e → e.key.bytes ≠ k :=
    fun t' p e ht hk => h.quiet t' (.inr ⟨p, e, ht, hk⟩)
  refine ⟨fun t' hw => ?_, ?_, fun e he hk => ?_, h.idx.trans hm.idx_le, ?_, ?_⟩
  · rcases hm.writing hw with hw | ⟨v, d, hl⟩
    · exact h.quiet t' hw
    · exact hno t' v d hl
  · rw [lastFor_event fun t' e _ ht => hwrite t' _ e ht]; exact h.last
  · rcases List.mem_append.1 he with he | he
    · exact h.old e he hk
    · rcases pushedTo_event (writerOf k) (s := s) (l := l) with h1 | ⟨t', e', -, h2, h3⟩
      · rw [h1] at he; cases he
      · rw [h3] at he
        split at he
        · rw [List.mem_singleton.1 he] at hk; exact absurd hk (hwrite t' _ e' h2)
        · cases he
  · exact h.slots.step hm hok.clients fun t' p e ht _ _ hk => absurd hk (hwrite t' p e ht)
  · by_cases hl : l = .client t
    · subst hl
      refine OnWay.own h hok hg hs fun r ht => ?_
      exact hr r (by simp only [event, clientEvent, ht])
    · have hi : s.client t ≠ .idle := by
        intro hi
        have := h.way
        rw [hi] at this
        exact this
      rw [hm.client_of_ne hl hi]
      exact h.way.frame hm hok h.quiet

/-! ## The only write in progress -/

/-- Thread `t` has called the write of `k` with value `v` and flag `d`, nobody else writes `k`,
and `es` was pushed since. -/
structure Alone (t : Tid) (k v : Bytes) (d : Bool) (es : List Entry) (s : Store) : Prop where
  others : ∀ t', t' ≠ t → ¬ s.Writing t' k
  own : (s.client t = .setCalled k v d ∧ lastFor (·.key.bytes) k es = none) ∨
    (∃ p n, s.client t = .set p (entryOf k v n d) ∧ p ≠ .counted ∧
      lastFor (·.key.bytes) k es = none) ∨
    (∃ n, lastFor (·.key.bytes) k es = some (entryOf k v n d) ∧
      (s.client t = .set .counted (entryOf k v n d) ∨ ¬ s.Writing t k))

/-- A thread inside `push` goes on in it, up to the step that counts its slot in. -/
theorem Move.set_next (hm : Move s (.client t) s') {p : SetPc} {e : Entry}
    (ht : s.client t = .set p e) (hw : p ≠ .written) (hp : p ≠ .counted) :
    ∃ p', s'.client t = .set p' e ∧ p' ≠ .counted := by
  cases hm with
  | take ht' => rw [ht] at ht'; cases ht'
  | get ht' => rw [ht] at ht'; cases ht'
  | wait ht' => exact ⟨p, ht, hp⟩
  | unlock ht' => rw [ht] at ht'; cases ht'; exact absurd rfl hp
  | count ht' => rw [ht] at ht'; cases ht'; exact absurd rfl hw
  | lock ht' | size ht' | append ht' | flush ht' | skip ht' | put ht' =>
    rw [ht] at ht'
    cases ht'
    exact ⟨_, Function.update_self .., by simp⟩

/-- An entry that is not counted in yet is held by its thread until the step that counts it in. -/
theorem Move.pending (hm : Move s l s') {p : SetPc} {e : Entry} (ht : s.client t = .set p e)
    (hp : p ≠ .counted) : (∃ p', s'.client t = .set p' e ∧ p' ≠ .counted) ∨
      e ∈ pushedTo (home e) (s.event l).toList := by
  by_cases hl : l = .client t
  · subst hl
    rcases eq_or_ne p .written with rfl | hw
    · right
      simp [event, clientEvent, ht, pushedTo]
    · exact .inl (hm.set_next ht hw hp)
  · refine .inl ⟨p, ?_, hp⟩
    rw [hm.client_of_ne hl (by rw [ht]; simp), ht]

theorem Alone.step {v : Bytes} {d : Bool} {es : List Entry} (h : Alone t k v d es s)
    (hs : s.step l = some s') (hno : ∀ t' v d, l ≠ .callSet t' k v d) :
    Alone t k v d (es ++ pushedTo (writerOf k) (s.event l).toList) s' := by
  have hm := step_move hs
  have hother : ∀ t' p e, t' ≠ t → s.client t' = .set p e → e.key.bytes ≠ k :=
    fun t' p e hne ht hk => h.others t' hne (.inr ⟨p, e, ht, hk⟩)
  refine ⟨fun t' hne hw => ?_, ?_⟩
  · rcases hm.writing hw with hw | ⟨v, d, hl⟩
    · exact h.others t' hne hw
    · exact hno t' v d hl
  -- what is pushed by another thread is not about `k`
  have hkeep : (∀ e, l = .client t → s.client t = .set .written e → e.key.bytes ≠ k) →
      lastFor (·.key.bytes) k (es ++ pushedTo (writerOf k) (s.event l).toList) =
        lastFor (·.key.bytes) k es := by
    intro hown
    refine lastFor_event fun t' e hl ht => ?_
    rcases eq_or_ne t' t with rfl | hne
    · exact hown e hl ht
    · exact hother t' _ e hne ht
  rcases h.own with ⟨ht, hl⟩ | ⟨p, n, ht, hp, hl⟩ | ⟨n, hl, ht⟩
  · rw [hkeep (by intro e _ h1; rw [ht] at h1; cases h1)]
    by_cases hlt : l = .client t
    · subst hlt
      simp only [step, clientStep, ht, Option.some.injEq] at hs
      subst hs
      exact .inr (.inl ⟨.taken, s.idx_, Function.update_self .., by simp, hl⟩)
    · exact .inl ⟨by rw [hm.client_of_ne hlt (by rw [ht]; simp), ht], hl⟩
  · by_cases hlt : l = .client t
    · subst hlt
      by_cases hw : p = .written
      · -- the slot of the write itself is counted in
        subst hw
        have hev : pushedTo (writerOf k) (s.event (.client t)).toList = [entryOf k v n d] := by
          simp only [event, clientEvent, ht]
          exact List.filterMap_cons_some (if_pos rfl)
        right; right
        refine ⟨n, ?_, .inl ?_⟩
        · rw [hev, lastFor_snoc]; exact if_pos rfl
        · simp only [step, clientStep, ht, setStep] at hs
          obtain ⟨q, -, rfl⟩ := Option.map_eq_some_iff.1 hs
          exact Function.update_self ..
      · rw [hkeep (by intro e _ h1; rw [ht] at h1; cases h1; exact absurd rfl hw)]
        obtain ⟨p', h1, h2⟩ := hm.set_next ht hw hp
        exact .inr (.inl ⟨p', n, h1, h2, hl⟩)
    · rw [hkeep (fun e h1 => absurd h1 hlt)]
      exact .inr (.inl ⟨p, n, by rw [hm.client_of_ne hlt (by rw [ht]; simp), ht], hp, hl⟩)
  · right; right
    have hnw : ∀ e, l = .client t → s.client t = .set .written e → e.key.bytes ≠ k := by
      intro e _ h1 hk
      rcases ht with ht | ht
      · rw [h1] at ht; cases ht
      · exact ht (.inr ⟨_, e, h1, hk⟩)
    refine ⟨n, by rw [hkeep hnw, hl], ?_⟩
    rcases ht with ht | ht
    · by_cases hlt : l = .client t
      · subst hlt
        right
        refine not_writing_of_ret (k := k) ?_ hs
        simp only [event, clientEvent, ht]
        rfl
      · exact .inl (by rw [hm.client_of_ne hlt (by rw [ht]; simp), ht])
    · right
      intro hw
      rcases hm.writing hw with hw | ⟨v, d, hl⟩
      · exact ht hw
      · exact hno t v d hl

end Store

/-! ## Whole runs -/

section

variable {s₀ s : Store} {hist : List Store.Event}

/-- The write that is last in the order of calls is last in the order of slots. -/
theorem LastCalled.lastPushed {k v : Bytes} {d : Bool} {G : Store → Store.Label → Prop}
    (h0 : s₀.Started) (hx : Store.machine.Exec G s₀ hist s) (hset : Settled k hist)
    (h : LastCalled k hist v d) : LastPushed k hist v d := by
  obtain ⟨a, t, b, rfl, ha, hb⟩ := h
  obtain ⟨s₁, l, s₂, hx₁, -, hs, he, hx₂⟩ := hx.split
  obtain rfl := Store.event_callSet he
  have hq := Store.quiet_of_settled h0.client hx₁ ha
  have hs : s₁.step (.callSet t k v d) = some s₂ := hs
  have hm := Store.step_move hs
  have halone : Store.Alone t k v d [] s₂ := by
    refine ⟨fun t' hne hw => ?_, .inl ⟨?_, rfl⟩⟩
    · rcases hm.writing hw with hw | ⟨v', d', hl⟩
      · exact hq t' hw
      · cases hl; exact hne rfl
    · cases hm; exact Function.update_self ..
  have hend : Store.Alone t k v d (pushedTo (writerOf k) b) s := by
    refine hx₂.induct (I := fun b s => NoWrite k b → Store.Alone t k v d (pushedTo (writerOf k) b) s)
      (fun _ => halone) ?_ hb
    intro b s l s' ih _ hs hn
    rw [pushedTo_append]
    refine (ih hn.left).step hs fun t' v' d' hl => ?_
    subst hl
    exact hn t' v' d' (List.mem_append_right _ List.mem_cons_self)
  have hquiet := Store.quiet_of_settled h0.client hx hset t
  rcases hend.own with ⟨ht, -⟩ | ⟨p, n, ht, -⟩ | ⟨n, hl, -⟩
  · exact absurd (.inl ⟨v, d, ht⟩) hquiet
  · exact absurd (.inr ⟨p, _, ht, rfl⟩) hquiet
  · refine ⟨Store.entryOf k v n d, ?_, rfl, rfl⟩
    rw [← List.singleton_append, pushedTo_append, pushedTo_append, lastFor_append, lastFor_append, hl]
    rfl

/-- **Read your writes.** In every run in which no `getValue(k)` reads the active list while the
queue still holds `k`, every `getValue` reads the last write. -/
theorem read_your_writes (h0 : s₀.Started) (hx : Store.machine.Exec Store.OutOfQueue s₀ hist s) :
    ReadsWrites hist := by
  rintro h₁ t k h₂ r h₃ v d rfl hret hset hno hlast
  obtain ⟨s₁, l, s₂, hx₁, hg₁, hs₁, he₁, hx₂⟩ := hx.split
  obtain ⟨s₃, l', s₄, hx₃, -, -, he₃, -⟩ := hx₂.split
  obtain rfl : l = .callGet t k := Store.event_callGet he₁
  obtain ⟨-, hdone⟩ : l' = .client t ∧ s₃.client t = .getDone k r := Store.event_retGet he₃
  have hs₁ : s₁.step (.callGet t k) = some s₂ := hs₁
  have hm := Store.step_move hs₁
  have hx₁' := hx₁.mono fun _ _ h => h.sized
  -- the call finds a store that nobody writes `k` in
  have hok₁ := h0.ok.exec hx₁'
  have hnum₁ := Store.Numbered.exec h0 hx₁'
  have hq := Store.quiet_of_settled h0.client hx₁ hset
  obtain ⟨e, hlast, hv, hd⟩ : LastPushed k h₁ v d := by
    rcases hlast with h | h
    · exact h
    · exact h.lastPushed h0 hx₁ hset
  set P := fun w => (s₀.writer_ w).queue_.contents ++ pushedTo w h₁ with hP
  have hok₂ : Store.Ok P s₂ := by
    have h : Store.Ok (fun w => P w ++ []) s₂ := hok₁.step hg₁.sized hs₁
    simpa using h
  have hcall : s₂ = s₁.setClient t (.getCalled k) := by cases hm; rfl
  have hread : Store.Reading t k (some e) s₁.idx_ P s₂ := by
    refine ⟨fun t' hw => ?_, ?_, fun x hx _ => hnum₁.pushed _ x hx, ?_, ?_, ?_⟩
    · rcases hm.writing hw with hw | ⟨v, d, hl⟩
      · exact hq t' hw
      · cases hl
    · rw [hP, lastFor_append, hlast]; rfl
    · rw [hcall]; exact le_rfl
    · rw [hcall]
      exact ⟨(hnum₁.slots _).1, fun j h1 h2 _ => (hnum₁.slots _).2 j h1 h2⟩
    · rw [hcall, Store.setClient_client, Function.update_self]
      rfl
  have hend := (hx₃.induct (I := fun h s => NoWrite k h → NoReturn t h →
      Store.Ok (fun w => P w ++ pushedTo w h) s ∧
      Store.Reading t k (some e) s₁.idx_ (fun w => P w ++ pushedTo w h) s)
    (fun _ _ => by simpa using ⟨hok₂, hread⟩) (by
      intro h s l s' ih hg hs hn hr
      obtain ⟨i1, i2⟩ := ih hn.left hr.left
      have j1 := i1.step hg.sized hs
      have j2 := i2.step i1 hg hs (fun t' v d hl => by
        subst hl
        exact hn t' v d (List.mem_append_right _ List.mem_cons_self)) fun r hev => by
        exact hr k r (List.mem_append_right _ (Option.mem_toList.2 hev))
      simp only [List.append_assoc, ← pushedTo_append] at j1 j2 ⊢
      exact ⟨j1, j2⟩) hno hret).2
  have hway := hend.way
  rw [hdone] at hway
  rw [hway.2, answerOf, hv, hd]

/-- A write that the writer thread has moved to its list is read. -/
theorem read_your_writes_oneWrite : ReadsWrites
    (oneWriteEvents ++ [.callGet 1 [97], .retGet 1 [97] (.ok, some [98])]) := by
  have hr : (Store.machine.exec Store.OutOfQueue freshStore (oneWrite ++ .writer 2 ::
      .callGet 1 [97] :: List.replicate 6 (.client 1))).map Prod.fst =
      some (oneWriteEvents ++ [.callGet 1 [97], .retGet 1 [97] (.ok, some [98])]) := by
    decide +kernel
  obtain ⟨s, hx⟩ := Machine.exec_history hr
  exact read_your_writes freshStore_started hx

/-- **A write still in the queue is not read.** -/
theorem read_misses_queue : ∃ hist s, Store.machine.Exec Machine.Any freshStore hist s ∧
    ¬ ReadsWrites hist := by
  have hr : (Store.machine.exec Machine.Any freshStore
      (.callSet 0 [97] [98] false :: List.replicate 8 (.client 0) ++
        .callGet 1 [97] :: List.replicate 8 (.client 1))).map Prod.fst =
      some (oneWriteEvents ++ .callGet 1 [97] :: ([] ++ [.retGet 1 [97] (.notFound, none)])) := by
    decide +kernel
  obtain ⟨s, hx⟩ := Machine.exec_history hr
  refine ⟨_, s, hx, fun h => ?_⟩
  have hset : Settled [97] oneWriteEvents := by
    simp [Settled, oneWriteEvents, List.cons_eq_append_iff]
    rintro _ _ _ b - rfl - rfl
    simp
  have := h oneWriteEvents 1 [97] [] (.notFound, none) [] [98] false rfl (by simp [NoReturn]) hset
    (by simp [NoWrite]) (.inl ⟨Store.entryOf [97] [98] 1 false, by decide +kernel, rfl, rfl⟩)
  cases this

end

end Yangkv
