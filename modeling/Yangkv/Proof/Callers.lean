import Yangkv.Proof.Layers
import Yangkv.Spec.Callers

/-!
# Log and memtable

An entry is in the log as its strings were during the call, and in the active list as
they are when the writer comes to it. The two agree where no string of an entry that is
still in the queue is changed.

* `Lane`: what is logged, queued and inserted of one writer, with a lemma for each operation.
* `Agree.step`: what is logged is what has been inserted, and then what is pending.
* `log_memtable_agree`: all runs that leave the strings of queued entries alone.
* `log_memtable_differ`: a run that does not.
-/

namespace Yangkv

open Lib

/-- What log and active list have to agree on. -/
def MemEntry.fields (e : Entry) : Bytes × Bytes × ℕ × Bool :=
  (e.key.bytes, e.value.bytes, e.seq_num, e.value_type)

/-- The entry that a thread has logged and not counted in, if it is for the queue `w`. -/
def CallPc.flight (w : Fin kMaxWriter) : CallPc → List (MemEntry StrView)
  | .logged w' e | .written w' e => if w' = w then [e] else []
  | _ => []

/-- The writer and the entry of a thread inside `push`. -/
def CallPc.inside : CallPc → Option (Fin kMaxWriter × MemEntry StrView)
  | .locked w e | .logged w e | .written w e | .counted w e => some (w, e)
  | _ => none

/-- The strings of a call in progress. -/
def CallPc.strings : CallPc → List StrId
  | .idle => []
  | .called key value _ => [key.data_, value.data_]
  | .taken _ e | .locked _ e | .logged _ e | .written _ e | .counted _ e =>
    [e.key.data_, e.value.data_]

/-- The entries of the queue that are not in the active list yet. -/
def ViewWriter.queued (wr : ViewWriter) : List (MemEntry StrView) :=
  wr.queue_.contents.drop wr.pc.ahead

namespace Callers

/-! ## Moves -/

/-- What a step does, by the place of the thread that takes it. -/
inductive Move (s : Callers) : Label → Callers → Prop
  | callSet {t key value del_flag} : s.client t = .idle →
      Move s (.callSet t key value del_flag)
        (s.setClient t (.called ⟨.caller key.1, key.2⟩ ⟨.caller value.1, value.2⟩ del_flag))
  | callDel {t key} : s.client t = .idle →
      Move s (.callDel t key) (s.setClient t (.called ⟨.caller key.1, key.2⟩ ⟨.null, 0⟩ true))
  | take {t key value del_flag w} : s.client t = .called key value del_flag →
      Move s (.client t)
        { s.setClient t (.taken w ⟨key, value, s.idx_, del_flag⟩) with idx_ := s.idx_ + 1 }
  | lock {t w e} : s.client t = .taken w e → (s.writer_ w).lock_ = none →
      Move s (.client t)
        ((s.setWriter w { s.writer_ w with lock_ := some t }).setClient t (.locked w e))
  | record {t w e log} : s.client t = .locked w e → (s.writer_ w).queue_.ready_ = true →
      addRecord (s.writer_ w).queue_.log_ (s.shown e) = some log →
      Move s (.client t)
        (s.onQueue t w (.logged w e) { (s.writer_ w).queue_ with log_ := log })
  | skip {t w e} : s.client t = .locked w e → (s.writer_ w).queue_.ready_ = false →
      Move s (.client t) (s.setClient t (.logged w e))
  | wait {t w e} : s.client t = .logged w e → Move s (.client t) s
  | put {t w e} : s.client t = .logged w e → (s.writer_ w).queue_.isFull = false →
      Move s (.client t) (s.onQueue t w (.written w e) ((s.writer_ w).queue_.put e))
  | count {t w e q} : s.client t = .written w e → (s.writer_ w).queue_.advance = some q →
      Move s (.client t) (s.onQueue t w (.counted w e) q)
  | unlock {t w e} : s.client t = .counted w e →
      Move s (.client t)
        ((s.setWriter w { s.writer_ w with lock_ := none }).setClient t .idle)
  | acquire {w} : (s.writer_ w).pc = .idle →
      Move s (.writer w) (s.setWriter w { s.writer_ w with pc := .loop })
  | release {w} : (s.writer_ w).pc = .loop → (s.writer_ w).queue_.getFront = none →
      Move s (.writer w) (s.setWriter w { s.writer_ w with pc := .idle })
  | insert {w front list} : (s.writer_ w).pc = .loop →
      (s.writer_ w).queue_.getFront = some front →
      (s.writer_ w).list_.insert (s.shown front) = some list →
      Move s (.writer w) (s.setWriter w { s.writer_ w with list_ := list, pc := .inserted })
  | pop {w q} : (s.writer_ w).pc = .inserted → (s.writer_ w).queue_.pop = some q →
      Move s (.writer w) (s.setWriter w { s.writer_ w with queue_ := q, pc := .popped })
  | check {w} : (s.writer_ w).pc = .popped →
      Move s (.writer w) (s.setWriter w { s.writer_ w with
        pc := if kMaxActiveListSize ≤ (s.writer_ w).list_.size then .full else .loop })
  | freeze {w} : (s.writer_ w).pc = .full →
      Move s (.writer w) { s.setWriter w { s.writer_ w with pc := .frozen } with
        current_ := s.current_.appendList (s.writer_ w).list_ w }
  | renew {w} : (s.writer_ w).pc = .frozen →
      Move s (.writer w) (s.setWriter w { s.writer_ w with list_ := .empty, pc := .loop })
  | reuse {i bytes} :
      Move s (.reuse i bytes) { s with mem := Function.update s.mem (.caller i) bytes }

variable {s s' s₀ : Callers} {l : Label} {t t' : Tid} {w w' : Fin kMaxWriter} {wr : ViewWriter}
  {pc : CallPc} {e : MemEntry StrView} {h : List Event}

@[simp] theorem setClient_mem : (s.setClient t pc).mem = s.mem := rfl
@[simp] theorem setClient_writer : (s.setClient t pc).writer_ = s.writer_ := rfl
@[simp] theorem setClient_client : (s.setClient t pc).client = Function.update s.client t pc := rfl
@[simp] theorem setWriter_mem : (s.setWriter w wr).mem = s.mem := rfl
@[simp] theorem setWriter_writer :
    (s.setWriter w wr).writer_ = Function.update s.writer_ w wr := rfl
@[simp] theorem setWriter_client : (s.setWriter w wr).client = s.client := rfl

theorem clientStep_move (h : s.clientStep t = some s') : Move s (.client t) s' := by
  unfold clientStep at h
  split at h
  · cases h
  · rename_i ht; cases h; exact .take ht
  · rename_i ht
    split at h
    · rename_i hl; cases h; exact .lock ht hl
    · cases h
  · rename_i ht
    dsimp only at h
    split at h
    · rename_i hr
      obtain ⟨log, hlog, rfl⟩ := Option.map_eq_some_iff.1 h
      exact .record ht hr hlog
    · rename_i hr; cases h; exact .skip ht (by simpa using hr)
  · rename_i ht
    simp only [Option.some.injEq] at h
    split at h
    · cases h; exact .wait ht
    · rename_i hf; cases h; exact .put ht (by simpa using hf)
  · rename_i ht
    obtain ⟨q, hq, rfl⟩ := Option.map_eq_some_iff.1 h
    exact .count ht hq
  · rename_i ht; cases h; exact .unlock ht

theorem writerStep_move (h : s.writerStep w = some s') : Move s (.writer w) s' := by
  unfold writerStep at h
  dsimp only at h
  split at h
  · cases h
  · rename_i hp; cases h; exact .acquire hp
  · rename_i hp
    split at h
    · rename_i he
      cases h
      exact .release hp (if_pos he)
    · simp only [Option.bind_eq_bind, Option.bind_eq_some_iff, Option.some.injEq] at h
      obtain ⟨front, hf, list, hl, rfl⟩ := h
      exact .insert hp hf hl
  · rename_i hp
    obtain ⟨q, hq, rfl⟩ := Option.map_eq_some_iff.1 h
    exact .pop hp hq
  · rename_i hp; cases h; exact .check hp
  · rename_i hp; cases h; exact .freeze hp
  · rename_i hp; cases h; exact .renew hp

/-- **Every step is a move.** -/
theorem step_move (h : s.step l = some s') : Move s l s' := by
  cases l with
  | callSet =>
    simp only [step] at h
    split at h
    · rename_i ht; cases h; exact .callSet ht
    · cases h
  | callDel =>
    simp only [step] at h
    split at h
    · rename_i ht; cases h; exact .callDel ht
    · cases h
  | client => exact clientStep_move h
  | writer => exact writerStep_move h
  | reuse => cases h; exact .reuse

/-! ## The entries of one writer -/

/-- The entry that is logged and not counted in. -/
def inFlight (c : Tid → CallPc) (w : Fin kMaxWriter) (wr : ViewWriter) : List (MemEntry StrView) :=
  wr.lock_.elim [] fun t => (c t).flight w

/-- What an entry with strings shows. -/
def fieldsIn (mem : Memory) (e : MemEntry StrView) : Bytes × Bytes × ℕ × Bool :=
  (e.map (·.read mem)).fields

/-- A writer among the threads at `c`, with `recs` logged for it and `done` inserted by it. -/
structure Lane (recs done : List (Bytes × Bytes × ℕ × Bool)) (mem : Memory) (c : Tid → CallPc)
    (w : Fin kMaxWriter) (wr : ViewWriter) : Prop where
  /-- a thread inside `push` has the lock -/
  locked : ∀ t e, (c t).inside = some (w, e) → wr.lock_ = some t
  /-- the slot it has written is the one behind the last entry -/
  slot : ∀ t e, c t = .written w e → wr.queue_.ring.get wr.queue_.ring.wr = e
  /-- the entry at the front is in the queue until it is popped -/
  ahead : wr.pc.ahead ≤ wr.queue_.contents.length
  ready : wr.queue_.ready_ = true
  /-- what is logged has been inserted, or is still as it was logged -/
  agree : recs = done ++ (wr.queued ++ inFlight c w wr).map (fieldsIn mem)

@[simp] theorem flight_locked : (CallPc.locked w' e).flight w = [] := rfl
@[simp] theorem flight_counted : (CallPc.counted w' e).flight w = [] := rfl

theorem inside_of_flight (h : pc.flight w ≠ []) : ∃ e, pc.inside = some (w, e) := by
  cases pc with
  | logged w' e | written w' e =>
    simp only [CallPc.flight] at h
    split at h
    · rename_i hw; exact ⟨e, by rw [← hw]; rfl⟩
    · exact absurd rfl h
  | _ => exact absurd rfl h

theorem strings_of_flight (h : e ∈ pc.flight w) :
    e.key.data_ ∈ pc.strings ∧ e.value.data_ ∈ pc.strings := by
  cases pc with
  | logged w' x | written w' x =>
    simp only [CallPc.flight] at h
    split at h
    · rw [List.mem_singleton.1 h]; simp [CallPc.strings]
    · cases h
  | _ => cases h

theorem update_client {c : Tid → CallPc} {x : CallPc} (h : Function.update c t pc t' = x) :
    t' ≠ t ∧ c t' = x ∨ t' = t ∧ pc = x := by
  rcases eq_or_ne t' t with rfl | hne
  · right; exact ⟨rfl, by rwa [Function.update_self] at h⟩
  · left; exact ⟨hne, by rwa [Function.update_of_ne hne] at h⟩

namespace Lane

variable {recs done : List (Bytes × Bytes × ℕ × Bool)} {mem : Memory} {c : Tid → CallPc}
  {wr' : ViewWriter}

/-- At most one thread is inside `push`. -/
theorem alone (h : Lane recs done mem c w wr) {e e' : MemEntry StrView}
    (ht : (c t).inside = some (w, e)) (ht' : (c t').inside = some (w, e')) : t' = t := by
  have h1 := h.locked t e ht
  rw [h.locked t' e' ht'] at h1
  exact Option.some.inj h1

/-- A thread moves that is not inside `push` of this queue. -/
theorem outside (h : Lane recs done mem c w wr) (ht : ∀ e, (c t).inside ≠ some (w, e))
    (hpc : ∀ e, pc.inside ≠ some (w, e)) : Lane recs done mem (Function.update c t pc) w wr := by
  refine ⟨fun t' e h1 => ?_, fun t' e h1 => ?_, h.ahead, h.ready, ?_⟩
  · rcases eq_or_ne t' t with rfl | hne
    · rw [Function.update_self] at h1; exact absurd h1 (hpc e)
    · rw [Function.update_of_ne hne] at h1; exact h.locked t' e h1
  · rcases update_client h1 with ⟨-, h2⟩ | ⟨-, rfl⟩
    · exact h.slot t' e h2
    · exact absurd rfl (hpc e)
  · have hsame : inFlight (Function.update c t pc) w wr = inFlight c w wr := by
      unfold inFlight
      cases wr.lock_ with
      | none => rfl
      | some t' =>
        rcases eq_or_ne t' t with rfl | hne
        · simp only [Option.elim_some, Function.update_self]
          have h1 : pc.flight w = [] := by
            by_contra h1
            obtain ⟨e, h2⟩ := inside_of_flight h1
            exact hpc e h2
          have h2 : (c t').flight w = [] := by
            by_contra h1
            obtain ⟨e, h2⟩ := inside_of_flight h1
            exact ht e h2
          rw [h1, h2]
        · simp only [Option.elim_some, Function.update_of_ne hne]
    rw [hsame]
    exact h.agree

/-- The thread inside `push` moves on in it, to `pc`, and leaves the queue `q`. -/
theorem inside (h : Lane recs done mem c w wr) (ht : (c t).inside = some (w, e)) (pc : CallPc)
    (q : MessageQueue StrView) (hpc : pc.inside = some (w, e))
    (hslot : pc = .written w e → q.ring.get q.ring.wr = e)
    (hlen : wr.queue_.contents.length ≤ q.contents.length) (hready : q.ready_ = wr.queue_.ready_)
    {recs' : List (Bytes × Bytes × ℕ × Bool)}
    (hagree : recs' = done ++ (q.contents.drop wr.pc.ahead ++ pc.flight w).map (fieldsIn mem)) :
    Lane recs' done mem (Function.update c t pc) w { wr with queue_ := q } := by
  have hlock := h.locked t e ht
  constructor
  case locked =>
    intro t' e' h1
    rcases eq_or_ne t' t with rfl | hne
    · exact hlock
    · rw [Function.update_of_ne hne] at h1; exact h.locked t' e' h1
  case slot =>
    intro t' e' h1
    rcases update_client h1 with ⟨hne, h2⟩ | ⟨-, rfl⟩
    · exact absurd (h.alone ht (by rw [h2]; rfl)) hne
    · cases hpc; exact hslot rfl
  case ahead => exact h.ahead.trans hlen
  case ready => exact hready.trans h.ready
  case agree =>
    rw [hagree, inFlight, hlock, Option.elim_some, Function.update_self]
    rfl

/-- What is in flight is the entry of the thread inside `push`. -/
theorem inFlight_eq (h : Lane recs done mem c w wr) (ht : (c t).inside = some (w, e)) :
    inFlight c w wr = (c t).flight w := by
  rw [inFlight, h.locked t e ht, Option.elim_some]

theorem record (h : Lane recs done mem c w wr) (ht : c t = .locked w e) (log : WritableFile) :
    Lane (recs ++ [fieldsIn mem e]) done mem (Function.update c t (.logged w e)) w
      { wr with queue_ := { wr.queue_ with log_ := log } } := by
  have hin : (c t).inside = some (w, e) := by rw [ht]; rfl
  refine h.inside hin (.logged w e) { wr.queue_ with log_ := log } rfl (fun h1 => by cases h1) le_rfl
    rfl ?_
  have hagree := h.agree
  rw [h.inFlight_eq hin, ht, flight_locked, List.append_nil] at hagree
  rw [hagree, CallPc.flight, if_pos rfl, List.map_append, List.append_assoc]
  rfl

theorem put (h : Lane recs done mem c w wr) (ht : c t = .logged w e)
    (hf : wr.queue_.isFull = false) :
    Lane recs done mem (Function.update c t (.written w e)) w
      { wr with queue_ := wr.queue_.put e } := by
  have hin : (c t).inside = some (w, e) := by rw [ht]; rfl
  have hcontents := MessageQueue.contents_put (e := e) hf
  refine h.inside hin (.written w e) (wr.queue_.put e) rfl (fun _ => Ring.get_put_self)
    (by rw [hcontents]) rfl ?_
  have hagree := h.agree
  rw [h.inFlight_eq hin, ht] at hagree
  rw [hagree, ViewWriter.queued, hcontents]
  rfl

theorem count (h : Lane recs done mem c w wr) {q : MessageQueue StrView} (ht : c t = .written w e)
    (hq : wr.queue_.advance = some q) :
    Lane recs done mem (Function.update c t (.counted w e)) w { wr with queue_ := q } := by
  have hin : (c t).inside = some (w, e) := by rw [ht]; rfl
  have hcontents := MessageQueue.contents_advance hq
  rw [h.slot t e ht] at hcontents
  have hready : q.ready_ = wr.queue_.ready_ := by
    obtain ⟨-, rfl⟩ := MessageQueue.advance_some hq
    rfl
  have hlen : wr.queue_.contents.length ≤ q.contents.length := by
    rw [hcontents, List.length_append]
    exact Nat.le_add_right ..
  refine h.inside hin (.counted w e) q rfl (fun h1 => by cases h1) hlen hready ?_
  have hagree := h.agree
  rw [h.inFlight_eq hin, ht, CallPc.flight, if_pos rfl] at hagree
  rw [hagree, flight_counted, List.append_nil, ViewWriter.queued, hcontents,
    List.drop_append_of_le_length h.ahead]

theorem lock (h : Lane recs done mem c w wr) (hl : wr.lock_ = none) :
    Lane recs done mem (Function.update c t (.locked w e)) w { wr with lock_ := some t } := by
  have hnone : ∀ t' e', (c t').inside ≠ some (w, e') := by
    intro t' e' h1
    rw [h.locked t' e' h1] at hl
    cases hl
  refine ⟨fun t' e' h1 => ?_, fun t' e' h1 => ?_, h.ahead, h.ready, ?_⟩
  · rcases eq_or_ne t' t with rfl | hne
    · rfl
    · rw [Function.update_of_ne hne] at h1; exact absurd h1 (hnone t' e')
  · rcases update_client h1 with ⟨-, h2⟩ | ⟨-, h2⟩
    · exact absurd (by rw [h2]; rfl) (hnone t' e')
    · cases h2
  · have hagree := h.agree
    rw [inFlight, hl, Option.elim_none] at hagree
    rw [inFlight, Option.elim_some, Function.update_self]
    exact hagree

theorem unlock (h : Lane recs done mem c w wr) (ht : c t = .counted w e) :
    Lane recs done mem (Function.update c t .idle) w { wr with lock_ := none } := by
  have hin : (c t).inside = some (w, e) := by rw [ht]; rfl
  have hother : ∀ t' e', (Function.update c t .idle t').inside ≠ some (w, e') := by
    intro t' e' h1
    rcases eq_or_ne t' t with rfl | hne
    · rw [Function.update_self] at h1; cases h1
    · rw [Function.update_of_ne hne] at h1; exact hne (h.alone hin h1)
  refine ⟨fun t' e' h1 => absurd h1 (hother t' e'), fun t' e' h1 => ?_, h.ahead, h.ready, ?_⟩
  · exact absurd (by rw [h1]; rfl) (hother t' e')
  · have hagree := h.agree
    rw [inFlight, h.locked t e hin, Option.elim_some, ht] at hagree
    exact hagree

/-- The writer moves on, and leaves the queue as it is. -/
theorem move (h : Lane recs done mem c w wr) (hq : wr'.queue_ = wr.queue_)
    (hl : wr'.lock_ = wr.lock_) (hw : wr'.pc.ahead = wr.pc.ahead) : Lane recs done mem c w wr' := by
  refine ⟨fun t e h1 => hl.trans (h.locked t e h1), fun t e h1 => ?_, ?_, ?_, ?_⟩
  · rw [hq]; exact h.slot t e h1
  · rw [hq, hw]; exact h.ahead
  · rw [hq]; exact h.ready
  · have hagree := h.agree
    rw [ViewWriter.queued, inFlight] at hagree ⊢
    rw [hq, hl, hw]
    exact hagree

theorem insert (h : Lane recs done mem c w wr) (hp : wr.pc = .loop)
    (hf : wr.queue_.getFront = some e) (list : SkipList) :
    Lane recs (done ++ [fieldsIn mem e]) mem c w { wr with list_ := list, pc := .inserted } := by
  obtain ⟨rest, hc⟩ := List.head?_eq_some_iff.1 (MessageQueue.getFront_some hf)
  refine ⟨h.locked, h.slot, ?_, h.ready, ?_⟩
  · rw [hc]; exact Nat.le_add_left ..
  · have hagree := h.agree
    rw [ViewWriter.queued, hp, hc] at hagree
    rw [hagree, ViewWriter.queued, hc, List.append_assoc]
    rfl

theorem pop (h : Lane recs done mem c w wr) {q : MessageQueue StrView} (hp : wr.pc = .inserted)
    (hq : wr.queue_.pop = some q) :
    Lane recs done mem c w { wr with queue_ := q, pc := .popped } := by
  have hcontents := MessageQueue.contents_pop hq
  obtain ⟨he, rfl⟩ := MessageQueue.pop_some hq
  refine ⟨h.locked, h.slot, Nat.zero_le _, h.ready, ?_⟩
  have hagree := h.agree
  rw [ViewWriter.queued, hp] at hagree
  rw [hagree, ViewWriter.queued, hcontents, ← List.drop_one]
  rfl

/-- The memory changes where no entry of the lane is read. -/
theorem remember (h : Lane recs done mem c w wr) {mem' : Memory}
    (hq : ∀ e ∈ wr.queued, fieldsIn mem' e = fieldsIn mem e)
    (hc : ∀ e ∈ inFlight c w wr, fieldsIn mem' e = fieldsIn mem e) :
    Lane recs done mem' c w wr := by
  refine ⟨h.locked, h.slot, h.ahead, h.ready, ?_⟩
  rw [h.agree]
  congr 1
  refine (List.map_congr_left fun e he => ?_).symm
  rcases List.mem_append.1 he with he | he
  · exact hq e he
  · exact hc e he

end Lane

/-! ## All writers -/

/-- The records that `push` has written to the log of `w`. -/
def records (w : Fin kMaxWriter) (h : List Event) : List Entry :=
  h.filterMap fun
    | .logged w' e => if w' = w then some e else none
    | _ => none

/-- The entries that `w` has inserted into its active lists. -/
def insertions (w : Fin kMaxWriter) (h : List Event) : List Entry :=
  h.filterMap fun
    | .inserted w' e => if w' = w then some e else none
    | _ => none

theorem records_append (w : Fin kMaxWriter) (h h' : List Event) :
    records w (h ++ h') = records w h ++ records w h' := List.filterMap_append

theorem insertions_append (w : Fin kMaxWriter) (h h' : List Event) :
    insertions w (h ++ h') = insertions w h ++ insertions w h' := List.filterMap_append

/-- The lanes of all writers, `base w` being what the queue of `w` held at the start. -/
def Agree (base : Fin kMaxWriter → List (Bytes × Bytes × ℕ × Bool)) (h : List Event) (s : Callers) :
    Prop :=
  ∀ w, Lane (base w ++ (records w h).map MemEntry.fields) ((insertions w h).map MemEntry.fields)
    s.mem s.client w (s.writer_ w)

/-- No string of a call in progress is changed. -/
def AfterReturn (s : Callers) : Label → Prop
  | .reuse i _ => ∀ t, .caller i ∉ (s.client t).strings
  | _ => True

/-- No change to a string shows in an entry that is not in the active list yet. -/
def Unnoticed (s : Callers) : Label → Prop
  | .reuse i bytes => ∀ w, ∀ e ∈ (s.writer_ w).queued,
    fieldsIn (Function.update s.mem (.caller i) bytes) e = fieldsIn s.mem e
  | _ => True

/-- A step that changes no string too early. -/
def Patient (s : Callers) (l : Label) : Prop := s.AfterReturn l ∧ s.Unnoticed l

/-- The store as `init` leaves it. -/
structure Started (s : Callers) : Prop where
  client : ∀ t, s.client t = .idle
  pc : ∀ w, (s.writer_ w).pc = .idle
  ready : ∀ w, (s.writer_ w).queue_.ready_ = true

variable {base : Fin kMaxWriter → List (Bytes × Bytes × ℕ × Bool)}

theorem Started.agree (h0 : Started s) :
    Agree (fun w => (s.writer_ w).queue_.contents.map (fieldsIn s.mem)) [] s := by
  intro w
  refine ⟨fun t e h1 => ?_, fun t e h1 => ?_, ?_, h0.ready w, ?_⟩
  · rw [h0.client t] at h1; cases h1
  · rw [h0.client t] at h1; cases h1
  · rw [h0.pc w]; exact Nat.zero_le _
  · have hnone : inFlight s.client w (s.writer_ w) = [] := by
      unfold inFlight
      cases (s.writer_ w).lock_ with
      | none => rfl
      | some t => rw [Option.elim_some, h0.client t]; rfl
    rw [hnone, ViewWriter.queued, h0.pc w]
    simp [records, insertions, WriterPc.ahead]

/-- What a slice shows while no byte of its string is changed. -/
theorem fieldsIn_update {mem : Memory} {i : ℕ} {bytes : ℕ → UInt8}
    (hk : e.key.data_ ≠ .caller i) (hv : e.value.data_ ≠ .caller i) :
    fieldsIn (Function.update mem (.caller i) bytes) e = fieldsIn mem e := by
  simp only [fieldsIn, MemEntry.map, StrView.read, Function.update_of_ne hk,
    Function.update_of_ne hv]

/-- **Every step keeps the lanes.** -/
theorem Agree.step (h : Agree base hist s) (hm : Move s l s') (hg : s.Patient l) :
    Agree base (hist ++ (s.event l).toList) s' := by
  intro w
  have hw := h w
  rw [records_append, insertions_append, List.map_append, List.map_append, ← List.append_assoc]
  -- a step that shows nothing
  have silent : s.event l = none → Lane (base w ++ (records w hist).map MemEntry.fields)
        ((insertions w hist).map MemEntry.fields) s'.mem s'.client w (s'.writer_ w) →
      Lane (base w ++ (records w hist).map MemEntry.fields ++
          (records w (s.event l).toList).map MemEntry.fields)
        ((insertions w hist).map MemEntry.fields ++
          (insertions w (s.event l).toList).map MemEntry.fields)
        s'.mem s'.client w (s'.writer_ w) := by
    intro he hl
    rw [he]
    simpa [records, insertions] using hl
  -- a step of writer `w₀` that shows nothing
  have own : ∀ {w₀ wr}, Lane (base w₀ ++ (records w₀ hist).map MemEntry.fields)
        ((insertions w₀ hist).map MemEntry.fields) s.mem s.client w₀ wr →
      Lane (base w ++ (records w hist).map MemEntry.fields)
        ((insertions w hist).map MemEntry.fields) s.mem s.client w
        (Function.update s.writer_ w₀ wr w) := by
    intro w₀ wr hwr
    rcases eq_or_ne w w₀ with rfl | hne
    · rw [Function.update_self]; exact hwr
    · rw [Function.update_of_ne hne]; exact hw
  -- a step of thread `t` inside `push` of the queue `w₀`, seen from another queue
  have other : ∀ {t w₀ e pc}, w ≠ w₀ → (s.client t).inside = some (w₀, e) →
      pc.inside = some (w₀, e) → Lane (base w ++ (records w hist).map MemEntry.fields)
        ((insertions w hist).map MemEntry.fields) s.mem (Function.update s.client t pc) w
        (s.writer_ w) := by
    intro t w₀ e pc hne ht hpc
    refine hw.outside (fun e' h1 => hne ?_) fun e' h1 => hne ?_
    · rw [ht] at h1; cases h1; rfl
    · rw [hpc] at h1; cases h1; rfl
  cases hm with
  | callSet ht | callDel ht =>
    exact silent rfl (hw.outside (by rw [ht]; simp [CallPc.inside]) (by simp [CallPc.inside]))
  | take ht =>
    refine silent (by simp [event, ht]) ?_
    exact hw.outside (by rw [ht]; simp [CallPc.inside]) (by simp [CallPc.inside])
  | wait ht => exact silent (by simp [event, ht]) hw
  | @skip t w₀ e ht hr =>
    -- every queue is ready, so every entry is logged
    rw [(h w₀).ready] at hr
    cases hr
  | @lock t w₀ e ht hl =>
    refine silent (by simp [event, ht]) ?_
    simp only [setClient_writer, setWriter_writer, setClient_client, setWriter_client]
    rcases eq_or_ne w w₀ with rfl | hne
    · rw [Function.update_self]; exact hw.lock hl
    · rw [Function.update_of_ne hne]
      refine hw.outside (by rw [ht]; simp [CallPc.inside]) fun e' h1 => ?_
      cases h1
      exact hne rfl
  | @record t w₀ e log ht hr hlog =>
    have hev : s.event (.client t) = some (.logged w₀ (s.shown e)) := by simp [event, ht, hr]
    rw [hev]
    simp only [onQueue, setClient_writer, setWriter_writer, setClient_client, setWriter_client]
    rcases eq_or_ne w w₀ with rfl | hne
    · -- the strings show the same to the log and, from here on, to the lane
      rw [Function.update_self]
      simpa [records, insertions, shown, fieldsIn] using hw.record ht log
    · rw [Function.update_of_ne hne]
      simpa [records, insertions, Ne.symm hne] using other hne (by rw [ht]; rfl) rfl
  | @put t w₀ e ht hf =>
    refine silent (by simp [event, ht]) ?_
    simp only [onQueue, setClient_writer, setWriter_writer, setClient_client, setWriter_client]
    rcases eq_or_ne w w₀ with rfl | hne
    · rw [Function.update_self]; exact hw.put ht hf
    · rw [Function.update_of_ne hne]; exact other hne (by rw [ht]; rfl) rfl
  | @count t w₀ e q ht hq =>
    refine silent (by simp [event, ht]) ?_
    simp only [onQueue, setClient_writer, setWriter_writer, setClient_client, setWriter_client]
    rcases eq_or_ne w w₀ with rfl | hne
    · rw [Function.update_self]; exact hw.count ht hq
    · rw [Function.update_of_ne hne]; exact other hne (by rw [ht]; rfl) rfl
  | @unlock t w₀ e ht =>
    refine silent (by simp [event, ht]) ?_
    simp only [setClient_writer, setWriter_writer, setClient_client, setWriter_client]
    rcases eq_or_ne w w₀ with rfl | hne
    · rw [Function.update_self]; exact hw.unlock ht
    · rw [Function.update_of_ne hne]
      refine hw.outside (fun e' h1 => hne ?_) (by simp [CallPc.inside])
      rw [ht] at h1
      cases h1
      rfl
  | @acquire w₀ hp =>
    exact silent (by simp [event, hp]) (own ((h w₀).move rfl rfl (by rw [hp]; rfl)))
  | @release w₀ hp hf =>
    exact silent (by simp [event, hp, hf]) (own ((h w₀).move rfl rfl (by rw [hp]; rfl)))
  | @insert w₀ front list hp hf hl =>
    have hev : s.event (.writer w₀) = some (.inserted w₀ (s.shown front)) := by
      simp [event, hp, hf]
    rw [hev]
    simp only [setWriter_writer, setWriter_client]
    rcases eq_or_ne w w₀ with rfl | hne
    · rw [Function.update_self]
      simpa [records, insertions, shown, fieldsIn] using hw.insert hp hf list
    · rw [Function.update_of_ne hne]
      simpa [records, insertions, Ne.symm hne] using hw
  | @pop w₀ q hp hq => exact silent (by simp [event, hp]) (own ((h w₀).pop hp hq))
  | @check w₀ hp =>
    refine silent (by simp [event, hp]) (own ((h w₀).move rfl rfl ?_))
    rw [hp]
    dsimp only
    split <;> rfl
  | @freeze w₀ hp =>
    exact silent (by simp [event, hp]) (own ((h w₀).move rfl rfl (by rw [hp]; rfl)))
  | @renew w₀ hp =>
    exact silent (by simp [event, hp]) (own ((h w₀).move rfl rfl (by rw [hp]; rfl)))
  | @reuse i bytes =>
    refine silent rfl (hw.remember (hg.2 w) fun e he => ?_)
    -- the call is still in progress
    obtain ⟨t, ht⟩ : ∃ t, e ∈ (s.client t).flight w := by
      unfold inFlight at he
      cases hlock : (s.writer_ w).lock_ with
      | none => rw [hlock] at he; cases he
      | some t => rw [hlock] at he; exact ⟨t, he⟩
    obtain ⟨hk, hv⟩ := strings_of_flight ht
    exact fieldsIn_update (fun h1 => hg.1 t (h1 ▸ hk)) fun h1 => hg.1 t (h1 ▸ hv)

end Callers

open Callers

/-! ## Runs -/

/-- **Log and memtable agree.** Where the callers change no string during a call, and none that shows
in an entry still in its queue, what a writer inserts into its active lists is, entry by entry,
what the queue held at the start and then what `push` has logged. -/
theorem log_memtable_agree {s₀ s : Callers} {h : List Callers.Event} (h0 : s₀.Started)
    (hx : Callers.machine.Exec Callers.Patient s₀ h s) (w : Fin kMaxWriter) :
    (insertions w h).map MemEntry.fields <+:
      ((s₀.writer_ w).queue_.contents.map s₀.shown ++ records w h).map MemEntry.fields := by
  have hagree : Agree (fun w => (s₀.writer_ w).queue_.contents.map (fieldsIn s₀.mem)) h s := by
    refine hx.induct h0.agree fun hist s l s' hi hg hs => ?_
    exact hi.step (step_move hs) hg
  rw [List.map_append, List.map_map]
  exact ⟨_, (hagree w).agree.symm⟩

/-- Only thread `t` calls, and the callers change strings between its calls. -/
def Callers.OneCaller (t : Tid) (s : Callers) : Callers.Label → Prop
  | .callSet t' _ _ _ | .callDel t' _ => t' = t
  | .reuse _ _ => s.client t = .idle
  | _ => True

instance (t : Tid) (s : Callers) (l : Callers.Label) : Decidable (s.OneCaller t l) :=
  match l with
  | .callSet t' _ _ _ | .callDel t' _ => inferInstanceAs (Decidable (t' = t))
  | .reuse _ _ => inferInstanceAs (Decidable (s.client t = .idle))
  | .client _ | .writer _ => instDecidableTrue

instance (s : Callers) (l : Callers.Label) : Decidable (s.Unnoticed l) :=
  match l with
  | .reuse i bytes => inferInstanceAs (Decidable (∀ w, ∀ e ∈ (s.writer_ w).queued,
      fieldsIn (Function.update s.mem (.caller i) bytes) e = fieldsIn s.mem e))
  | .callSet _ _ _ _ | .callDel _ _ | .client _ | .writer _ => instDecidableTrue

/-- A single caller changes no string during a call. -/
theorem Callers.OneCaller.afterReturn {t : Tid} {s₀ s : Callers} {h : List Callers.Event}
    {P : Callers → Callers.Label → Prop} (h0 : s₀.Started)
    (hx : Callers.machine.Exec (fun s l => s.OneCaller t l ∧ P s l) s₀ h s) :
    Callers.machine.Exec (fun s l => s.AfterReturn l ∧ P s l) s₀ h s := by
  refine hx.strengthen (I := fun s => ∀ t', t' ≠ t → s.client t' = .idle) (fun t' _ => h0.client t')
    ?_ ?_
  · intro s l s' hi hg hs t' hne
    have hstay : ∀ {t₀ pc}, s.client t₀ ≠ .idle → Function.update s.client t₀ pc t' = .idle := by
      intro t₀ pc hact
      rw [Function.update_of_ne, hi t' hne]
      rintro rfl
      exact hact (hi _ hne)
    cases step_move hs with
    | callSet | callDel => exact (Function.update_of_ne (hg.1 ▸ hne) _ _).trans (hi t' hne)
    | take ht | lock ht | record ht | skip ht | put ht | count ht | unlock ht =>
      exact hstay (by rw [ht]; simp)
    | _ => exact hi t' hne
  · intro s l hi hg
    refine ⟨?_, hg.2⟩
    cases l with
    | reuse i bytes =>
      intro t'
      have hidle : s.client t' = .idle := by
        rcases eq_or_ne t' t with rfl | hne
        · exact hg.1
        · exact hi t' hne
      rw [hidle]
      exact List.not_mem_nil
    | _ => trivial

/-- Fresh writers, and a caller with the strings `a` and `b`. -/
def freshCallers : Callers :=
  { mem := fun
      | .caller 0, 0 => 97
      | .caller 1, 0 => 98
      | _, _ => 0
    idx_ := 1
    writer_ := fun w =>
      { queue_ :=
          { ring := .emptyAt (fun _ => ⟨⟨.null, 0⟩, ⟨.null, 0⟩, 0, false⟩) 1
            log_ := .create [] [] []
            logid_ := 1
            writerid_ := w
            max_id_ := 0
            ready_ := true }
        lock_ := none
        list_ := .empty
        pc := .idle }
    current_ := .new
    client := fun _ => .idle }

theorem freshCallers_started : freshCallers.Started := ⟨fun _ => rfl, fun _ => rfl, fun _ => rfl⟩

/-- One call of `setKey`. -/
def oneCall : List Callers.Label := .callSet 0 (0, 1) (1, 1) false :: List.replicate 6 (.client 0)

/-- A value that is changed after the writer has come to its entry. -/
theorem log_memtable_agree_oneCall : ∃ h s,
    Callers.machine.Exec Callers.Patient freshCallers h s ∧
      insertions 2 h = [Store.entryOf [97] [98] 1 false] ∧
      (insertions 2 h).map MemEntry.fields <+: ([] ++ records 2 h).map MemEntry.fields := by
  have hr : (Callers.machine.exec (fun s l => s.OneCaller 0 l ∧ s.Unnoticed l) freshCallers
      (oneCall ++ [.writer 2, .writer 2, .reuse 1 fun _ => 99])).map (fun r => insertions 2 r.1) =
      some [Store.entryOf [97] [98] 1 false] := by decide +kernel
  obtain ⟨⟨h, s⟩, hr, hins⟩ := Option.map_eq_some_iff.1 hr
  have hx := Callers.OneCaller.afterReturn freshCallers_started (Machine.exec_sound hr)
  exact ⟨h, s, hx, hins, log_memtable_agree freshCallers_started hx 2⟩

/-- **A value that is changed before**: the log has what the caller wrote, the active list what its
string was used for next. -/
theorem log_memtable_differ : ∃ h s,
    Callers.machine.Exec Callers.AfterReturn freshCallers h s ∧
      records 2 h = [Store.entryOf [97] [98] 1 false] ∧
      (insertions 2 h).map MemEntry.fields = [([97], [99], 1, false)] ∧
      ¬ (insertions 2 h).map MemEntry.fields <+:
        ((freshCallers.writer_ 2).queue_.contents.map freshCallers.shown ++ records 2 h).map
          MemEntry.fields := by
  have hr : (Callers.machine.exec (fun s l => s.OneCaller 0 l ∧ Machine.Any s l) freshCallers
      (oneCall ++ [.reuse 1 fun _ => 99, .writer 2, .writer 2])).map (fun r => decide
        (records 2 r.1 = [Store.entryOf [97] [98] 1 false] ∧
          (insertions 2 r.1).map MemEntry.fields = [([97], [99], 1, false)])) = some true := by
    decide +kernel
  obtain ⟨h, s, hone, hrec, hins⟩ := Machine.exec_check hr
  have hx := Callers.OneCaller.afterReturn freshCallers_started hone
  refine ⟨h, s, hx.mono fun _ _ hg => hg.1, hrec, hins, ?_⟩
  rw [hins, hrec]
  decide +kernel

end Yangkv
