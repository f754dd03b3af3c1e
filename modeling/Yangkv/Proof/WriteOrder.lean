import Yangkv.Proof.ReadYourWrites
import Yangkv.Proof.Wal

/-!
# The order of writes

A write takes its id before it takes the lock of its queue, so two writes may pass each
other in between. Where no write is passed by one with a larger id, each queue and each
log get their entries in the order of their ids.

* `Line.step`: the threads inside `push` stand before those that wait for the lock.
* `Received.step`: what has been logged, or counted in, is in the order of the ids.
* `last_write_wins`: with nobody writing and the queues drained, the store keeps the
  entry with the largest id ever given to a write of each key.
* `overtaken`: a run in which a write passes another one.
-/

namespace Yangkv

open Lib

/-- How far a write is inside `push`. -/
def SetPc.rank : SetPc → ℕ
  | .taken => 0
  | .locked => 1
  | .sized => 2
  | .appended => 3
  | .logged => 4
  | .written => 5
  | .counted => 6

/-- In the order of their ids. -/
abbrev Ascending (es : List Entry) : Prop := es.Pairwise fun x y => x.seq_num < y.seq_num

namespace Store

/-- The entry whose id a step takes. -/
def takes (s : Store) : Label → Option Entry
  | .client t =>
    match s.client t with
    | .setCalled key value del_flag => some (entryOf key value s.idx_ del_flag)
    | _ => none
  | _ => none

/-- Who takes the lock of a queue passes nobody with a smaller id for it. -/
def InLine (s : Store) : Label → Prop
  | .client t => ∀ e, s.client t = .set .taken e →
    ∀ t' e', s.client t' = .set .taken e' → home e' = home e → e.seq_num ≤ e'.seq_num
  | _ => True

/-- A step, within bounds, that passes nobody. -/
def InOrder (s : Store) (l : Label) : Prop := s.SizedStep l ∧ s.InLine l

variable {s s' : Store} {l : Label} {t t' : Tid} {p p' : SetPc} {e e' : Entry}
  {w : Fin kMaxWriter}

/-! ## Threads with ids -/

/-- A write that waits for the lock waited before, or has just taken its id. -/
theorem Move.taken_cases (hm : Move s l s') (h : s'.client t = .set .taken e) :
    (s.client t = .set .taken e ∧ l ≠ .client t) ∨
      ∃ key value del_flag, s.client t = .setCalled key value del_flag ∧
        e = entryOf key value s.idx_ del_flag ∧ s'.idx_ = s.idx_ + 1 := by
  have hstay : ∀ {t'}, t ≠ t' → s.client t = .set .taken e →
      s.client t = .set .taken e ∧ Label.client t' ≠ .client t := by
    intro t' hne h1
    exact ⟨h1, fun hl => by cases hl; exact hne rfl⟩
  cases hm with
  | take ht =>
    rcases update_client h with ⟨hne, h1⟩ | ⟨rfl, h1⟩
    · exact .inl (hstay hne h1)
    · cases h1; exact .inr ⟨_, _, _, ht, rfl, rfl⟩
  | callSet | callGet =>
    rcases update_client h with ⟨-, h1⟩ | ⟨-, h1⟩
    · exact .inl ⟨h1, by simp⟩
    · cases h1
  | get _ hpc =>
    rcases update_client h with ⟨hne, h1⟩ | ⟨-, rfl⟩
    · exact .inl (hstay hne h1)
    · simp [reads] at hpc
  | lock | size | append | flush | skip | put | count | unlock =>
    rcases update_client h with ⟨hne, h1⟩ | ⟨-, h1⟩
    · exact .inl (hstay hne h1)
    · cases h1
  | @wait t' e' ht =>
    rcases eq_or_ne t t' with rfl | hne
    · rw [ht] at h; cases h
    · exact .inl (hstay hne h)
  | _ => exact .inl ⟨h, by simp⟩

/-- A write that is inside `push` was there before, no further, or has just taken the lock. -/
theorem Move.inside_cases (hm : Move s l s') (h : s'.client t = .set p e) (hp : p ≠ .taken) :
    (∃ p', s.client t = .set p' e ∧ p' ≠ .taken ∧ p'.rank ≤ p.rank ∧
        (l = .client t → p' = .appended ∨ p' = .written → p'.rank < p.rank)) ∨
      (s.client t = .set .taken e ∧ l = .client t) := by
  have hstay : (∀ t', l = .client t' → t ≠ t') → s.client t = .set p e →
      ∃ p', s.client t = .set p' e ∧ p' ≠ .taken ∧ p'.rank ≤ p.rank ∧
        (l = .client t → p' = .appended ∨ p' = .written → p'.rank < p.rank) :=
    fun hne h1 => ⟨p, h1, hp, le_rfl, fun hl => absurd rfl (hne t hl)⟩
  cases hm with
  | take ht =>
    rcases update_client h with ⟨hne, h1⟩ | ⟨rfl, h1⟩
    · exact .inl (hstay (fun t' hl => by cases hl; exact hne) h1)
    · cases h1; exact absurd rfl hp
  | callSet | callGet =>
    rcases update_client h with ⟨-, h1⟩ | ⟨-, h1⟩
    · exact .inl (hstay (fun t' hl => by cases hl) h1)
    · cases h1
  | get _ hpc =>
    rcases update_client h with ⟨hne, h1⟩ | ⟨-, rfl⟩
    · exact .inl (hstay (fun t' hl => by cases hl; exact hne) h1)
    · simp [reads] at hpc
  | unlock =>
    rcases update_client h with ⟨hne, h1⟩ | ⟨-, h1⟩
    · exact .inl (hstay (fun t' hl => by cases hl; exact hne) h1)
    · cases h1
  | lock ht =>
    rcases update_client h with ⟨hne, h1⟩ | ⟨rfl, h1⟩
    · exact .inl (hstay (fun t' hl => by cases hl; exact hne) h1)
    · cases h1; exact .inr ⟨ht, rfl⟩
  | size ht | append ht | flush ht | skip ht | put ht | count ht =>
    rcases update_client h with ⟨hne, h1⟩ | ⟨rfl, h1⟩
    · exact .inl (hstay (fun t' hl => by cases hl; exact hne) h1)
    · cases h1
      exact .inl ⟨_, ht, by simp, by simp [SetPc.rank], by simp [SetPc.rank]⟩
  | @wait t' e' ht =>
    rcases eq_or_ne t t' with rfl | hne
    · rw [ht] at h
      cases h
      exact .inl ⟨_, ht, by simp, le_rfl, by simp⟩
    · exact .inl (hstay (fun t' hl => by cases hl; exact hne) h)
  | _ => exact .inl (hstay (fun t' hl => by cases hl) h)

/-- **The threads inside `push` stand before those that wait for its lock.** -/
structure Line (s : Store) : Prop where
  ids : ∀ t p e, s.client t = .set p e → e.seq_num < s.idx_
  alone : ∀ t t' p p' e e', s.client t = .set p e → s.client t' = .set p' e' →
    e.seq_num = e'.seq_num → t = t'
  line : ∀ t t' p e e', s.client t = .set p e → p ≠ .taken → s.client t' = .set .taken e' →
    home e' = home e → e.seq_num < e'.seq_num

theorem Started.line (h : Started s) : Line s := by
  refine ⟨fun t p e ht => ?_, fun t t' p p' e e' ht => ?_, fun t t' p e e' ht => ?_⟩ <;>
    · rw [h.client t] at ht
      cases ht

theorem Line.step (h : Line s) (hm : Move s l s') (hg : s.InLine l) : Line s' := by
  have hle := hm.idx_le
  constructor
  case ids =>
    intro t p e ht
    rcases hm.set_cases ht with ⟨p', h1⟩ | ⟨key, v, d, -, rfl, -, hi⟩
    · exact lt_of_lt_of_le (h.ids t p' e h1) hle
    · rw [hi]; exact Nat.lt_succ_self _
  case alone =>
    intro t t' p p' e e' ht ht' heq
    rcases hm.set_cases ht with ⟨q, h1⟩ | ⟨key, v, d, -, rfl, hl, -⟩ <;>
      rcases hm.set_cases ht' with ⟨q', h1'⟩ | ⟨key', v', d', -, rfl, hl', -⟩
    · exact h.alone t t' q q' e e' h1 h1' heq
    · have : e.seq_num < s.idx_ := h.ids t q e h1
      simp only [entryOf] at heq
      omega
    · have : e'.seq_num < s.idx_ := h.ids t' q' e' h1'
      simp only [entryOf] at heq
      omega
    · rw [hl] at hl'
      cases hl'
      rfl
  case line =>
    intro t t' p e e' ht hp ht' hw
    rcases hm.taken_cases ht' with ⟨h1', hl⟩ | ⟨key, v, d, h1', rfl, -⟩
    · rcases hm.inside_cases ht hp with ⟨q, h1, hq, -⟩ | ⟨h1, rfl⟩
      · exact h.line t t' q e e' h1 hq h1' hw
      · -- the lock is taken
        have hle : e.seq_num ≤ e'.seq_num := hg e h1 t' e' h1' hw
        refine lt_of_le_of_ne hle fun heq => hl ?_
        rw [h.alone t t' _ _ e e' h1 h1' heq]
    · -- the id is new
      rcases hm.inside_cases ht hp with ⟨q, h1, -⟩ | ⟨h1, -⟩ <;> exact h.ids t _ e h1

/-! ## What the queues and logs have received -/

/-- `L w` is what has been received of the writes that are further than `r`. -/
structure Received (r : ℕ) (L : Fin kMaxWriter → List Entry) (s : Store) : Prop where
  ascending : ∀ w, Ascending (L w)
  below : ∀ t p e, s.client t = .set p e → p.rank ≤ r → ∀ x ∈ L (home e), x.seq_num < e.seq_num
  known : ∀ w, ∀ x ∈ L w, x.seq_num < s.idx_

/-- **What a step adds is larger than all before.** `L'` is what the step adds, the entry of a write
at the place `p`, if anything. -/
theorem Received.step {L L' : Fin kMaxWriter → List Entry} (h : Received p.rank L s)
    (hline : Line s) (hc : ClientsOk s) (hm : Move s l s') (hp : p = .appended ∨ p = .written)
    (hL' : ∀ w, L' w = [] ∨ ∃ t e, l = .client t ∧ s.client t = .set p e ∧
      L' w = if home e = w then [e] else []) :
    Received p.rank (fun w => L w ++ L' w) s' := by
  have hpt : p ≠ .taken := by rcases hp with rfl | rfl <;> simp
  have hadd : ∀ w, ∀ x ∈ L' w, ∃ t, l = .client t ∧ s.client t = .set p x ∧ home x = w := by
    intro w x hx
    rcases hL' w with h0 | ⟨t, e, hl, ht, h1⟩
    · rw [h0] at hx; cases hx
    · rw [h1] at hx
      split at hx
      · rename_i hw
        obtain rfl := List.mem_singleton.1 hx
        exact ⟨t, hl, ht, hw⟩
      · cases hx
  constructor
  case ascending =>
    intro w
    refine List.pairwise_append.2 ⟨h.ascending w, ?_, fun x hx y hy => ?_⟩
    · rcases hL' w with h0 | ⟨t, e, -, -, h1⟩
      · rw [h0]; exact .nil
      · rw [h1]; split <;> simp
    · obtain ⟨t, -, ht, rfl⟩ := hadd w y hy
      exact h.below t p y ht le_rfl x hx
  case known =>
    intro w x hx
    refine lt_of_lt_of_le ?_ hm.idx_le
    rcases List.mem_append.1 hx with hx | hx
    · exact h.known w x hx
    · obtain ⟨t, -, ht, -⟩ := hadd w x hx
      exact hline.ids t p x ht
  case below =>
    intro t q e ht hq x hx
    rcases eq_or_ne q .taken with rfl | hqt
    · rcases hm.taken_cases ht with ⟨h1, -⟩ | ⟨key, v, d, -, rfl, -⟩
      · rcases List.mem_append.1 hx with hx | hx
        · exact h.below t _ e h1 (Nat.zero_le _) x hx
        · obtain ⟨t', -, ht', hw⟩ := hadd _ x hx
          exact hline.line t' t p x e ht' hpt h1 hw.symm
      · change x.seq_num < s.idx_
        rcases List.mem_append.1 hx with hx | hx
        · exact h.known _ x hx
        · obtain ⟨t', -, ht', -⟩ := hadd _ x hx
          exact hline.ids t' p x ht'
    · rcases hm.inside_cases ht hqt with ⟨q', h1, hq', hle, hlt⟩ | ⟨h1, hl⟩
      · rcases List.mem_append.1 hx with hx | hx
        · exact h.below t q' e h1 (hle.trans hq) x hx
        · -- the write that is received is the only one inside `push`
          obtain ⟨t', hl, ht', hw⟩ := hadd _ x hx
          obtain rfl := hc.alone ht' h1 hpt hq' hw
          rw [ht'] at h1
          cases h1
          exact absurd (hlt hl hp) (by omega)
      · rcases List.mem_append.1 hx with hx | hx
        · exact h.below t _ e h1 (Nat.zero_le _) x hx
        · obtain ⟨t', hl', ht', -⟩ := hadd _ x hx
          rw [hl] at hl'
          cases hl'
          rw [h1] at ht'
          cases ht'
          exact absurd rfl hpt

/-! ## Ids given to writes -/

/-- `taken` are the entries that got an id, `pushed w` those of them that the queue of `w` has counted
in. -/
structure Assigned (taken : List Entry) (pushed : Fin kMaxWriter → List Entry) (s : Store) :
    Prop where
  held : ∀ t p e, s.client t = .set p e → e ∈ taken
  counted : ∀ w, ∀ e ∈ pushed w, e ∈ taken
  pending : ∀ e ∈ taken, e ∈ pushed (home e) ∨ ∃ t p, s.client t = .set p e ∧ p ≠ .counted

theorem Assigned.step {taken : List Entry} {pushed : Fin kMaxWriter → List Entry}
    (h : Assigned taken pushed s) (hm : Move s l s') :
    Assigned (taken ++ (s.takes l).toList) (fun w => pushed w ++ pushedTo w (s.event l).toList) s' := by
  constructor
  case held =>
    intro t p e ht
    rcases hm.set_cases ht with ⟨p', h1⟩ | ⟨key, v, d, h1, rfl, rfl, -⟩
    · exact List.mem_append_left _ (h.held t p' e h1)
    · exact List.mem_append_right _ (by simp [takes, h1])
  case counted =>
    intro w e he
    rcases List.mem_append.1 he with he | he
    · exact List.mem_append_left _ (h.counted w e he)
    · rcases pushedTo_event w (s := s) (l := l) with h0 | ⟨t, e', -, ht, h1⟩
      · rw [h0] at he; cases he
      · rw [h1] at he
        split at he
        · rw [List.mem_singleton.1 he]
          exact List.mem_append_left _ (h.held t _ e' ht)
        · cases he
  case pending =>
    intro e he
    rcases List.mem_append.1 he with he | he
    · rcases h.pending e he with h1 | ⟨t, p, ht, hp⟩
      · exact .inl (List.mem_append_left _ h1)
      · rcases hm.pending ht hp with ⟨p', ht', hp'⟩ | h1
        · exact .inr ⟨t, p', ht', hp'⟩
        · exact .inl (List.mem_append_right _ h1)
    · -- an id is taken
      right
      cases l with
      | client t =>
        simp only [takes] at he
        split at he
        case h_1 key value del_flag ht =>
          obtain rfl : e = _ := by simpa using he
          cases hm with
          | take ht' =>
            rw [ht] at ht'
            cases ht'
            exact ⟨t, .taken, Function.update_self .., by simp⟩
          | wait ht' | get ht' | lock ht' | size ht' | append ht' | flush ht' | skip ht'
          | put ht' | count ht' | unlock ht' =>
            rw [ht] at ht'
            cases ht'
        case h_2 => cases he
      | _ => cases he

/-! ## Runs in order -/

/-- What a tracked run shows. -/
def shown (h : List (Option Event × Option Entry)) : List Event := h.filterMap Prod.fst

/-- The entries that got their ids in a tracked run. -/
def taken (h : List (Option Event × Option Entry)) : List Entry := h.filterMap Prod.snd

theorem shown_append (h : List (Option Event × Option Entry)) (s : Store) (l : Label) :
    shown (h ++ ((machine.track takes).event s l).toList) = shown h ++ (s.event l).toList := by
  rw [shown, List.filterMap_append]
  cases he : s.event l <;> simp [Machine.track, machine, he, shown]

theorem taken_append (h : List (Option Event × Option Entry)) (s : Store) (l : Label) :
    taken (h ++ ((machine.track takes).event s l).toList) = taken h ++ (s.takes l).toList := by
  rw [taken, List.filterMap_append]
  cases he : s.takes l <;> simp [Machine.track, he, taken]

/-- The invariant of a run in order. -/
structure OrderOk (s₀ : Store) (h : List (Option Event × Option Entry)) (s : Store) : Prop where
  ok : Ok (fun w => allPushed s₀ w (shown h)) s
  line : Line s
  queue : Received SetPc.written.rank (fun w => allPushed s₀ w (shown h)) s
  log : Received SetPc.appended.rank (fun w => loggedTo w (shown h)) s
  assigned : Assigned (taken h) (fun w => pushedTo w (shown h)) s

variable {s₀ : Store} {h : List (Option Event × Option Entry)}

theorem Started.orderOk (h0 : s₀.Started)
    (hasc : ∀ w, Ascending (s₀.writer_ w).queue_.contents) : OrderOk s₀ [] s₀ := by
  have hno : ∀ t p e, s₀.client t ≠ .set p e := fun t p e ht => by rw [h0.client t] at ht; cases ht
  have hpushed : (fun w => allPushed s₀ w (shown [])) = fun w => (s₀.writer_ w).queue_.contents :=
    funext fun w => List.append_nil _
  refine ⟨hpushed ▸ h0.ok, h0.line, hpushed ▸ ⟨hasc, fun t p e ht => absurd ht (hno t p e), ?_⟩,
    ⟨fun w => .nil, fun t p e ht => absurd ht (hno t p e), fun w x hx => absurd hx List.not_mem_nil⟩,
    ⟨fun t p e ht => absurd ht (hno t p e), fun w e he => absurd he List.not_mem_nil,
      fun e he => absurd he List.not_mem_nil⟩⟩
  exact fun w x hx => (h0.replayed w x hx).2.2

theorem OrderOk.step (ho : OrderOk s₀ h s) (hg : s.InOrder l) (hs : s.step l = some s') :
    OrderOk s₀ (h ++ ((machine.track takes).event s l).toList) s' := by
  have hm := step_move hs
  have hpushed : ∀ w, allPushed s₀ w (shown h ++ (s.event l).toList) =
      allPushed s₀ w (shown h) ++ pushedTo w (s.event l).toList := fun w => by
    simp only [allPushed, pushedTo_append, List.append_assoc]
  constructor
  case ok =>
    simp only [shown_append, hpushed]
    exact ho.ok.step hg.1 hs
  case line => exact ho.line.step hm hg.2
  case queue =>
    simp only [shown_append, hpushed]
    exact ho.queue.step ho.line ho.ok.clients hm (.inr rfl) pushedTo_event
  case log =>
    simp only [shown_append, loggedTo_append]
    exact ho.log.step ho.line ho.ok.clients hm (.inl rfl) loggedTo_event
  case assigned =>
    simp only [shown_append, taken_append, pushedTo_append]
    exact ho.assigned.step hm

/-- Nobody writes, and the queues are empty. -/
def Drained (s : Store) : Prop :=
  (∀ t p e, s.client t ≠ .set p e) ∧ ∀ w, (s.writer_ w).queue_.isEmpty = true

/-- The entries of writes of `k`: those replayed before the run, and those that got an id in it. -/
def writesOf (s₀ : Store) (k : Bytes) (h : List (Option Event × Option Entry)) : List Entry :=
  ((s₀.writer_ (writerOf k)).queue_.contents ++ taken h).filter fun e => e.key.bytes = k

/-- Where nobody writes, every write of `k` is in its queue or was. -/
theorem OrderOk.mem_writesOf (ho : OrderOk s₀ h s) (hd : s.Drained) {k : Bytes} {e : Entry} :
    e ∈ writesOf s₀ k h ↔ e ∈ allPushed s₀ (writerOf k) (shown h) ∧ e.key.bytes = k := by
  simp only [writesOf, List.mem_filter, List.mem_append, decide_eq_true_eq, allPushed]
  refine and_congr_left fun hk => or_congr_right ⟨fun he => ?_, ho.assigned.counted _ e⟩
  rcases ho.assigned.pending e he with h1 | ⟨t, p, ht, -⟩
  · rwa [home, hk] at h1
  · exact absurd ht (hd.1 t p e)

end Store

open Store

/-- **Last write wins by sequence number.** Where no write passes one with a smaller id, every queue
and every log receive their entries in the order of the ids; with nobody writing and the queues
drained, the store keeps for each key the entry of the write with the largest id. -/
theorem last_write_wins {s₀ s : Store} {h : List (Option Store.Event × Option Entry)}
    (h0 : s₀.Started) (hasc : ∀ w, Ascending (s₀.writer_ w).queue_.contents)
    (hx : (Store.machine.track Store.takes).Exec Store.InOrder s₀ h s) :
    (∀ w, Ascending (allPushed s₀ w (shown h))) ∧ (∀ w, Ascending (loggedTo w (shown h))) ∧
      (s.Drained → ∀ k e, s.lookup (writerOf k) k = some e ↔
        e ∈ writesOf s₀ k h ∧ ∀ x ∈ writesOf s₀ k h, x.seq_num ≤ e.seq_num) := by
  have ho : OrderOk s₀ h s := hx.induct (I := OrderOk s₀) (h0.orderOk hasc)
    fun hist s l s' ho hg hs => ho.step hg hs
  refine ⟨ho.queue.ascending, ho.log.ascending, fun hd k e => ?_⟩
  rw [Store.lookup, (ho.ok.pipe (writerOf k)).lookup,
    lastFor_eq_some_iff (ho.queue.ascending (writerOf k))]
  simp only [ho.mem_writesOf hd, and_imp, and_assoc]

/-! ## Runs -/

/-- Only thread `t` calls `setKey` or `delKey`. -/
def Store.OneWriter (t : Tid) (s : Store) : Store.Label → Prop
  | .callSet t' key value del_flag => t' = t ∧ s.SizedStep (.callSet t' key value del_flag)
  | l => s.SizedStep l

instance (t : Tid) (s : Store) (l : Store.Label) : Decidable (s.OneWriter t l) :=
  match l with
  | .callSet _ _ _ _ => inferInstanceAs (Decidable (_ ∧ _))
  | .callGet t' k => inferInstanceAs (Decidable (s.SizedStep (.callGet t' k)))
  | .client t' => inferInstanceAs (Decidable (s.SizedStep (.client t')))
  | .writer w => inferInstanceAs (Decidable (s.SizedStep (.writer w)))

namespace Store

/-- Only the threads `ts` are inside writes. -/
def WrittenBy (ts : List Tid) (s : Store) : Prop := ∀ t k, s.Writing t k → t ∈ ts

variable {ts : List Tid} {s s' s₀ : Store} {l : Label} {t : Tid}
  {h : List (Option Event × Option Entry)}

theorem Started.writtenBy (h0 : s₀.Started) : s₀.WrittenBy ts := by
  rintro t k (⟨v, d, h⟩ | ⟨p, e, h, -⟩) <;> rw [h0.client t] at h <;> cases h

theorem WrittenBy.step (hw : s.WrittenBy ts) (hs : s.step l = some s')
    (hl : ∀ t k v d, l = .callSet t k v d → t ∈ ts) : s'.WrittenBy ts := by
  intro t k h
  rcases (step_move hs).writing h with h | ⟨v, d, rfl⟩
  · exact hw t k h
  · exact hl t k v d rfl

/-- A single writing client passes nobody. -/
theorem OneWriter.inOrder (h0 : s₀.Started)
    (hx : (machine.track takes).Exec (OneWriter t) s₀ h s) :
    (machine.track takes).Exec InOrder s₀ h s := by
  refine hx.strengthen (I := WrittenBy [t]) h0.writtenBy ?_ ?_
  · intro s l s' hi hg hs
    refine hi.step hs fun t' k v d hl => ?_
    subst hl
    exact List.mem_singleton.2 hg.1
  · intro s l hi hg
    cases l with
    | callSet => exact ⟨hg.2, trivial⟩
    | callGet | writer => exact ⟨hg, trivial⟩
    | client t₁ =>
      refine ⟨hg, fun e ht t₂ e' ht' _ => ?_⟩
      obtain rfl := List.mem_singleton.1 (hi t₁ _ (.inr ⟨_, e, ht, rfl⟩))
      obtain rfl := List.mem_singleton.1 (hi t₂ _ (.inr ⟨_, e', ht', rfl⟩))
      rw [ht] at ht'
      cases ht'
      exact le_rfl

/-- The entry of a thread that waits for the lock of its queue. -/
def waiting : ClientPc → Option Entry
  | .set .taken e => some e
  | _ => none

/-- Only the threads `ts` call `setKey` or `delKey`, and none of them passes another. -/
def InTurn (ts : List Tid) (s : Store) : Label → Prop
  | .callSet t key value del_flag => t ∈ ts ∧ s.SizedStep (.callSet t key value del_flag)
  | .client t => s.SizedStep (.client t) ∧ ∀ e ∈ waiting (s.client t), ∀ t' ∈ ts,
    ∀ e' ∈ waiting (s.client t'), home e' = home e → e.seq_num ≤ e'.seq_num
  | l => s.SizedStep l

instance (ts : List Tid) (s : Store) (l : Label) : Decidable (s.InTurn ts l) :=
  match l with
  | .callSet _ _ _ _ | .client _ => inferInstanceAs (Decidable (_ ∧ _))
  | .callGet t k => inferInstanceAs (Decidable (s.SizedStep (.callGet t k)))
  | .writer w => inferInstanceAs (Decidable (s.SizedStep (.writer w)))

theorem InTurn.writtenBy (hw : s.WrittenBy ts) (hg : s.InTurn ts l) (hs : s.step l = some s') :
    s'.WrittenBy ts := by
  refine hw.step hs fun t k v d hl => ?_
  subst hl
  exact hg.1

theorem InTurn.inOrder (h0 : s₀.Started) (hx : (machine.track takes).Exec (InTurn ts) s₀ h s) :
    (machine.track takes).Exec InOrder s₀ h s := by
  refine hx.strengthen (I := WrittenBy ts) h0.writtenBy (fun _ _ _ => InTurn.writtenBy) ?_
  intro s l hi hg
  cases l with
  | callSet => exact ⟨hg.2, trivial⟩
  | callGet | writer => exact ⟨hg, trivial⟩
  | client t =>
    refine ⟨hg.1, fun e ht t' e' ht' => hg.2 e ?_ t' (hi t' _ (.inr ⟨_, e', ht', rfl⟩)) e' ?_⟩
    · rw [ht]
      exact rfl
    · rw [ht']
      exact rfl

end Store

/-- Two writes of a key take their ids and wait for the lock. -/
def bothWait : List Store.Label :=
  [.callSet 0 [97] [49] false, .callSet 1 [97] [50] false, .client 0, .client 1]

/-- They go in turn, and the writer drains both. -/
def inTurn : List Store.Label :=
  bothWait ++ List.replicate 7 (.client 0) ++ List.replicate 7 (.client 1) ++
    List.replicate 8 (.writer 2)

/-- What both take. -/
def bothTaken : List Entry := [Store.entryOf [97] [49] 1 false, Store.entryOf [97] [50] 2 false]

theorem last_write_wins_inTurn : ∃ h s,
    (Store.machine.track Store.takes).Exec Store.InOrder freshStore h s ∧ taken h = bothTaken ∧
      Ascending (loggedTo 2 (shown h)) ∧ loggedTo 2 (shown h) = bothTaken ∧ s.Drained ∧
      s.lookup 2 [97] = some (Store.entryOf [97] [50] 2 false) := by
  have hr : ((Store.machine.track Store.takes).exec (Store.InTurn [0, 1]) freshStore inTurn).map
      (fun r => decide (taken r.1 = bothTaken ∧ loggedTo 2 (shown r.1) = bothTaken ∧
        r.2.client 0 = .idle ∧ r.2.client 1 = .idle ∧
        ∀ w : Fin kMaxWriter, (r.2.writer_ w).queue_.isEmpty = true)) = some true := by
    decide +kernel
  obtain ⟨h, s, hturn, htaken, hlogged, hzero, hone, hempty⟩ := Machine.exec_check hr
  have hwritten : s.WrittenBy [0, 1] := hturn.invariant freshStore_started.writtenBy
    fun _ _ _ => Store.InTurn.writtenBy
  have hdrained : s.Drained := by
    refine ⟨fun t p e ht => ?_, hempty⟩
    have hmem := hwritten t _ (.inr ⟨p, e, ht, rfl⟩)
    simp only [List.mem_cons, List.not_mem_nil, or_false] at hmem
    obtain rfl | rfl := hmem
    · cases hzero.symm.trans ht
    · cases hone.symm.trans ht
  have hasc : ∀ w, Ascending (freshStore.writer_ w).queue_.contents := fun w => by
    simp [freshStore, MessageQueue.contents, Ring.contents_emptyAt]
  have hx := Store.InTurn.inOrder freshStore_started hturn
  obtain ⟨-, hlog, hlast⟩ := last_write_wins freshStore_started hasc hx
  refine ⟨h, s, hx, htaken, hlog 2, hlogged, hdrained, (hlast hdrained [97] _).2 ?_⟩
  unfold Store.writesOf
  rw [show taken h = bothTaken from htaken]
  decide +kernel

/-- The second one goes first. -/
def passing : List Store.Label :=
  bothWait ++ List.replicate 7 (.client 1) ++ List.replicate 7 (.client 0) ++
    List.replicate 8 (.writer 2)

/-- **A write passes another one**: the store keeps the entry with the smaller id. -/
theorem overtaken : ∃ h s, (Store.machine.track Store.takes).Exec Machine.Any freshStore h s ∧
    taken h = [Store.entryOf [97] [49] 1 false, Store.entryOf [97] [50] 2 false] ∧
    ¬ Ascending (pushedTo 2 (shown h)) ∧ ¬ Ascending (loggedTo 2 (shown h)) ∧
    s.client 0 = .idle ∧ s.client 1 = .idle ∧ (s.writer_ 2).queue_.isEmpty = true ∧
    s.lookup 2 [97] = some (Store.entryOf [97] [49] 1 false) := by
  have hr : ((Store.machine.track Store.takes).exec Machine.Any freshStore passing).map
      (fun r => decide (
        taken r.1 = [Store.entryOf [97] [49] 1 false, Store.entryOf [97] [50] 2 false] ∧
        ¬ Ascending (pushedTo 2 (shown r.1)) ∧ ¬ Ascending (loggedTo 2 (shown r.1)) ∧
        r.2.client 0 = .idle ∧ r.2.client 1 = .idle ∧ (r.2.writer_ 2).queue_.isEmpty = true ∧
        r.2.lookup 2 [97] = some (Store.entryOf [97] [49] 1 false))) = some true := by
    decide +kernel
  exact Machine.exec_check hr

end Yangkv
