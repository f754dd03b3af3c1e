import Yangkv.Proof.History

/-!
# The write-ahead log history

* `closed_step`: no step changes a log that is not open.
* `log_history`: what the files, the slots and the lists hold after any run of any
  number of starts.
* `restarts`: two starts with a write in each.
-/

namespace Yangkv

open Lib

namespace World

variable {hist : List Event} {x x' : World}

/-! ### Files of earlier starts -/

/-- A log that is not open exists as it is from now on. -/
theorem closed_step {w : Fin kMaxWriter} {i : ℕ} {b : Bytes} (hopen : ¬ x.Open w i)
    (hd : x.disk (logFileName i w) = some b) {l : Label} (hs : x.step l = some x') :
    ¬ x'.Open w i ∧ x'.disk (logFileName i w) = some b := by
  have hm := step_move hs
  generalize (x.event l).toList = es at hm
  cases hm with
  | boot => exact ⟨not_open_booting (fun i f hf => by cases hf) i, hd⟩
  | openLog hn hp hid =>
    -- the new file did not exist
    have hnew := getLogID_none hid
    constructor
    · rintro (⟨f, hf⟩ | hw)
      · cases hf
        rw [hnew] at hd
        cases hd
      · exact hopen (.inr hw)
    · show Function.update x.disk _ _ _ = _
      rw [Function.update_of_ne, hd]
      intro he
      rw [he, hnew] at hd
      cases hd
  | @construct w₀ logID logfile fuel slots scratch q bufs hp hq =>
    refine ⟨?_, hd⟩
    rintro (⟨f, hf⟩ | ⟨hw, hi⟩)
    · cases hf
    · rcases eq_or_ne w w₀ with rfl | hne
      · -- its log was open already, in the constructor
        refine hopen (.inl ⟨logfile, ?_⟩)
        rw [hp, ← hi]
        simp only [Store.setWriter_writer, Function.update_self]
        rw [← (MessageQueue.construct_same hq).2.1]
        rfl
      · simp only [Up, Store.setWriter_writer, Function.update_of_ne hne] at hw hi
        exact hopen (.inr ⟨hw, hi⟩)
  | ready =>
    refine ⟨?_, hd⟩
    rintro (⟨f, hf⟩ | hw)
    · cases hf
    · exact hopen (.inr hw)
  | @run l s' hr =>
    obtain ⟨hs', -, -⟩ := runStep_some hr
    have hfix := (Store.step_move hs').fixed w
    have hkeep : ¬ (Up s' w ∧ i = (s'.writer_ w).queue_.logid_) := by
      rintro ⟨hw, hi⟩
      exact hopen (.inr ⟨(not_congr hfix.1).1 hw, hfix.2.1 ▸ hi.symm⟩)
    constructor
    · rintro (⟨f, hf⟩ | ⟨hw, hi⟩)
      · exact hopen (.inl ⟨f, hf⟩)
      · exact hkeep ⟨hw, hi.symm⟩
    · exact ((sync_log s' x.disk i w).2 hkeep).trans hd
  | halt => exact ⟨not_open_booting (fun i f hf => by cases hf) i, hd⟩

/-! ## The history -/

/-- The log files of writer `w` are those of `segs`, in order, and no others. -/
def FilesAre (disk : Disk) (w : Fin kMaxWriter) (segs : List (List Entry)) : Prop :=
  (∀ i, (h : i < segs.length) → ∃ b, disk (logFileName (i + 1) w) = some b ∧ Framed segs[i] b) ∧
    ∀ i, segs.length < i → disk (logFileName i w) = none

theorem HistoryOk.files (h : HistoryOk hist x) {w : Fin kMaxWriter} (hb : Between x.store w) :
    ∃ segs, segs.flatten = logged w hist ∧ FilesAre x.disk w segs := by
  obtain ⟨segs, hl⟩ := h.logs w
  refine ⟨segs, hl.flat, fun i hi => ?_, hl.fresh⟩
  by_cases hp : x.phase = .down
  · refine hl.closed i hi ?_
    rintro (⟨f, hf⟩ | ⟨hw, -⟩)
    · rw [hp] at hf; cases hf
    · have := h.up
      rw [hp] at this
      exact this w hw
  · exact h.file_framed hb hl hp hi

theorem HistoryOk.pending (h : HistoryOk hist x) (w : Fin kMaxWriter) (hw : Up x.store w) :
    ∃ pend, logged w (thisStart hist) = pushed w (thisStart hist) ++ pend ∧ pend.length ≤ 1 :=
  (h.wal w hw).pending

/-- **The log history.** After any number of starts, each ended between two records:
while no record of `w` is being written, the files of `w` hold, start by start, the records of
the entries whose `AddRecord` completed; these are the entries pushed, in the order of their
slots, and at most one on its way to its slot; a file of an earlier start stays as it is; and
readers see only entries whose record is complete, those of earlier starts as the constructor
read them back. -/
theorem log_history (hx : machine.Exec Undisturbed empty hist x) (w : Fin kMaxWriter) :
    (Between x.store w → ∃ segs, segs.flatten = logged w hist ∧ FilesAre x.disk w segs) ∧
    ((pushed w hist).Sublist (logged w hist) ∧ (Up x.store w → ∃ pend,
      logged w (thisStart hist) = pushed w (thisStart hist) ++ pend ∧ pend.length ≤ 1)) ∧
    (∀ i b, ¬ x.Open w i → x.disk (logFileName i w) = some b →
      ∀ hist' x', machine.Exec Machine.Any x hist' x' → x'.disk (logFileName i w) = some b) ∧
    x.store.Visible
      (fun e => e ∈ logged w (thisStart hist) ∨ e ∈ replayedTo w (thisStart hist)) w ∧
    (Up x.store w → (∀ e ∈ logged w hist, e.Readable) →
      (replayedTo w (thisStart hist)).map MemEntry.stamp ++
          (logged w (thisStart hist)).map MemEntry.storedStamp =
        (logged w hist).map MemEntry.storedStamp) := by
  have h := HistoryOk.exec hx
  obtain ⟨old, oldPushed, h1, h2, h3, h4⟩ := h.earlier w
  refine ⟨h.files, ⟨?_, h.pending w⟩, fun i b hopen hd hist' x' hx' => ?_, h.visible w,
    fun hw hread => ?_⟩
  · rw [h1, h2]
    exact h3.append (h.inOrder w).sublist
  · exact (hx'.invariant (I := fun x => ¬ x.Open w i ∧ x.disk (logFileName i w) = some b)
      ⟨hopen, hd⟩ fun x l x' hi _ hs => closed_step hi.1 hi.2 hs).2
  · rw [h1] at hread ⊢
    rw [h4 hw fun e he => hread e (List.mem_append_left _ he), List.map_append]

/-! ### Two starts with a write in each -/

/-- Only thread 0 calls, with short arguments, and never while a start ends. -/
def OneClient (x : World) : Label → Prop
  | .run (.callSet t key value _) => t = 0 ∧ key.length + value.length ≤ 100
  | .run (.callGet t _) => t = 0
  | .run (.client _) => x.store.idx_ < 2 ^ 56
  | .halt => x.store.client 0 = .idle
  | _ => True

instance (x : World) : (l : Label) → Decidable (x.OneClient l)
  | .run (.callSet _ _ _ _) => inferInstanceAs (Decidable (_ ∧ _))
  | .run (.callGet _ _) => inferInstanceAs (Decidable (_ = _))
  | .run (.client _) => inferInstanceAs (Decidable (_ < _))
  | .halt => inferInstanceAs (Decidable (_ = _))
  | .run (.writer _) | .boot | .openLog _ _ _ _ | .construct _ _ _ | .ready =>
    inferInstanceAs (Decidable True)

/-- What such a run keeps. -/
def Alone (x : World) : Prop :=
  (∀ t ≠ 0, x.store.client t = .idle) ∧ ∀ key value del_flag,
    x.store.client 0 = .setCalled key value del_flag → key.length + value.length ≤ 100

theorem alone_of_idle (h : ∀ t, x.store.client t = .idle) : Alone x :=
  ⟨fun t _ => h t, fun key value del_flag h0 => by rw [h 0] at h0; cases h0⟩

theorem Alone.step (h : Alone x) {l : Label} (hg : x.OneClient l) (hs : x.step l = some x') :
    Alone x' := by
  have hm := step_move hs
  generalize (x.event l).toList = es at hm
  cases hm with
  | run hr =>
    have hm := Store.step_move (runStep_some hr).1
    constructor
    · intro t ht
      rcases hm.idle_cases (h.1 t ht) with h1 | ⟨_, _, _, rfl⟩ | ⟨_, rfl⟩
      · exact h1
      · exact absurd hg.1 ht
      · exact absurd hg ht
    · intro key value del_flag h0
      rcases hm.called_cases h0 with h1 | rfl
      · exact h.2 key value del_flag h1
      · exact hg.2
  | boot | halt => exact alone_of_idle fun _ => rfl
  | openLog | construct | ready => exact h

/-- A run of one client is a run under every guard that its steps meet. -/
theorem Alone.exec {G : World → Label → Prop} (hG : ∀ x l, Alone x → x.OneClient l → G x l)
    (hx : machine.Exec OneClient empty hist x) : machine.Exec G empty hist x ∧ Alone x := by
  induction hx with
  | start => exact ⟨.start, alone_of_idle fun _ => rfl⟩
  | next _ hg hs ih => exact ⟨ih.1.next (hG _ _ ih.2 hg) hs, ih.2.step hg hs⟩

theorem Alone.between (h : Alone x) (h0 : x.store.client 0 = .idle) (w : Fin kMaxWriter) :
    Between x.store w := by
  intro t e _
  have hi : x.store.client t = .idle := by
    rcases eq_or_ne t 0 with rfl | ht
    · exact h0
    · exact h.1 t ht
  rw [hi]
  exact ⟨by simp, by simp⟩

theorem Alone.undisturbed (h : Alone x) {l : Label} (hg : x.OneClient l) : Undisturbed x l := by
  cases l with
  | halt => exact fun w => h.between hg w
  | _ => trivial

/-- A start, one write and the end. -/
def startAndWrite (key value : Bytes) : List Label :=
  [.boot] ++
    (List.replicate 4 [.openLog 5 [] [] [], .construct 5 slot0 fun _ => []]).flatten ++
    [.ready, .run (.callSet 0 key value false)] ++ List.replicate 8 (.run (.client 0)) ++ [.halt]

def restarts : List Label := startAndWrite [97] [98] ++ startAndWrite [97] [99]

/-- What `restarts` shows. The second start replays the write of the first. -/
def restartEvents : List Event :=
  let e₁ := Store.entryOf [97] [98] 1 false
  let e₂ := Store.entryOf [97] [99] 2 false
  [.booted, .replayed 0 [], .replayed 1 [], .replayed 2 [], .replayed 3 [],
    .store (.callSet 0 [97] [98] false), .store (.logged 2 e₁), .store (.pushed 2 e₁),
    .store (.retSet 0 [97]),
    .booted, .replayed 0 [], .replayed 1 [], .replayed 2 [e₁], .replayed 3 [],
    .store (.callSet 0 [97] [99] false), .store (.logged 2 e₂), .store (.pushed 2 e₂),
    .store (.retSet 0 [97])]

theorem restarts_exec : ∃ x, machine.Exec OneClient empty restartEvents x ∧
    x.store.client 0 = .idle := by
  have hr : (machine.exec OneClient empty restarts).map (fun r => (r.1, r.2.store.client 0)) =
      some (restartEvents, .idle) := by decide +kernel
  obtain ⟨⟨h, x⟩, hx, he⟩ := Option.map_eq_some_iff.1 hr
  obtain ⟨rfl, hidle⟩ := Prod.mk.inj he
  exact ⟨x, Machine.exec_sound hx, hidle⟩

/-- The two log files of writer 2 after two starts with a write in each. -/
theorem log_history_restarts : ∃ x segs, machine.Exec Undisturbed empty restartEvents x ∧
    segs.flatten = [Store.entryOf [97] [98] 1 false, Store.entryOf [97] [99] 2 false] ∧
    FilesAre x.disk 2 segs := by
  obtain ⟨x, hx, hidle⟩ := restarts_exec
  obtain ⟨hx', halone⟩ := Alone.exec (G := Undisturbed) (fun _ _ h hg => h.undisturbed hg) hx
  obtain ⟨segs, h1, h2⟩ := (log_history hx' 2).1 (halone.between hidle 2)
  exact ⟨x, segs, hx', h1, h2⟩

end World

end Yangkv
