import Yangkv.Proof.Start
import Yangkv.Proof.Wal

/-!
# The log files over any number of starts

`HistoryOk.step`: every step of a start, of its threads and of its end keeps the
files of a writer the frames of what was ever logged for it, one file a start.
-/

namespace Yangkv

open Lib

namespace World

/-- The thread of writer `w` runs. -/
def Up (s : Store) (w : Fin kMaxWriter) : Prop := (s.writer_ w).pc ≠ .off

/-- What a log file holds after the open logs are on the disk. -/
theorem sync_log (s : Store) (disk : Disk) (i : ℕ) (w : Fin kMaxWriter) :
    (Up s w ∧ i = (s.writer_ w).queue_.logid_ →
      sync s disk (logFileName i w) = some (s.writer_ w).queue_.log_.fd) ∧
    (¬ (Up s w ∧ i = (s.writer_ w).queue_.logid_) →
      sync s disk (logFileName i w) = disk (logFileName i w)) := by
  unfold sync
  constructor
  · rintro ⟨hup, rfl⟩
    cases hf : (List.finRange kMaxWriter).findSome? fun w' =>
      let q := (s.writer_ w').queue_
      if (s.writer_ w').pc ≠ .off ∧ logFileName (s.writer_ w).queue_.logid_ w =
        logFileName q.logid_ w' then some q.log_.fd else none with
    | none =>
      have := List.findSome?_eq_none_iff.1 hf w (List.mem_finRange w)
      rw [if_pos ⟨hup, rfl⟩] at this
      cases this
    | some b =>
      obtain ⟨w', -, hw'⟩ := List.exists_of_findSome?_eq_some hf
      simp only [Option.ite_none_right_eq_some, Option.some.injEq] at hw'
      obtain ⟨⟨-, hn⟩, rfl⟩ := hw'
      rw [Option.some_or, Fin.ext (logFileName_inj hn).2]
  · intro hno
    rw [List.findSome?_eq_none_iff.2, Option.none_or]
    intro w' _
    rw [if_neg]
    rintro ⟨hup, hn⟩
    obtain ⟨hi, hw⟩ := logFileName_inj hn
    obtain rfl := Fin.ext hw
    exact hno ⟨hup, hi⟩

end World

/-! ## Histories -/

namespace World

/-- What the stores have shown, over all starts. -/
def storeEvents (h : List Event) : List Store.Event :=
  h.filterMap fun
    | .store e => some e
    | _ => none

/-- The events of the last start. -/
def thisStart (h : List Event) : List Event :=
  h.foldl (fun es e => match e with
    | .booted => []
    | e => es ++ [e]) []

/-- What the constructor has left in the queue of `w`. -/
def replayedTo (w : Fin kMaxWriter) (h : List Event) : List Entry :=
  h.flatMap fun
    | .replayed w' es => if w' = w then es else []
    | _ => []

/-- The entries logged for `w` in all starts. -/
abbrev logged (w : Fin kMaxWriter) (h : List Event) : List Entry := loggedTo w (storeEvents h)

/-- The entries pushed to the queue of `w` in all starts while it was ready. -/
abbrev pushed (w : Fin kMaxWriter) (h : List Event) : List Entry := pushedTo w (storeEvents h)

theorem storeEvents_append (h h' : List Event) :
    storeEvents (h ++ h') = storeEvents h ++ storeEvents h' := List.filterMap_append

theorem replayedTo_append (w : Fin kMaxWriter) (h h' : List Event) :
    replayedTo w (h ++ h') = replayedTo w h ++ replayedTo w h' := List.flatMap_append

theorem thisStart_append (h : List Event) : ∀ {h' : List Event}, .booted ∉ h' →
    thisStart (h ++ h') = thisStart h ++ h' := by
  intro h'
  induction h' using List.reverseRecOn with
  | nil => intro _; simp
  | append_singleton h' e ih =>
    intro hb
    have hh : .booted ∉ h' := fun hm => hb (List.mem_append_left _ hm)
    have hs : ∀ g, thisStart (g ++ [e]) = thisStart g ++ [e] := by
      intro g
      unfold thisStart
      rw [List.foldl_append]
      cases e with
      | booted => exact absurd (List.mem_append_right _ (List.mem_singleton_self _)) hb
      | _ => rfl
    rw [← List.append_assoc, hs, ih hh, List.append_assoc]

theorem thisStart_booted (h : List Event) : thisStart (h ++ [.booted]) = [] := by
  unfold thisStart
  rw [List.foldl_append]
  rfl

/-- The log `i` of writer `w` is the one of the current start. -/
def Open (x : World) (w : Fin kMaxWriter) (i : ℕ) : Prop :=
  (∃ f, x.phase = .replaying w i f) ∨ Up x.store w ∧ (x.store.writer_ w).queue_.logid_ = i

/-- The files of writer `w`: `all` was logged in all starts, `now` in this one. -/
structure LogsOk (all now : List Entry) (x : World) (w : Fin kMaxWriter)
    (segs : List (List Entry)) : Prop where
  flat : segs.flatten = all
  fresh : ∀ i, segs.length < i → x.disk (logFileName i w) = none
  closed : ∀ i, (h : i < segs.length) → ¬ x.Open w (i + 1) →
    ∃ b, x.disk (logFileName (i + 1) w) = some b ∧ Framed segs[i] b
  current : ∀ i, x.Open w i → ∃ old, segs = old ++ [now] ∧ i = old.length + 1
  up : Up x.store w → x.disk (logFileName (x.store.writer_ w).queue_.logid_ w) =
    some (x.store.writer_ w).queue_.log_.fd
  replaying : ∀ i f, x.phase = .replaying w i f →
    ¬ Up x.store w ∧ f.fd = [] ∧ f.buf = [] ∧ x.disk (logFileName i w) = some []

/-- Which writers are up in each phase. -/
def UpIn (s : Store) : Phase → Prop
  | .down => ∀ w, ¬ Up s w
  | .starting n => ∀ w : Fin kMaxWriter, Up s w ↔ w < n
  | .replaying w₀ _ _ => ∀ w : Fin kMaxWriter, Up s w ↔ w < w₀
  | .running => ∀ w, Up s w

/-- The invariant of all starts. -/
structure HistoryOk (hist : List Event) (x : World) : Prop where
  clients : x.store.ClientsOk
  idle : x.phase ≠ .running → ∀ t, x.store.client t = .idle
  up : UpIn x.store x.phase
  quiet : x.phase ≠ .down → ∀ w, ¬ Up x.store w → logged w (thisStart hist) = [] ∧
    pushed w (thisStart hist) = [] ∧ replayedTo w (thisStart hist) = []
  wal : ∀ w, Up x.store w →
    x.store.WalOk (logged w (thisStart hist)) (pushed w (thisStart hist)) w
  visible : ∀ w, x.store.Visible
    (fun e => e ∈ logged w (thisStart hist) ∨ e ∈ replayedTo w (thisStart hist)) w
  logs : ∀ w, ∃ segs, LogsOk (logged w hist) (logged w (thisStart hist)) x w segs
  inOrder : ∀ w, pushed w (thisStart hist) <+: logged w (thisStart hist)
  /-- the entries of earlier starts, and what the constructor made of their records -/
  earlier : ∀ w, ∃ old oldPushed, logged w hist = old ++ logged w (thisStart hist) ∧
    pushed w hist = oldPushed ++ pushed w (thisStart hist) ∧ oldPushed.Sublist old ∧
    (Up x.store w → (∀ e ∈ old, e.Readable) →
      (replayedTo w (thisStart hist)).map MemEntry.stamp = old.map MemEntry.storedStamp)

variable {hist : List Event} {x x' : World}

/-! ### Steps -/

/-- What a step does and shows. -/
inductive Move (x : World) : Label → List Event → World → Prop
  | boot : x.phase = .down → Move x .boot [.booted] ⟨x.disk, .starting 0, booting⟩
  | openLog {n fuel logID writes syncs closes} (hn : n < kMaxWriter) : x.phase = .starting n →
      getLogID x.disk n 1 fuel = some logID →
      Move x (.openLog fuel writes syncs closes) []
        { x with
          disk := Function.update x.disk (logFileName logID n) (some [])
          phase := .replaying ⟨n, hn⟩ logID (.create writes syncs closes) }
  | construct {w logID logfile fuel slots scratch q bufs} : x.phase = .replaying w logID logfile →
      MessageQueue.construct fuel (fun i => x.disk (logFileName i w)) logfile slots scratch w logID =
        some (q, bufs) →
      Move x (.construct fuel slots scratch) [.replayed w (q.resolve bufs).contents]
        { x with
          phase := .starting (w + 1)
          store := x.store.setWriter w ⟨q.resolve bufs, none, .empty, .idle⟩ }
  | ready : x.phase = .starting kMaxWriter →
      Move x .ready []
        { x with phase := .running, store := { x.store with idx_ := recoveredIdx x.store } }
  | run {l s'} : x.runStep l = some s' →
      Move x (.run l) (x.event (.run l)).toList { x with disk := sync s' x.disk, store := s' }
  | halt : x.phase ≠ .down → Move x .halt [] { x with phase := .down, store := booting }

/-- **Every step is a move.** -/
theorem step_move {l : Label} (hs : x.step l = some x') : Move x l (x.event l).toList x' := by
  cases l with
  | boot =>
    simp only [World.step] at hs
    split at hs
    · rename_i hp; cases hs; exact .boot hp
    · cases hs
  | openLog fuel writes syncs closes =>
    simp only [World.step] at hs
    split at hs
    · rename_i n hp
      split at hs
      · rename_i hn
        obtain ⟨logID, hid, rfl⟩ := Option.map_eq_some_iff.1 hs
        exact .openLog hn hp hid
      · cases hs
    · cases hs
  | construct fuel slots scratch =>
    simp only [World.step] at hs
    split at hs
    · rename_i w logID logfile hp
      obtain ⟨⟨q, bufs⟩, hq, rfl⟩ := Option.map_eq_some_iff.1 hs
      have he : x.event (.construct fuel slots scratch) =
          some (.replayed w (q.resolve bufs).contents) := by
        simp only [World.event, hp, hq]; rfl
      rw [he]
      exact .construct hp hq
    · cases hs
  | ready =>
    simp only [World.step] at hs
    split at hs
    · rename_i n hp
      split at hs
      · rename_i hn
        subst hn
        cases hs
        exact .ready hp
      · cases hs
    · cases hs
  | run l =>
    obtain ⟨s', hr, rfl⟩ := Option.map_eq_some_iff.1 hs
    exact .run hr
  | halt =>
    simp only [World.step] at hs
    split at hs
    · cases hs
    · rename_i hp; cases hs; exact .halt hp

theorem runStep_some {l : Store.Label} {s' : Store} (h : x.runStep l = some s') :
    x.store.step l = some s' ∧ x.phase ≠ .down ∧ (x.phase = .running ∨ ∃ w, l = .writer w) := by
  unfold runStep at h
  split at h
  · rename_i hp; exact ⟨h, by rw [hp]; simp, .inl hp⟩
  · rename_i w hp; exact ⟨h, by rw [hp]; simp, .inr ⟨w, rfl⟩⟩
  · rename_i w hp; exact ⟨h, by rw [hp]; simp, .inr ⟨w, rfl⟩⟩
  · cases h

theorem storeEvents_run (x : World) (l : Store.Label) :
    storeEvents (x.event (.run l)).toList = (x.store.event l).toList := by
  simp only [event]
  cases x.store.event l <;> rfl

theorem replayedTo_run (x : World) (l : Store.Label) (w : Fin kMaxWriter) :
    replayedTo w (x.event (.run l)).toList = [] := by
  simp only [event]
  cases x.store.event l <;> rfl

theorem thisStart_run (hist : List Event) (x : World) (l : Store.Label) :
    thisStart (hist ++ (x.event (.run l)).toList) = thisStart hist ++ (x.event (.run l)).toList := by
  refine thisStart_append hist ?_
  simp only [event]
  cases x.store.event l <;> simp

theorem logged_run (x : World) (l : Store.Label) (w : Fin kMaxWriter) (h : List Event) :
    logged w (h ++ (x.event (.run l)).toList) =
      logged w h ++ loggedTo w (x.store.event l).toList := by
  unfold logged
  rw [storeEvents_append, loggedTo_append, storeEvents_run]

theorem pushed_run (x : World) (l : Store.Label) (w : Fin kMaxWriter) (h : List Event) :
    pushed w (h ++ (x.event (.run l)).toList) =
      pushed w h ++ pushedTo w (x.store.event l).toList := by
  unfold pushed
  rw [storeEvents_append, pushedTo_append, storeEvents_run]

/-- Nothing happens to the files of `w`. -/
theorem LogsOk.congr {all now : List Entry} {w : Fin kMaxWriter} {segs : List (List Entry)}
    (h : LogsOk all now x w segs)
    (hd : ∀ i, x'.disk (logFileName i w) = x.disk (logFileName i w))
    (hopen : ∀ i, x'.Open w i ↔ x.Open w i)
    (hup : Up x'.store w → x'.disk (logFileName (x'.store.writer_ w).queue_.logid_ w) =
      some (x'.store.writer_ w).queue_.log_.fd)
    (hrep : ∀ i f, x'.phase = .replaying w i f → x.phase = .replaying w i f ∧ ¬ Up x'.store w) :
    LogsOk all now x' w segs := by
  refine ⟨h.flat, fun i hi => (hd i).trans (h.fresh i hi), fun i hi ho => ?_,
    fun i hi => h.current i ((hopen i).1 hi), hup, fun i f hf => ?_⟩
  · obtain ⟨b, h1, h2⟩ := h.closed i hi fun ho' => ho ((hopen _).2 ho')
    exact ⟨b, (hd _).trans h1, h2⟩
  · obtain ⟨hf', hw⟩ := hrep i f hf
    obtain ⟨-, h1, h2, h3⟩ := h.replaying i f hf'
    exact ⟨hw, h1, h2, (hd i).trans h3⟩

/-- A step of the threads keeps the files of writer `w` in order. -/
theorem LogsOk.run {all now : List Entry} {w : Fin kMaxWriter} {segs : List (List Entry)}
    {s' : Store} (h : LogsOk all now x w segs) (ev : List Entry)
    (hfix : (Up s' w ↔ Up x.store w) ∧
      (s'.writer_ w).queue_.logid_ = (x.store.writer_ w).queue_.logid_)
    (hev : ¬ Up x.store w → ev = []) :
    ∃ segs', LogsOk (all ++ ev) (now ++ ev) { x with disk := sync s' x.disk, store := s' } w segs' := by
  have hopen : ∀ i, Open { x with disk := sync s' x.disk, store := s' } w i ↔ x.Open w i := by
    intro i
    unfold Open
    rw [hfix.1, hfix.2]
  have hkeep : ∀ i, ¬ (Up s' w ∧ i = (s'.writer_ w).queue_.logid_) →
      sync s' x.disk (logFileName i w) = x.disk (logFileName i w) :=
    fun i => (sync_log s' x.disk i w).2
  by_cases hup : Up x.store w
  · -- the last file takes what is logged
    obtain ⟨old, rfl, hid⟩ := h.current _ (.inr ⟨hup, rfl⟩)
    refine ⟨old ++ [now ++ ev], ?_, fun i hi => ?_, fun i hi hno => ?_, fun i hi => ?_, fun _ => ?_,
      fun i f hf => ?_⟩
    · rw [← h.flat]; simp
    · show sync s' x.disk _ = _
      rw [hkeep i, h.fresh i (by simpa using hi)]
      rintro ⟨-, rfl⟩
      rw [hfix.2, hid] at hi
      simp at hi
    · rw [hopen] at hno
      have hne : i < old.length := by
        rcases Nat.lt_or_ge i old.length with hlt | hge
        · exact hlt
        · have : i = old.length := by simp at hi; omega
          exact absurd (.inr ⟨hup, by rw [hid, this]⟩) hno
      obtain ⟨b, h1, h2⟩ := h.closed i (by simp; omega) hno
      rw [List.getElem_append_left hne] at h2 ⊢
      refine ⟨b, ?_, h2⟩
      rw [← h1]
      refine hkeep _ ?_
      rintro ⟨-, hi'⟩
      rw [hfix.2, hid] at hi'
      omega
    · rw [hopen] at hi
      obtain ⟨old', he, hi⟩ := h.current i hi
      obtain ⟨rfl, -⟩ := List.append_inj' he rfl
      exact ⟨old, rfl, hi⟩
    · exact (sync_log s' x.disk _ w).1 ⟨hfix.1.2 hup, rfl⟩
    · exact absurd hup (h.replaying i f hf).1
  · obtain rfl := hev hup
    have hnup : ¬ Up s' w := fun hu => hup (hfix.1.1 hu)
    have hk : ∀ i, sync s' x.disk (logFileName i w) = x.disk (logFileName i w) :=
      fun i => hkeep i fun hu => hnup hu.1
    rw [List.append_nil, List.append_nil]
    exact ⟨segs, h.congr hk hopen (fun hu => absurd hu hnup) fun i f hf => ⟨hf, hnup⟩⟩

/-- **Steps of the threads keep the invariant.** -/
theorem HistoryOk.run (h : HistoryOk hist x) {l : Store.Label} {s' : Store}
    (hr : x.runStep l = some s') :
    HistoryOk (hist ++ (x.event (.run l)).toList)
      { x with disk := sync s' x.disk, store := s' } := by
  obtain ⟨hs, hdown, hl⟩ := runStep_some hr
  have hm := Store.step_move hs
  have hfix := hm.fixed
  have hup : ∀ w, Up s' w ↔ Up x.store w := fun w => not_congr (hfix w).1
  -- a thread inside `setKey` means that the store is running
  have hon : ∀ {t pc}, x.store.client t = pc → pc ≠ .idle → ∀ w, Up x.store w := by
    intro t pc ht hpc w
    have hp : x.phase = .running := by
      by_contra hp
      exact hpc (ht ▸ h.idle hp t)
    have := h.up
    rw [hp] at this
    exact this w
  have hnone : ∀ w, ¬ Up x.store w →
      loggedTo w (x.store.event l).toList = [] ∧ pushedTo w (x.store.event l).toList = [] := by
    exact fun w hw => Store.Quiet.of_outside fun t e _ p ht => hw (hon ht (by simp) w)
  constructor
  case clients =>
    exact h.clients.step hm
  case idle =>
    intro hp t
    rcases hl with hl | ⟨w, rfl⟩
    · exact absurd hl hp
    · show s'.client t = .idle
      rw [hm.client_of_writer]; exact h.idle hp t
  case up =>
    show UpIn s' x.phase
    have := h.up
    revert this
    cases x.phase <;> simp only [UpIn, hup] <;> exact id
  case quiet =>
    intro hp w hw
    have hw' : ¬ Up x.store w := fun hu => hw ((hup w).2 hu)
    obtain ⟨h1, h2, h3⟩ := h.quiet hp w hw'
    rw [thisStart_run, logged_run, pushed_run, replayedTo_append, replayedTo_run, h1, h2, h3,
      (hnone w hw').1, (hnone w hw').2]
    exact ⟨rfl, rfl, rfl⟩
  case wal =>
    intro w hw
    rw [thisStart_run, logged_run, pushed_run]
    exact (h.wal w ((hup w).1 hw)).step h.clients hm
  case visible =>
    intro w
    rw [thisStart_run, logged_run, replayedTo_append, replayedTo_run, List.append_nil]
    refine ((h.visible w).step h.clients hm fun t p e ht hp hw => ?_).mono fun e he => ?_
    · -- the slot is written after the record is complete
      have hwal := h.wal w (hon ht (by simp) w)
      have hlogged : logged w (thisStart hist) = pushed w (thisStart hist) ++ [e] := by
        rcases hp with rfl | rfl
        · exact (hwal.at h.clients ht hw (by simp)).1
        · exact (hwal.at h.clients ht hw (by simp)).1
      exact .inl (hlogged ▸ List.mem_append_right _ (List.mem_singleton_self e))
    · exact he.imp_left (List.mem_append_left _)
  case logs =>
    intro w
    rw [thisStart_run, logged_run, logged_run]
    obtain ⟨segs, hsegs⟩ := h.logs w
    exact hsegs.run _ ⟨hup w, (hfix w).2.1⟩ fun hw => (hnone w hw).1
  case inOrder =>
    intro w
    rw [thisStart_run, logged_run, pushed_run]
    by_cases hw : Up x.store w
    · exact ((h.wal w hw).step h.clients hm).inOrder
    · rw [(hnone w hw).1, (hnone w hw).2, List.append_nil, List.append_nil]
      exact h.inOrder w
  case earlier =>
    intro w
    obtain ⟨old, oldPushed, h1, h2, h3, h4⟩ := h.earlier w
    refine ⟨old, oldPushed, ?_, ?_, h3, fun hw => ?_⟩
    · rw [thisStart_run, logged_run, logged_run, h1, List.append_assoc]
    · rw [thisStart_run, pushed_run, pushed_run, h2, List.append_assoc]
    · rw [thisStart_run, replayedTo_append, replayedTo_run, List.append_nil]
      exact h4 ((hup w).1 hw)

/-! ### Starts and ends -/

theorem not_up_booting (w : Fin kMaxWriter) : ¬ Up booting w := fun hw => hw rfl

theorem clientsOk_booting : booting.ClientsOk :=
  ⟨fun t p e ht => (by cases ht), fun t e ht => (by cases ht)⟩

theorem visible_booting (S : Entry → Prop) (w : Fin kMaxWriter) : booting.Visible S w := by
  refine ⟨⟨le_rfl, fun j h1 h2 => ?_⟩, SkipList.from_empty, fun l hl => ?_⟩
  · exact absurd h2 (Nat.not_lt.2 h1)
  · simp [booting, Version.new] at hl

/-- No start ends inside `AddRecord`. A thread whose write fails stays inside. -/
def Undisturbed (x : World) : Label → Prop
  | .halt => ∀ w, Between x.store w
  | _ => True

/-- While no constructor has opened a log, no log is one of the current start. -/
theorem not_open_booting {disk : Disk} {p : Phase} {w : Fin kMaxWriter}
    (hp : ∀ i f, p ≠ .replaying w i f) (i : ℕ) : ¬ Open ⟨disk, p, booting⟩ w i := by
  rintro (⟨f, hf⟩ | ⟨hw, -⟩)
  · exact hp i f hf
  · exact not_up_booting w hw

/-- Then the files of a writer are closed. -/
theorem LogsOk.of_booting {all now : List Entry} {disk : Disk} {p : Phase} {w : Fin kMaxWriter}
    {segs : List (List Entry)} (hp : ∀ i f, p ≠ .replaying w i f) (hflat : segs.flatten = all)
    (hfresh : ∀ i, segs.length < i → disk (logFileName i w) = none)
    (hclosed : ∀ i, (h : i < segs.length) →
      ∃ b, disk (logFileName (i + 1) w) = some b ∧ Framed segs[i] b) :
    LogsOk all now ⟨disk, p, booting⟩ w segs := by
  constructor
  case flat => exact hflat
  case fresh => exact hfresh
  case closed => exact fun i hi _ => hclosed i hi
  case current => exact fun i hi => absurd hi (not_open_booting hp i)
  case up => exact fun hw => absurd hw (not_up_booting w)
  case replaying => exact fun i f hf => absurd hf (hp i f)

/-- Between two records the files of writer `w` hold every completed one. -/
theorem HistoryOk.file_framed (h : HistoryOk hist x) {w : Fin kMaxWriter}
    (hb : Between x.store w) {segs : List (List Entry)}
    (hl : LogsOk (logged w hist) (logged w (thisStart hist)) x w segs) (hp : x.phase ≠ .down)
    {i : ℕ} (hi : i < segs.length) :
    ∃ b, x.disk (logFileName (i + 1) w) = some b ∧ Framed segs[i] b := by
  by_cases hopen : x.Open w (i + 1)
  · obtain ⟨old, rfl, hid⟩ := hl.current _ hopen
    have hio : i = old.length := by omega
    subst hio
    rw [List.getElem_concat_length rfl]
    rcases hopen with ⟨f, hf⟩ | ⟨hup, hid'⟩
    · -- the constructor has not returned: nothing is logged yet
      obtain ⟨hnup, -, -, hd⟩ := hl.replaying _ f hf
      exact ⟨[], hd, (h.quiet hp w hnup).1 ▸ .nil⟩
    · rw [← hid', hl.up hup]
      exact ⟨_, rfl, (h.wal w hup).framed fun t e he => (hb t e he).2⟩
  · exact hl.closed i hi hopen

theorem HistoryOk.halt (h : HistoryOk hist x) (hp : x.phase ≠ .down)
    (hb : ∀ w, Between x.store w) :
    HistoryOk hist { x with phase := .down, store := booting } := by
  constructor
  case clients =>
    exact clientsOk_booting
  case idle =>
    exact fun _ _ => rfl
  case up =>
    exact not_up_booting
  case quiet =>
    exact fun h1 => absurd rfl h1
  case wal =>
    exact fun w hw => absurd hw (not_up_booting w)
  case visible =>
    exact fun w => visible_booting _ w
  case logs =>
    intro w
    obtain ⟨segs, hl⟩ := h.logs w
    exact ⟨segs, .of_booting (fun i f hf => by cases hf) hl.flat hl.fresh fun i hi =>
      h.file_framed (hb w) hl hp hi⟩
  case inOrder =>
    exact h.inOrder
  case earlier =>
    intro w
    obtain ⟨old, oldPushed, h1, h2, h3, -⟩ := h.earlier w
    exact ⟨old, oldPushed, h1, h2, h3, fun hw => absurd hw (not_up_booting w)⟩

theorem logged_booted (hist : List Event) (w : Fin kMaxWriter) :
    logged w (hist ++ [.booted]) = logged w hist := by
  unfold logged
  rw [storeEvents_append, loggedTo_append]
  exact List.append_nil _

theorem HistoryOk.boot (h : HistoryOk hist x) (hp : x.phase = .down) :
    HistoryOk (hist ++ [.booted]) ⟨x.disk, .starting 0, booting⟩ := by
  have hpushed : ∀ w, pushed w (hist ++ [.booted]) = pushed w hist := by
    intro w
    unfold pushed
    rw [storeEvents_append, pushedTo_append]
    exact List.append_nil _
  constructor
  case clients =>
    exact clientsOk_booting
  case idle =>
    exact fun _ _ => rfl
  case up =>
    exact fun w => ⟨fun hw => absurd hw (not_up_booting w), fun hw => absurd hw (Nat.not_lt_zero _)⟩
  case quiet =>
    intro _ w _
    rw [thisStart_booted]
    exact ⟨rfl, rfl, rfl⟩
  case wal =>
    exact fun w hw => absurd hw (not_up_booting w)
  case visible =>
    exact fun w => visible_booting _ w
  case logs =>
    intro w
    obtain ⟨segs, hl⟩ := h.logs w
    have hopen : ∀ i, ¬ x.Open w i := by
      rintro i (⟨f, hf⟩ | ⟨hw, -⟩)
      · rw [hp] at hf; cases hf
      · have := h.up; rw [hp] at this; exact this w hw
    rw [logged_booted]
    exact ⟨segs, .of_booting (fun i f hf => by cases hf) hl.flat hl.fresh fun i hi =>
      hl.closed i hi (hopen _)⟩
  case inOrder =>
    intro w
    rw [thisStart_booted]
    exact List.prefix_rfl
  case earlier =>
    intro w
    obtain ⟨old, oldPushed, h1, h2, h3, -⟩ := h.earlier w
    rw [thisStart_booted, logged_booted, hpushed]
    refine ⟨_, _, (List.append_nil _).symm, (List.append_nil _).symm, ?_,
      fun hw => absurd hw (not_up_booting w)⟩
    rw [h1, h2]
    exact h3.append (h.inOrder w).sublist

/-- A new log is a new file, behind all there are. -/
theorem HistoryOk.openLog (h : HistoryOk hist x) {n : ℕ} (hp : x.phase = .starting n)
    (hn : n < kMaxWriter) {fuel logID : ℕ} (hid : getLogID x.disk n 1 fuel = some logID)
    {logfile : WritableFile} (hf : logfile.fd = [] ∧ logfile.buf = []) :
    HistoryOk hist { x with
      disk := Function.update x.disk (logFileName logID n) (some logfile.fd)
      phase := .replaying ⟨n, hn⟩ logID logfile } := by
  have hrun : x.phase ≠ .running := by rw [hp]; simp
  have hdown : x.phase ≠ .down := by rw [hp]; simp
  have hup : ∀ w : Fin kMaxWriter, Up x.store w ↔ w < n := by
    have := h.up; rw [hp] at this; exact this
  have hclosed : ∀ w i, x.Open w i → Up x.store w ∧ (x.store.writer_ w).queue_.logid_ = i := by
    rintro w i (⟨f, hf⟩ | h1)
    · rw [hp] at hf; cases hf
    · exact h1
  -- the new file, and the others as they were
  obtain ⟨disk', hself, hfiles, hdisk⟩ : ∃ disk', disk' (logFileName logID n) = some logfile.fd ∧
      (∀ i w, (i = logID → w ≠ n) → disk' (logFileName i w) = x.disk (logFileName i w)) ∧
      disk' = Function.update x.disk (logFileName logID n) (some logfile.fd) := by
    refine ⟨_, Function.update_self .., fun i w hne => Function.update_of_ne ?_ _ _, rfl⟩
    intro he
    obtain ⟨hi, hw⟩ := logFileName_inj he
    exact hne hi hw
  rw [← hdisk]
  refine ⟨h.clients, fun _ => h.idle hrun, hup, fun _ => h.quiet hdown, h.wal, h.visible,
    fun w => ?_, h.inOrder, h.earlier⟩
  obtain ⟨segs, hl⟩ := h.logs w
  rcases eq_or_ne (w : ℕ) n with hwn | hwn
  · obtain rfl : w = ⟨n, hn⟩ := Fin.ext hwn
    have hnup : ¬ Up x.store ⟨n, hn⟩ := fun hw => Nat.lt_irrefl _ ((hup _).1 hw)
    have hno : ∀ i, ¬ x.Open ⟨n, hn⟩ i := fun i hi => hnup (hclosed _ i hi).1
    have hnow := (h.quiet hdown _ hnup).1
    have hlen : logID = segs.length + 1 := by
      refine getLogID_eq (fun i h1 h2 => ?_) (hl.fresh _ (Nat.lt_succ_self _)) le_rfl (by omega) hid
      obtain ⟨b, hb, -⟩ := hl.closed (i - 1) (by omega) (hno _)
      rw [show i - 1 + 1 = i by omega] at hb
      rw [hb]; rfl
    have hkeep : ∀ i, i ≠ logID → disk' (logFileName i n) = x.disk (logFileName i n) :=
      fun i hi => hfiles i n fun he => absurd he hi
    refine ⟨segs ++ [[]], ?_, fun i hi => ?_, fun i hi hopen => ?_, fun i hi => ?_,
      fun hw => absurd hw hnup, fun i f hf' => ?_⟩
    · rw [← hl.flat]; simp
    · rw [List.length_append, List.length_singleton] at hi
      exact (hkeep i (by omega)).trans (hl.fresh i (by omega))
    · have hne : i < segs.length := by
        rcases Nat.lt_or_ge i segs.length with hlt | hge
        · exact hlt
        · rw [List.length_append, List.length_singleton] at hi
          exact absurd (.inl ⟨logfile, by rw [hlen, show i = segs.length by omega]⟩) hopen
      rw [List.getElem_append_left hne]
      obtain ⟨b, h1, h2⟩ := hl.closed i hne (hno _)
      exact ⟨b, (hkeep _ (by omega)).trans h1, h2⟩
    · rcases hi with ⟨f, hf'⟩ | ⟨hw, -⟩
      · cases hf'
        exact ⟨segs, by rw [hnow], hlen⟩
      · exact absurd hw hnup
    · cases hf'
      exact ⟨hnup, hf.1, hf.2, hself.trans (by rw [hf.1])⟩
  · -- the files of another writer have other names
    have hkeep : ∀ i, disk' (logFileName i w) = x.disk (logFileName i w) :=
      fun i => hfiles i w fun _ => hwn
    refine ⟨segs, hl.congr hkeep (fun i => ⟨?_, fun hi => .inr (hclosed w i hi)⟩)
      (fun hw => (hkeep _).trans (hl.up hw)) fun i f hf' => ?_⟩
    · rintro (⟨f, hf'⟩ | hi)
      · cases hf'; exact absurd rfl hwn
      · exact .inr hi
    · cases hf'; exact absurd rfl hwn

/-- The files a constructor reads are those of the earlier starts. -/
theorem LogsOk.old_logs {all now : List Entry} {w : Fin kMaxWriter} {segs : List (List Entry)}
    {logID : ℕ} {logfile : WritableFile} (h : LogsOk all now x w segs)
    (hp : x.phase = .replaying w logID logfile) :
    ∃ older, segs = older ++ [now] ∧ logID = older.length + 1 ∧
      ((∀ es ∈ older, ∀ e ∈ es, e.Readable) →
        LogsAt (fun i => x.disk (logFileName i w)) 1 older) := by
  obtain ⟨older, rfl, rfl⟩ := h.current _ (.inl ⟨logfile, hp⟩)
  refine ⟨older, rfl, rfl, fun hread j hj => ?_⟩
  obtain ⟨b, hb, hfr⟩ := h.closed j (by simp; omega) (by
    rintro (⟨f, hf⟩ | ⟨hw, -⟩)
    · rw [hp] at hf; cases hf; omega
    · exact (h.replaying _ _ hp).1 hw)
  rw [List.getElem_append_left hj] at hfr
  show x.disk (logFileName (1 + j) w) = _
  rw [Nat.add_comm, hb, hfr.eq_logBytes fun e he => (hread _ (List.getElem_mem hj) e he).fits]

/-- While a constructor runs, the old logs hold everything that was logged for its writer. -/
theorem HistoryOk.old_logs (h : HistoryOk hist x) {w : Fin kMaxWriter} {logID : ℕ}
    {logfile : WritableFile} (hp : x.phase = .replaying w logID logfile) :
    ∃ older, logID = older.length + 1 ∧ older.flatten = logged w hist ∧
      ((∀ e ∈ logged w hist, e.Readable) → (∀ es ∈ older, ∀ e ∈ es, e.Readable) ∧
        LogsAt (fun i => x.disk (logFileName i w)) 1 older) := by
  obtain ⟨segs, hl⟩ := h.logs w
  obtain ⟨older, rfl, hid, hat⟩ := hl.old_logs hp
  have hnow := (h.quiet (by rw [hp]; simp) w (hl.replaying _ _ hp).1).1
  have hall : older.flatten = logged w hist := by
    have := hl.flat
    rw [hnow] at this
    simpa using this
  refine ⟨older, hid, hall, fun hread => ?_⟩
  have holder : ∀ es ∈ older, ∀ e ∈ es, e.Readable :=
    fun es hes e he => hread e (hall ▸ List.mem_flatten.2 ⟨es, hes, he⟩)
  exact ⟨holder, hat holder⟩

theorem thisStart_replayed (hist : List Event) (w : Fin kMaxWriter) (es : List Entry) :
    thisStart (hist ++ [.replayed w es]) = thisStart hist ++ [.replayed w es] :=
  thisStart_append hist (by simp)

/-- The replay logs nothing and pushes nothing that is logged. -/
theorem logged_replayed (hist : List Event) (w w' : Fin kMaxWriter) (es : List Entry) :
    logged w (hist ++ [.replayed w' es]) = logged w hist ∧
      pushed w (hist ++ [.replayed w' es]) = pushed w hist := by
  unfold logged pushed
  rw [storeEvents_append, loggedTo_append, pushedTo_append]
  exact ⟨List.append_nil _, List.append_nil _⟩

theorem replayedTo_replayed (hist : List Event) (w w' : Fin kMaxWriter) (es : List Entry) :
    replayedTo w (hist ++ [.replayed w' es]) = replayedTo w hist ++ if w' = w then es else [] := by
  rw [replayedTo_append]
  congr 1
  exact List.append_nil _

/-- The world behind the constructor that has left the queue `q`. -/
def built (x : World) (w₀ : Fin kMaxWriter) (q : MessageQueue Slice) : World :=
  { x with phase := .starting (w₀ + 1), store := x.store.setWriter w₀ ⟨q, none, .empty, .idle⟩ }

section

variable {w w₀ : Fin kMaxWriter} {q : MessageQueue Slice} {logID : ℕ} {logfile : WritableFile}

theorem built_self : (x.built w₀ q).store.writer_ w₀ = ⟨q, none, .empty, .idle⟩ :=
  Function.update_self ..

theorem built_other (hne : w ≠ w₀) : (x.built w₀ q).store.writer_ w = x.store.writer_ w :=
  Function.update_of_ne hne _ _

theorem up_built : Up (x.built w₀ q).store w ↔ w = w₀ ∨ Up x.store w := by
  rcases eq_or_ne w w₀ with rfl | hne
  · exact ⟨fun _ => .inl rfl, fun _ => by unfold Up; rw [built_self]; simp⟩
  · unfold Up
    rw [built_other hne]
    exact ⟨.inr, fun h1 => h1.resolve_left hne⟩

/-- The log that was open in the constructor is the open log of the queue. -/
theorem open_built (hp : x.phase = .replaying w₀ logID logfile) (hnup : ¬ Up x.store w₀)
    (hid : q.logid_ = logID) (i : ℕ) : (x.built w₀ q).Open w i ↔ x.Open w i := by
  unfold Open
  rw [up_built]
  rcases eq_or_ne w w₀ with rfl | hne
  · rw [built_self]
    constructor
    · rintro (⟨f, hf⟩ | ⟨-, rfl⟩)
      · cases hf
      · exact .inl ⟨logfile, by rw [hp, hid]⟩
    · rintro (⟨f, hf⟩ | ⟨hw, -⟩)
      · rw [hp] at hf
        cases hf
        exact .inr ⟨.inl rfl, hid⟩
      · exact absurd hw hnup
  · rw [built_other hne]
    constructor
    · rintro (⟨f, hf⟩ | ⟨hw, hi⟩)
      · cases hf
      · exact .inr ⟨hw.resolve_left hne, hi⟩
    · rintro (⟨f, hf⟩ | ⟨hw, hi⟩)
      · rw [hp] at hf; cases hf; exact absurd rfl hne
      · exact .inr ⟨.inr hw, hi⟩

theorem LogsOk.built {all now : List Entry} {segs : List (List Entry)} (h : LogsOk all now x w segs)
    (hp : x.phase = .replaying w₀ logID logfile) (hnup : ¬ Up x.store w₀) (hid : q.logid_ = logID)
    (hlog : q.log_ = logfile) : LogsOk all now (x.built w₀ q) w segs := by
  refine h.congr (fun _ => rfl) (open_built hp hnup hid) (fun hw => ?_) fun i f hf => by cases hf
  show x.disk _ = _
  rcases eq_or_ne w w₀ with rfl | hne
  · -- nothing has been written to the new log
    obtain ⟨-, h1, -, h2⟩ := h.replaying _ _ hp
    rw [built_self]
    show x.disk (logFileName q.logid_ w) = some q.log_.fd
    rw [hid, hlog, h2, h1]
  · rw [built_other hne]
    exact h.up ((up_built.1 hw).resolve_left hne)

end

/-- The thread of a writer starts behind its constructor. -/
theorem HistoryOk.construct (h : HistoryOk hist x) {w₀ : Fin kMaxWriter} {logID : ℕ}
    {logfile : WritableFile} (hp : x.phase = .replaying w₀ logID logfile) {fuel : ℕ}
    {slots : ℕ → MemEntry BufView} {scratch bufs : ℕ → Bytes} {q : MessageQueue BufView}
    (hq : MessageQueue.construct fuel (fun i => x.disk (logFileName i w₀)) logfile slots scratch w₀
      logID = some (q, bufs)) :
    HistoryOk (hist ++ [.replayed w₀ (q.resolve bufs).contents]) (x.built w₀ (q.resolve bufs)) := by
  have hrun : x.phase ≠ .running := by rw [hp]; simp
  have hdown : x.phase ≠ .down := by rw [hp]; simp
  have hup : ∀ w : Fin kMaxWriter, Up x.store w ↔ w < w₀ := by
    have := h.up; rw [hp] at this; exact this
  have hnup : ¬ Up x.store w₀ := fun hw => lt_irrefl _ ((hup w₀).1 hw)
  obtain ⟨hlog, hlogid, hrd, hready⟩ := MessageQueue.construct_same hq
  obtain ⟨hnow, hpush, hrep⟩ := h.quiet hdown w₀ hnup
  -- the history of this start has one event more, the replay of `w₀`
  have hrep' : ∀ {w}, w ≠ w₀ →
      replayedTo w (thisStart (hist ++ [.replayed w₀ (q.resolve bufs).contents])) =
        replayedTo w (thisStart hist) := by
    intro w hne
    rw [thisStart_replayed, replayedTo_replayed, if_neg hne.symm, List.append_nil]
  have hrep₀ : replayedTo w₀ (thisStart (hist ++ [.replayed w₀ (q.resolve bufs).contents])) =
      (q.resolve bufs).contents := by
    rw [thisStart_replayed, replayedTo_replayed, hrep, if_pos rfl, List.nil_append]
  have hlogs : ∀ w, logged w (thisStart (hist ++ [.replayed w₀ (q.resolve bufs).contents])) =
        logged w (thisStart hist) ∧
      pushed w (thisStart (hist ++ [.replayed w₀ (q.resolve bufs).contents])) =
        pushed w (thisStart hist) := by
    intro w
    rw [thisStart_replayed]
    exact logged_replayed _ _ _ _
  constructor
  case clients =>
    exact ⟨fun t p e ht => absurd ((h.idle hrun t).symm.trans ht) (by simp),
      fun t e ht => absurd ((h.idle hrun t).symm.trans ht) (by simp)⟩
  case idle =>
    exact fun _ => h.idle hrun
  case up =>
    intro w
    show Up (x.built w₀ (q.resolve bufs)).store w ↔ _
    rw [up_built, hup, Nat.lt_succ_iff_lt_or_eq, or_comm]
    exact or_congr_right ⟨congrArg _, Fin.ext⟩
  case quiet =>
    intro _ w hw
    have hne : w ≠ w₀ := fun he => hw (up_built.2 (.inl he))
    rw [(hlogs w).1, (hlogs w).2, hrep' hne]
    exact h.quiet hdown w fun hu => hw (up_built.2 (.inr hu))
  case wal =>
    intro w hw
    rw [(hlogs w).1, (hlogs w).2]
    rcases eq_or_ne w w₀ with rfl | hne
    · obtain ⟨segs, hl⟩ := h.logs w
      obtain ⟨-, h1, h2, -⟩ := hl.replaying _ _ hp
      rw [hnow, hpush]
      refine ⟨?_, .idle, .inl ⟨rfl, fun t p e ht => absurd ((h.idle hrun t).symm.trans ht)
        (by simp)⟩, ?_⟩ <;> rw [built_self]
      · exact hready
      · show [] = [] ∧ Framed [] q.log_.fd ∧ q.log_.buf = []
        rw [hlog, h1, h2]; exact ⟨rfl, .nil, rfl⟩
    · exact (h.wal w ((up_built.1 hw).resolve_left hne)).frame (by rw [built_other hne])
        (by rw [built_other hne]) fun _ hst => hst
  case visible =>
    intro w
    rw [(hlogs w).1]
    rcases eq_or_ne w w₀ with rfl | hne
    · -- every slot that is written was written by the replay
      rw [hrep₀]
      refine ⟨?_, ?_, fun l hl => ?_⟩
      · unfold Store.SlotsIn
        rw [built_self]
        show 1 ≤ q.ring.rd ∧ ∀ j, 1 ≤ j → _
        rw [hrd]
        exact ⟨le_rfl, fun j h1 h2 => .inr (Ring.get_mem (show q.ring.rd ≤ j by rwa [hrd]) h2)⟩
      · rw [built_self]; exact SkipList.from_empty
      · refine ((h.visible w).frozen l hl).mono fun e he => ?_
        rw [hrep] at he
        exact .inl (he.resolve_right (List.not_mem_nil))
    · obtain ⟨h1, h2, h3⟩ := h.visible w
      rw [hrep' hne]
      refine ⟨?_, ?_, h3⟩
      · unfold Store.SlotsIn
        rw [built_other hne]; exact h1
      · rw [built_other hne]; exact h2
  case logs =>
    intro w
    rw [(hlogs w).1, (logged_replayed _ _ _ _).1]
    obtain ⟨segs, hl⟩ := h.logs w
    exact ⟨segs, hl.built hp hnup hlogid hlog⟩
  case inOrder =>
    intro w
    rw [(hlogs w).1, (hlogs w).2]
    exact h.inOrder w
  case earlier =>
    intro w
    obtain ⟨old, oldPushed, h1, h2, h3, h4⟩ := h.earlier w
    rw [(hlogs w).1, (hlogs w).2, (logged_replayed _ _ _ _).1, (logged_replayed _ _ _ _).2]
    refine ⟨old, oldPushed, h1, h2, h3, fun hw hread => ?_⟩
    rcases eq_or_ne w w₀ with rfl | hne
    · -- the replay has read the records of all earlier starts
      obtain ⟨older, rfl, hall, hat⟩ := h.old_logs hp
      rw [hnow, List.append_nil] at h1
      subst h1
      obtain ⟨holder, hlogsAt⟩ := hat hread
      obtain ⟨hc, -⟩ := MessageQueue.construct_replays holder hlogsAt hq
      rw [hrep₀, stamp_resolve, hc, stamp_viewsFrom, hall]
    · rw [hrep' hne]
      exact h4 ((up_built.1 hw).resolve_left hne) hread

theorem HistoryOk.ready (h : HistoryOk hist x) {idx : ℕ} (hp : x.phase = .starting kMaxWriter) :
    HistoryOk hist { x with phase := .running, store := { x.store with idx_ := idx } } := by
  have hrun : x.phase ≠ .running := by rw [hp]; simp
  have hup : ∀ w : Fin kMaxWriter, Up x.store w := by
    have := h.up
    rw [hp] at this
    exact fun w => (this w).2 w.isLt
  have hopen : ∀ w i, Open { x with phase := .running, store := { x.store with idx_ := idx } } w i ↔
      x.Open w i := by
    intro w i
    constructor
    · rintro (⟨f, hf⟩ | hi)
      · cases hf
      · exact .inr hi
    · rintro (⟨f, hf⟩ | hi)
      · rw [hp] at hf; cases hf
      · exact .inr hi
  refine ⟨⟨h.clients.locked, h.clients.slot⟩, fun h1 => absurd rfl h1, hup,
    fun _ w hw => absurd (hup w) hw, fun w hw => (h.wal w hw).frame rfl rfl fun _ hst => hst,
    fun w => ⟨(h.visible w).slots, (h.visible w).active, (h.visible w).frozen⟩, fun w => ?_,
    h.inOrder, h.earlier⟩
  obtain ⟨segs, hl⟩ := h.logs w
  exact ⟨segs, hl.congr (fun _ => rfl) (hopen w) hl.up fun i f hf => by cases hf⟩

/-! ### Every step -/

theorem historyOk_empty : HistoryOk [] empty := by
  refine ⟨clientsOk_booting, fun _ _ => rfl, not_up_booting, fun h1 => absurd rfl h1,
    fun w hw => absurd hw (not_up_booting w), fun w => visible_booting _ w, fun w => ?_,
    fun w => List.prefix_rfl, fun w => ⟨[], [], rfl, rfl, List.Sublist.refl _, fun hw =>
      absurd hw (not_up_booting w)⟩⟩
  exact ⟨[], .of_booting (fun i f hf => by cases hf) rfl (fun _ _ => rfl) fun i hi =>
    absurd hi (Nat.not_lt_zero i)⟩

/-- **Every step keeps the invariant.** -/
theorem HistoryOk.step (h : HistoryOk hist x) {l : Label} (hg : Undisturbed x l)
    (hs : x.step l = some x') : HistoryOk (hist ++ (x.event l).toList) x' := by
  have hm := step_move hs
  generalize (x.event l).toList = es at hm ⊢
  cases hm with
  | boot hp => exact h.boot hp
  | @openLog n fuel logID writes syncs closes hn hp hid =>
    have hnew : (WritableFile.create writes syncs closes).fd = [] ∧
        (WritableFile.create writes syncs closes).buf = [] := ⟨rfl, rfl⟩
    rw [List.append_nil]
    exact h.openLog hp hn hid hnew
  | construct hp hq => exact h.construct hp hq
  | ready hp =>
    rw [List.append_nil]
    exact h.ready hp
  | run hr => exact h.run hr
  | halt hp =>
    rw [List.append_nil]
    exact h.halt hp hg

theorem HistoryOk.exec (hx : machine.Exec Undisturbed empty hist x) : HistoryOk hist x :=
  hx.induct (I := HistoryOk) historyOk_empty fun _ _ _ _ hi hg hs => hi.step hg hs

end World

end Yangkv
