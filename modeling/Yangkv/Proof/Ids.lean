import Yangkv.Proof.LogHistory

/-!
# Sequence numbers over any number of starts

* `IdsOk.step`: no two logged entries have the same number, none of them the number
  of an entry still to be logged, and `idx_` is above all of them; while a start
  recovers, each queue it has constructed knows a bound for its own logs.
* `ids_unique`: the same for the records that the files hold after any run.
-/

namespace Yangkv

open Lib

/-- The record of the entry is not complete yet. -/
def SetPc.Unlogged (p : SetPc) : Prop := p = .taken ∨ p = .locked ∨ p = .sized ∨ p = .appended

namespace Store

variable {s s' : Store} {l : Label} {t : Tid} {p : SetPc} {e : Entry}

/-- A thread with an entry still to be logged had it before and has not logged it now, or has
just taken its id. -/
theorem Move.unlogged_cases (hm : Move s l s') (h : s'.client t = .set p e) (hp : p.Unlogged) :
    (∃ p', s.client t = .set p' e ∧ p'.Unlogged ∧ (l = .client t → p' ≠ .appended)) ∨
    ∃ key value del_flag, s.client t = .setCalled key value del_flag ∧
      e = entryOf key value s.idx_ del_flag := by
  have hstay : ∀ {t'}, t ≠ t' → s.client t = .set p e → (∃ p', s.client t = .set p' e ∧
      p'.Unlogged ∧ (Label.client t' = .client t → p' ≠ .appended)) := by
    intro t' hne h1
    refine ⟨p, h1, hp, fun hl => ?_⟩
    cases hl
    exact absurd rfl hne
  cases hm with
  | take ht =>
    rcases update_client h with ⟨hne, h1⟩ | ⟨rfl, h1⟩
    · exact .inl (hstay hne h1)
    · cases h1; exact .inr ⟨_, _, _, ht, rfl⟩
  | callSet | callGet =>
    rcases update_client h with ⟨hne, h1⟩ | ⟨-, h1⟩
    · exact .inl ⟨p, h1, hp, fun hl => by cases hl⟩
    · cases h1
  | get _ hpc =>
    rcases update_client h with ⟨hne, h1⟩ | ⟨-, rfl⟩
    · exact .inl (hstay hne h1)
    · simp [reads] at hpc
  | unlock =>
    rcases update_client h with ⟨hne, h1⟩ | ⟨-, h1⟩
    · exact .inl (hstay hne h1)
    · cases h1
  | lock ht | size ht | append ht =>
    rcases update_client h with ⟨hne, h1⟩ | ⟨rfl, h1⟩
    · exact .inl (hstay hne h1)
    · cases h1
      exact .inl ⟨_, ht, by simp [SetPc.Unlogged], fun _ => by simp⟩
  | flush | skip | put | count =>
    -- the record is complete behind these
    rcases update_client h with ⟨hne, h1⟩ | ⟨rfl, h1⟩
    · exact .inl (hstay hne h1)
    · cases h1
      simp [SetPc.Unlogged] at hp
  | @wait t' e' ht =>
    rcases eq_or_ne t t' with rfl | hne
    · rw [ht] at h
      cases h
      simp [SetPc.Unlogged] at hp
    · exact .inl (hstay hne h)
  | _ => exact .inl ⟨p, h, hp, fun hl => by cases hl⟩

end Store

namespace World

/-- The entry of every call fits the reader's buffer, its number the encoding. -/
def Numbered (x : World) (l : Label) : Prop :=
  Undisturbed x l ∧ ∀ t key value del_flag, l = .run (.client t) →
    x.store.client t = .setCalled key value del_flag →
    (Store.entryOf key value x.store.idx_ del_flag).Recordable ∧ x.store.idx_ < 2 ^ 56

/-- The record of the entry can be read back. -/
def Sound (e : Entry) : Prop := e.Recordable ∧ e.seq_num < 2 ^ 56

/-- The numbers over all starts. -/
structure IdsOk (hist : List Event) (x : World) : Prop where
  sound : ∀ w, ∀ e ∈ logged w hist, Sound e
  held : ∀ t p e, x.store.client t = .set p e → Sound e ∧ e.seq_num < x.store.idx_
  below : x.phase = .running → ∀ w, ∀ e ∈ logged w hist, e.seq_num < x.store.idx_
  /-- the constructor has seen every old log -/
  maxId : x.phase ≠ .running → ∀ w, Up x.store w → ∀ e ∈ logged w hist,
    e.seq_num ≤ (x.store.writer_ w).queue_.max_id_
  /-- no two threads hold the same number -/
  alone : ∀ t t' p p' e e', x.store.client t = .set p e → x.store.client t' = .set p' e' →
    e.seq_num = e'.seq_num → t = t'
  unlogged : ∀ t p e, x.store.client t = .set p e → p.Unlogged →
    ∀ w, ∀ e' ∈ logged w hist, e'.seq_num ≠ e.seq_num
  nodup : ∀ w, ((logged w hist).map (·.seq_num)).Nodup
  apart : ∀ w w', w ≠ w' → ∀ e ∈ logged w hist, ∀ e' ∈ logged w' hist, e.seq_num ≠ e'.seq_num

variable {hist : List Event} {x x' : World}

/-- Between two starts and before the store runs no thread holds a number. -/
theorem IdsOk.idle (h : IdsOk hist x) {hist' : List Event}
    (hl : ∀ w, logged w hist' = logged w hist) (hidle : ∀ t, x'.store.client t = .idle)
    (hbelow : x'.phase = .running → ∀ w, ∀ e ∈ logged w hist, e.seq_num < x'.store.idx_)
    (hmax : x'.phase ≠ .running → ∀ w, Up x'.store w → ∀ e ∈ logged w hist,
      e.seq_num ≤ (x'.store.writer_ w).queue_.max_id_) : IdsOk hist' x' := by
  have hno : ∀ {t p e}, x'.store.client t ≠ .set p e := by
    intro t p e ht
    rw [hidle t] at ht
    cases ht
  constructor
  case sound =>
    intro w; rw [hl]; exact h.sound w
  case held =>
    exact fun t p e ht => absurd ht hno
  case below =>
    intro hp w; rw [hl]; exact hbelow hp w
  case maxId =>
    intro hp w hw; rw [hl]; exact hmax hp w hw
  case alone =>
    exact fun t t' p p' e e' ht => absurd ht hno
  case unlogged =>
    exact fun t p e ht => absurd ht hno
  case nodup =>
    intro w; rw [hl]; exact h.nodup w
  case apart =>
    intro w w' hne; rw [hl, hl]; exact h.apart w w' hne

/-- A completed record adds a number that no record has. -/
theorem IdsOk.run (h : IdsOk hist x) (hh : HistoryOk hist x) {l : Store.Label} {s' : Store}
    (hg : Numbered x (.run l)) (hr : x.runStep l = some s') :
    IdsOk (hist ++ (x.event (.run l)).toList) { x with disk := sync s' x.disk, store := s' } := by
  obtain ⟨hs, -, hl⟩ := runStep_some hr
  have hm := Store.step_move hs
  -- what is logged now was held until now
  have hnew : ∀ {w e}, e ∈ logged w (hist ++ (x.event (.run l)).toList) → e ∈ logged w hist ∨
      ∃ t, l = .client t ∧ x.store.client t = .set .appended e ∧ Store.home e = w := by
    intro w e he
    rw [logged_run] at he
    rcases List.mem_append.1 he with he | he
    · exact .inl he
    · rcases Store.loggedTo_event (s := x.store) (l := l) w with h1 | ⟨t, e', h1, h2, h3⟩
      · rw [h1] at he; cases he
      · rw [h3] at he
        split at he
        · rename_i hw
          rw [List.mem_singleton.1 he]
          exact .inr ⟨t, h1, h2, hw⟩
        · cases he
  have hrunning : ∀ {t pc}, x.store.client t = pc → pc ≠ .idle → x.phase = .running := by
    intro t pc ht hpc
    by_contra hp
    exact hpc (ht ▸ hh.idle hp t)
  constructor
  case sound =>
    intro w e he
    rcases hnew he with he | ⟨t, -, ht, -⟩
    · exact h.sound w e he
    · exact (h.held t _ e ht).1
  case held =>
    intro t p e ht
    rcases hm.set_cases ht with ⟨p', ht'⟩ | ⟨key, value, del_flag, ht', rfl, rfl, hidx⟩
    · obtain ⟨h1, h2⟩ := h.held t p' e ht'
      exact ⟨h1, lt_of_lt_of_le h2 hm.idx_le⟩
    · refine ⟨hg.2 t key value del_flag rfl ht', ?_⟩
      show x.store.idx_ < s'.idx_
      omega
  case below =>
    intro hp w e he
    have hle := hm.idx_le
    rcases hnew he with he | ⟨t, -, ht, -⟩
    · exact lt_of_lt_of_le (h.below hp w e he) hle
    · exact lt_of_lt_of_le (h.held t _ e ht).2 hle
  case maxId =>
    intro hp w hw e he
    have hfix := hm.fixed w
    show _ ≤ (s'.writer_ w).queue_.max_id_
    rw [hfix.2.2]
    rcases hnew he with he | ⟨t, -, ht, -⟩
    · exact h.maxId hp w ((not_congr hfix.1).1 hw) e he
    · exact absurd (hrunning ht (by simp)) hp
  case alone =>
    intro t t' p p' e e' ht ht' hseq
    rcases hm.set_cases ht with ⟨q, h1⟩ | ⟨_, _, _, -, rfl, h1, -⟩ <;>
      rcases hm.set_cases ht' with ⟨q', h2⟩ | ⟨_, _, _, -, rfl, h2, -⟩
    · exact h.alone t t' q q' e e' h1 h2 hseq
    · have : e.seq_num < x.store.idx_ := (h.held t q e h1).2
      exact absurd hseq (ne_of_lt this)
    · have : e'.seq_num < x.store.idx_ := (h.held t' q' e' h2).2
      exact absurd hseq.symm (ne_of_lt this)
    · rw [h1] at h2
      cases h2
      rfl
  case unlogged =>
    intro t p e ht hp w e' he' hseq
    rcases hm.unlogged_cases ht hp with ⟨q, h1, hq, hq'⟩ | ⟨_, _, _, ht', rfl⟩ <;>
      rcases hnew he' with he' | ⟨t', rfl, h2, -⟩
    · exact h.unlogged t q e h1 hq w e' he' hseq
    · -- the same number means the same thread, which has just logged its entry
      obtain rfl := h.alone t' t _ _ e' e h2 h1 hseq
      rw [h1] at h2
      cases h2
      exact hq' rfl rfl
    · exact absurd hseq (ne_of_lt (h.below (hrunning ht' (by simp)) w e' he'))
    · exact absurd hseq (ne_of_lt (h.held t' _ e' h2).2)
  case nodup =>
    intro w
    rw [logged_run]
    rcases Store.loggedTo_event (s := x.store) (l := l) w with h1 | ⟨t, e, rfl, h2, h3⟩
    · rw [h1, List.append_nil]; exact h.nodup w
    · rw [h3, List.map_append]
      split
      · refine List.Nodup.append (h.nodup w) (List.nodup_singleton _) ?_
        intro n h4 h5
        obtain ⟨e', he', rfl⟩ := List.mem_map.1 h4
        exact h.unlogged t _ e h2 (by simp [SetPc.Unlogged]) w e' he' (List.mem_singleton.1 h5)
      · rw [List.map_nil, List.append_nil]; exact h.nodup w
  case apart =>
    intro w w' hne e he e' he'
    rcases hnew he with he | ⟨t, rfl, h1, hw⟩ <;> rcases hnew he' with he' | ⟨t', h3, h4, hw'⟩
    · exact h.apart w w' hne e he e' he'
    · exact h.unlogged t' _ e' h4 (by simp [SetPc.Unlogged]) w e he
    · exact (h.unlogged t _ e h1 (by simp [SetPc.Unlogged]) w' e' he').symm
    · cases h3
      rw [h1] at h4
      cases h4
      exact absurd (hw.symm.trans hw') hne

/-- `idx_` is above the largest number that any of the queues has seen. -/
theorem lt_recoveredIdx (s : Store) (w : Fin kMaxWriter) :
    (s.writer_ w).queue_.max_id_ < recoveredIdx s := by
  have hmono : ∀ (ws : List (Fin kMaxWriter)) idx, idx ≤
      ws.foldl (fun idx w => max idx ((s.writer_ w).queue_.max_id_ + 1)) idx := by
    intro ws
    induction ws with
    | nil => intro idx; exact le_rfl
    | cons w ws ih => intro idx; exact le_trans (Nat.le_max_left _ _) (ih _)
  have hin : ∀ (ws : List (Fin kMaxWriter)) idx, w ∈ ws → (s.writer_ w).queue_.max_id_ + 1 ≤
      ws.foldl (fun idx w => max idx ((s.writer_ w).queue_.max_id_ + 1)) idx := by
    intro ws
    induction ws with
    | nil => intro idx hw; cases hw
    | cons w' ws ih =>
      intro idx hw
      rcases List.mem_cons.1 hw with rfl | hw
      · exact le_trans (Nat.le_max_right _ _) (hmono ws _)
      · exact ih _ hw
  exact hin _ _ (List.mem_finRange w)

/-- The constructor has seen the number of every record of its writer. -/
theorem IdsOk.maxId_construct (h : IdsOk hist x) (hh : HistoryOk hist x) {w : Fin kMaxWriter}
    {logID fuel : ℕ} {logfile : WritableFile} (hp : x.phase = .replaying w logID logfile)
    {slots : ℕ → MemEntry BufView} {scratch bufs : ℕ → Bytes} {q : MessageQueue BufView}
    (hq : MessageQueue.construct fuel (fun i => x.disk (logFileName i w)) logfile slots scratch w
      logID = some (q, bufs)) : ∀ e ∈ logged w hist, e.seq_num ≤ q.max_id_ := by
  -- the records of the old logs are all there is of this writer
  obtain ⟨older, rfl, hall, hat⟩ := hh.old_logs hp
  obtain ⟨hread, hlogsAt⟩ := hat fun e he => (h.sound w e he).1.readable
  obtain ⟨-, hmax⟩ := MessageQueue.construct_replays hread hlogsAt hq
  intro e he
  rw [hmax, ← Nat.mod_eq_of_lt (h.sound w e he).2]
  exact le_maxSeq (hall ▸ he) 0

/-- **Every step keeps the numbers apart.** -/
theorem IdsOk.step (h : IdsOk hist x) (hh : HistoryOk hist x) {l : Label} (hg : Numbered x l)
    (hs : x.step l = some x') : IdsOk (hist ++ (x.event l).toList) x' := by
  have hm := step_move hs
  generalize (x.event l).toList = es at hm ⊢
  cases hm with
  | boot =>
    exact h.idle (logged_booted hist) (fun _ => rfl) (fun hp => by cases hp)
      fun _ w hw => absurd hw (not_up_booting w)
  | openLog hn hp hid =>
    have hrun : x.phase ≠ .running := by rw [hp]; simp
    rw [List.append_nil]
    exact h.idle (fun _ => rfl) (hh.idle hrun) (fun hp => by cases hp) fun _ => h.maxId hrun
  | @construct w₀ logID logfile fuel slots scratch q bufs hp hq =>
    have hrun : x.phase ≠ .running := by rw [hp]; simp
    refine h.idle (fun w => (logged_replayed hist w w₀ _).1) (hh.idle hrun)
      (fun hp => by cases hp) fun _ w hw e hmem => ?_
    rcases eq_or_ne w w₀ with rfl | hne
    · simp only [Store.setWriter_writer, Function.update_self]
      exact h.maxId_construct hh hp hq e hmem
    · simp only [Up, Store.setWriter_writer, Function.update_of_ne hne] at hw ⊢
      exact h.maxId hrun w hw e hmem
  | ready hp =>
    have hrun : x.phase ≠ .running := by rw [hp]; simp
    have hup : ∀ w : Fin kMaxWriter, Up x.store w := by
      have := hh.up
      rw [hp] at this
      exact fun w => (this w).2 w.isLt
    rw [List.append_nil]
    refine h.idle (fun _ => rfl) (hh.idle hrun) (fun _ w e he => ?_) fun hp => absurd rfl hp
    exact lt_of_le_of_lt (h.maxId hrun w (hup w) e he) (lt_recoveredIdx x.store w)
  | run hr => exact h.run hh hg hr
  | halt =>
    rw [List.append_nil]
    exact h.idle (fun _ => rfl) (fun _ => rfl) (fun hp => by cases hp)
      fun _ w hw => absurd hw (not_up_booting w)

theorem idsOk_empty : IdsOk [] empty := by
  have hno : ∀ {t p e}, empty.store.client t ≠ .set p e := fun ht => by cases ht
  have hnil : ∀ {w e}, e ∉ logged w ([] : List Event) := fun he => by cases he
  exact ⟨fun w e he => absurd he hnil, fun t p e ht => absurd ht hno,
    fun hp => (by cases hp), fun _ w hw => absurd hw (not_up_booting w),
    fun t t' p p' e e' ht => absurd ht hno, fun t p e ht => absurd ht hno,
    fun w => List.nodup_nil, fun w w' _ e he => absurd he hnil⟩

theorem IdsOk.exec (hx : machine.Exec Numbered empty hist x) :
    HistoryOk hist x ∧ IdsOk hist x :=
  hx.induct (I := fun hist x => HistoryOk hist x ∧ IdsOk hist x) ⟨historyOk_empty, idsOk_empty⟩
    fun _ _ _ _ hi hg hs => ⟨hi.1.step hg.1 hs, hi.2.step hi.1 hg hs⟩

/-- **No number is used twice.** While no record is being written, the numbers of the records
in all log files of all writers are different, and `idx_` of a running store is above all. -/
theorem ids_unique (hx : machine.Exec Numbered empty hist x) :
    ((∀ w, Between x.store w) → ∃ segs : Fin kMaxWriter → List (List Entry),
      (∀ w, FilesAre x.disk w (segs w)) ∧ (∀ w, ∀ e ∈ (segs w).flatten, Sound e) ∧
      ((List.finRange kMaxWriter).flatMap fun w =>
        (segs w).flatten.map fun e => e.seq_num).Nodup) ∧
    (x.phase = .running → ∀ w, ∀ e ∈ logged w hist, e.seq_num < x.store.idx_) := by
  obtain ⟨hh, h⟩ := IdsOk.exec hx
  refine ⟨fun hb => ?_, h.below⟩
  choose segs hflat hfiles using fun w => hh.files (hb w)
  refine ⟨segs, hfiles, fun w e he => h.sound w e (hflat w ▸ he), ?_⟩
  rw [List.nodup_flatMap]
  refine ⟨fun w _ => ?_, (List.nodup_finRange _).imp fun {w w'} hne => ?_⟩
  · rw [hflat]; exact h.nodup w
  · intro n h1 h2
    obtain ⟨e, he, rfl⟩ := List.mem_map.1 h1
    obtain ⟨e', he', hn⟩ := List.mem_map.1 h2
    rw [hflat] at he he'
    exact h.apart w w' hne e he e' he' hn.symm

/-! ### Two starts with a write in each -/

theorem recordable_of_short {key value : Bytes} (h : key.length + value.length ≤ 100) (id : ℕ)
    (del_flag : Bool) : (Store.entryOf key value id del_flag).Recordable := by
  have hfit : (Store.entryOf key value id del_flag).Fits := by
    constructor <;> simp only [Store.entryOf, Slice.ofString] <;> omega
  refine ⟨_, encodeMemEntry_fits hfit, ?_⟩
  have h1 := Varint.length_encode_le (k := 5) (n := key.length + 9) (by omega) (by omega)
  have h2 := Varint.length_encode_le (k := 5) (n := value.length + 1) (by omega) (by omega)
  rw [length_record]
  simp only [Store.entryOf, Slice.ofString, kMaxRecordSize]
  omega

theorem Alone.numbered (h : Alone x) {l : Label} (hg : x.OneClient l) : Numbered x l := by
  refine ⟨h.undisturbed hg, ?_⟩
  rintro t key value del_flag rfl ht
  rcases eq_or_ne t 0 with rfl | hne
  · exact ⟨recordable_of_short (h.2 key value del_flag ht) _ _, hg⟩
  · rw [h.1 t hne] at ht
    cases ht

theorem ids_unique_restarts : ∃ x, machine.Exec Numbered empty restartEvents x ∧
    ∃ segs : Fin kMaxWriter → List (List Entry), (∀ w, FilesAre x.disk w (segs w)) ∧
      (∀ w, ∀ e ∈ (segs w).flatten, Sound e) ∧
      ((List.finRange kMaxWriter).flatMap fun w =>
        (segs w).flatten.map fun e => e.seq_num).Nodup := by
  obtain ⟨x, hx, hidle⟩ := restarts_exec
  obtain ⟨hx', halone⟩ := Alone.exec (G := Numbered) (fun _ _ h hg => h.numbered hg) hx
  exact ⟨x, hx', (ids_unique hx').1 fun w => halone.between hidle w⟩

end World

end Yangkv
