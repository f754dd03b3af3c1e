import Yangkv.Lib.Progress
import Yangkv.Proof.Ids

/-!
# When the store can be started again

No queue is popped before its constructor has returned, so a constructor that finds more
than `kQueueSize` records in the old logs of its writer never returns. What was logged
stays in the logs.

* `OldFit.step`: in every start, what the logs of a constructed writer held before has
  room in its queue.
* `Startable.forward`: while this is so, every phase of `init` has a step forward.
* `startable_iff`: a store that is down can be started exactly if no writer has logged
  more than `kQueueSize` entries in all.
-/

namespace Yangkv

open Lib

theorem getLogID_some {disk : Disk} {w m : ℕ} (hm : disk (logFileName (m + 1) w) = none) :
    ∀ {fuel i : ℕ}, i ≤ m + 1 → m + 1 < i + fuel → ∃ id, getLogID disk w i fuel = some id := by
  intro fuel
  induction fuel with
  | zero =>
    intro i hi hf
    omega
  | succ fuel ih =>
    intro i hi hf
    unfold getLogID
    split
    · rename_i hs
      have hne : i ≠ m + 1 := by
        rintro rfl
        rw [hm] at hs
        cases hs
      exact ih (by omega) (by omega)
    · exact ⟨i, rfl⟩

namespace World

variable {hist h : List Event} {x x' : World} {l : Label} {w : Fin kMaxWriter}

/-- Only the running threads log. -/
theorem logged_init (hl : ∀ l', l ≠ .run l') :
    logged w (hist ++ (x.event l).toList) = logged w hist := by
  have hnone : storeEvents (x.event l).toList = [] := by
    cases l with
    | run l' => exact absurd rfl (hl l')
    | construct fuel slots scratch =>
      simp only [event]
      split
      · rename_i w₀ logID logfile hp
        cases MessageQueue.construct fuel (fun i => x.disk (logFileName i w₀)) logfile slots scratch
          w₀ logID <;> rfl
      · rfl
    | _ => rfl
  show loggedTo w (storeEvents (hist ++ (x.event l).toList)) = _
  rw [storeEvents_append, hnone, List.append_nil]

/-! ## A start needs room -/

/-- What the logs of a constructed writer held before this start has room in its queue. -/
def OldFit (hist : List Event) (x : World) : Prop :=
  ∀ w, Up x.store w → (logged w hist).length ≤ (logged w (thisStart hist)).length + kQueueSize

/-- A constructor that returns had room. -/
theorem room_of_construct (hh : HistoryOk hist x) (hi : IdsOk hist x) {logID fuel : ℕ}
    {logfile : WritableFile} {slots : ℕ → MemEntry BufView} {scratch bufs : ℕ → Bytes}
    {q : MessageQueue BufView} (hp : x.phase = .replaying w logID logfile)
    (hq : MessageQueue.construct fuel (fun i => x.disk (logFileName i w)) logfile slots scratch w
      logID = some (q, bufs)) : (logged w hist).length ≤ kQueueSize := by
  obtain ⟨older, rfl, hall, hat⟩ := hh.old_logs hp
  obtain ⟨hread, hlogs⟩ := hat fun e he => (hi.sound w e he).1.readable
  rw [← hall]
  by_contra hlt
  have hstuck := construct_stuck logfile slots scratch w hread hlogs (by omega) fuel
  simp only [hq] at hstuck
  cases hstuck

/-- **In every start, what was logged before has room.** -/
theorem OldFit.step (ho : OldFit hist x) (hh : HistoryOk hist x) (hi : IdsOk hist x)
    (hs : x.step l = some x') : OldFit (hist ++ (x.event l).toList) x' := by
  have hm := step_move hs
  have hsame : (∀ l', l ≠ .run l') → ∀ w, logged w (hist ++ (x.event l).toList) = logged w hist :=
    fun hl w => logged_init hl
  generalize (x.event l).toList = es at hm hsame ⊢
  intro w hw
  cases hm with
  | boot => exact absurd hw (not_up_booting w)
  | openLog | ready =>
    rw [List.append_nil]
    exact ho w hw
  | @construct w₀ logID logfile fuel slots scratch q bufs hp hq =>
    rw [hsame (by simp) w, thisStart_replayed, (logged_replayed (thisStart hist) w w₀ _).1]
    by_cases hw₀ : w = w₀
    · subst hw₀
      have hroom := room_of_construct hh hi hp hq
      omega
    · refine ho w ?_
      have hother : (x.store.setWriter w₀ ⟨q.resolve bufs, none, .empty, .idle⟩).writer_ w =
          x.store.writer_ w := Function.update_of_ne hw₀ _ _
      unfold Up at hw ⊢
      rwa [hother] at hw
  | @run l' s' hr =>
    have hup : Up x.store w := by
      have hfix := ((Store.step_move (runStep_some hr).1).fixed w).1
      exact fun hoff => hw (hfix.2 hoff)
    have hold := ho w hup
    rw [thisStart_run, logged_run, logged_run, List.length_append, List.length_append]
    omega
  | halt => exact absurd hw (not_up_booting w)

theorem OldFit.exec (hx : machine.Exec Numbered empty hist x) : OldFit hist x := by
  have hall : (HistoryOk hist x ∧ IdsOk hist x) ∧ OldFit hist x := by
    refine hx.induct (I := fun hist x => (HistoryOk hist x ∧ IdsOk hist x) ∧ OldFit hist x)
      ⟨⟨historyOk_empty, idsOk_empty⟩, fun w hw => absurd hw (not_up_booting w)⟩ ?_
    intro hist x l x' hi hg hs
    exact ⟨⟨hi.1.1.step hg.1 hs, hi.1.2.step hi.1.1 hg hs⟩, hi.2.step hi.1.1 hi.1.2 hs⟩
  exact hall.2

/-! ## What was logged stays logged -/

/-- The start that a run is in began in it, unless the store is still down. -/
theorem booted_of_up {G : World → Label → Prop} (hx : machine.Exec G x h x') (hp : x.phase = .down) :
    .booted ∈ h ∨ x'.phase = .down := by
  refine hx.induct (I := fun h x' => .booted ∈ h ∨ x'.phase = .down) (.inr hp) ?_
  intro h x l x' hi _ hs
  obtain hin | hdown := hi
  · exact .inl (List.mem_append_left _ hin)
  have hboot : l = .boot := by
    cases l with
    | boot => rfl
    | run l' =>
      obtain ⟨s', hr, -⟩ := Option.map_eq_some_iff.1 hs
      exact absurd hdown (runStep_some hr).2.1
    | _ =>
      simp only [machine, step, hdown] at hs
      cases hs
  subst hboot
  exact .inl (List.mem_append_right _ (List.mem_singleton.2 rfl))

/-- The events of a start that began in `h'` are among those of `h'`. -/
theorem thisStart_sublist {h' : List Event} (hb : .booted ∈ h') :
    (thisStart (h ++ h')).Sublist h' := by
  induction h' using List.reverseRecOn with
  | nil => cases hb
  | append_singleton h' e ih =>
    rw [← List.append_assoc]
    by_cases he : e = .booted
    · rw [he, thisStart_booted]
      exact List.nil_sublist _
    · have hb' : .booted ∈ h' := by
        rcases List.mem_append.1 hb with hin | hlast
        · exact hin
        · exact absurd (List.mem_singleton.1 hlast).symm he
      have hone : .booted ∉ [e] := fun hlast => he (List.mem_singleton.1 hlast).symm
      rw [thisStart_append (h ++ h') hone]
      exact (ih hb').append (List.Sublist.refl [e])

/-- What is logged when the store is down has room in the queues of every later start. -/
theorem room_of_running (hx : machine.Exec Numbered empty hist x) (hp : x.phase = .down)
    (hy : machine.Exec Numbered x h x') (hrun : x'.phase = .running) (w : Fin kMaxWriter) :
    (logged w hist).length ≤ kQueueSize := by
  have hall := hx.append hy
  have hup : Up x'.store w := by
    have hin := (IdsOk.exec hall).1.up
    rw [hrun] at hin
    exact hin w
  have hold := OldFit.exec hall w hup
  have hb : .booted ∈ h := by
    obtain hb | hdown := booted_of_up hy hp
    · exact hb
    · rw [hrun] at hdown
      cases hdown
  have hnow : (logged w (thisStart (hist ++ h))).length ≤ (logged w h).length := by
    exact (((thisStart_sublist hb).filterMap _).filterMap _).length_le
  unfold logged at hold hnow ⊢
  rw [storeEvents_append, loggedTo_append, List.length_append] at hold
  omega

/-! ## With room, a start comes through -/

/-- The store before clients may call, with room for everything that was logged. -/
structure Startable (hist : List Event) (x : World) : Prop where
  history : HistoryOk hist x
  ids : IdsOk hist x
  room : ∀ w, (logged w hist).length ≤ kQueueSize
  placed : ∀ n, x.phase = .starting n → n ≤ kMaxWriter

/-- How many steps of `init` are left. -/
def remaining (x : World) : ℕ :=
  match x.phase with
  | .down => 2 * kMaxWriter + 2
  | .starting n => 2 * (kMaxWriter - n) + 1
  | .replaying w _ _ => 2 * (kMaxWriter - w)
  | .running => 0

theorem Startable.next (hx : Startable hist x) (hl : ∀ l', l ≠ .run l') (hhalt : l ≠ .halt)
    (hs : x.step l = some x') (hplaced : ∀ n, x'.phase = .starting n → n ≤ kMaxWriter) :
    Numbered x l ∧ ∃ hist', Startable hist' x' := by
  have hg : Numbered x l := by
    refine ⟨?_, fun t key value del_flag hr => absurd hr (hl _)⟩
    cases l with
    | halt => exact absurd rfl hhalt
    | _ => trivial
  refine ⟨hg, hist ++ (x.event l).toList, hx.history.step hg.1 hs, hx.ids.step hx.history hg hs, ?_,
    hplaced⟩
  intro w
  rw [logged_init hl]
  exact hx.room w

/-- **Every phase of `init` has a step forward.** -/
theorem Startable.forward (hx : Startable hist x) (hp : x.phase ≠ .running) :
    ∃ l x', Numbered x l ∧ x.step l = some x' ∧ (∃ hist', Startable hist' x') ∧
      remaining x' < remaining x := by
  cases hphase : x.phase with
  | down =>
    have hs : x.step .boot = some ⟨x.disk, .starting 0, booting⟩ := by simp only [step, hphase]
    obtain ⟨hg, hnext⟩ := hx.next (by simp) (by simp) hs fun n hn => by
      cases hn
      exact Nat.zero_le _
    refine ⟨_, _, hg, hs, hnext, ?_⟩
    simp only [remaining, hphase]
    omega
  | starting n =>
    have hn := hx.placed n hphase
    by_cases hlast : n = kMaxWriter
    · have hs : x.step .ready =
          some { x with phase := .running, store := { x.store with idx_ := recoveredIdx x.store } } := by
        simp only [step, hphase, if_pos hlast]
      obtain ⟨hg, hnext⟩ := hx.next (by simp) (by simp) hs fun n hn => by cases hn
      refine ⟨_, _, hg, hs, hnext, ?_⟩
      simp only [remaining, hphase]
      omega
    · have hlt : n < kMaxWriter := by omega
      obtain ⟨segs, hlogs⟩ := hx.history.logs ⟨n, hlt⟩
      have hnew := hlogs.fresh _ (Nat.lt_succ_self segs.length)
      obtain ⟨logID, hid⟩ : ∃ id, getLogID x.disk n 1 (segs.length + 2) = some id :=
        getLogID_some hnew (by omega) (by omega)
      have hs : x.step (.openLog (segs.length + 2) [] [] []) = some { x with
          disk := Function.update x.disk (logFileName logID n) (some [])
          phase := .replaying ⟨n, hlt⟩ logID (.create [] [] []) } := by
        simp only [step, hphase, dif_pos hlt, hid, Option.map_some]
        rfl
      obtain ⟨hg, hnext⟩ := hx.next (by simp) (by simp) hs fun n hn => by cases hn
      refine ⟨_, _, hg, hs, hnext, ?_⟩
      simp only [remaining, hphase]
      omega
  | replaying w logID logfile =>
    obtain ⟨older, rfl, hall, hat⟩ := hx.history.old_logs hphase
    obtain ⟨hread, hlogs⟩ := hat fun e he => (hx.ids.sound w e he).1.readable
    have hroom : older.flatten.length ≤ kQueueSize := by
      rw [hall]
      exact hx.room w
    obtain ⟨q, ⟨fuel, hq⟩, -⟩ := construct_ok logfile slot0 (fun _ => []) w hread hlogs hroom
    have hret := hq fuel le_rfl
    simp only at hret
    have hs : x.step (.construct fuel slot0 fun _ => []) =
        some (x.built w (q.resolve (bufsFrom 1 older fun _ => []))) := by
      simp only [step, hphase, hret, Option.map_some]
      rfl
    obtain ⟨hg, hnext⟩ := hx.next (by simp) (by simp) hs fun n hn => by
      cases hn
      exact w.isLt
    refine ⟨_, _, hg, hs, hnext, ?_⟩
    have hw := w.isLt
    simp only [remaining, built, hphase]
    omega
  | running => exact absurd hphase hp

/-- **A store that is down can be started** exactly if no writer has logged more than `kQueueSize`
entries in all the starts before, each of which ended between two records that the reader's buffer
holds. -/
theorem startable_iff (hx : machine.Exec Numbered empty hist x) (hp : x.phase = .down) :
    machine.CanReach Numbered x (fun x' => x'.phase = .running) ↔
      ∀ w, (logged w hist).length ≤ kQueueSize := by
  constructor
  · rintro ⟨h, x', hy, hrun⟩ w
    exact room_of_running hx hp hy hrun w
  · intro hroom
    obtain ⟨hh, hi⟩ := IdsOk.exec hx
    have hplaced : ∀ n, x.phase = .starting n → n ≤ kMaxWriter := by
      intro n hn
      rw [hp] at hn
      cases hn
    have hstart : ∃ hist, Startable hist x := ⟨hist, hh, hi, hroom, hplaced⟩
    refine (Machine.CanReach.measure (I := fun x => ∃ hist, Startable hist x) remaining ?_
      hstart).mono fun x' hx' => hx'.2
    rintro y ⟨hist', hy⟩ hrun
    obtain ⟨l, y', hg, hs, hnext, hlt⟩ := hy.forward hrun
    exact .step hg hs (.refl ⟨hnext, hlt⟩)

/-- After two starts with a write in each there is a third one. -/
theorem startable_iff_restarts : ∃ x, machine.Exec Numbered empty restartEvents x ∧
    x.phase = .down ∧ machine.CanReach Numbered x fun x' => x'.phase = .running := by
  have hr : (machine.exec OneClient empty restarts).map (fun r => (r.1, r.2.remaining)) =
      some (restartEvents, 10) := by decide +kernel
  obtain ⟨⟨h, x⟩, hr, he⟩ := Option.map_eq_some_iff.1 hr
  obtain ⟨rfl, hrem⟩ := Prod.mk.inj he
  have hx := (Alone.exec (G := Numbered) (fun _ _ h hg => h.numbered hg) (Machine.exec_sound hr)).1
  have hp : x.phase = .down := by
    unfold remaining at hrem
    cases hphase : x.phase with
    | down => rfl
    | _ =>
      simp only [hphase, kMaxWriter] at hrem
      omega
  have hroom : ∀ w, (logged w restartEvents).length ≤ kQueueSize := by decide
  exact ⟨x, hx, hp, (startable_iff hx hp).2 hroom⟩

end World

end Yangkv
