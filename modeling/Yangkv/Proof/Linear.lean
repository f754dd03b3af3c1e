import Yangkv.Lib.Atomic
import Yangkv.Proof.ThinAir

/-!
# Writes take effect in one instant

A `setKey` or `delKey` takes effect where `push` counts its slot in. For the map from keys
to their last writes this is the one effect of the call, so the writes of any number of
threads are those of an atomic object.

* `phase_step`: the place of a thread in `setKey` is its phase in the operation.
* `writes_linearizable`: in every run each call takes effect once before it returns, and the
  queues and the map have the effects in one order.
-/

namespace Yangkv

open Lib

/-- A call of `setKey`. -/
structure Write where
  key : Bytes
  value : Bytes
  del_flag : Bool
  deriving DecidableEq

/-- The map of the last writes, as an atomic object. -/
def put (m : Bytes → Option Write) (op : Write) : (Bytes → Option Write) × Bytes :=
  (Function.update m op.key (some op), op.key)

/-- The call that an entry is from. -/
def writeOf (e : Entry) : Write := ⟨e.key.bytes, e.value.bytes, e.value_type⟩

/-- The phase of a thread. -/
def phaseOf : ClientPc → Atomic.Phase Write Bytes
  | .setCalled key value del_flag => .called ⟨key, value, del_flag⟩
  | .set .counted e => .done e.key.bytes
  | .set _ e => .called (writeOf e)
  | _ => .idle

namespace Store

/-- What a step does to the map. -/
def act (s : Store) : Label → Option (Act Tid Write Bytes)
  | .callSet t key value del_flag => some (.call t ⟨key, value, del_flag⟩)
  | .client t =>
    match s.client t with
    | .set .written e => some (.effect t (writeOf e))
    | .set .counted e => some (.ret t e.key.bytes)
    | _ => none
  | _ => none

variable {s s' : Store} {l : Label} {a : Atomic Tid (Bytes → Option Write) Write Bytes}

theorem phaseOf_reads {pc : ClientPc} {k : Bytes} (h : reads pc = some k) : phaseOf pc = .idle := by
  cases pc with
  | setCalled | set => cases h
  | _ => rfl

/-- **The place of a thread is its phase.** -/
theorem phase_step (hm : Move s l s') (ha : a.phase = phaseOf ∘ s.client) :
    ∃ a', follow (Atomic.next put) a (s.act l).toList = some a' ∧ a'.phase = phaseOf ∘ s'.client := by
  -- a step of `t` within its phase, or of no client
  have silent : ∀ {s' : Store}, s.act l = none → (∀ t, phaseOf (s'.client t) = phaseOf (s.client t)) →
      ∃ a', follow (Atomic.next put) a (s.act l).toList = some a' ∧
        a'.phase = phaseOf ∘ s'.client := by
    intro s' hact hp
    rw [hact]
    exact ⟨a, rfl, ha.trans (funext fun t => (hp t).symm)⟩
  have own : ∀ {t : Tid} {pc : ClientPc}, phaseOf pc = phaseOf (s.client t) →
      ∀ t', phaseOf (Function.update s.client t pc t') = phaseOf (s.client t') := by
    intro t pc hpc t'
    by_cases ht : t' = t
    · rw [ht, Function.update_self, hpc]
    · rw [Function.update_of_ne ht]
  -- a step of a writer, or of a client on its queue
  have client : ∀ {t : Tid} {pc : ClientPc}, s'.client = Function.update s.client t pc →
      s.act l = none → phaseOf pc = phaseOf (s.client t) →
      ∃ a', follow (Atomic.next put) a (s.act l).toList = some a' ∧
        a'.phase = phaseOf ∘ s'.client := by
    intro t pc hc hact hpc
    refine silent hact fun t' => ?_
    rw [hc]
    exact own hpc t'
  cases hm with
  | @callSet t key value del_flag ht =>
    have hp : a.phase t = .idle := by rw [ha, Function.comp_apply, ht]; rfl
    refine ⟨_, Atomic.follow_call hp, ?_⟩
    rw [ha, setClient_client, Function.comp_update]
    rfl
  | callGet ht => exact client rfl rfl (by rw [ht]; rfl)
  | take ht => exact client rfl (by simp only [act, ht]) (by rw [ht]; rfl)
  | lock ht | skip ht => exact client rfl (by simp only [act, ht]) (by rw [ht]; rfl)
  | size ht | append ht | flush ht | put ht =>
    exact client rfl (by simp only [act, ht]) (by rw [ht]; rfl)
  | wait ht => exact silent (by simp only [act, ht]) fun _ => rfl
  | @count t e q ht hq =>
    have hp : a.phase t = .called (writeOf e) := by rw [ha, Function.comp_apply, ht]; rfl
    have hact : (s.act (.client t)).toList = [.effect t (writeOf e)] := by
      simp only [act, ht, Option.toList_some]
    rw [hact]
    refine ⟨_, Atomic.follow_effect hp, ?_⟩
    show _ = phaseOf ∘ Function.update s.client t _
    rw [ha, Function.comp_update]
    rfl
  | @unlock t e ht =>
    have hp : a.phase t = .done e.key.bytes := by rw [ha, Function.comp_apply, ht]; rfl
    have hact : (s.act (.client t)).toList = [.ret t e.key.bytes] := by
      simp only [act, ht, Option.toList_some]
    rw [hact]
    refine ⟨_, Atomic.follow_ret hp, ?_⟩
    show _ = phaseOf ∘ Function.update s.client t _
    rw [ha, Function.comp_update]
    rfl
  | @get t key pc hr hpc =>
    have hphase : phaseOf pc = phaseOf (s.client t) := by
      rw [phaseOf_reads hr]
      obtain hpc | rfl := hpc
      · exact phaseOf_reads hpc
      · rfl
    refine client rfl ?_ hphase
    cases ht : s.client t with
    | setCalled | set =>
      rw [ht] at hr
      cases hr
    | _ => simp only [act, ht]
  | acquire | release | insert | pop | check | freeze | renew => exact silent rfl fun _ => rfl

/-- A step pushes an entry exactly if it is an effect. -/
theorem effect_cases (s : Store) (l : Label) :
    (effects (s.act l).toList = [] ∧ ∀ w, pushedTo w (s.event l).toList = []) ∨
      ∃ e, effects (s.act l).toList = [writeOf e] ∧
        ∀ w, pushedTo w (s.event l).toList = if home e = w then [e] else [] := by
  by_cases hw : ∃ t e, l = .client t ∧ s.client t = .set .written e
  · obtain ⟨t, e, rfl, ht⟩ := hw
    refine .inr ⟨e, ?_, fun w => ?_⟩
    · simp only [act, ht]
      rfl
    · rcases pushedTo_event w (s := s) (l := .client t) with hn | ⟨t', e', hl, ht', hn⟩
      · by_cases he : home e = w <;> simp [event, clientEvent, ht, pushedTo, he] at hn ⊢
      · cases hl
        rw [ht, ClientPc.set.injEq] at ht'
        rw [hn, ht'.2]
  · refine .inl ⟨?_, fun w => pushedTo_event_of_ne w fun t e hl ht => hw ⟨t, e, hl, ht⟩⟩
    cases l with
    | client t =>
      simp only [act]
      split
      · rename_i e ht
        exact absurd ⟨t, e, rfl, ht⟩ hw
      all_goals rfl
    | _ => rfl

end Store

/-! ## The database -/

namespace Database

/-- What a step does to the map. -/
def act (d : Database) : Label → Option (Act Tid Write Bytes)
  | .store l => d.store.act l
  | _ => none

abbrev ActHistory := List (Option Event × Option (Act Tid Write Bytes))

def shown (h : ActHistory) : List Event := h.filterMap Prod.fst

def acts (h : ActHistory) : List (Act Tid Write Bytes) := h.filterMap Prod.snd

variable {d d' d₀ : Database} {h : ActHistory}

theorem shown_append (h : ActHistory) (d : Database) (l : Label) :
    shown (h ++ ((machine.track act).event d l).toList) = shown h ++ (d.event l).toList := by
  unfold shown
  rw [List.filterMap_append]
  cases he : d.event l <;> simp [Machine.track, machine, he]

theorem acts_append (h : ActHistory) (d : Database) (l : Label) :
    acts (h ++ ((machine.track act).event d l).toList) = acts h ++ (d.act l).toList := by
  unfold acts
  rw [List.filterMap_append]
  cases he : d.act l <;> simp [Machine.track, machine, he]

/-- The map of what was replayed. -/
def replayed (d₀ : Database) : Atomic Tid (Bytes → Option Write) Write Bytes :=
  ⟨fun k => (lastFor (·.key.bytes) k (d₀.store.writer_ (writerOf k)).queue_.contents).map writeOf,
    fun _ => .idle⟩

/-- The map has the last write of every key, and the queues have the writes in the order of their
effects. -/
structure Linear (d₀ : Database) (h : ActHistory) (d : Database) : Prop where
  map : ∃ a, follow (Atomic.next put) (replayed d₀) (acts h) = some a ∧
    a.phase = phaseOf ∘ d.store.client ∧
    ∀ k, a.value k = (lastFor (·.key.bytes) k
      (allPushed d₀.store (writerOf k) (storeEvents (shown h)))).map writeOf
  queues : ∀ w, (effects (acts h)).filter (fun op => writerOf op.key = w) =
    (pushedTo w (storeEvents (shown h))).map writeOf

theorem Linear.advance (hl : Linear d₀ h d) (es : List Store.Event) {h' : ActHistory}
    {as : List (Act Tid Write Bytes)} (hacts : acts h' = acts h ++ as)
    (hshown : storeEvents (shown h') = storeEvents (shown h) ++ es)
    (hstep : ∀ a : Atomic Tid (Bytes → Option Write) Write Bytes, a.phase = phaseOf ∘ d.store.client →
      ∃ a', follow (Atomic.next put) a as = some a' ∧ a'.phase = phaseOf ∘ d'.store.client)
    (hcase : (effects as = [] ∧ ∀ w, pushedTo w es = []) ∨ ∃ e, effects as = [writeOf e] ∧
      ∀ w, pushedTo w es = if Store.home e = w then [e] else []) : Linear d₀ h' d' := by
  obtain ⟨a, ha, hphase, hvalue⟩ := hl.map
  obtain ⟨a', ha', hphase'⟩ := hstep a hphase
  have hval := Atomic.follow_value ha'
  have hpushed : ∀ w, allPushed d₀.store w (storeEvents (shown h')) =
      allPushed d₀.store w (storeEvents (shown h)) ++ pushedTo w es := by
    intro w
    unfold allPushed
    rw [hshown, pushedTo_append, List.append_assoc]
  have hops : effects (acts h') = effects (acts h) ++ effects as := by
    rw [hacts]
    exact List.filterMap_append
  refine ⟨⟨a', ?_, hphase', fun k => ?_⟩, fun w => ?_⟩
  · rw [hacts]
    exact follow_append ha ha'
  · rw [hpushed]
    rcases hcase with ⟨h1, h2⟩ | ⟨e, h1, h2⟩
    · rw [hval, h1, h2, List.append_nil]
      exact hvalue k
    · rw [hval, h1, h2]
      show Function.update a.value e.key.bytes (some (writeOf e)) k = _
      by_cases hk : k = e.key.bytes
      · subst hk
        rw [Function.update_self, Store.home, if_pos rfl, lastFor_snoc, if_pos rfl]
        rfl
      · rw [Function.update_of_ne hk, hvalue k]
        split
        · rw [lastFor_snoc, if_neg (Ne.symm hk)]
        · rw [List.append_nil]
  · rw [hops, List.filter_append, hl.queues, hshown, pushedTo_append, List.map_append]
    rcases hcase with ⟨h1, h2⟩ | ⟨e, h1, h2⟩
    · rw [h1, h2]
      rfl
    · rw [h1, h2]
      by_cases hw : Store.home e = w
      · have hw' : writerOf (writeOf e).key = w := hw
        simp [hw, hw']
      · have hw' : ¬ writerOf (writeOf e).key = w := hw
        simp [hw, hw']

/-- **Every step of the database is a step of the map, or none.** -/
theorem Linear.step (hl : Linear d₀ h d) {l : Label} (hs : d.step l = some d') :
    Linear d₀ (h ++ ((machine.track act).event d l).toList) d' := by
  -- a step that no client takes
  have quiet : d.act l = none → storeEvents (d.event l).toList = [] →
      d'.store.client = d.store.client →
      Linear d₀ (h ++ ((machine.track act).event d l).toList) d' := by
    intro hact hev hc
    refine hl.advance (storeEvents (d.event l).toList) (acts_append h d l) ?_ ?_ ?_
    · rw [shown_append]
      exact List.filterMap_append
    · intro a ha
      rw [hact, hc]
      exact ⟨a, rfl, ha⟩
    · rw [hact, hev]
      exact .inl ⟨rfl, fun _ => rfl⟩
  cases l with
  | store l =>
    by_cases hw : ∀ w, l ≠ .writer w
    · have hev := event_store (d := d) hw
      rw [step_store hw] at hs
      obtain ⟨s', hs', rfl⟩ := Option.map_eq_some_iff.1 hs
      refine hl.advance (d.store.event l).toList (acts_append h d _) ?_
        (fun a ha => Store.phase_step (Store.step_move hs') ha) (Store.effect_cases d.store l)
      rw [shown_append, hev, ← storeEvents_map]
      exact List.filterMap_append
    · push Not at hw
      obtain ⟨w, rfl⟩ := hw
      have hev : storeEvents (d.event (.store (.writer w))).toList = [] := by
        refine storeEvents_event fun l' hl => ?_
        cases hl
        exact ⟨w, rfl⟩
      refine quiet rfl hev ?_
      by_cases hp : (d.store.writer_ w).pc = .full
      · cases freeze_move hp hs <;> rfl
      · rw [step_writer hp] at hs
        obtain ⟨s', hs', rfl⟩ := Option.map_eq_some_iff.1 hs
        exact (Store.writerStep_move hs').client_of_writer
  | wake w =>
    refine quiet rfl rfl ?_
    cases wake_move hs <;> rfl
  | compacter opened =>
    refine quiet rfl (storeEvents_event fun l' hl => by cases hl) ?_
    cases compact_move hs <;> rfl

variable {t : Tid} {op : Write} {k : Bytes}

/-- **Writes are atomic.** In every run of clients, writers and compacter, the calls and returns of
`setKey` are those of an atomic map of last writes: each call takes effect once before it returns,
each queue receives the writes in the order of their effects, and the map has the last entry that
was pushed for every key. -/
theorem writes_linearizable (h0 : ∀ t, d₀.store.client t = .idle)
    (hx : (machine.track act).Exec Machine.Any d₀ h d) :
    (∃ a, follow (Atomic.next put) (replayed d₀) (acts h) = some a ∧
      ∀ k, a.value k = (lastFor (·.key.bytes) k
        (allPushed d₀.store (writerOf k) (storeEvents (shown h)))).map writeOf) ∧
    (∀ w, (effects (acts h)).filter (fun op => writerOf op.key = w) =
      (pushedTo w (storeEvents (shown h))).map writeOf) ∧
    ∀ h₁ h₂ h₃ t op k, acts h = h₁ ++ .call t op :: (h₂ ++ .ret t k :: h₃) → Within t h₂ →
      k = op.key ∧ ∃ l₁ l₂, h₂ = l₁ ++ .effect t op :: l₂ ∧
        (∀ a ∈ l₁, a.thread ≠ t) ∧ ∀ a ∈ l₂, a.thread ≠ t := by
  have hlin : Linear d₀ h d := by
    refine hx.induct (I := Linear d₀) ⟨⟨replayed d₀, rfl, ?_, fun k => ?_⟩, fun _ => rfl⟩
      fun h d l d' hl _ hs => hl.step hs
    · funext t
      rw [Function.comp_apply, h0 t]
      rfl
    · show _ = (lastFor _ k (_ ++ [])).map writeOf
      rw [List.append_nil]
      rfl
  obtain ⟨a, ha, -, hvalue⟩ := hlin.map
  refine ⟨⟨a, ha, hvalue⟩, hlin.queues, fun h₁ h₂ h₃ t op k heq hw => ?_⟩
  rw [heq] at ha
  obtain ⟨l₁, l₂, h1, h2, h3, h4⟩ := Atomic.effect_once ha hw
  exact ⟨h4, l₁, l₂, h1, h2, h3⟩

/-- The two writes of `turnover`: the call that comes second takes effect first. -/
def turnoverActs : List (Act Tid Write Bytes) :=
  [.call 0 ⟨[97], [98], false⟩, .call 1 ⟨[97], [99], false⟩, .effect 1 ⟨[97], [99], false⟩,
    .ret 1 [97], .effect 0 ⟨[97], [98], false⟩, .ret 0 [97]]

theorem writes_linearizable_turnover : ∃ h d a,
    (machine.track act).Exec Machine.Any replayedDatabase h d ∧ acts h = turnoverActs ∧
      follow (Atomic.next put) (replayed replayedDatabase) (acts h) = some a ∧
      a.value [97] = some ⟨[97], [98], false⟩ ∧ a.value [101] = some ⟨[101], [3], false⟩ ∧
      (pushedTo 2 (storeEvents (shown h))).map writeOf =
        [⟨[97], [99], false⟩, ⟨[97], [98], false⟩] := by
  have hr : ((machine.track act).exec Machine.Any replayedDatabase turnover).map (fun r =>
      decide (acts r.1 = turnoverActs ∧
        (lastEntry (storeEvents (shown r.1)) [97]).map writeOf = some ⟨[97], [98], false⟩ ∧
        (lastEntry (storeEvents (shown r.1)) [101]).map writeOf = some ⟨[101], [3], false⟩)) =
      some true := by
    decide +kernel
  obtain ⟨h, d, hx, hacts, hnew, hold⟩ := Machine.exec_check hr
  obtain ⟨⟨a, ha, hvalue⟩, hqueues, -⟩ :=
    writes_linearizable replayedDatabase_started.store.client hx
  refine ⟨h, d, a, hx, hacts, ha, (hvalue [97]).trans hnew, (hvalue [101]).trans hold, ?_⟩
  have heffects : effects turnoverActs =
      [⟨[97], [99], false⟩, ⟨[97], [98], false⟩] := rfl
  rw [← hqueues 2, show acts h = turnoverActs from hacts, heffects]
  decide

end Database

end Yangkv
