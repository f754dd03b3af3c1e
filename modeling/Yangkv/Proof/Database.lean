import Yangkv.Lib.Generations
import Yangkv.Lib.Refinement
import Yangkv.Proof.AppendMoves
import Yangkv.Proof.Layers
import Yangkv.Spec.Database

/-!
# The running database as generations of entries

What is pushed to a writer goes from its queue into the active list, is frozen with it,
and is gone for readers once a compaction has replaced the version.

* `Shelved`: the queue, the active list and the frozen lists of a writer hold its
  generations, at every place of its thread in `AppendFrozenList`.
* `Ok.step`: every step of the database is a step of the generations, or none.
* `database_refines`: in every run the pushed entries of a writer are its generations,
  oldest first, and a lookup finds the last entry that is not gone.
-/

namespace Yangkv

open Lib

/-! ## Steps outside the writers -/

/-- A client adds to the end of its queue, and changes nothing else of the pipeline. -/
theorem Store.Move.outside {s s' : Store} {l : Store.Label} (hm : Store.Move s l s')
    (hc : s.ClientsOk) (hl : ∀ w, l ≠ .writer w) (w : Fin kMaxWriter) :
    (s'.writer_ w).queue_.contents =
        (s.writer_ w).queue_.contents ++ pushedTo w (s.event l).toList ∧
      (s'.writer_ w).list_ = (s.writer_ w).list_ ∧ (s'.writer_ w).pc = (s.writer_ w).pc ∧
      s'.current_ = s.current_ := by
  -- a step that shows no push
  have quiet : (∀ t e, l = .client t → s.client t ≠ .set .written e) →
      (s'.writer_ w).queue_.contents = (s.writer_ w).queue_.contents →
      (s'.writer_ w).queue_.contents =
        (s.writer_ w).queue_.contents ++ pushedTo w (s.event l).toList := by
    intro hne hq
    rw [hq, pushedTo_event_of_ne w hne, List.append_nil]
  cases hm with
  | callSet | callGet =>
    exact ⟨quiet (by intro t e ht; cases ht) rfl, rfl, rfl, rfl⟩
  | take ht | wait ht | skip ht =>
    refine ⟨quiet ?_ rfl, rfl, rfl, rfl⟩
    intro t e hl
    cases hl
    rw [ht]
    simp
  | get ht =>
    refine ⟨quiet ?_ rfl, rfl, rfl, rfl⟩
    intro t e hl hc
    cases hl
    rw [hc] at ht
    simp [reads] at ht
  | lock ht | unlock ht | size ht | append ht | flush ht =>
    refine ⟨quiet ?_ (keeps_field (·.queue_.contents) rfl rfl), keeps_field (·.list_) rfl rfl,
      keeps_field (·.pc) rfl rfl, rfl⟩
    intro t e hl
    cases hl
    rw [ht]
    simp
  | put ht hf =>
    refine ⟨quiet ?_ (keeps_field (·.queue_.contents) rfl (MessageQueue.contents_put hf)),
      keeps_field (·.list_) rfl rfl, keeps_field (·.pc) rfl rfl, rfl⟩
    intro t e hl
    cases hl
    rw [ht]
    simp
  | @count t e q ht hq =>
    have hev : pushedTo w (s.event (.client t)).toList = if home e = w then [e] else [] := by
      by_cases hw : home e = w <;> simp [event, clientEvent, ht, pushedTo, hw]
    refine ⟨?_, keeps_field (·.list_) rfl rfl, keeps_field (·.pc) rfl rfl, rfl⟩
    rw [hev]
    simp only [onQueue, setClient_writer, setWriter_writer, Function.update_apply]
    by_cases he : w = home e
    · subst he
      rw [if_pos rfl, if_pos rfl, MessageQueue.contents_advance hq, hc.slot t e ht]
    · rw [if_neg he, if_neg (Ne.symm he), List.append_nil]
  | acquire | release | insert | pop | check | freeze | renew => exact absurd rfl (hl _)

/-! ## One writer -/

/-- The list that a thread in `AppendFrozenList` was called with, up to its `AppendList`. -/
def AppendPc.list {L : Type} : AppendPc L → Option L
  | .called list | .locked list | .tested list | .waiting list | .woken list | .resumed list
  | .cleared list => some list
  | .idle | .appended => none

/-- At its `AppendList`. -/
def AppendPc.appends {L : Type} : AppendPc L → Bool
  | .resumed _ | .cleared _ => true
  | _ => false

/-- The active list is already in a version. -/
def Moved (pc : WriterPc) (ap : AppendPc SkipList) : Prop :=
  pc = .frozen ∨ pc = .full ∧ ap = .appended

/-- The generations of a writer, in its queue and its lists. All entries in them are in `S`. -/
structure Shelved (S : Entry → Prop) (g : Generations Entry) (wr : Writer) (ap : AppendPc SkipList)
    (lists : List SkipList) : Prop where
  ahead : wr.pc.ahead ≤ wr.queue_.contents.length
  queued : g.queued = wr.queue_.contents.drop wr.pc.ahead
  from_queue : ∀ e ∈ g.queued, S e
  active : ¬ Moved wr.pc ap → ∀ k, wr.list_.find k = lastFor (·.key.bytes) k g.active
  moved : Moved wr.pc ap → g.active = []
  from_list : wr.list_.From S
  frozen : ∀ k, layered (lists.reverse.map SkipList.find) k = lastFor (·.key.bytes) k g.frozen
  from_lists : ∀ l ∈ lists, l.From S
  outside : wr.pc ≠ .full → ap = .idle
  carried : ∀ list, ap.list = some list → list = wr.list_

namespace Shelved

variable {S : Entry → Prop} {g : Generations Entry} {wr wr' : Writer} {ap ap' : AppendPc SkipList}
  {lists : List SkipList}

/-- Entries are pushed behind the others, or none are. -/
theorem push (h : Shelved S g wr ap lists) {es : List Entry} (hes : ∀ e ∈ es, S e)
    (hq : wr'.queue_.contents = wr.queue_.contents ++ es) (hl : wr'.list_ = wr.list_)
    (hp : wr'.pc = wr.pc) : Shelved S { g with queued := g.queued ++ es } wr' ap lists := by
  have hahead : wr'.pc.ahead ≤ wr'.queue_.contents.length := by
    rw [hp, hq, List.length_append]
    have := h.ahead
    omega
  have hqueued : g.queued ++ es = wr'.queue_.contents.drop wr'.pc.ahead := by
    rw [hp, hq, List.drop_append_of_le_length h.ahead, h.queued]
  refine ⟨hahead, hqueued, ?_, ?_, ?_, ?_, h.frozen, h.from_lists, ?_, ?_⟩
  · intro e he
    obtain he | he := List.mem_append.1 he
    · exact h.from_queue e he
    · exact hes e he
  · rw [hp, hl]
    exact h.active
  · rw [hp]
    exact h.moved
  · rw [hl]
    exact h.from_list
  · rw [hp]
    exact h.outside
  · rw [hl]
    exact h.carried

/-- The writer goes on without touching an entry. -/
theorem goOn (h : Shelved S g wr ap lists) {pc : WriterPc} (ha : wr.pc.ahead = 0)
    (ha' : pc.ahead = 0) (hm : Moved pc ap' ↔ Moved wr.pc ap) (ho : pc ≠ .full → ap' = .idle)
    (hc : ∀ list, ap'.list = some list → list = wr.list_) :
    Shelved S g { wr with pc := pc } ap' lists := by
  have hqueued : g.queued = wr.queue_.contents.drop pc.ahead := by rw [ha', h.queued, ha]
  refine ⟨by rw [ha']; exact Nat.zero_le _, hqueued, h.from_queue, ?_, ?_, h.from_list, h.frozen,
    h.from_lists, ho, hc⟩
  · intro hn
    exact h.active fun hmoved => hn (hm.2 hmoved)
  · intro hmoved
    exact h.moved (hm.1 hmoved)

theorem insert (h : Shelved S g wr ap lists) (hS : ∀ e, S e → e.Bounded) {front : Entry}
    {list : SkipList} (hp : wr.pc = .loop) (hf : wr.queue_.contents.head? = some front)
    (hl : wr.list_.insert front = some list) :
    g.queued.head? = some front ∧
      Shelved S g.insert { wr with list_ := list, pc := .inserted } ap lists := by
  have hnot : ¬ Moved wr.pc ap := by
    rw [hp]
    rintro (hm | hm)
    · cases hm
    · cases hm.1
  have hnot' : ¬ Moved .inserted ap := by
    rintro (hm | hm)
    · cases hm
    · cases hm.1
  have hidle : ap = .idle := h.outside (by rw [hp]; simp)
  obtain ⟨rest, hc⟩ := List.head?_eq_some_iff.1 hf
  have hq : g.queued = front :: rest := by
    rw [h.queued, hp, hc]
    exact List.drop_zero
  have hfront : S front := h.from_queue front (by rw [hq]; exact List.mem_cons_self)
  refine ⟨by rw [hq]; rfl, ⟨?_, ?_, ?_, fun _ k => ?_, fun hm => absurd hm hnot',
    h.from_list.insert hfront hl, h.frozen, h.from_lists, fun _ => hidle, ?_⟩⟩
  · show 1 ≤ wr.queue_.contents.length
    rw [hc, List.length_cons]
    omega
  · show g.queued.drop 1 = wr.queue_.contents.drop 1
    rw [hq, hc]
  · intro e he
    exact h.from_queue e (List.mem_of_mem_drop he)
  · show list.find k = lastFor (·.key.bytes) k (g.active ++ g.queued.take 1)
    rw [hq, List.take_succ_cons, List.take_zero, lastFor_snoc, SkipList.insert_find (hS _ hfront) hl,
      h.active hnot]
  · intro l hl'
    rw [hidle] at hl'
    cases hl'

theorem pop (h : Shelved S g wr ap lists) {q : MessageQueue Slice} (hp : wr.pc = .inserted)
    (hq : q.contents = wr.queue_.contents.tail) :
    Shelved S g { wr with queue_ := q, pc := .popped } ap lists := by
  have hnot : ¬ Moved wr.pc ap := by
    rw [hp]
    rintro (hm | hm)
    · cases hm
    · cases hm.1
  have hqueued : g.queued = q.contents.drop WriterPc.popped.ahead := by
    rw [h.queued, hp, hq, ← List.drop_one]
    rfl
  refine ⟨Nat.zero_le _, hqueued, h.from_queue, fun _ => h.active hnot, ?_, h.from_list, h.frozen,
    h.from_lists, ?_, h.carried⟩
  · rintro (hm | hm)
    · cases hm
    · cases hm.1
  · intro _
    exact h.outside (by rw [hp]; simp)

/-- `AppendList`. -/
theorem freeze (h : Shelved S g wr ap lists) (hp : wr.pc = .full) {list : SkipList}
    (hl : ap.list = some list) : Shelved S g.freeze wr .appended (lists ++ [list]) := by
  have hlist : list = wr.list_ := h.carried list hl
  have hnot : ¬ Moved wr.pc ap := by
    rintro (hm | hm)
    · rw [hp] at hm
      cases hm
    · rw [hm.2] at hl
      cases hl
  refine ⟨h.ahead, h.queued, h.from_queue, fun hn => absurd (.inr ⟨hp, rfl⟩) hn, fun _ => rfl,
    h.from_list, fun k => ?_, ?_, fun hne => absurd hp hne, fun l hl => by cases hl⟩
  · show _ = lastFor (·.key.bytes) k (g.frozen ++ g.active)
    rw [List.reverse_append, List.reverse_singleton, List.singleton_append, List.map_cons,
      layered_cons, lastFor_append, h.frozen, hlist, h.active hnot]
  · intro l hmem
    obtain hmem | hmem := List.mem_append.1 hmem
    · exact h.from_lists l hmem
    · rw [List.mem_singleton.1 hmem, hlist]
      exact h.from_list

theorem renew (h : Shelved S g wr ap lists) (hp : wr.pc = .frozen) :
    Shelved S g { wr with list_ := .empty, pc := .loop } ap lists := by
  have hidle : ap = .idle := h.outside (by rw [hp]; simp)
  have hactive : g.active = [] := h.moved (.inl hp)
  have hqueued : g.queued = wr.queue_.contents.drop WriterPc.loop.ahead := by
    rw [h.queued, hp]
    rfl
  refine ⟨Nat.zero_le _, hqueued, h.from_queue, fun _ k => ?_, fun _ => hactive,
    SkipList.from_empty, h.frozen, h.from_lists, fun _ => hidle, fun l hl => ?_⟩
  · rw [hactive, lastFor_nil]
    exact SkipList.find_empty k
  · rw [hidle] at hl
    cases hl

/-- `AppendVersion`. -/
theorem drop (h : Shelved S g wr ap lists) : Shelved S g.drop wr ap [] :=
  ⟨h.ahead, h.queued, h.from_queue, h.active, h.moved, h.from_list, fun _ => rfl,
    fun _ hl => absurd hl List.not_mem_nil, h.outside, h.carried⟩

end Shelved

/-! ## What one step of the database can do -/

namespace Database

/-- The steps of the writer `w` in `AppendFrozenList`, and its spurious wake-up. -/
inductive FreezeMove (d : Database) (w : Fin kMaxWriter) : Database → Prop
  | call : (d.store.writer_ w).pc = .full → d.append w = .idle →
      FreezeMove d w { d with
        append := Function.update d.append w (.called (d.store.writer_ w).list_) }
  | within {list ap lock} : (d.append w).appends = false → (d.append w).list = some list →
      ap.list = some list →
      FreezeMove d w { d with append := Function.update d.append w ap, compact_lock_ := lock }
  | append {list} : (d.store.writer_ w).pc = .full →
      d.append w = .resumed list ∨ d.append w = .cleared list →
      FreezeMove d w { d with
        store := { d.store with current_ := d.store.current_.appendList list w }
        append := Function.update d.append w .appended }
  | unlock : (d.store.writer_ w).pc = .full → d.append w = .appended →
      FreezeMove d w { d with
        store := d.store.setWriter w { d.store.writer_ w with pc := .frozen }
        append := Function.update d.append w .idle
        compact_lock_ := none }

/-- The steps of the compacter. -/
inductive CompactMove (d : Database) (opened : Option WritableFile) : Database → Prop
  | test {pc} : d.compacter = .test → pc = .compact ∨ pc = .test →
      CompactMove d opened { d with compacter := pc }
  | build {s c file edit} : d.compacter = .compact →
      d.compacter_.compactEnv d.store.current_ opened ⟨[]⟩ = some (s, c, file, edit) →
      CompactMove d opened { d with
        compacter_ := c
        compacter := .apply d.store.current_.list_ edit
        disk := Function.update d.disk (tableFileName c.file_seq_num_) (some file.fd) }
  | apply {merged edit} : d.compacter = .apply merged edit →
      CompactMove d opened { d with
        compacter := .appendVersion merged (Version.new.apply d.store.current_ edit) }
  | install {merged v} : d.compacter = .appendVersion merged v →
      CompactMove d opened { d with
        store := { d.store with current_ := v }
        compacter := .broadcast }
  | broadcast : d.compacter = .broadcast →
      CompactMove d opened { d with
        append := fun w => VersionSet.awake (d.append w)
        compacter := .test }

variable {d d' : Database} {w : Fin kMaxWriter} {opened : Option WritableFile}

theorem locked_step {v : VersionSet SkipList} {list : SkipList} (h : v.writer w = .locked list) :
    ∃ pc, pc.list = some list ∧ v.writerStep w = some (v.setWriter w pc) := by
  refine ⟨if v.current_.isFull then .tested list else .cleared list, ?_, ?_⟩
  · split <;> rfl
  · simp only [VersionSet.writerStep, h]

theorem freeze_move (hp : (d.store.writer_ w).pc = .full) (hs : d.writerStep w = some d') :
    FreezeMove d w d' := by
  simp only [writerStep, hp, if_true] at hs
  cases ha : d.append w with
  | idle =>
    simp only [ha, Option.some.injEq] at hs
    subst hs
    exact .call hp ha
  | appended =>
    simp only [ha, VersionSet.writerStep, set_, Option.map_some, Option.some.injEq] at hs
    subst hs
    exact .unlock hp ha
  | called list | woken list =>
    simp only [ha, VersionSet.writerStep, set_, Option.map_eq_some_iff] at hs
    obtain ⟨v, hv, rfl⟩ := hs
    rw [(VersionSet.lock_some hv).2]
    exact .within (by rw [ha]; rfl) (by rw [ha]; rfl) rfl
  | locked list =>
    obtain ⟨pc, hpc, hv⟩ := locked_step (v := d.set_) ha
    simp only [ha, hv, Option.map_some, Option.some.injEq] at hs
    subst hs
    exact .within (by rw [ha]; rfl) (by rw [ha]; rfl) hpc
  | tested list =>
    simp only [ha, VersionSet.writerStep, set_, Option.map_some, Option.some.injEq] at hs
    subst hs
    have hl : (d.append w).list = some list := by rw [ha]; rfl
    exact .within (by rw [ha]; rfl) hl rfl
  | waiting list =>
    simp only [ha, VersionSet.writerStep, set_, Option.map_none, reduceCtorEq] at hs
  | resumed list | cleared list =>
    simp only [ha, VersionSet.writerStep, set_, Option.map_some, Option.some.injEq] at hs
    subst hs
    refine .append hp ?_
    rw [ha]
    simp

theorem wake_move (hs : d.step (.wake w) = some d') : FreezeMove d w d' := by
  simp only [step] at hs
  split at hs
  · rename_i list ha
    cases hs
    have hl : (d.append w).list = some list := by rw [ha]; rfl
    exact .within (by rw [ha]; rfl) hl rfl
  · cases hs

theorem compact_move (hs : d.compacterStep opened = some d') : CompactMove d opened d' := by
  unfold compacterStep at hs
  split at hs
  · rename_i hc
    obtain ⟨⟨s, c, file, edit⟩, hr, rfl⟩ := Option.map_eq_some_iff.1 hs
    exact .build hc hr
  · rename_i hne
    cases hc : d.compacter with
    | compact => exact absurd hc hne
    | test =>
      simp only [VersionSet.compacterStep, set_, hc, Option.some.injEq] at hs
      subst hs
      refine .test hc ?_
      split
      · exact .inl rfl
      · exact .inr rfl
    | apply merged edit =>
      simp only [VersionSet.compacterStep, set_, hc, Option.some.injEq] at hs
      subst hs
      exact .apply hc
    | appendVersion merged v =>
      simp only [VersionSet.compacterStep, set_, hc, Option.some.injEq] at hs
      subst hs
      exact .install hc
    | broadcast =>
      simp only [VersionSet.compacterStep, set_, hc, Option.some.injEq] at hs
      subst hs
      exact .broadcast hc

/-! ## All writers -/

/-- What an event says about the generations of the writers. -/
def next (g : Fin kMaxWriter → Generations Entry) :
    Event → Option (Fin kMaxWriter → Generations Entry)
  | .store (.pushed w e) => some (Function.update g w ((g w).push e))
  | .store _ => some g
  | .inserted w e =>
    if (g w).queued.head? = some e then some (Function.update g w (g w).insert) else none
  | .appended w => some (Function.update g w (g w).freeze)
  | .replaced => some fun w => (g w).drop

/-- The events of the clients. -/
def storeEvents (h : List Event) : List Store.Event :=
  h.filterMap fun
    | .store e => some e
    | _ => none

/-- The database as `init` leaves it. -/
structure Started (d : Database) : Prop where
  store : d.store.Started
  append : ∀ w, d.append w = .idle
  compacter : d.compacter = .test

/-- The bounds of `Store.SizedStep`. -/
def SizedStep (d : Database) : Label → Prop
  | .store l => d.store.SizedStep l
  | _ => True

/-- An entry that its encoding holds, at its writer. -/
def Good (w : Fin kMaxWriter) (e : Entry) : Prop := e.Bounded ∧ writerOf e.key.bytes = w

/-- The invariant of the running database. -/
structure Ok (g : Fin kMaxWriter → Generations Entry) (d : Database) : Prop where
  clients : d.store.ClientsOk
  called : ∀ t key value del_flag, d.store.client t = .setCalled key value del_flag →
    key.length + 9 < 2 ^ 32 ∧ value.length + 1 < 2 ^ 32
  entry : ∀ t p e, d.store.client t = .set p e → e.Bounded
  shelved : ∀ w, Shelved (Good w) (g w) (d.store.writer_ w) (d.append w) (d.store.current_.list_ w)
  installs : ∀ merged v, d.compacter = .appendVersion merged v → v.list_ = fun _ => []

variable {g : Fin kMaxWriter → Generations Entry}

theorem Started.ok (h : Started d) :
    Ok (fun w => .start (d.store.writer_ w).queue_.contents) d := by
  have hs := h.store.ok
  refine ⟨hs.clients, hs.called, hs.entry, fun w => ?_, fun merged v hv => ?_⟩
  · have hpc := h.store.pc w
    have hap := h.append w
    have hnot : ¬ Moved (d.store.writer_ w).pc (d.append w) := by
      rw [hpc, hap]
      rintro (hm | hm)
      · cases hm
      · cases hm.1
    refine ⟨by rw [hpc]; exact Nat.zero_le _, by rw [hpc]; rfl, ?_, ?_, fun hm => absurd hm hnot, ?_,
      ?_, ?_, fun _ => hap, fun l hl => ?_⟩
    · intro e he
      exact ⟨(h.store.replayed w e he).1, (h.store.replayed w e he).2.1⟩
    · intro _ k
      rw [h.store.list w]
      exact SkipList.find_empty k
    · rw [h.store.list w]
      exact SkipList.from_empty
    · intro k
      rw [h.store.current]
      rfl
    · rw [h.store.current]
      exact fun l hl => absurd hl List.not_mem_nil
    · rw [hap] at hl
      cases hl
  · rw [h.compacter] at hv
    cases hv

/-- A step of one writer leaves the others as they are. -/
theorem shelved_update {writer_ : Fin kMaxWriter → Writer} {append : Fin kMaxWriter → AppendPc SkipList}
    {list_ : Fin kMaxWriter → List SkipList} {g' : Generations Entry} {wr : Writer}
    {ap : AppendPc SkipList} {lists : List SkipList}
    (h : ∀ w, Shelved (Good w) (g w) (writer_ w) (append w) (list_ w))
    (hw : Shelved (Good w) g' wr ap lists) (w' : Fin kMaxWriter) :
    Shelved (Good w') (Function.update g w g' w') (Function.update writer_ w wr w')
      (Function.update append w ap w') (Function.update list_ w lists w') := by
  by_cases he : w' = w
  · subst he
    simp only [Function.update_self]
    exact hw
  · simp only [Function.update_of_ne he]
    exact h w'

theorem follow_client (s : Store) (l : Store.Label) :
    follow next g ((s.event l).map Event.store).toList =
      some fun w => { g w with queued := (g w).queued ++ pushedTo w (s.event l).toList } := by
  cases hl : s.event l with
  | none => simp [pushedTo]
  | some e =>
    rw [Option.map_some, Option.toList_some, follow_singleton]
    cases e with
    | pushed w₀ e =>
      simp only [next, Option.some.injEq]
      funext w
      by_cases hw : w = w₀
      · subst hw
        simp [pushedTo, Generations.push]
      · simp [Function.update_of_ne hw, pushedTo, Ne.symm hw]
    | _ => simp [next, pushedTo]

theorem Ok.client (h : Ok g d) {l : Store.Label} {s' : Store} (hg : d.store.SizedStep l)
    (hl : ∀ w, l ≠ .writer w) (hs : d.store.step l = some s') :
    ∃ g', follow next g ((d.store.event l).map Event.store).toList = some g' ∧
      Ok g' (d.withStore s') := by
  have hm := Store.step_move hs
  have hidx : d.store.idx_ < 2 ^ 56 := by
    cases l with
    | callSet => exact hg.1
    | callGet | client => exact hg
    | writer w => exact absurd rfl (hl w)
  refine ⟨_, follow_client d.store l, h.clients.step hm, fun t k v f ht => ?_, fun t p e ht => ?_,
    fun w => ?_, h.installs⟩
  · rcases hm.called_cases ht with h1 | rfl
    · exact h.called t k v f h1
    · exact hg.2
  · rcases hm.set_cases ht with ⟨p', h1⟩ | ⟨k, v, f, h1, rfl, -⟩
    · exact h.entry t p' e h1
    · obtain ⟨h2, h3⟩ := h.called t k v f h1
      exact ⟨⟨h2, h3⟩, hidx⟩
  · obtain ⟨h1, h2, h3, h4⟩ := hm.outside h.clients hl w
    have hnew : ∀ e ∈ pushedTo w (d.store.event l).toList, Good w e := by
      intro e he
      rcases Store.pushedTo_event w (s := d.store) (l := l) with hn | ⟨t, e', -, ht, hn⟩
      · rw [hn] at he
        cases he
      · rw [hn] at he
        split at he
        · rename_i hw
          rw [List.mem_singleton.1 he]
          exact ⟨h.entry t _ e' ht, hw⟩
        · cases he
    have := (h.shelved w).push hnew h1 h2 h3
    rw [← h4] at this
    exact this

/-- A step of a writer outside `AppendFrozenList`. -/
theorem Ok.writer (h : Ok g d) {s' : Store} (hp : (d.store.writer_ w).pc ≠ .full)
    (hs : d.store.writerStep w = some s') :
    ∃ g', follow next g (d.writerEvent w).toList = some g' ∧ Ok g' (d.withStore s') := by
  have hm := Store.writerStep_move hs
  have hw := h.shelved w
  have hap : d.append w = .idle := hw.outside hp
  -- the writer is `wr` now, and shows `g'`
  have own : ∀ {g' : Generations Entry} {wr : Writer} {s' : Store},
      Store.Move d.store (.writer w) s' → s' = d.store.setWriter w wr →
      Shelved (Good w) g' wr (d.append w) (d.store.current_.list_ w) →
      Ok (Function.update g w g') (d.withStore s') := by
    intro g' wr s' hm' hs' hwr
    have hclient := hm'.client_of_writer
    have hupd := shelved_update h.shelved hwr
    rw [Function.update_eq_self, Function.update_eq_self] at hupd
    refine ⟨h.clients.step hm', ?_, ?_, ?_, h.installs⟩
    · intro t k v f ht
      exact h.called t k v f (hclient ▸ ht)
    · intro t p e ht
      exact h.entry t p e (hclient ▸ ht)
    · subst hs'
      exact hupd
  -- a step that shows nothing
  have silent : ∀ {wr : Writer}, d.writerEvent w = none →
      Shelved (Good w) (g w) wr (d.append w) (d.store.current_.list_ w) →
      Store.Move d.store (.writer w) (d.store.setWriter w wr) →
      ∃ g', follow next g (d.writerEvent w).toList = some g' ∧
        Ok g' (d.withStore (d.store.setWriter w wr)) := by
    intro wr hev hwr hm'
    rw [hev]
    refine ⟨g, rfl, ?_⟩
    have := own hm' rfl hwr
    rw [Function.update_eq_self] at this
    exact this
  have hcar : ∀ list, (d.append w).list = some list → list = (d.store.writer_ w).list_ := hw.carried
  simp only [Store.writerStep] at hs
  cases hpc : (d.store.writer_ w).pc with
  | off => simp only [hpc, reduceCtorEq] at hs
  | full => exact absurd hpc hp
  | idle =>
    simp only [hpc, Option.some.injEq] at hs
    subst hs
    refine silent (by simp only [writerEvent, hpc]) ?_ hm
    refine hw.goOn (by rw [hpc]; rfl) rfl ?_ (fun _ => hap) hcar
    simp [Moved, hpc]
  | loop =>
    simp only [hpc, Writer.insertFront] at hs
    by_cases he : (d.store.writer_ w).queue_.isEmpty = true
    · simp only [he, if_true, Option.map_some, Option.some.injEq] at hs
      subst hs
      refine silent ?_ ?_ hm
      · simp only [writerEvent, hpc, MessageQueue.getFront, he, if_true, Option.map_none]
      · refine hw.goOn (by rw [hpc]; rfl) rfl ?_ (fun _ => hap) hcar
        simp [Moved, hpc]
    · simp only [he, Bool.false_eq_true, if_false, Option.bind_eq_bind, Option.map_eq_some_iff,
        Option.bind_eq_some_iff, Option.some.injEq] at hs
      obtain ⟨wr, ⟨front, hf, list, hl, rfl⟩, rfl⟩ := hs
      obtain ⟨hhead, hins⟩ :=
        hw.insert (fun _ hS => hS.1) hpc (MessageQueue.getFront_some hf) hl
      refine ⟨_, ?_, own hm rfl hins⟩
      simp only [writerEvent, hpc, hf, Option.map_some, Option.toList_some, follow_singleton, next,
        hhead, if_true]
  | inserted =>
    simp only [hpc, Writer.popFront, Option.map_eq_some_iff] at hs
    obtain ⟨wr, ⟨q, hq, rfl⟩, rfl⟩ := hs
    exact silent (by simp only [writerEvent, hpc])
      (hw.pop hpc (MessageQueue.contents_pop hq)) hm
  | popped =>
    simp only [hpc, Option.some.injEq] at hs
    subst hs
    refine silent (by simp only [writerEvent, hpc]) ?_ hm
    refine hw.goOn (by rw [hpc]; rfl) ?_ ?_ (fun _ => hap) hcar
    · split <;> rfl
    · rw [hap]
      split <;> simp [Moved, hpc]
  | frozen =>
    simp only [hpc, Option.some.injEq] at hs
    subst hs
    exact silent (by simp only [writerEvent, hpc]) (hw.renew hpc) hm

/-- A step of a writer in `AppendFrozenList`, or its spurious wake-up. -/
theorem Ok.freeze (h : Ok g d) (hm : FreezeMove d w d') :
    ∃ g', Ok g' d' ∧
      (if (d.append w).appends then g' = Function.update g w (g w).freeze else g' = g) := by
  have hw := h.shelved w
  have keep := h.shelved
  cases hm with
  | call hp ha =>
    refine ⟨g, ⟨h.clients, h.called, h.entry, ?_, h.installs⟩, by rw [ha]; rfl⟩
    have hgo : Shelved (Good w) (g w) (d.store.writer_ w) (.called (d.store.writer_ w).list_)
        (d.store.current_.list_ w) := by
      refine hw.goOn (by rw [hp]; rfl) (by rw [hp]; rfl) ?_ (fun hne => absurd hp hne) ?_
      · simp [Moved, ha]
      · intro l hl
        exact (Option.some.inj hl).symm
    have hupd := shelved_update keep hgo
    simp only [Function.update_eq_self] at hupd
    exact hupd
  | @within list ap lock hne hl hl' =>
    have hp : (d.store.writer_ w).pc = .full := by
      by_contra hp
      rw [hw.outside hp] at hl
      cases hl
    refine ⟨g, ⟨h.clients, h.called, h.entry, ?_, h.installs⟩, by rw [hne]; rfl⟩
    have hgo : Shelved (Good w) (g w) (d.store.writer_ w) ap (d.store.current_.list_ w) := by
      refine hw.goOn (by rw [hp]; rfl) (by rw [hp]; rfl) ?_ (fun hne => absurd hp hne) ?_
      · -- neither place is behind `AppendList`
        have h1 : ap ≠ .appended := by
          intro he
          rw [he] at hl'
          cases hl'
        have h2 : d.append w ≠ .appended := by
          intro he
          rw [he] at hl
          cases hl
        simp [Moved, h1, h2]
      · intro l hl''
        rw [hl', Option.some.injEq] at hl''
        exact hl'' ▸ hw.carried list hl
    have hupd := shelved_update keep hgo
    simp only [Function.update_eq_self] at hupd
    exact hupd
  | @append list hp ha =>
    have hl : (d.append w).list = some list := by
      rcases ha with ha | ha <;> rw [ha] <;> rfl
    have happ : (d.append w).appends = true := by
      rcases ha with ha | ha <;> rw [ha] <;> rfl
    refine ⟨_, ⟨⟨h.clients.locked, h.clients.slot⟩, h.called, h.entry, ?_, h.installs⟩,
      by rw [happ]; rfl⟩
    have hupd := shelved_update keep (hw.freeze hp hl)
    simp only [Function.update_eq_self] at hupd
    exact hupd
  | unlock hp ha =>
    refine ⟨g, ⟨?_, h.called, h.entry, ?_, h.installs⟩, by rw [ha]; rfl⟩
    · exact h.clients.writer rfl rfl rfl rfl rfl
    · have hgo : Shelved (Good w) (g w) { d.store.writer_ w with pc := .frozen } .idle
          (d.store.current_.list_ w) := by
        exact hw.goOn (by rw [hp]; rfl) rfl (by simp [Moved, hp, ha]) (fun _ => rfl)
          (fun l hl => by cases hl)
      have hupd := shelved_update keep hgo
      simp only [Function.update_eq_self] at hupd
      exact hupd

theorem Ok.compact (h : Ok g d) (hm : CompactMove d opened d') :
    ∃ g', follow next g (d.event (.compacter opened)).toList = some g' ∧ Ok g' d' := by
  have quiet : (∀ merged v, d.compacter ≠ .appendVersion merged v) →
      follow next g (d.event (.compacter opened)).toList = some g := by
    intro hne
    have hev : d.event (.compacter opened) = none := by simp only [event]
    rw [hev]
    rfl
  cases hm with
  | test hc hpc =>
    refine ⟨g, quiet (by simp [hc]), h.clients, h.called, h.entry, h.shelved, fun merged v hv => ?_⟩
    rcases hpc with rfl | rfl <;> cases hv
  | build hc hr =>
    exact ⟨g, quiet (by simp [hc]), h.clients, h.called, h.entry, h.shelved, fun merged v hv => by
      cases hv⟩
  | apply hc =>
    refine ⟨g, quiet (by simp [hc]), h.clients, h.called, h.entry, h.shelved, fun merged v hv => ?_⟩
    cases hv
    rfl
  | @install merged v hc =>
    refine ⟨fun w => (g w).drop, ?_, ⟨h.clients.locked, h.clients.slot⟩, h.called, h.entry,
      fun w => ?_, fun _ _ hv => by cases hv⟩
    · have hev : d.event (.compacter opened) = some .replaced := by simp only [event, hc]
      rw [hev, Option.toList_some, follow_singleton]
      rfl
    · show Shelved (Good w) _ (d.store.writer_ w) (d.append w) (v.list_ w)
      rw [h.installs merged v hc]
      exact (h.shelved w).drop
  | broadcast hc =>
    refine ⟨g, quiet (by simp [hc]), h.clients, h.called, h.entry, fun w => ?_, fun _ _ hv => by
      cases hv⟩
    have hw := h.shelved w
    have hlist : (VersionSet.awake (d.append w)).list = (d.append w).list := by
      cases d.append w <;> rfl
    have happ : VersionSet.awake (d.append w) = .appended ↔ d.append w = .appended := by
      cases d.append w <;> simp [VersionSet.awake]
    refine ⟨hw.ahead, hw.queued, hw.from_queue, ?_, ?_, hw.from_list, hw.frozen, hw.from_lists, ?_, ?_⟩
    · intro hn
      exact hw.active (by simpa [Moved, happ] using hn)
    · intro hmoved
      exact hw.moved (by simpa [Moved, happ] using hmoved)
    · intro hne
      show VersionSet.awake (d.append w) = .idle
      rw [hw.outside hne]
      rfl
    · intro l hl
      exact hw.carried l (hlist ▸ hl)

/-- A client of the database is one of the store. -/
theorem step_store {l : Store.Label} (hl : ∀ w, l ≠ .writer w) :
    d.step (.store l) = (d.store.step l).map d.withStore := by
  cases l with
  | writer w => exact absurd rfl (hl w)
  | _ => rfl

theorem event_store {l : Store.Label} (hl : ∀ w, l ≠ .writer w) :
    d.event (.store l) = (d.store.event l).map Event.store := by
  cases l with
  | writer w => exact absurd rfl (hl w)
  | _ => rfl

/-- Outside `AppendFrozenList` a writer of the database is one of the store. -/
theorem step_writer (hp : (d.store.writer_ w).pc ≠ .full) :
    d.step (.store (.writer w)) = (d.store.writerStep w).map d.withStore := by
  simp only [step, writerStep, if_neg hp]

theorem storeEvents_map (e : Option Store.Event) :
    storeEvents (e.map Event.store).toList = e.toList := by
  cases e <;> rfl

/-- The steps of writers and compacter show no call and no return. -/
theorem storeEvents_event {l : Label} (hl : ∀ l', l = .store l' → ∃ w, l' = .writer w) :
    storeEvents (d.event l).toList = [] := by
  have inserted : ∀ (w : Fin kMaxWriter) (e : Option Entry),
      storeEvents (e.map (Event.inserted w)).toList = [] := by
    intro w e
    cases e <;> rfl
  cases l with
  | store l =>
    obtain ⟨w, rfl⟩ := hl l rfl
    simp only [event, writerEvent]
    split
    · exact inserted w _
    all_goals rfl
  | wake w => rfl
  | compacter opened =>
    simp only [event]
    split <;> rfl

/-- Whatever a step does to the store, it is a step of the store, or it leaves clients and queues
alone. -/
theorem store_cases {l : Label} (hs : d.step l = some d') :
    (∃ l', l = .store l' ∧ Store.Move d.store l' d'.store ∧
      storeEvents (d.event l).toList = (d.store.event l').toList) ∨
    (storeEvents (d.event l).toList = [] ∧ d'.store.client = d.store.client ∧
      ∀ w, (d'.store.writer_ w).queue_ = (d.store.writer_ w).queue_ ∧
        (d'.store.writer_ w).lock_ = (d.store.writer_ w).lock_) := by
  -- the steps within `AppendFrozenList`
  have frozen : ∀ {w}, FreezeMove d w d' → d'.store.client = d.store.client ∧
      ∀ w', (d'.store.writer_ w').queue_ = (d.store.writer_ w').queue_ ∧
        (d'.store.writer_ w').lock_ = (d.store.writer_ w').lock_ := by
    intro w hm
    cases hm with
    | unlock =>
      refine ⟨rfl, fun w' => ⟨?_, ?_⟩⟩
      · exact Store.keeps_field (·.queue_) rfl rfl
      · exact Store.keeps_field (·.lock_) rfl rfl
    | call | within | append => exact ⟨rfl, fun _ => ⟨rfl, rfl⟩⟩
  cases l with
  | store l =>
    by_cases hl : ∀ w, l ≠ .writer w
    · rw [step_store hl] at hs
      obtain ⟨s', hs', rfl⟩ := Option.map_eq_some_iff.1 hs
      refine .inl ⟨l, rfl, Store.step_move hs', ?_⟩
      rw [event_store hl, storeEvents_map]
    push Not at hl
    obtain ⟨w, rfl⟩ := hl
    have hev : storeEvents (d.event (.store (.writer w))).toList = [] := by
      refine storeEvents_event fun l' hl => ?_
      cases hl
      exact ⟨w, rfl⟩
    by_cases hp : (d.store.writer_ w).pc = .full
    · exact .inr ⟨hev, frozen (freeze_move hp hs)⟩
    · rw [step_writer hp] at hs
      obtain ⟨s', hs', rfl⟩ := Option.map_eq_some_iff.1 hs
      exact .inl ⟨.writer w, rfl, Store.writerStep_move hs', hev⟩
  | wake w => exact .inr ⟨rfl, frozen (wake_move hs)⟩
  | compacter opened =>
    refine .inr ⟨storeEvents_event fun l' hl => ?_, ?_⟩
    · cases hl
    cases compact_move hs <;> exact ⟨rfl, fun _ => ⟨rfl, rfl⟩⟩

/-- **Every step of the database is a step of the generations, or none.** -/
theorem Ok.step (h : Ok g d) {l : Label} (hg : SizedStep d l) (hs : d.step l = some d') :
    ∃ g', follow next g (d.event l).toList = some g' ∧ Ok g' d' := by
  cases l with
  | store l =>
    by_cases hl : ∀ w, l ≠ .writer w
    · rw [step_store hl] at hs
      rw [event_store hl]
      obtain ⟨s', hs', rfl⟩ := Option.map_eq_some_iff.1 hs
      exact h.client hg hl hs'
    · push Not at hl
      obtain ⟨w, rfl⟩ := hl
      by_cases hp : (d.store.writer_ w).pc = .full
      · obtain ⟨g', hok, hg'⟩ := h.freeze (freeze_move hp hs)
        refine ⟨g', ?_, hok⟩
        simp only [event, writerEvent, hp]
        cases ha : d.append w <;> rw [ha] at hg' <;>
          simp only [AppendPc.appends, Bool.false_eq_true, if_true, if_false] at hg' <;> subst hg' <;>
          rfl
      · rw [step_writer hp] at hs
        obtain ⟨s', hs', rfl⟩ := Option.map_eq_some_iff.1 hs
        exact h.writer hp hs'
  | wake w =>
    obtain ⟨g', hok, hg'⟩ := h.freeze (wake_move hs)
    have ha : (d.append w).appends = false := by
      simp only [Database.step] at hs
      split at hs
      · rename_i list ha
        rw [ha]
        rfl
      · cases hs
    rw [ha, if_neg Bool.false_ne_true] at hg'
    exact ⟨g', by rw [hg']; rfl, hok⟩
  | compacter opened => exact h.compact (compact_move hs)

/-! ## The generations of a run -/

theorem storeEvents_cons (e : Event) (h : List Event) :
    storeEvents (e :: h) = storeEvents [e] ++ storeEvents h :=
  List.filterMap_append (l := [e])

/-- Only a push adds to the log of a writer. -/
theorem next_all {g' : Fin kMaxWriter → Generations Entry} {e : Event} (h : next g e = some g')
    (w : Fin kMaxWriter) : (g' w).all = (g w).all ++ pushedTo w (storeEvents [e]) := by
  -- the operation `f` at the writer `w₀`
  have at_writer : ∀ (w₀ : Fin kMaxWriter) (f : Generations Entry) (es : List Entry),
      f.all = (g w₀).all ++ es →
      (Function.update g w₀ f w).all = (g w).all ++ if w₀ = w then es else [] := by
    intro w₀ f es hf
    by_cases hw : w₀ = w
    · subst hw
      rw [Function.update_self, if_pos rfl, hf]
    · rw [Function.update_of_ne (Ne.symm hw), if_neg hw, List.append_nil]
  cases e with
  | store e =>
    cases e with
    | pushed w₀ e =>
      simp only [next, Option.some.injEq] at h
      subst h
      rw [at_writer w₀ _ [e] Generations.all_push]
      by_cases hw : w₀ = w <;> simp [storeEvents, pushedTo, hw]
    | _ =>
      simp only [next, Option.some.injEq] at h
      subst h
      simp [storeEvents, pushedTo]
  | inserted w₀ e =>
    simp only [next] at h
    split at h
    · cases h
      rw [at_writer w₀ _ [] (by rw [Generations.all_insert, List.append_nil])]
      simp [storeEvents]
    · cases h
  | appended w₀ =>
    simp only [next, Option.some.injEq] at h
    subst h
    rw [at_writer w₀ _ [] (by rw [Generations.all_freeze, List.append_nil])]
    simp [storeEvents]
  | replaced =>
    simp only [next, Option.some.injEq] at h
    subst h
    rw [Generations.all_drop]
    simp [storeEvents]

theorem follow_all {hist : List Event} : ∀ {g g' : Fin kMaxWriter → Generations Entry},
    follow next g hist = some g' → ∀ w, (g' w).all = (g w).all ++ pushedTo w (storeEvents hist) := by
  induction hist with
  | nil =>
    intro g g' h w
    rw [follow_nil, Option.some.injEq] at h
    rw [h]
    exact (List.append_nil _).symm
  | cons e es ih =>
    intro g g' h w
    obtain ⟨g₁, h1, h2⟩ := follow_cons.1 h
    rw [ih h2 w, next_all h1 w, List.append_assoc, storeEvents_cons e es, pushedTo_append]

/-- `getEntry` answers from the active list, unless its entry is newer than the number. -/
theorem getEntry_from {wr : Writer} (h : wr.list_.From MemEntry.Bounded) {k : Bytes} {seq : ℕ}
    (hseq : ∀ e, wr.list_.find k = some e → e.seq_num ≤ seq) :
    wr.getEntry k seq = some ((wr.list_.find k).map fun e => answerOf (some e)) := by
  unfold Writer.getEntry
  cases hg : wr.list_.get k with
  | none =>
    have hnone : wr.list_.find k = none := by
      unfold SkipList.find
      rw [hg, Option.bind_none]
    rw [hnone]
    rfl
  | some slice =>
    obtain ⟨e, h1, h2, -⟩ := h.get_some hg
    have hle := Nat.not_lt.2 (hseq e h2)
    simp only [h1, h2, Option.map_some, hle, if_false, answerOf]
    split <;> rfl

/-- Where no entry is in two layers, they are the generations that are kept. -/
theorem Ok.lookup (h : Ok g d) (hp : (d.store.writer_ w).pc = .idle) (k : Bytes) :
    d.store.lookup w k = lastFor (·.key.bytes) k (g w).kept := by
  have hw := h.shelved w
  have hnot : ¬ Moved (d.store.writer_ w).pc (d.append w) := by simp [Moved, hp]
  have hq : (g w).queued = (d.store.writer_ w).queue_.contents := by
    rw [hw.queued, hp]
    rfl
  unfold Store.lookup layers listLayers Generations.kept
  rw [layered_cons, layered_cons, hw.active hnot, hw.frozen, lastFor_append, lastFor_append, hq,
    Option.or_assoc]

theorem Ok.readLists (h : Ok g d) {k : Bytes} {seq : ℕ}
    (hp : (d.store.writer_ (writerOf k)).pc = .idle)
    (he : (d.store.writer_ (writerOf k)).queue_.isEmpty = true)
    (hseq : ∀ e ∈ (g (writerOf k)).kept, e.seq_num ≤ seq) :
    d.store.readLists k seq =
      some (answerOf (lastFor (·.key.bytes) k (g (writerOf k)).kept)) := by
  have hw := h.shelved (writerOf k)
  have hnot : ¬ Moved (d.store.writer_ (writerOf k)).pc (d.append (writerOf k)) := by
    simp [Moved, hp]
  have hnil : (d.store.writer_ (writerOf k)).queue_.contents = [] := Ring.isEmpty_iff.1 he
  have hold : ∀ e, (d.store.writer_ (writerOf k)).list_.find k = some e → e.seq_num ≤ seq := by
    intro e hf
    rw [hw.active hnot] at hf
    exact hseq e (List.mem_append_right _ (List.mem_append_left _ (lastFor_mem hf).1))
  rw [← h.lookup hp, Store.lookup, layers, listLayers, layered_cons, layered_cons, hnil,
    lastFor_nil, Option.none_or]
  unfold Store.readLists
  rw [getEntry_from (hw.from_list.mono fun _ hS => hS.1) hold, Option.bind_some]
  cases (d.store.writer_ (writerOf k)).list_.find k with
  | some e => rfl
  | none => exact Store.readVersion_ok fun l hl => (hw.from_lists l hl).mono fun _ hS => hS.1

variable {d₀ : Database} {hist : List Event}

/-- **The database is its generations.** In every run of clients, writers and compacter: what was
pushed to a writer is, in the order of the pushes, what is gone, frozen, active and queued; a lookup
finds the last entry for the key that is not gone; and with an empty queue `getEntry` and
`Version::Get` report that entry for every number that no kept entry exceeds. -/
theorem database_refines (h0 : d₀.Started) (hx : machine.Exec SizedStep d₀ hist d) :
    ∃ g, follow next (fun w => .start (d₀.store.writer_ w).queue_.contents) hist = some g ∧
      ∀ w, (g w).all = allPushed d₀.store w (storeEvents hist) ∧
        ((d.store.writer_ w).pc = .idle →
          (∀ k, d.store.lookup w k = lastFor (·.key.bytes) k (g w).kept) ∧
          ((d.store.writer_ w).queue_.isEmpty = true → ∀ k seq, writerOf k = w →
            (∀ e ∈ (g w).kept, e.seq_num ≤ seq) →
            d.store.readLists k seq =
              some (answerOf (lastFor (·.key.bytes) k (g w).kept)))) := by
  obtain ⟨g, hg, hok⟩ := hx.refines (R := Ok) h0.ok fun g d l d' hR hG hs => hR.step hG hs
  refine ⟨g, hg, fun w => ⟨follow_all hg w, fun hp => ⟨hok.lookup hp, ?_⟩⟩⟩
  rintro he k seq rfl hseq
  exact hok.readLists hp he hseq

/-! ## A run -/

instance (d : Database) (l : Label) : Decidable (SizedStep d l) :=
  match l with
  | .store l => inferInstanceAs (Decidable (d.store.SizedStep l))
  | .wake _ | .compacter _ => instDecidableTrue

/-- The database after `init` in an empty directory. -/
def freshDatabase : Database :=
  { store := freshStore
    compact_lock_ := none
    append := fun _ => .idle
    compacter := .test
    compacter_ := ⟨0⟩
    disk := fun _ => none }

theorem freshDatabase_started : freshDatabase.Started :=
  ⟨freshStore_started, fun _ => rfl, rfl⟩

/-- The database after `init` in a directory with logs. -/
def replayedDatabase : Database := { freshDatabase with store := replayedStore }

theorem replayedDatabase_started : replayedDatabase.Started :=
  ⟨replayedStore_started, fun _ => rfl, rfl⟩

/-- Writer `w` freezes `n` lists. -/
def freezes (w : Fin kMaxWriter) (n : ℕ) : List Label :=
  List.replicate (36 * n) (.store (.writer w))

/-- Two threads set one key while its queue is full. Three writers fill the version, and the
compacter drops it; the threads go on, the later one first, and writer 0 freezes one more list. -/
def turnover : List Label :=
  [.store (.callSet 0 [97] [98] false), .store (.client 0), .store (.callSet 1 [97] [99] false),
    .store (.client 1)] ++
  .store (.writer 2) :: freezes 2 4 ++ .store (.writer 3) :: freezes 3 4 ++
  .store (.writer 0) :: freezes 0 2 ++ List.replicate 5 (.compacter (some (.create [] [] []))) ++
  List.replicate 7 (.store (.client 1)) ++ List.replicate 4 (.store (.writer 2)) ++
  List.replicate 7 (.store (.client 0)) ++ .store (.writer 3) :: freezes 0 1

/-- The last entry about `k`, replayed or pushed in the run. -/
def lastEntry (hist : List Store.Event) (k : Bytes) : Option Entry :=
  lastFor (·.key.bytes) k (allPushed replayedDatabase.store (writerOf k) hist)

/-- The generations at the start of `turnover`. -/
def replayedGenerations (w : Fin kMaxWriter) : Generations Entry :=
  .start (replayedDatabase.store.writer_ w).queue_.contents

/-- What was replayed for writer 2 is gone, and its two new entries are in its list and its queue. -/
theorem database_refines_turnover : ∃ hist d g,
    machine.Exec SizedStep replayedDatabase hist d ∧
    follow next replayedGenerations hist = some g ∧ Event.replaced ∈ hist ∧
    (g 2).gone = (List.range 40).map (replayedEntry 2) ∧ (g 2).frozen = [] ∧
    (g 2).active = [Store.entryOf [97] [99] 162 false] ∧
    (g 2).queued = [Store.entryOf [97] [98] 161 false] ∧
    (g 0).frozen = (List.range' 20 10).map (replayedEntry 0) ∧
    d.store.lookup 2 [97] = some (Store.entryOf [97] [98] 161 false) ∧
    d.store.lookup 2 [101] = none ∧
    d.store.readLists [98] 162 = some (.notFound, none) := by
  have hr : ((machine.exec SizedStep replayedDatabase turnover).bind fun r =>
      (follow next replayedGenerations r.1).map fun g =>
        decide (Event.replaced ∈ r.1 ∧ (g 2).gone = (List.range 40).map (replayedEntry 2) ∧
          (g 2).frozen = [] ∧ (g 2).active = [Store.entryOf [97] [99] 162 false] ∧
          (g 2).queued = [Store.entryOf [97] [98] 161 false] ∧
          (g 0).frozen = (List.range' 20 10).map (replayedEntry 0) ∧ (g 3).kept = [] ∧
          (r.2.store.writer_ 2).pc = .idle ∧ (r.2.store.writer_ 3).pc = .idle ∧
          (r.2.store.writer_ 3).queue_.isEmpty = true)) = some true := by
    decide +kernel
  obtain ⟨⟨hist, d⟩, hexec, hr⟩ := Option.bind_eq_some_iff.1 hr
  obtain ⟨g, hg, hb⟩ := Option.map_eq_some_iff.1 hr
  obtain ⟨hrep, hgone, hfrozen, hactive, hqueued, hzero, hkept, hidle, hidle', hempty⟩ :=
    of_decide_eq_true hb
  have hx : machine.Exec SizedStep replayedDatabase hist d := Machine.exec_sound hexec
  obtain ⟨g', hfollow, hall⟩ := database_refines replayedDatabase_started hx
  obtain rfl : g = g' := Option.some.inj (hg.symm.trans hfollow)
  refine ⟨hist, d, g, hx, hfollow, hrep, hgone, hfrozen, hactive, hqueued, hzero, ?_, ?_, ?_⟩
  · rw [((hall 2).2 hidle).1, Generations.kept, hfrozen, hactive, hqueued]
    decide
  · rw [((hall 2).2 hidle).1, Generations.kept, hfrozen, hactive, hqueued]
    decide
  · rw [((hall 3).2 hidle').2 hempty [98] 162 (by decide) (by simp [hkept]), hkept]
    rfl

end Database

end Yangkv
