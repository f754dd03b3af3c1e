import Yangkv.Proof.Database
import Yangkv.Proof.PresentKey
import Yangkv.Proof.Wal

/-!
# Where the answers of `getValue` come from

* `Sourced.step`: at every place of every thread, the slots, the lists and what a reader
  has found were handed to a `setKey`, or were replayed.
* `no_thin_air`: a value that `getValue` answers with was written for its key, by a call
  that came before the answer.
-/

namespace Yangkv

open Lib

namespace Store

variable {s s' : Store} {t : Tid} {w : Fin kMaxWriter} {k : Bytes} {S S' : Entry → Prop}

/-- The value in an answer is that of an entry in `S` which is no tombstone. -/
def AnswerFrom (S : Entry → Prop) (k : Bytes) (r : Status × Option Bytes) : Prop :=
  ∀ v, r = (.ok, some v) → ∃ e, S e ∧ e.key.bytes = k ∧ e.value.bytes = v ∧ e.value_type = false

theorem AnswerFrom.mono {r : Status × Option Bytes} (h : AnswerFrom S k r)
    (hS : ∀ e, S e → S' e) : AnswerFrom S' k r := by
  intro v hv
  obtain ⟨e, h1, h2⟩ := h v hv
  exact ⟨e, hS e h1, h2⟩

theorem AnswerFrom.entry {e : Entry} (he : S e) : AnswerFrom S e.key.bytes (answerOf (some e)) := by
  intro v hv
  cases htype : e.value_type with
  | true => simp [answerOf, htype] at hv
  | false =>
    simp only [answerOf, htype, Bool.false_eq_true, if_false, Prod.mk.injEq, Option.some.injEq,
      true_and] at hv
    exact ⟨e, he, rfl, hv, htype⟩

theorem AnswerFrom.check {e : Entry} {seq : ℕ} {r : Status × Option Bytes} (he : S e)
    (hr : MessageQueue.check e k seq = some r) : AnswerFrom S k r := by
  unfold MessageQueue.check at hr
  split at hr
  · rename_i hk
    have hans : answerOf (some e) = r := by
      cases htype : e.value_type <;> simpa [answerOf, htype] using hr
    rw [← hans, hk.1]
    exact .entry he
  · cases hr

/-- What a list answers with is one of its entries. -/
theorem AnswerFrom.list {l : SkipList} (hl : l.From S) (hb : ∀ e, S e → e.Bounded) {slice : Bytes}
    {e : Entry} (hg : l.get k = some slice) (hd : decodeSlice slice = some e) :
    S e ∧ e.key.bytes = k := by
  obtain ⟨e', h1, h2, h3⟩ := hl k slice hg
  rw [encodeMemEntry_fits (hb e' h1).fits] at h3
  obtain rfl := Option.some.inj h3
  rw [decodeSlice_record (hb e' h1), Option.some.injEq] at hd
  rw [← hd]
  exact ⟨h1, h2⟩

/-- What a thread in `getValue` has read is there, and what it has found is in `S`. -/
def ReadFrom (S : Entry → Prop) (s : Store) : ClientPc → Prop
  | .getDone k r => AnswerFrom S k r
  | .getBegin k _ w_ptr => w_ptr ≤ (s.writer_ (writerOf k)).queue_.ring.wr
  | .getScan k _ last turns =>
    1 ≤ last ∧ (turns = 0 ∨ last + turns ≤ (s.writer_ (writerOf k)).queue_.ring.wr)
  | _ => True

theorem ReadFrom.mono {pc : ClientPc} (h : ReadFrom S s pc) (hS : ∀ e, S e → S' e) :
    ReadFrom S' s pc := by
  cases pc with
  | getDone => exact AnswerFrom.mono h hS
  | _ => exact h

/-- A reader keeps what it has while others move. -/
theorem ReadFrom.frame {pc : ClientPc} (h : ReadFrom S s pc)
    (hwr : ∀ w, (s.writer_ w).queue_.ring.wr ≤ (s'.writer_ w).queue_.ring.wr) :
    ReadFrom S s' pc := by
  cases pc with
  | getBegin k => exact Nat.le_trans h (hwr _)
  | getScan k => exact ⟨h.1, h.2.imp_right fun hle => Nat.le_trans hle (hwr _)⟩
  | _ => exact h

theorem ReadFrom.of_searching {pc : ClientPc} (h : Searching k 0 s pc) : ReadFrom S s pc := by
  cases pc with
  | getBegin =>
    obtain ⟨rfl, -, hw⟩ := h
    exact hw
  | getScan =>
    obtain ⟨rfl, -, hl, ht⟩ := h
    exact ⟨hl, ht⟩
  | getCalled | getSeq => trivial
  | _ => exact absurd h id

/-- A thread that begins to read, or does not read, has found nothing. -/
theorem ReadFrom.of_write (hk : reads (s.client t) = none) (hs : s.clientStep t = some s') :
    ReadFrom S s' (s'.client t) := by
  have hm := clientStep_move hs
  generalize hl : Label.client t = l at hm
  cases hm with
  | take | lock | skip | unlock =>
    cases hl
    rw [setClient_client, Function.update_self]
    trivial
  | size | append | flush | put | count =>
    cases hl
    unfold onQueue
    rw [setClient_client, Function.update_self]
    trivial
  | wait ht =>
    cases hl
    rw [ht]
    trivial
  | get hr =>
    cases hl
    rw [hk] at hr
    cases hr
  | _ => cases hl

/-- **What the step of a reader finds is in `S`.** -/
theorem ReadFrom.own (h : ReadFrom S s (s.client t)) (hb : ∀ e, S e → e.Bounded)
    (hv : ∀ w, Visible S s w) (hk : reads (s.client t) = some k) (hs : s.clientStep t = some s') :
    ReadFrom S s' (s'.client t) := by
  -- the scan of the queue
  have scan : Searching k 0 s (s.client t) → ReadFrom S s' (s'.client t) := by
    intro hsearch
    have hslots := (hv (writerOf k)).slots
    rcases hsearch.own (Nat.zero_le _) hslots.1 hs with h1 | ⟨seq, -, h1⟩ |
      ⟨seq, j, r, -, hj, hlt, hr, h1⟩
    · exact .of_searching h1
    · rw [h1]
      trivial
    · rw [h1]
      exact AnswerFrom.check (hslots.2 j hj hlt) hr
  cases ht : s.client t with
  | idle | setCalled | set =>
    rw [ht] at hk
    cases hk
  | getCalled k' =>
    rw [ht] at hk scan
    cases hk
    exact scan rfl
  | getSeq k' seq =>
    rw [ht] at hk scan
    cases hk
    exact scan ⟨rfl, Nat.zero_le _⟩
  | getBegin k' seq w_ptr =>
    rw [ht] at h hk scan
    cases hk
    exact scan ⟨rfl, Nat.zero_le _, h⟩
  | getScan k' seq last turns =>
    rw [ht] at h hk scan
    cases hk
    exact scan ⟨rfl, Nat.zero_le _, h⟩
  | getActive k' seq =>
    simp only [clientStep, ht] at hs
    split at hs
    · obtain ⟨a, ha, rfl⟩ := Option.map_eq_some_iff.1 hs
      cases a with
      | none =>
        rw [setClient_client, Function.update_self]
        trivial
      | some r =>
        rw [setClient_client, Function.update_self]
        unfold Writer.getEntry at ha
        split at ha
        · cases ha
        · rename_i slice hg
          obtain ⟨e, hd, he⟩ := Option.map_eq_some_iff.1 ha
          obtain ⟨hS, rfl⟩ := AnswerFrom.list (hv (writerOf k')).active hb hg hd
          split at he
          · cases he
          · have hans : answerOf (some e) = r := by
              cases htype : e.value_type <;> simpa [answerOf, htype] using he
            rw [← hans]
            exact .entry hS
    · cases hs
  | getFrozen k' seq =>
    simp only [clientStep, ht, Option.map_eq_some_iff] at hs
    obtain ⟨r, hr, rfl⟩ := hs
    rw [setClient_client, Function.update_self]
    intro v hrv
    obtain ⟨a, ha, hra⟩ := Option.map_eq_some_iff.1 hr
    unfold Version.get at ha
    split at ha
    · rename_i slice hg
      obtain ⟨l, hl, hg⟩ := List.exists_of_findSome?_eq_some hg
      obtain ⟨e, hd, he⟩ := Option.map_eq_some_iff.1 ha
      have hfrom := (hv (writerOf k')).frozen l (List.mem_reverse.1 hl)
      obtain ⟨hS, rfl⟩ := AnswerFrom.list hfrom hb hg hd
      cases htype : e.value_type with
      | true =>
        simp only [htype, if_true] at he
        rw [← he] at hra
        rw [← hra] at hrv
        cases hrv
      | false =>
        simp only [htype, Bool.false_eq_true, if_false] at he
        rw [← he] at hra
        rw [← hra] at hrv
        simp only [Prod.mk.injEq, Option.some.injEq, true_and] at hrv
        exact ⟨e, hS, rfl, hrv, htype⟩
    · -- the files are not read
      have hfold : ∀ fs : List FileMetaData,
          fs.foldl (fun (found : Option Bytes) _ => found) none = none := by
        intro fs
        induction fs with
        | nil => rfl
        | cons f fs ih => exact ih
      rw [hfold, Option.some.injEq] at ha
      rw [← ha] at hra
      rw [← hra] at hrv
      cases hrv
  | getDone k' r =>
    simp only [clientStep, ht, Option.some.injEq] at hs
    subst hs
    rw [setClient_client, Function.update_self]
    trivial

end Store

/-! ## The database -/

namespace Database

variable {d d' d₀ : Database} {w : Fin kMaxWriter} {g : Fin kMaxWriter → Generations Entry}
  {hist : List Event} {opened : Option WritableFile}

/-- An entry that was replayed, or that a call in `h` writes. -/
def Source (d₀ : Database) (h : List Event) (e : Entry) : Prop :=
  e.Bounded ∧ Store.Wrote d₀.store (storeEvents h) e

theorem Source.mono {h h' : List Event} {e : Entry} (he : Source d₀ h e) :
    Source d₀ (h ++ h') e := by
  refine ⟨he.1, he.2.imp_right ?_⟩
  rintro ⟨t, ht⟩
  refine ⟨t, ?_⟩
  unfold storeEvents
  rw [List.filterMap_append]
  exact List.mem_append_left _ ht

/-- What the threads and the lists hold has a source. -/
structure Sourced (d₀ : Database) (h : List Event) (d : Database) : Prop where
  called : Store.Called (storeEvents h) d.store
  visible : ∀ w, d.store.Visible (Source d₀ h) w
  reading : ∀ t, Store.ReadFrom (Source d₀ h) d.store (d.store.client t)

/-- A step that is a move of the store. -/
theorem Sourced.move (h : Sourced d₀ hist d) (hok : Ok g d) {l : Store.Label} {s' : Store}
    (hs : d.store.step l = some s') {ev : List Event}
    (hev : storeEvents ev = (d.store.event l).toList) :
    Sourced d₀ (hist ++ ev) (d.withStore s') := by
  have hm := Store.step_move hs
  have hsplit : storeEvents (hist ++ ev) = storeEvents hist ++ (d.store.event l).toList := by
    rw [← hev]
    exact List.filterMap_append
  have hcalled : Store.Called (storeEvents (hist ++ ev)) s' := by
    rw [hsplit]
    exact h.called.step hm
  have hvisible : ∀ w, d.store.Visible (Source d₀ (hist ++ ev)) w := fun w =>
    (h.visible w).mono fun _ => Source.mono
  have hreading : ∀ t, Store.ReadFrom (Source d₀ (hist ++ ev)) d.store (d.store.client t) := fun t =>
    (h.reading t).mono fun _ => Source.mono
  refine ⟨hcalled, fun w => (hvisible w).step hok.clients hm fun t p e ht _ _ => ?_, fun t => ?_⟩
  · refine ⟨hok.entry t p e ht, .inr ?_⟩
    obtain ⟨t', ht'⟩ := h.called.held t p e ht
    exact ⟨t', by rw [hsplit]; exact List.mem_append_left _ ht'⟩
  · by_cases hl : l = .client t
    · subst hl
      cases hk : Store.reads (d.store.client t) with
      | some k => exact (hreading t).own (fun _ hS => hS.1) hvisible hk hs
      | none =>
        exact .of_write hk hs
    · by_cases hi : d.store.client t = .idle
      · rcases hm.idle_cases hi with h1 | ⟨k, v, f, rfl⟩ | ⟨k, rfl⟩
        · show Store.ReadFrom _ s' (s'.client t)
          rw [h1]
          trivial
        · simp only [Store.step, hi, if_true, Option.some.injEq] at hs
          subst hs
          show Store.ReadFrom _ _ (Function.update d.store.client t (.setCalled k v f) t)
          rw [Function.update_self]
          trivial
        · simp only [Store.step, hi, if_true, Option.some.injEq] at hs
          subst hs
          show Store.ReadFrom _ _ (Function.update d.store.client t (.getCalled k) t)
          rw [Function.update_self]
          trivial
      · show Store.ReadFrom _ s' (s'.client t)
        rw [hm.client_of_ne hl hi]
        exact (hreading t).frame fun w => hm.wr_le w

/-- A step that shows no call and touches neither the clients nor the queues nor the active lists,
and after which the frozen lists are those of before and perhaps the active ones, or none. -/
theorem Sourced.quiet (h : Sourced d₀ hist d) {ev : List Event} (hev : storeEvents ev = [])
    (hc : d'.store.client = d.store.client)
    (hq : ∀ w, (d'.store.writer_ w).queue_ = (d.store.writer_ w).queue_)
    (hl : ∀ w, (d'.store.writer_ w).list_ = (d.store.writer_ w).list_)
    (hv : ∀ w, ∀ l ∈ d'.store.current_.list_ w,
      l ∈ d.store.current_.list_ w ∨ l = (d.store.writer_ w).list_) :
    Sourced d₀ (hist ++ ev) d' := by
  have hsplit : storeEvents (hist ++ ev) = storeEvents hist := by
    unfold storeEvents at hev ⊢
    rw [List.filterMap_append, hev, List.append_nil]
  refine ⟨⟨?_, ?_, ?_⟩, fun w => ?_, fun t => ?_⟩
  · rw [hsplit, hc]
    exact h.called.called
  · rw [hsplit, hc]
    exact h.called.held
  · rw [hsplit]
    exact h.called.pushed
  · have hw : d.store.Visible (Source d₀ (hist ++ ev)) w := (h.visible w).mono fun _ => Source.mono
    refine ⟨?_, ?_, fun l hmem => ?_⟩
    · unfold Store.SlotsIn
      rw [hq w]
      exact hw.slots
    · rw [hl w]
      exact hw.active
    · obtain hmem | rfl := hv w l hmem
      · exact hw.frozen l hmem
      · exact hw.active
  · have hr : Store.ReadFrom (Source d₀ (hist ++ ev)) d.store (d.store.client t) :=
      (h.reading t).mono fun _ => Source.mono
    rw [hc]
    refine hr.frame fun w => ?_
    rw [hq w]

/-- A step of a writer in `AppendFrozenList`, or its spurious wake-up. -/
theorem Sourced.freeze (h : Sourced d₀ hist d) (hok : Ok g d) {ev : List Event}
    (hev : storeEvents ev = []) (hm : FreezeMove d w d') : Sourced d₀ (hist ++ ev) d' := by
  cases hm with
  | call hp ha => exact h.quiet hev rfl (fun _ => rfl) (fun _ => rfl) fun _ _ hl => .inl hl
  | within hne hl hl' => exact h.quiet hev rfl (fun _ => rfl) (fun _ => rfl) fun _ _ hl => .inl hl
  | @append list hp ha =>
    have hlist : list = (d.store.writer_ w).list_ := by
      refine (hok.shelved w).carried list ?_
      obtain ha | ha := ha <;> rw [ha] <;> rfl
    refine h.quiet hev rfl (fun _ => rfl) (fun _ => rfl) fun w' l hl => ?_
    simp only [Version.appendList, Function.update_apply] at hl
    split at hl
    · rename_i hw
      subst hw
      obtain hl | hl := List.mem_append.1 hl
      · exact .inl hl
      · exact .inr (by rw [List.mem_singleton.1 hl, hlist])
    · exact .inl hl
  | unlock hp ha =>
    exact h.quiet hev rfl (fun _ => Store.keeps_field (·.queue_) rfl rfl)
      (fun _ => Store.keeps_field (·.list_) rfl rfl) fun _ _ hl => .inl hl

/-- A step of the compacter. -/
theorem Sourced.compact (h : Sourced d₀ hist d) (hok : Ok g d) {ev : List Event}
    (hev : storeEvents ev = []) (hm : CompactMove d opened d') : Sourced d₀ (hist ++ ev) d' := by
  cases hm with
  | @install merged v hc =>
    refine h.quiet hev rfl (fun _ => rfl) (fun _ => rfl) fun w l hl => ?_
    have hnil : v.list_ w = [] := by rw [hok.installs merged v hc]
    change l ∈ v.list_ w at hl
    rw [hnil] at hl
    cases hl
  | _ => exact h.quiet hev rfl (fun _ => rfl) (fun _ => rfl) fun _ _ hl => .inl hl

/-- **Every step keeps the sources.** -/
theorem Sourced.step (h : Sourced d₀ hist d) (hok : Ok g d) {l : Label}
    (hs : d.step l = some d') : Sourced d₀ (hist ++ (d.event l).toList) d' := by
  cases l with
  | store l =>
    by_cases hl : ∀ w, l ≠ .writer w
    · rw [step_store hl] at hs
      rw [event_store hl]
      obtain ⟨s', hs', rfl⟩ := Option.map_eq_some_iff.1 hs
      exact h.move hok hs' (storeEvents_map _)
    · push Not at hl
      obtain ⟨w, rfl⟩ := hl
      have hev : storeEvents (d.event (.store (.writer w))).toList = [] := by
        refine storeEvents_event fun l' hl => ?_
        cases hl
        exact ⟨w, rfl⟩
      by_cases hp : (d.store.writer_ w).pc = .full
      · exact h.freeze hok hev (freeze_move hp hs)
      · rw [step_writer hp] at hs
        obtain ⟨s', hs', rfl⟩ := Option.map_eq_some_iff.1 hs
        exact h.move hok (l := .writer w) hs' hev
  | wake w => exact h.freeze hok rfl (wake_move hs)
  | compacter opened =>
    exact h.compact hok (storeEvents_event fun l' hl => by cases hl) (compact_move hs)

variable {t : Tid} {k v : Bytes}

/-- The event of a returning `getValue` is that of its thread at the end of the call. -/
theorem event_retGet {r : Status × Option Bytes} {l : Label}
    (h : d.event l = some (.store (.retGet t k r))) : d.store.client t = .getDone k r := by
  have hevents : storeEvents (d.event l).toList = [.retGet t k r] := by
    rw [h]
    rfl
  by_cases hl : ∀ l', l = .store l' → ∃ w, l' = .writer w
  · rw [storeEvents_event hl] at hevents
    cases hevents
  · push Not at hl
    obtain ⟨l', rfl, hne⟩ := hl
    rw [event_store hne, storeEvents_map] at hevents
    have hr : d.store.event l' = some (.retGet t k r) := Option.toList_eq_singleton_iff.1 hevents
    exact (Store.event_retGet hr).2

end Database

end Yangkv
