import Mathlib.Data.Prod.Lex
import Yangkv.Proof.ReadYourWrites

/-!
# A `getValue` among overwrites

A key that the lists of its writer hold, and that nobody deletes, while any clients
write. `getEntry` passes over an entry that is newer than the number `getValue` has
read, and the one it has replaced in the list is gone: the frozen lists have it only
if the list was frozen before.

* `Kept.listed`: the lists hold an entry of the key that is not older, at any time.
* `Way.step`: every step of the `getValue` keeps it on the way to one.
* `present_key_found`: all runs in which the frozen lists are read in time find the key.
* `present_key_missed`: a run in which they are not.
-/

namespace Yangkv

open Lib

/-- How many entries of the queue are not in the active list yet. -/
def Writer.waiting (wr : Writer) : ℕ := wr.queue_.contents.length - wr.pc.ahead

/-- How much of `getValue` is still to do: places, and turns of the loop of `search`. -/
def ClientPc.left : ClientPc → ℕ ×ₗ ℕ
  | .getCalled _ => toLex (7, 0)
  | .getSeq _ _ => toLex (6, 0)
  | .getBegin _ _ _ => toLex (5, 0)
  | .getScan _ _ _ turns => toLex (4, turns)
  | .getActive _ _ => toLex (3, 0)
  | .getFrozen _ _ => toLex (2, 0)
  | .getDone _ _ => toLex (1, 0)
  | _ => toLex (0, 0)

namespace Store

variable {s s' s₀ s₁ : Store} {l : Label} {t t' : Tid} {w : Fin kMaxWriter} {k : Bytes} {e e₀ : Entry}
  {hist : List Event} {ins : List Entry} {pushed : Fin kMaxWriter → List Entry}

/-! ## Entries and the calls they come from -/

/-- `e` was replayed before the run, or is what a call in `h` writes. -/
def Wrote (s₀ : Store) (h : List Event) (e : Entry) : Prop :=
  e ∈ (s₀.writer_ (home e)).queue_.contents ∨
    ∃ t, .callSet t e.key.bytes e.value.bytes e.value_type ∈ h

/-- Every write in progress, or counted in, is that of a call in `h`. -/
structure Called (h : List Event) (s : Store) : Prop where
  called : ∀ t key v d, s.client t = .setCalled key v d → .callSet t key v d ∈ h
  held : ∀ t p e, s.client t = .set p e →
    ∃ t', .callSet t' e.key.bytes e.value.bytes e.value_type ∈ h
  pushed : ∀ w, ∀ e ∈ pushedTo w h, ∃ t, .callSet t e.key.bytes e.value.bytes e.value_type ∈ h

theorem Called.step (h : Called hist s) (hm : Move s l s') :
    Called (hist ++ (s.event l).toList) s' := by
  constructor
  case called =>
    intro t key v d ht
    rcases hm.called_cases ht with h1 | rfl
    · exact List.mem_append_left _ (h.called t key v d h1)
    · exact List.mem_append_right _ List.mem_cons_self
  case held =>
    intro t p e ht
    rcases hm.set_cases ht with ⟨p', h1⟩ | ⟨key, v, d, h1, rfl, -⟩
    · obtain ⟨t', h2⟩ := h.held t p' e h1
      exact ⟨t', List.mem_append_left _ h2⟩
    · exact ⟨t, List.mem_append_left _ (h.called t key v d h1)⟩
  case pushed =>
    intro w e he
    rw [pushedTo_append] at he
    obtain ⟨t, h1⟩ : ∃ t, .callSet t e.key.bytes e.value.bytes e.value_type ∈ hist := by
      rcases List.mem_append.1 he with he | he
      · exact h.pushed w e he
      · rcases pushedTo_event w (s := s) (l := l) with h1 | ⟨t', e', -, h2, h3⟩
        · rw [h1] at he; cases he
        · rw [h3] at he
          split at he
          · rw [List.mem_singleton.1 he]; exact h.held t' _ e' h2
          · cases he
    exact ⟨t, List.mem_append_left _ h1⟩

theorem Called.exec {G : Store → Label → Prop} (h0 : s₀.Started) (hx : machine.Exec G s₀ hist s) :
    Called hist s := by
  refine hx.induct (I := Called) ⟨fun t k v d ht => ?_, fun t p e ht => ?_, fun w e he => ?_⟩
    fun hist s l s' h _ hs => h.step (step_move hs)
  · rw [h0.client t] at ht; cases ht
  · rw [h0.client t] at ht; cases ht
  · cases he

/-- An entry that was counted in, or is held by a write, was written. -/
theorem Called.wrote (h : Called hist s)
    (he : e ∈ allPushed s₀ (home e) hist ∨ ∃ t p, s.client t = .set p e) : Wrote s₀ hist e := by
  rcases he with he | ⟨t, p, ht⟩
  · exact (List.mem_append.1 he).imp_right (h.pushed _ e)
  · exact .inr (h.held t p e ht)

/-- Nothing that is on its way to the lists deletes `k`. -/
structure NoDelete (k : Bytes) (s : Store) : Prop where
  queued : ∀ e ∈ (s.writer_ (writerOf k)).queue_.contents, e.key.bytes = k → e.value_type = false
  held : ∀ t p e, s.client t = .set p e → e.key.bytes = k → e.value_type = false
  called : ∀ t value del_flag, s.client t = .setCalled k value del_flag → del_flag = false

/-- Where no deletion of `k` was replayed or called, none is on its way. -/
theorem noDelete_of_history (h0 : s₀.Started) (hx : machine.Exec SizedStep s₀ hist s)
    (hr : ∀ e ∈ (s₀.writer_ (writerOf k)).queue_.contents, e.key.bytes = k → e.value_type = false)
    (hc : ∀ t v, .callSet t k v true ∉ hist) : s.NoDelete k := by
  have hcalled := Called.exec h0 hx
  have hfalse : ∀ t v d, .callSet t k v d ∈ hist → d = false := by
    intro t v d hmem
    cases d with
    | false => rfl
    | true => exact absurd hmem (hc t v)
  constructor
  case queued =>
    intro e he hk
    obtain ⟨ins, h1, ⟨pre, h2⟩, -⟩ := ((h0.ok.exec hx).pipe (writerOf k)).flow
    have hmem : e ∈ (s₀.writer_ (writerOf k)).queue_.contents ++ pushedTo (writerOf k) hist := by
      rw [h1, ← h2, List.append_assoc, List.take_append_drop]
      exact List.mem_append_right _ he
    rcases List.mem_append.1 hmem with hmem | hmem
    · exact hr e hmem hk
    · obtain ⟨t, h3⟩ := hcalled.pushed _ e hmem
      rw [hk] at h3
      exact hfalse t _ _ h3
  case held =>
    intro t p e ht hk
    obtain ⟨t', h3⟩ := hcalled.held t p e ht
    rw [hk] at h3
    exact hfalse t' _ _ h3
  case called =>
    intro t v d ht
    exact hfalse t v d (hcalled.called t k v d ht)

/-! ## The queue and the lists -/

/-- The entry that the lists hold for `k`. -/
def listed (s : Store) (k : Bytes) : Option Entry :=
  layered (listLayers (s.writer_ (writerOf k)) (s.current_.list_ (writerOf k))) k

/-- The entry that the frozen lists hold for `k`. -/
def frozenFor (s : Store) (k : Bytes) : Option Entry :=
  layered ((s.current_.list_ (writerOf k)).reverse.map SkipList.find) k

theorem listed_eq (s : Store) (k : Bytes) :
    s.listed k = ((s.writer_ (writerOf k)).list_.find k).or (s.frozenFor k) := by
  rw [listed, listLayers, layered_cons]
  rfl

/-- A step moves entries into the lists, and none out of them. -/
theorem Move.waiting_le (hm : Move s l s') (w : Fin kMaxWriter) :
    (s'.writer_ w).waiting ≤ (s.writer_ w).waiting + (pushedTo w (s.event l).toList).length := by
  have other : ∀ {w₀ wr}, w ≠ w₀ → (Function.update s.writer_ w₀ wr w).waiting ≤
      (s.writer_ w).waiting + (pushedTo w (s.event l).toList).length := by
    intro w₀ wr hne
    rw [Function.update_of_ne hne]
    exact Nat.le_add_right _ _
  have own : ∀ {w₀ wr}, wr.waiting ≤ (s.writer_ w₀).waiting →
      (Function.update s.writer_ w₀ wr w).waiting ≤
        (s.writer_ w).waiting + (pushedTo w (s.event l).toList).length := by
    intro w₀ wr hle
    rcases eq_or_ne w w₀ with rfl | hne
    · rw [Function.update_self]; exact hle.trans (Nat.le_add_right _ _)
    · exact other hne
  cases hm with
  | callSet | callGet | take | skip | wait | get => exact Nat.le_add_right _ _
  | lock | unlock | size | append | flush => exact own le_rfl
  | put ht hf => exact own (by simp only [Writer.waiting, MessageQueue.contents_put hf]; exact le_rfl)
  | @count t e q ht hq =>
    simp only [onQueue, setClient_writer, setWriter_writer]
    rcases eq_or_ne w (home e) with rfl | hne
    · -- one more entry waits, and the event says which
      rw [Function.update_self]
      have hev : pushedTo (home e) (s.event (.client t)).toList = [e] := by
        simp [event, clientEvent, ht, pushedTo]
      rw [hev]
      simp only [Writer.waiting, MessageQueue.contents_advance hq, List.length_append,
        List.length_singleton]
      omega
    · exact other hne
  | acquire hp | release hp | insert hp | check hp | renew hp | freeze hp =>
    -- only `insert` moves the writer on, past the entry in front
    refine own ?_
    simp only [Writer.waiting, hp, WriterPc.ahead]
    omega
  | pop hp hq =>
    -- the entry that goes is in the list already
    refine own ?_
    simp only [Writer.waiting, hp, WriterPc.ahead, MessageQueue.contents_pop hq, List.length_tail]
    exact le_rfl

/-- A step freezes the active list, or inserts into it, unless it has been frozen already. -/
theorem Move.active_cases (hm : Move s l s') (w : Fin kMaxWriter) :
    s'.current_.list_ w = s.current_.list_ w ++ [(s.writer_ w).list_] ∨
      (s'.current_.list_ w = s.current_.list_ w ∧ ((s.writer_ w).pc ≠ .frozen →
        (s'.writer_ w).pc ≠ .frozen ∧ ((s'.writer_ w).list_ = (s.writer_ w).list_ ∨
          ∃ front, (s.writer_ w).list_.insert front = some (s'.writer_ w).list_))) := by
  have own : ∀ {w₀ wr}, ((s.writer_ w₀).pc ≠ .frozen → wr.pc ≠ .frozen ∧
      (wr.list_ = (s.writer_ w₀).list_ ∨ ∃ front, (s.writer_ w₀).list_.insert front = some wr.list_)) →
      ((s.writer_ w).pc ≠ .frozen → (Function.update s.writer_ w₀ wr w).pc ≠ .frozen ∧
        ((Function.update s.writer_ w₀ wr w).list_ = (s.writer_ w).list_ ∨
          ∃ front,
            (s.writer_ w).list_.insert front = some (Function.update s.writer_ w₀ wr w).list_)) := by
    intro w₀ wr h
    rcases eq_or_ne w w₀ with rfl | hne
    · rw [Function.update_self]; exact h
    · rw [Function.update_of_ne hne]; exact fun hp => ⟨hp, .inl rfl⟩
  cases hm with
  | callSet | callGet | take | skip | wait | get => exact .inr ⟨rfl, fun hp => ⟨hp, .inl rfl⟩⟩
  | lock | unlock | size | append | flush | put | count =>
    exact .inr ⟨rfl, own fun hp => ⟨hp, .inl rfl⟩⟩
  | acquire | release | pop => exact .inr ⟨rfl, own fun _ => ⟨by simp, .inl rfl⟩⟩
  | check => exact .inr ⟨rfl, own fun _ => ⟨by dsimp only; split <;> simp, .inl rfl⟩⟩
  | @insert w₀ front list hp hf hl => exact .inr ⟨rfl, own fun _ => ⟨by simp, .inr ⟨front, hl⟩⟩⟩
  | renew hp => exact .inr ⟨rfl, own fun h => absurd hp h⟩
  | @freeze w₀ hp =>
    rcases eq_or_ne w w₀ with rfl | hne
    · exact .inl (by simp [Version.appendList])
    · refine .inr ⟨by simp [Version.appendList, hne], fun h => ?_⟩
      simp only [setWriter_writer]
      rw [Function.update_of_ne hne]
      exact ⟨h, .inl rfl⟩

/-! ## What the lists hold since the call -/

/-- The queue counts `e` in behind `ins`, or has not counted it in yet. -/
def Later (ins pushed : List Entry) (s : Store) (e : Entry) : Prop :=
  e ∈ pushed.drop ins.length ∨ ∃ t p, s.client t = .set p e ∧ p ≠ .counted

/-- `e` is an entry of `k`, no deletion, and not older than `e₀`, the last one in `ins`. -/
def Fresh (k : Bytes) (e₀ : Entry) (ins pushed : List Entry) (s : Store) (e : Entry) : Prop :=
  e.key.bytes = k ∧ e.value_type = false ∧ (e = e₀ ∨ Later ins pushed s e)

/-- The list in which the lists of `s₁` hold `k` is one of the frozen lists of `s`. -/
def FrozenSince (s₁ : Store) (k : Bytes) (s : Store) : Prop :=
  s₁.frozenFor k = s₁.listed k ∨
    (s₁.current_.list_ (writerOf k)).length < (s.current_.list_ (writerOf k)).length

/-- Since `s₁`, when the lists held the entries `ins` and `e₀` was the one of `k`, nobody deletes
`k`. -/
structure Kept (s₁ : Store) (k : Bytes) (e₀ : Entry) (ins pushed : List Entry) (s : Store) :
    Prop where
  found : lastFor (·.key.bytes) k ins = some e₀
  alive : e₀.value_type = false
  past : ins <+: pushed
  /-- what the lists held is not in the queue again -/
  drained : ins.length + (s.writer_ (writerOf k)).waiting ≤ pushed.length
  later : ∀ e ∈ pushed.drop ins.length, e.key.bytes = k → e.value_type = false
  held : ∀ t p e, s.client t = .set p e → e.key.bytes = k → e.value_type = false
  called : ∀ t v d, s.client t = .setCalled k v d → d = false
  idx : s₁.idx_ ≤ s.idx_
  grown : (s₁.current_.list_ (writerOf k)).length ≤ (s.current_.list_ (writerOf k)).length
  /-- a slot that `search` accepts was written since -/
  slots : SlotsIn (fun e => e.key.bytes = k → s₁.idx_ ≤ e.seq_num →
    e.value_type = false ∧ Later ins pushed s e) s (writerOf k)
  frozen : FrozenSince s₁ k s → ∃ e, s.frozenFor k = some e ∧ Fresh k e₀ ins pushed s e
  active : ¬ FrozenSince s₁ k s → (s.writer_ (writerOf k)).pc ≠ .frozen ∧
    ((s.writer_ (writerOf k)).list_.get k).isSome = true

/-- **The lists hold an entry of `k` that is not older than the one they held.** -/
theorem Kept.listed {es : List Entry} (h : Kept s₁ k e₀ ins es s)
    (hp : PipeOk es (s.writer_ (writerOf k)) (s.current_.list_ (writerOf k))) :
    ∃ e, s.listed k = some e ∧ Fresh k e₀ ins es s e := by
  obtain ⟨ins', h1, -, h3⟩ := hp.flow
  -- the lists hold `ins'` now, and `ins` is the first part of it
  have hlen : ins.length ≤ ins'.length := by
    have hsum := congrArg List.length h1
    have hdrained := h.drained
    rw [List.length_append, List.length_drop] at hsum
    unfold Writer.waiting at hdrained
    omega
  obtain ⟨new, rfl⟩ : ins <+: ins' :=
    List.prefix_of_prefix_length_le h.past (h1 ▸ List.prefix_append ..) hlen
  rw [Store.listed, h3, lastFor_append]
  cases hnew : lastFor (·.key.bytes) k new with
  | none =>
    rw [Option.none_or]
    exact ⟨e₀, h.found, (lastFor_mem h.found).2, h.alive, .inl rfl⟩
  | some e =>
    obtain ⟨hmem, hk⟩ := lastFor_mem hnew
    have hd : e ∈ es.drop ins.length := by
      rw [h1, List.append_assoc, List.drop_left]
      exact List.mem_append_left _ hmem
    exact ⟨e, rfl, hk, h.later e hd hk, .inr (.inl hd)⟩

theorem Later.step {es : List Entry} (h : Later ins es s e) (hm : Move s l s') (hw : home e = w)
    (hpast : ins <+: es) : Later ins (es ++ pushedTo w (s.event l).toList) s' e := by
  unfold Later
  rw [List.drop_append_of_le_length hpast.length_le]
  rcases h with h | ⟨t, p, ht, hp⟩
  · exact .inl (List.mem_append_left _ h)
  · rcases hm.pending ht hp with ⟨p', h1, h2⟩ | h1
    · exact .inr ⟨t, p', h1, h2⟩
    · exact .inl (List.mem_append_right _ (hw ▸ h1))

theorem Fresh.step {es : List Entry} (h : Fresh k e₀ ins es s e) (hm : Move s l s')
    (hpast : ins <+: es) :
    Fresh k e₀ ins (es ++ pushedTo (writerOf k) (s.event l).toList) s' e :=
  ⟨h.1, h.2.1, h.2.2.imp_right fun h2 => h2.step hm (by rw [home, h.1]) hpast⟩

/-- At the call. -/
theorem Kept.start {es : List Entry} (hp : PipeOk es (s₁.writer_ (writerOf k))
    (s₁.current_.list_ (writerOf k))) (hlive : s₁.listed k = some e₀) (halive : e₀.value_type = false)
    (hnd : s₁.NoDelete k) (hslots : SlotsIn (fun e => e.seq_num < s₁.idx_) s₁ (writerOf k)) :
    ∃ ins, Kept s₁ k e₀ ins es s₁ := by
  obtain ⟨ins, h1, -, h3⟩ := hp.flow
  refine ⟨ins, ?_⟩
  have hdrop : es.drop ins.length =
      (s₁.writer_ (writerOf k)).queue_.contents.drop (s₁.writer_ (writerOf k)).pc.ahead := by
    rw [h1, List.drop_left]
  have hfound : lastFor (·.key.bytes) k ins = some e₀ := by rw [← h3, ← hlive]; rfl
  constructor
  case found => exact hfound
  case alive => exact halive
  case past => exact h1 ▸ List.prefix_append ..
  case drained =>
    rw [h1, List.length_append, List.length_drop]
    exact le_rfl
  case later =>
    intro e he hk
    rw [hdrop] at he
    exact hnd.queued e (List.mem_of_mem_drop he) hk
  case held => exact hnd.held
  case called => exact hnd.called
  case idx => exact le_rfl
  case grown => exact le_rfl
  case slots => exact hslots.mono fun e hlt _ hle => absurd hlt (Nat.not_lt.2 hle)
  case frozen =>
    rintro (hf | hf)
    · exact ⟨e₀, hf.trans hlive, (lastFor_mem hfound).2, halive, .inl rfl⟩
    · exact absurd hf (lt_irrefl _)
  case active =>
    intro hf
    have hfind : (s₁.writer_ (writerOf k)).list_.find k ≠ none := by
      intro hn
      exact hf (.inl (by rw [listed_eq, hn, Option.none_or]))
    refine ⟨fun hpc => hf (.inl ?_), ?_⟩
    · -- the active list is the last frozen one
      obtain ⟨init, hinit⟩ := List.getLast?_eq_some_iff.1 (hp.last hpc)
      rw [listed_eq, frozenFor, hinit, List.reverse_append, List.reverse_singleton,
        List.singleton_append, List.map_cons, layered_cons, ← Option.or_assoc, Option.or_self]
    · rw [Option.isSome_iff_ne_none]
      intro hn
      exact hfind (by rw [SkipList.find, hn]; rfl)

variable (pushed) in
/-- **A step that deletes nothing.** -/
theorem Kept.step (h : Kept s₁ k e₀ ins (pushed (writerOf k)) s) (hok : Ok pushed s)
    (hm : Move s l s') (hno : ∀ t v, l ≠ .callSet t k v true) :
    Kept s₁ k e₀ ins (pushed (writerOf k) ++ pushedTo (writerOf k) (s.event l).toList) s' := by
  have hp := hok.pipe (writerOf k)
  have hgrown : (s.current_.list_ (writerOf k)).length ≤ (s'.current_.list_ (writerOf k)).length := by
    rcases hm.active_cases (writerOf k) with ha | ⟨ha, -⟩
    · rw [ha, List.length_append]; exact Nat.le_add_right _ _
    · rw [ha]
  constructor
  case found => exact h.found
  case alive => exact h.alive
  case past => exact h.past.trans (List.prefix_append ..)
  case drained =>
    have h1 := h.drained
    have h2 := hm.waiting_le (writerOf k)
    rw [List.length_append]
    omega
  case later =>
    intro e he hk
    rw [List.drop_append_of_le_length h.past.length_le] at he
    rcases List.mem_append.1 he with he | he
    · exact h.later e he hk
    · rcases pushedTo_event (writerOf k) (s := s) (l := l) with h1 | ⟨t', e', -, h2, h3⟩
      · rw [h1] at he; cases he
      · rw [h3] at he
        split at he
        · rw [List.mem_singleton.1 he] at hk ⊢
          exact h.held t' _ e' h2 hk
        · cases he
  case held =>
    intro t p e ht hk
    rcases hm.set_cases ht with ⟨p', h1⟩ | ⟨key, v, d, h1, rfl, -⟩
    · exact h.held t p' e h1 hk
    · obtain rfl : key = k := hk
      exact h.called t v d h1
  case called =>
    intro t v d ht
    rcases hm.called_cases ht with h1 | rfl
    · exact h.called t v d h1
    · cases d with
      | false => rfl
      | true => exact absurd rfl (hno t v)
  case idx => exact h.idx.trans hm.idx_le
  case grown => exact h.grown.trans hgrown
  case slots =>
    refine (h.slots.step hm hok.clients ?_).mono fun e he hk hle => ?_
    · intro t p e ht hp' _ hk _
      refine ⟨h.held t p e ht hk, .inr ⟨t, p, ht, ?_⟩⟩
      rcases hp' with rfl | rfl <;> simp
    · obtain ⟨h1, h2⟩ := he hk hle
      exact ⟨h1, h2.step hm (by rw [home, hk]) h.past⟩
  case frozen =>
    -- what the active list holds is there to be frozen
    have hfind : ∀ {e}, (s.writer_ (writerOf k)).list_.find k = some e →
        Fresh k e₀ ins (pushed (writerOf k) ++ pushedTo (writerOf k) (s.event l).toList) s' e := by
      intro e hf
      obtain ⟨x, h1, h2⟩ := h.listed hp
      rw [listed_eq, hf, Option.some_or] at h1
      cases h1
      exact h2.step hm h.past
    have happ : s'.current_.list_ (writerOf k) =
        s.current_.list_ (writerOf k) ++ [(s.writer_ (writerOf k)).list_] →
        s'.frozenFor k = ((s.writer_ (writerOf k)).list_.find k).or (s.frozenFor k) := by
      intro ha
      rw [frozenFor, ha, List.reverse_append, List.reverse_singleton, List.singleton_append,
        List.map_cons, layered_cons]
      rfl
    intro hf
    by_cases hs : FrozenSince s₁ k s
    · obtain ⟨e, h1, h2⟩ := h.frozen hs
      rcases hm.active_cases (writerOf k) with ha | ⟨ha, -⟩
      · rw [happ ha]
        cases hl : (s.writer_ (writerOf k)).list_.find k with
        | none => exact ⟨e, h1, h2.step hm h.past⟩
        | some x => exact ⟨x, rfl, hfind hl⟩
      · refine ⟨e, ?_, h2.step hm h.past⟩
        rw [frozenFor, ha]
        exact h1
    · obtain ⟨-, hg⟩ := h.active hs
      obtain ⟨slice, hg⟩ := Option.isSome_iff_exists.1 hg
      obtain ⟨e, -, hl, -⟩ := hp.active.get_some hg
      rcases hm.active_cases (writerOf k) with ha | ⟨ha, -⟩
      · exact ⟨e, by rw [happ ha, hl, Option.some_or], hfind hl⟩
      · unfold FrozenSince at hf hs
        rw [ha] at hf
        exact absurd hf hs
  case active =>
    intro hf
    have hs : ¬ FrozenSince s₁ k s := by
      rintro (hs | hs)
      · exact hf (.inl hs)
      · exact hf (.inr (hs.trans_le hgrown))
    obtain ⟨hpc, hg⟩ := h.active hs
    rcases hm.active_cases (writerOf k) with ha | ⟨ha, hstay⟩
    · -- a list is frozen
      refine absurd (.inr ?_) hf
      rw [ha, List.length_append]
      exact Nat.lt_succ_of_le h.grown
    · obtain ⟨hpc', hl | ⟨front, hl⟩⟩ := hstay hpc
      · exact ⟨hpc', by rw [hl]; exact hg⟩
      · refine ⟨hpc', ?_⟩
        rw [SkipList.insert_get hl]
        split
        · obtain ⟨slice, h1, -⟩ := SkipList.insert_some hl
          rw [h1]; rfl
        · exact hg

/-! ## The way of the `getValue` -/

/-- Thread `t` is inside `getValue(k)` and will answer with an entry in `P`. -/
def Way (k : Bytes) (B : ℕ) (P : Entry → Prop) (s : Store) : ClientPc → Prop
  | .getActive k' _ | .getFrozen k' _ => k' = k
  | .getDone k' r => k' = k ∧ ∃ e, P e ∧ r = (.ok, some e.value.bytes)
  | pc => Searching k B s pc

/-- A thread that reads the frozen lists finds there the list that held its key in `s₁`. -/
def FoundFrozen (s₁ s : Store) : ClientPc → Prop
  | .getFrozen key _ => FrozenSince s₁ key s
  | _ => True

/-- A step, within bounds, in which thread `t` does not read the frozen lists too early. -/
def InTime (s₁ : Store) (t : Tid) (s : Store) : Label → Prop
  | .client t' => s.SizedStep (.client t') ∧ (t' = t → s₁.FoundFrozen s (s.client t))
  | l => s.SizedStep l

theorem InTime.sized (h : InTime s₁ t s l) : s.SizedStep l := by
  cases l with
  | client => exact h.1
  | _ => exact h

theorem Searching.way {B : ℕ} {P : Entry → Prop} {pc : ClientPc} (h : Searching k B s pc) :
    Way k B P s pc := by
  cases pc with
  | getActive | getFrozen | getDone => exact absurd h id
  | _ => exact h

/-- The steps of other threads keep thread `t` on its way. -/
theorem Way.frame {B : ℕ} {P : Entry → Prop} {pc : ClientPc} (h : Way k B P s pc) (hm : Move s l s') :
    Way k B P s' pc := by
  cases pc with
  | getActive | getFrozen | getDone => exact h
  | _ =>
    refine Searching.way (Searching.frame (s := s) ?_ hm)
    exact h

/-- The answer from an entry that is no deletion. -/
theorem answerOf_alive (h : e.value_type = false) :
    answerOf (some e) = (.ok, some e.value.bytes) := by
  rw [answerOf, h]
  rfl

/-- **The own steps of thread `t` keep it on its way.** -/
theorem Way.own {es : List Entry} (h : Way k s₁.idx_ (Fresh k e₀ ins es s) s (s.client t))
    (hk : Kept s₁ k e₀ ins es s)
    (hp : PipeOk es (s.writer_ (writerOf k)) (s.current_.list_ (writerOf k)))
    (hg : s₁.FoundFrozen s (s.client t)) (hs : s.clientStep t = some s')
    (hr : ∀ r, s.client t ≠ .getDone k r) :
    Way k s₁.idx_ (Fresh k e₀ ins es s) s' (s'.client t) := by
  have hsearch : Searching k s₁.idx_ s (s.client t) →
      Way k s₁.idx_ (Fresh k e₀ ins es s) s' (s'.client t) := by
    intro hse
    rcases hse.own hk.idx hk.slots.1 hs with h1 | ⟨seq, -, h1⟩ | ⟨seq, j, r, hB, h1, h2, hc, h3⟩
    · exact h1.way
    · rw [h1]; rfl
    · -- the slot that is accepted was written since the call
      rw [h3]
      unfold MessageQueue.check at hc
      split at hc
      · rename_i hm
        obtain ⟨h4, h5⟩ := hk.slots.2 j h1 h2 hm.1.symm (hB.trans hm.2)
        rw [h4] at hc
        cases hc
        exact ⟨rfl, _, ⟨hm.1.symm, h4, .inr h5⟩, rfl⟩
      · cases hc
  unfold clientStep at hs
  cases ht : s.client t with
  | idle | setCalled | set => rw [ht] at h; exact absurd h id
  | getCalled | getSeq | getBegin | getScan =>
    rw [ht] at h hsearch
    exact hsearch h
  | getActive k' seq =>
    rw [ht] at hs h
    obtain rfl : k' = k := h
    simp only at hs
    split at hs
    · rw [hp.getEntry_eq] at hs
      obtain ⟨x, hx, hfresh⟩ := hk.listed hp
      rw [listed_eq] at hx
      cases hf : (s.writer_ (writerOf k')).list_.find k' with
      | none =>
        rw [hf] at hs
        simp only [Option.bind_none, Option.map_some, Option.some.injEq] at hs
        subst hs
        rw [setClient_client, Function.update_self]
        rfl
      | some e =>
        rw [hf, Option.some_or] at hx
        cases hx
        rw [hf, Option.bind_some, answerOf_alive hfresh.2.1] at hs
        by_cases hseq : seq < x.seq_num
        · -- too new for the number that was read: on to the frozen lists
          rw [if_pos hseq] at hs
          simp only [Option.map_some, Option.some.injEq] at hs
          subst hs
          rw [setClient_client, Function.update_self]
          rfl
        · rw [if_neg hseq] at hs
          simp only [Option.map_some, Option.some.injEq] at hs
          subst hs
          rw [setClient_client, Function.update_self]
          exact ⟨rfl, x, hfresh, rfl⟩
    · cases hs
  | getFrozen k' seq =>
    rw [ht] at hs h hg
    obtain rfl : k' = k := h
    obtain ⟨e, hf, hfresh⟩ := hk.frozen hg
    simp only at hs
    rw [readVersion_ok fun l hl => (hp.frozen l hl).1] at hs
    rw [frozenFor] at hf
    rw [hf, answerOf_alive hfresh.2.1] at hs
    cases hs
    rw [setClient_client, Function.update_self]
    exact ⟨rfl, e, hfresh, rfl⟩
  | getDone k' r =>
    rw [ht] at h
    obtain ⟨rfl, -⟩ := h
    exact absurd ht (hr r)

variable (pushed) in
/-- **A step before the `getValue` returns.** -/
theorem Way.step (h : Way k s₁.idx_ (Fresh k e₀ ins (pushed (writerOf k)) s) s (s.client t))
    (hk : Kept s₁ k e₀ ins (pushed (writerOf k)) s) (hok : Ok pushed s) (hg : InTime s₁ t s l)
    (hs : s.step l = some s') (hr : ∀ r, s.event l ≠ some (.retGet t k r)) :
    Way k s₁.idx_ (Fresh k e₀ ins (pushed (writerOf k) ++ pushedTo (writerOf k) (s.event l).toList) s')
      s' (s'.client t) := by
  have hm := step_move hs
  -- an entry that is not older is so after the step
  have hmono : ∀ {pc}, Way k s₁.idx_ (Fresh k e₀ ins (pushed (writerOf k)) s) s' pc →
      Way k s₁.idx_ (Fresh k e₀ ins (pushed (writerOf k) ++ pushedTo (writerOf k) (s.event l).toList)
        s') s' pc := by
    intro pc hw
    cases pc with
    | getDone =>
      obtain ⟨h1, e, h2, h3⟩ := hw
      exact ⟨h1, e, h2.step hm hk.past, h3⟩
    | _ => exact hw
  refine hmono ?_
  by_cases hl : l = .client t
  · subst hl
    refine h.own hk (hok.pipe _) (hg.2 rfl) hs fun r ht => ?_
    exact hr r (by simp only [event, clientEvent, ht])
  · rw [hm.client_of_ne hl (by intro hi; rw [hi] at h; exact h)]
    exact h.frame hm

/-- The invariant of a run since thread `t` has called `getValue(k)` in `s₁`. -/
structure GetOk (s₁ : Store) (t : Tid) (k : Bytes) (e₀ : Entry) (ins : List Entry)
    (pushed : Fin kMaxWriter → List Entry) (s : Store) : Prop where
  ok : Ok pushed s
  kept : Kept s₁ k e₀ ins (pushed (writerOf k)) s
  way : Way k s₁.idx_ (Fresh k e₀ ins (pushed (writerOf k)) s) s (s.client t)

theorem GetOk.step (h : GetOk s₁ t k e₀ ins pushed s) (hg : InTime s₁ t s l) (hs : s.step l = some s')
    (hr : ∀ r, s.event l ≠ some (.retGet t k r)) (hno : ∀ t' v, l ≠ .callSet t' k v true) :
    GetOk s₁ t k e₀ ins (fun w => pushed w ++ pushedTo w (s.event l).toList) s' :=
  ⟨h.ok.step hg.sized hs, h.kept.step pushed h.ok (step_move hs) hno,
    h.way.step pushed h.kept h.ok hg hs hr⟩

/-- **Every run until the return keeps it.** -/
theorem GetOk.exec (h : GetOk s₁ t k e₀ ins pushed s₀)
    (hx : machine.Exec (InTime s₁ t) s₀ hist s) (hret : NoReturn t hist)
    (hdel : ∀ t' v, .callSet t' k v true ∉ hist) :
    GetOk s₁ t k e₀ ins (fun w => pushed w ++ pushedTo w hist) s := by
  refine hx.induct (I := fun hist s => NoReturn t hist → (∀ t' v, .callSet t' k v true ∉ hist) →
    GetOk s₁ t k e₀ ins (fun w => pushed w ++ pushedTo w hist) s) ?_ ?_ hret hdel
  · intro _ _
    simpa using h
  · intro hist s l s' ih hg hs hret hdel
    have hnext := (ih hret.left fun t' v hmem => hdel t' v (List.mem_append_left _ hmem)).step hg hs
      (fun r hev => hret k r (List.mem_append_right _ (Option.mem_toList.2 hev)))
      (fun t' v hl => by
        subst hl
        exact hdel t' v (List.mem_append_right _ List.mem_cons_self))
    simp only [List.append_assoc, ← pushedTo_append] at hnext
    exact hnext

/-- **The `getValue` goes on**, unless the writer has the lock that `getEntry` takes. -/
theorem Way.progress {B : ℕ} {P : Entry → Prop} {es : List Entry} (h : Way k B P s (s.client t))
    (hp : PipeOk es (s.writer_ (writerOf k)) (s.current_.list_ (writerOf k))) :
    (s.clientStep t).isSome = true ∨
      (∃ seq, s.client t = .getActive k seq) ∧ (s.writer_ (writerOf k)).pc ≠ .idle := by
  unfold clientStep
  cases ht : s.client t with
  | idle | setCalled | set => rw [ht] at h; exact absurd h id
  | getCalled | getSeq | getBegin | getDone => exact .inl rfl
  | getScan k' seq last turns =>
    left
    cases turns with
    | zero => rfl
    | succ turns => dsimp only; split <;> rfl
  | getActive k' seq =>
    rw [ht] at h
    obtain rfl : k' = k := h
    by_cases hpc : (s.writer_ (writerOf k')).pc = .idle
    · left
      dsimp only
      rw [if_pos hpc, hp.getEntry_eq]
      rfl
    · exact .inr ⟨⟨seq, rfl⟩, hpc⟩
  | getFrozen k' seq =>
    rw [ht] at h
    obtain rfl : k' = k := h
    left
    dsimp only
    rw [readVersion_ok fun l hl => (hp.frozen l hl).1]
    rfl

/-- **Its steps come to an end.** -/
theorem Way.left_lt {B : ℕ} {P : Entry → Prop} (h : Way k B P s (s.client t))
    (hs : s.clientStep t = some s') : (s'.client t).left < (s.client t).left := by
  unfold clientStep at hs
  cases ht : s.client t with
  | idle | setCalled | set => rw [ht] at h; exact absurd h id
  | getCalled | getSeq | getBegin | getDone =>
    rw [ht] at hs
    cases hs
    simp [ClientPc.left, Prod.Lex.toLex_lt_toLex]
  | getScan k' seq last turns =>
    rw [ht] at hs
    cases turns with
    | zero =>
      cases hs
      simp [ClientPc.left, Prod.Lex.toLex_lt_toLex]
    | succ turns =>
      dsimp only at hs
      split at hs <;>
        · cases hs
          simp [ClientPc.left, Prod.Lex.toLex_lt_toLex]
  | getActive k' seq =>
    rw [ht] at hs
    dsimp only at hs
    split at hs
    · obtain ⟨a, -, rfl⟩ := Option.map_eq_some_iff.1 hs
      cases a <;> simp [ClientPc.left, Prod.Lex.toLex_lt_toLex]
    · cases hs
  | getFrozen k' seq =>
    rw [ht] at hs
    obtain ⟨a, -, rfl⟩ := Option.map_eq_some_iff.1 hs
    simp [ClientPc.left, Prod.Lex.toLex_lt_toLex]

end Store

open Store

/-! ## Runs -/

/-- The queue counts `e` in after `e₀`, or has not counted it in yet. -/
def Follows (pushed : List Entry) (s : Store) (e₀ e : Entry) : Prop :=
  (∃ a b, pushed = a ++ e₀ :: b ∧ e ∈ b) ∨ ∃ t p, s.client t = .set p e ∧ p ≠ .counted

theorem Store.Kept.follows {s₁ s : Store} {k : Bytes} {e₀ e : Entry} {ins pushed : List Entry}
    (h : Kept s₁ k e₀ ins pushed s) (he : Later ins pushed s e) : Follows pushed s e₀ e := by
  refine he.imp_left fun he => ?_
  obtain ⟨a, b, hab⟩ := List.append_of_mem (lastFor_mem h.found).1
  obtain ⟨rest, hrest⟩ := h.past
  rw [← hrest, List.drop_left] at he
  exact ⟨a, b ++ rest, by rw [← hrest, hab, List.append_assoc, List.cons_append],
    List.mem_append_right _ he⟩

/-- **A present key is found.** When `getValue(k)` is called the lists hold `e₀` for `k`, which is no
deletion, and nobody deletes `k`. Where the list that held `e₀` is frozen by the time the frozen
lists are read, if they are: the call goes on, but for the lock of `getEntry`, to its end; and its
answer is the value of an entry that a write of `k` has put, and that is not older than `e₀`. -/
theorem present_key_found {s₀ s₁ s₂ s : Store} {h₁ h₂ : List Store.Event} {t : Tid} {k : Bytes}
    {e₀ : Entry} (h0 : s₀.Started) (hx₁ : Store.machine.Exec Store.SizedStep s₀ h₁ s₁)
    (hlive : s₁.listed k = some e₀) (halive : e₀.value_type = false) (hnd : s₁.NoDelete k)
    (hsize : s₁.SizedStep (.callGet t k)) (hcall : Store.machine.step s₁ (.callGet t k) = some s₂)
    (hx₂ : Store.machine.Exec (Store.InTime s₁ t) s₂ h₂ s) (hret : NoReturn t h₂)
    (hdel : ∀ t' v, .callSet t' k v true ∉ h₂) :
    ((s.clientStep t).isSome = true ∨
      (∃ seq, s.client t = .getActive k seq) ∧ (s.writer_ (writerOf k)).pc ≠ .idle) ∧
    (∀ s', s.clientStep t = some s' → (s'.client t).left < (s.client t).left) ∧
    ∀ k' r, s.client t = .getDone k' r → ∃ e, r = (.ok, some e.value.bytes) ∧ e.key.bytes = k ∧
      e.value_type = false ∧ Wrote s₀ (h₁ ++ .callGet t k :: h₂) e ∧
      (e = e₀ ∨ Follows (allPushed s₀ (writerOf k) (h₁ ++ .callGet t k :: h₂)) s e₀ e) := by
  have hok₁ := h0.ok.exec hx₁
  have hs₂ : s₁.step (.callGet t k) = some s₂ := hcall
  have hm := step_move hs₂
  obtain ⟨ins, hkept₁⟩ := Kept.start (hok₁.pipe (writerOf k)) hlive halive hnd
    ((Numbered.exec h0 hx₁).slots _)
  have hget₂ : GetOk s₁ t k e₀ ins (fun w => allPushed s₀ w h₁ ++ []) s₂ := by
    refine ⟨hok₁.step hsize hs₂, hkept₁.step (fun w => allPushed s₀ w h₁) hok₁ hm (by simp), ?_⟩
    have hc : s₂.client t = .getCalled k := by cases hm; exact Function.update_self ..
    rw [hc]
    rfl
  have hget := hget₂.exec hx₂ hret hdel
  have hpushed : ∀ w, allPushed s₀ w (h₁ ++ .callGet t k :: h₂) =
      allPushed s₀ w h₁ ++ [] ++ pushedTo w h₂ := by
    intro w
    rw [allPushed, pushedTo_append, ← List.append_assoc, List.append_nil]
    rfl
  simp only [← hpushed] at hget
  obtain ⟨hok, hkept, hway⟩ := hget
  refine ⟨hway.progress (hok.pipe _), fun s' => hway.left_lt, fun k' r ht => ?_⟩
  rw [ht] at hway
  obtain ⟨rfl, e, ⟨hk, hd, hlater⟩, rfl⟩ := hway
  have hfull : Store.machine.Exec Store.SizedStep s₀ (h₁ ++ .callGet t k' :: h₂) s :=
    hx₁.append ((Machine.Exec.start.next hsize hcall).append (hx₂.mono fun _ _ h => h.sized))
  refine ⟨e, rfl, hk, hd, (Called.exec h0 hfull).wrote ?_, hlater.imp_right hkept.follows⟩
  -- in each case `e` was counted in, or a write holds it
  rw [home, hk]
  rcases hlater with rfl | hl | ⟨t', p, ht', -⟩
  · exact .inl (hkept.past.subset (lastFor_mem hkept.found).1)
  · exact .inl (List.mem_of_mem_drop hl)
  · exact .inr ⟨t', p, ht'⟩

instance (s₁ : Store) (k : Bytes) (s : Store) : Decidable (FrozenSince s₁ k s) :=
  inferInstanceAs (Decidable (_ ∨ _))

instance (s₁ s : Store) (pc : ClientPc) : Decidable (s₁.FoundFrozen s pc) :=
  match pc with
  | .getFrozen k _ => inferInstanceAs (Decidable (FrozenSince s₁ k s))
  | .idle | .setCalled _ _ _ | .set _ _ | .getCalled _ | .getSeq _ _ | .getBegin _ _ _
  | .getScan _ _ _ _ | .getActive _ _ | .getDone _ _ => instDecidableTrue

instance (s₁ : Store) (t : Tid) (s : Store) (l : Label) : Decidable (InTime s₁ t s l) :=
  match l with
  | .client t' => inferInstanceAs (Decidable (s.SizedStep (.client t') ∧ (t' = t → _)))
  | .callSet t' k v d => inferInstanceAs (Decidable (s.SizedStep (.callSet t' k v d)))
  | .callGet t' k => inferInstanceAs (Decidable (s.SizedStep (.callGet t' k)))
  | .writer w => inferInstanceAs (Decidable (s.SizedStep (.writer w)))

/-- A write of `a` by thread 0, up to its return. -/
def overwrite (value : Bytes) : List Label :=
  .callSet 0 [97] value false :: List.replicate 8 (.client 0)

/-- A key that is overwritten while it is read. -/
theorem present_key_found_overwritten : ∃ s₁ s₂ h s,
    Store.machine.Exec Store.SizedStep freshStore oneWriteEvents s₁ ∧
    s₁.listed [97] = some (Store.entryOf [97] [98] 1 false) ∧
    Store.machine.step s₁ (.callGet 1 [97]) = some s₂ ∧
    Store.machine.Exec (Store.InTime s₁ 1) s₂ h s ∧
    ∃ e : Entry, e.key.bytes = [97] ∧ s.client 1 = .getDone [97] (.ok, some e.value.bytes) ∧
      Wrote freshStore (oneWriteEvents ++ .callGet 1 [97] :: h) e := by
  have hr : ((Store.machine.exec Store.SizedStep freshStore (oneWrite ++ [.writer 2])).bind fun r₁ =>
      (Store.machine.step r₁.2 (.callGet 1 [97])).bind fun s₂ =>
      (Store.machine.exec (Store.InTime r₁.2 1) s₂
        (.client 1 :: overwrite [99] ++ List.replicate 3 (.client 1))).map fun r₂ =>
      decide (r₁.1 = oneWriteEvents ∧ r₁.2.listed [97] = some (Store.entryOf [97] [98] 1 false) ∧
        r₁.2.SizedStep (.callGet 1 [97]) ∧
        r₂.1 = [.callSet 0 [97] [99] false, .logged 2 (Store.entryOf [97] [99] 2 false),
          .pushed 2 (Store.entryOf [97] [99] 2 false), .retSet 0 [97]] ∧
        r₂.2.client 1 = .getDone [97] (.ok, some [99]))) = some true := by
    decide +kernel
  obtain ⟨⟨h₁, s₁⟩, hr₁, hr⟩ := Option.bind_eq_some_iff.1 hr
  obtain ⟨s₂, hcall, hr⟩ := Option.bind_eq_some_iff.1 hr
  obtain ⟨⟨h₂, s⟩, hr₂, hr⟩ := Option.map_eq_some_iff.1 hr
  obtain ⟨rfl, hlive, hsize, rfl, hdone⟩ := of_decide_eq_true hr
  have hx₁ := Machine.exec_sound hr₁
  have hx₂ := Machine.exec_sound hr₂
  have hnd : s₁.NoDelete [97] := by
    refine noDelete_of_history freshStore_started hx₁ (fun e he => ?_) (by simp [oneWriteEvents])
    simp [freshStore, MessageQueue.contents, Ring.contents_emptyAt] at he
  obtain ⟨-, -, hfound⟩ := present_key_found freshStore_started hx₁ hlive rfl hnd hsize hcall hx₂
    (by simp [NoReturn]) (by simp)
  obtain ⟨e, hv, hk, -, hw, -⟩ := hfound _ _ hdone
  exact ⟨s₁, s₂, _, s, hx₁, hlive, hcall, hx₂, e, hk, hv ▸ hdone, hw⟩

/-- **A present key is missed**: it is overwritten twice between `search` and `getEntry`. -/
theorem present_key_missed : ∃ s₁ s₂ h s,
    Store.machine.Exec Store.SizedStep freshStore oneWriteEvents s₁ ∧
    s₁.listed [97] = some (Store.entryOf [97] [98] 1 false) ∧ s₁.NoDelete [97] ∧
    Store.machine.step s₁ (.callGet 1 [97]) = some s₂ ∧
    Store.machine.Exec Store.SizedStep s₂ h s ∧ NoReturn 1 h ∧ (∀ t v, .callSet t [97] v true ∉ h) ∧
    s.client 1 = .getDone [97] (.notFound, none) := by
  have hr : ((Store.machine.exec Store.SizedStep freshStore (oneWrite ++ [.writer 2])).bind fun r₁ =>
      (Store.machine.step r₁.2 (.callGet 1 [97])).bind fun s₂ =>
      (Store.machine.exec Store.SizedStep s₂
        (List.replicate 4 (.client 1) ++ overwrite [99] ++ overwrite [100] ++
          List.replicate 8 (.writer 2) ++ List.replicate 2 (.client 1))).map fun r₂ =>
      decide (r₁.1 = oneWriteEvents ∧ r₁.2.listed [97] = some (Store.entryOf [97] [98] 1 false) ∧
        r₂.1 = [.callSet 0 [97] [99] false, .logged 2 (Store.entryOf [97] [99] 2 false),
          .pushed 2 (Store.entryOf [97] [99] 2 false), .retSet 0 [97],
          .callSet 0 [97] [100] false, .logged 2 (Store.entryOf [97] [100] 3 false),
          .pushed 2 (Store.entryOf [97] [100] 3 false), .retSet 0 [97]] ∧
        r₂.2.client 1 = .getDone [97] (.notFound, none))) = some true := by
    decide +kernel
  obtain ⟨⟨h₁, s₁⟩, hr₁, hr⟩ := Option.bind_eq_some_iff.1 hr
  obtain ⟨s₂, hcall, hr⟩ := Option.bind_eq_some_iff.1 hr
  obtain ⟨⟨h₂, s⟩, hr₂, hr⟩ := Option.map_eq_some_iff.1 hr
  obtain ⟨rfl, hlive, rfl, hdone⟩ := of_decide_eq_true hr
  have hx₁ := Machine.exec_sound hr₁
  have hnd : s₁.NoDelete [97] := by
    refine noDelete_of_history freshStore_started hx₁ (fun e he => ?_) (by simp [oneWriteEvents])
    simp [freshStore, MessageQueue.contents, Ring.contents_emptyAt] at he
  exact ⟨s₁, s₂, _, s, hx₁, hlive, hnd, hcall, Machine.exec_sound hr₂, by simp [NoReturn], by simp,
    hdone⟩

end Yangkv
