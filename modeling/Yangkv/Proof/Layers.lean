import Yangkv.Lib.LastWrite
import Yangkv.Proof.Codec
import Yangkv.Proof.Steps

/-!
# The write pipeline

An entry goes from the queue of its writer into the active list and with that list
into the current version. `PipeOk pushed` says of one writer, at every place of its
thread, that these layers hold the entries pushed so far.

* `PipeOk.lookup`: looking a key up from the newest slot of the queue down to the
  first frozen list finds the last entry pushed for it.
* `StoreOk.step`: every step of the store keeps this for all writers, however pushes
  and writers interleave.
* `pipeline_refines`: in every state a run reaches, the pipeline is the map of last
  writes.
-/

namespace Yangkv

open Lib

/-- The sizes fit the encoding, and the sequence number fits beside the type. -/
structure MemEntry.Bounded (e : Entry) : Prop where
  fits : e.Fits
  seq : e.seq_num < 2 ^ 56

/-! ## Lists -/

theorem decodeSlice_record {e : Entry} (he : e.Bounded) : decodeSlice e.record = some e := by
  have h1 := decodeMemEntry_record he.fits []
  have h2 := read_views e []
  rw [List.append_nil] at h1 h2
  unfold decodeSlice
  rw [h1, Option.map_some, h2, Nat.mod_eq_of_lt he.seq]

namespace SkipList

/-- The entry that a list holds for a key. -/
def find (l : SkipList) (key : Bytes) : Option Entry := (l.get key).bind decodeSlice

/-- Every slice in the list is the encoding of an entry in `S`, under its key. -/
def From (S : Entry → Prop) (l : SkipList) : Prop :=
  ∀ k slice, l.get k = some slice → ∃ e, S e ∧ e.key.bytes = k ∧ encodeMemEntry e = some slice

variable {l l' : SkipList} {e : Entry} {S S' : Entry → Prop}

@[simp] theorem get_empty (k : Bytes) : empty.get k = none := Std.TreeMap.getElem?_emptyc

@[simp] theorem find_empty (k : Bytes) : empty.find k = none := by simp [find]

@[simp] theorem size_empty : empty.size = 0 := Std.TreeMap.size_emptyc

theorem from_empty : empty.From S := by intro k slice h; simp at h

theorem From.mono (h : l.From S) (hS : ∀ e, S e → S' e) : l.From S' := by
  intro k slice hk
  obtain ⟨e, h1, h2⟩ := h k slice hk
  exact ⟨e, hS e h1, h2⟩

theorem insert_some (h : l.insert e = some l') :
    ∃ slice, encodeMemEntry e = some slice ∧ l'.list_ = l.list_.insert e.key.bytes slice := by
  obtain ⟨slice, h1, rfl⟩ := Option.map_eq_some_iff.1 h
  exact ⟨slice, h1, rfl⟩

theorem insert_get (h : l.insert e = some l') (k : Bytes) :
    l'.get k = if e.key.bytes = k then encodeMemEntry e else l.get k := by
  obtain ⟨slice, h1, h2⟩ := insert_some h
  unfold get
  rw [h2, Std.TreeMap.getElem?_insert]
  simp only [Std.compare_eq_iff_eq, h1]

theorem From.insert (hl : l.From S) (he : S e) (h : l.insert e = some l') : l'.From S := by
  intro k slice hk
  rw [insert_get h] at hk
  split at hk
  · rename_i hek; exact ⟨e, he, hek, hk⟩
  · exact hl k slice hk

/-- **An insert shows for its own key only.** -/
theorem insert_find (he : e.Bounded) (h : l.insert e = some l') (k : Bytes) :
    l'.find k = if e.key.bytes = k then some e else l.find k := by
  unfold find
  rw [insert_get h]
  split
  · rw [encodeMemEntry_fits he.fits, Option.bind_some, decodeSlice_record he]
  · rfl

theorem insert_size_le (h : l.insert e = some l') : l'.size ≤ l.size + 1 := by
  obtain ⟨slice, -, h2⟩ := insert_some h
  unfold size
  rw [h2, Std.TreeMap.size_insert]
  split <;> omega

/-- What a list of bounded entries holds can be decoded. -/
theorem From.get_some (hl : l.From MemEntry.Bounded) {k slice : Bytes} (h : l.get k = some slice) :
    ∃ e, decodeSlice slice = some e ∧ l.find k = some e ∧ e.Bounded ∧ e.key.bytes = k := by
  obtain ⟨e, h1, h2, h3⟩ := hl k slice h
  rw [encodeMemEntry_fits h1.fits] at h3
  obtain rfl := Option.some.inj h3
  refine ⟨e, decodeSlice_record h1, ?_, h1, h2⟩
  unfold find
  rw [h, Option.bind_some, decodeSlice_record h1]

end SkipList

/-! ## The layers of one writer -/

/-- How many entries at the front of the queue are already in the list. -/
def WriterPc.ahead : WriterPc → ℕ
  | .inserted => 1
  | _ => 0

/-- The sizes of the active list at each place of the writer. -/
def WriterPc.Sized (n : ℕ) : WriterPc → Prop
  | .off | .idle | .loop => n < kMaxActiveListSize
  | .inserted | .popped => n ≤ kMaxActiveListSize
  | .full | .frozen => n = kMaxActiveListSize

/-- The lists of a writer as layers, newest first. -/
def listLayers (wr : Writer) (lists : List SkipList) : List (Bytes → Option Entry) :=
  wr.list_.find :: lists.reverse.map SkipList.find

/-- The queue slots, the active list and the frozen lists as layers, newest first. -/
def layers (wr : Writer) (lists : List SkipList) : List (Bytes → Option Entry) :=
  (fun k => lastFor (·.key.bytes) k wr.queue_.contents) :: listLayers wr lists

/-- Looking a key up in all layers of its writer, newest first. -/
def Store.lookup (s : Store) (w : Fin kMaxWriter) (key : Bytes) : Option Entry :=
  layered (layers (s.writer_ w) (s.current_.list_ w)) key

/-- The layers of a writer hold what was pushed to its queue. -/
structure PipeOk (pushed : List Entry) (wr : Writer) (lists : List SkipList) : Prop where
  bounded : ∀ e ∈ pushed, e.Bounded
  ahead : wr.pc.ahead ≤ wr.queue_.contents.length
  /-- the lists are the last writes of `ins`, which are all entries but those still queued -/
  flow : ∃ ins, pushed = ins ++ wr.queue_.contents.drop wr.pc.ahead ∧
    wr.queue_.contents.take wr.pc.ahead <:+ ins ∧
    ∀ k, layered (listLayers wr lists) k = lastFor (·.key.bytes) k ins
  active : wr.list_.From MemEntry.Bounded
  size : wr.pc.Sized wr.list_.size
  frozen : ∀ l ∈ lists, l.From MemEntry.Bounded ∧ l.size = kMaxActiveListSize
  /-- between `AppendFrozenList` and the new list, the active list is also the last frozen one -/
  last : wr.pc = .frozen → lists.getLast? = some wr.list_

namespace PipeOk

variable {pushed : List Entry} {wr wr' : Writer} {lists : List SkipList} {e : Entry}

/-- **The layers are the map of last writes**, also while an entry is in two of them. -/
theorem lookup (h : PipeOk pushed wr lists) (k : Bytes) :
    layered (layers wr lists) k = lastFor (·.key.bytes) k pushed := by
  obtain ⟨ins, h1, ⟨pre, h2⟩, h3⟩ := h.flow
  unfold layers
  rw [layered_cons, h3, h1, lastFor_append]
  conv_lhs => rw [← List.take_append_drop wr.pc.ahead wr.queue_.contents, lastFor_append]
  -- the entries that are also in the list are its last ones
  rw [Option.or_assoc]
  congr 1
  rw [← h2, lastFor_append, ← Option.or_assoc, Option.or_self]

/-- Only the entries in the queue, the active list and the place of the writer matter. -/
theorem congr (h : PipeOk pushed wr lists) (hq : wr'.queue_.contents = wr.queue_.contents)
    (hl : wr'.list_ = wr.list_) (hp : wr'.pc = wr.pc) : PipeOk pushed wr' lists := by
  obtain ⟨h1, h2, h3, h4, h5, h6, h7⟩ := h
  unfold listLayers at h3
  refine ⟨h1, by rw [hq, hp]; exact h2, ?_, by rw [hl]; exact h4, by rw [hl, hp]; exact h5, h6,
    by rw [hl, hp]; exact h7⟩
  unfold listLayers
  rw [hq, hl, hp]; exact h3

theorem push (h : PipeOk pushed wr lists) (he : e.Bounded)
    (hq : wr'.queue_.contents = wr.queue_.contents ++ [e]) (hl : wr'.list_ = wr.list_)
    (hp : wr'.pc = wr.pc) : PipeOk (pushed ++ [e]) wr' lists := by
  obtain ⟨h1, h2, ⟨ins, h3, h4, h5⟩, h6, h7, h8, h9⟩ := h
  constructor
  · intro x hx
    rcases List.mem_append.1 hx with hx | hx
    · exact h1 x hx
    · rw [List.mem_singleton.1 hx]; exact he
  · rw [hq, hp, List.length_append]; omega
  · refine ⟨ins, ?_, ?_, ?_⟩
    · rw [hq, hp, List.drop_append_of_le_length h2, h3, List.append_assoc]
    · rw [hq, hp, List.take_append_of_le_length h2]; exact h4
    · unfold listLayers at h5 ⊢
      rw [hl]; exact h5
  · rw [hl]; exact h6
  · rw [hl, hp]; exact h7
  · exact h8
  · rw [hl, hp]; exact h9

/-- The write lock is taken or given back. -/
theorem relock (h : PipeOk pushed wr lists) {pc : WriterPc} (hp : wr.pc = .idle ∨ wr.pc = .loop)
    (hpc : pc = .idle ∨ pc = .loop) : PipeOk pushed { wr with pc := pc } lists := by
  have ha : pc.ahead = 0 ∧ wr.pc.ahead = 0 := by
    constructor
    · rcases hpc with rfl | rfl <;> rfl
    · rcases hp with hp | hp <;> rw [hp] <;> rfl
  obtain ⟨h1, h2, h3, h4, h5, h6, -⟩ := h
  refine ⟨h1, by simp [ha.1], ?_, h4, ?_, h6, ?_⟩
  · simp only [ha.1, ha.2] at h3 ⊢; exact h3
  · have : wr.list_.size < kMaxActiveListSize := by
      rcases hp with hp | hp <;> rw [hp] at h5 <;> exact h5
    rcases hpc with rfl | rfl <;> exact this
  · intro hf
    rcases hpc with rfl | rfl <;> cases hf

theorem insert (h : PipeOk pushed wr lists) {front : Entry} {list : SkipList} (hp : wr.pc = .loop)
    (hf : wr.queue_.contents.head? = some front) (hl : wr.list_.insert front = some list) :
    PipeOk pushed { wr with list_ := list, pc := .inserted } lists := by
  obtain ⟨h1, -, ⟨ins, h3, -, h5⟩, h6, h7, h8, -⟩ := h
  rw [hp] at h7 h3
  obtain ⟨rest, hc⟩ : ∃ rest, wr.queue_.contents = front :: rest := by
    cases hq : wr.queue_.contents with
    | nil => rw [hq] at hf; cases hf
    | cons x rest => rw [hq] at hf; cases hf; exact ⟨rest, rfl⟩
  have h3' : pushed = ins ++ front :: rest := by rw [h3, hc]; rfl
  have hb : front.Bounded := h1 front (by rw [h3']; simp)
  refine ⟨h1, ?_, ⟨ins ++ [front], ?_, ?_, ?_⟩, h6.insert hb hl, ?_, h8, ?_⟩
  · rw [hc]; simp [WriterPc.ahead]
  · rw [h3', hc]; simp [WriterPc.ahead]
  · rw [hc]; exact ⟨ins, by simp [WriterPc.ahead]⟩
  · intro k
    have := h5 k
    unfold listLayers at this ⊢
    rw [layered_cons] at this ⊢
    rw [lastFor_snoc, SkipList.insert_find hb hl]
    split
    · rfl
    · exact this
  · have := SkipList.insert_size_le hl
    have h7 : wr.list_.size < kMaxActiveListSize := h7
    show list.size ≤ kMaxActiveListSize
    omega
  · intro hf; cases hf

theorem pop (h : PipeOk pushed wr lists) {q : MessageQueue Slice} (hp : wr.pc = .inserted)
    (hq : q.contents = wr.queue_.contents.tail) :
    PipeOk pushed { wr with queue_ := q, pc := .popped } lists := by
  obtain ⟨h1, -, ⟨ins, h3, -, h5⟩, h6, h7, h8, -⟩ := h
  rw [hp] at h7
  refine ⟨h1, Nat.zero_le _, ⟨ins, ?_, ?_, h5⟩, h6, h7, h8, ?_⟩
  · rw [h3, hp, hq, ← List.drop_one]; rfl
  · exact List.nil_suffix
  · intro hf; cases hf

theorem check (h : PipeOk pushed wr lists) (hp : wr.pc = .popped) :
    PipeOk pushed
      { wr with pc := if kMaxActiveListSize ≤ wr.list_.size then .full else .loop } lists := by
  obtain ⟨h1, -, h3, h6, h7, h8, -⟩ := h
  rw [hp] at h3 h7
  have h7 : wr.list_.size ≤ kMaxActiveListSize := h7
  split
  · rename_i hs
    exact ⟨h1, Nat.zero_le _, h3, h6, Nat.le_antisymm h7 hs, h8, fun hf => by cases hf⟩
  · rename_i hs
    exact ⟨h1, Nat.zero_le _, h3, h6, Nat.lt_of_not_le hs, h8, fun hf => by cases hf⟩

theorem freeze (h : PipeOk pushed wr lists) (hp : wr.pc = .full) :
    PipeOk pushed { wr with pc := .frozen } (lists ++ [wr.list_]) := by
  obtain ⟨h1, -, ⟨ins, h3, h4, h5⟩, h6, h7, h8, -⟩ := h
  rw [hp] at h3 h4 h7
  refine ⟨h1, Nat.zero_le _, ⟨ins, h3, h4, fun k => ?_⟩, h6, h7, ?_, fun _ => by simp⟩
  · rw [← h5 k]
    unfold listLayers
    rw [List.reverse_append, List.reverse_singleton, List.singleton_append, List.map_cons]
    simp only [layered_cons, ← Option.or_assoc, Option.or_self]
  · intro l hl
    rcases List.mem_append.1 hl with hl | hl
    · exact h8 l hl
    · rw [List.mem_singleton.1 hl]; exact ⟨h6, h7⟩

theorem renew (h : PipeOk pushed wr lists) (hp : wr.pc = .frozen) :
    PipeOk pushed { wr with list_ := .empty, pc := .loop } lists := by
  obtain ⟨h1, -, ⟨ins, h3, h4, h5⟩, h6, -, h8, h9⟩ := h
  rw [hp] at h3 h4
  obtain ⟨init, hinit⟩ : ∃ init, lists = init ++ [wr.list_] := List.getLast?_eq_some_iff.1 (h9 hp)
  refine ⟨h1, Nat.zero_le _, ⟨ins, h3, h4, fun k => ?_⟩, SkipList.from_empty, ?_, h8, ?_⟩
  · rw [← h5 k]
    unfold listLayers
    rw [hinit, List.reverse_append, List.reverse_singleton, List.singleton_append, List.map_cons]
    simp only [layered_cons, SkipList.find_empty, Option.none_or, ← Option.or_assoc,
      Option.or_self]
  · show SkipList.empty.size < kMaxActiveListSize
    rw [SkipList.size_empty]; decide
  · intro hf; cases hf

end PipeOk

/-! ## All writers -/

/-- The entries that a history shows as pushed to the queue of `w`. -/
def pushedTo (w : Fin kMaxWriter) (h : List Store.Event) : List Entry :=
  h.filterMap fun
    | .pushed w' e => if w' = w then some e else none
    | _ => none

@[simp] theorem pushedTo_nil (w : Fin kMaxWriter) : pushedTo w [] = [] := rfl

theorem pushedTo_append (w : Fin kMaxWriter) (h h' : List Store.Event) :
    pushedTo w (h ++ h') = pushedTo w h ++ pushedTo w h' := List.filterMap_append

namespace Store

/-- A step before the ids reach `2 ^ 56`; keys and values handed in fit their encoding. -/
def SizedStep (s : Store) : Label → Prop
  | .callSet _ key value _ =>
    s.idx_ < 2 ^ 56 ∧ key.length + 9 < 2 ^ 32 ∧ value.length + 1 < 2 ^ 32
  | _ => s.idx_ < 2 ^ 56

instance (s : Store) (l : Label) : Decidable (s.SizedStep l) :=
  match l with
  | .callSet _ _ _ _ => inferInstanceAs (Decidable (_ ∧ _))
  | .callGet _ _ | .client _ | .writer _ => inferInstanceAs (Decidable (_ < _))

/-- The store as `init` leaves it: the queues hold what was replayed, nothing else has happened. -/
structure Started (s : Store) : Prop where
  client : ∀ t, s.client t = .idle
  current : s.current_ = .new
  list : ∀ w, (s.writer_ w).list_ = .empty
  pc : ∀ w, (s.writer_ w).pc = .idle
  r_ptr : ∀ w, (s.writer_ w).queue_.r_ptr = 1
  replayed : ∀ w, ∀ e ∈ (s.writer_ w).queue_.contents, e.Bounded ∧ home e = w ∧ e.seq_num < s.idx_

/-- The invariant of the running store, `pushed w` being the entries pushed to the queue `w`. -/
structure Ok (pushed : Fin kMaxWriter → List Entry) (s : Store) : Prop where
  clients : ClientsOk s
  pipe : ∀ w, PipeOk (pushed w) (s.writer_ w) (s.current_.list_ w)
  home : ∀ w, ∀ e ∈ pushed w, home e = w
  called : ∀ t key value del_flag, s.client t = .setCalled key value del_flag →
    key.length + 9 < 2 ^ 32 ∧ value.length + 1 < 2 ^ 32
  entry : ∀ t p e, s.client t = .set p e → e.Bounded

variable {pushed : Fin kMaxWriter → List Entry} {s s' : Store} {l : Label}

theorem Started.ok (h : Started s) : Ok (fun w => (s.writer_ w).queue_.contents) s := by
  refine ⟨⟨fun t p e ht => ?_, fun t e ht => ?_⟩, fun w => ?_, fun w e he => (h.replayed w e he).2.1,
    fun t k v d ht => ?_, fun t p e ht => ?_⟩
  · rw [h.client t] at ht; cases ht
  · rw [h.client t] at ht; cases ht
  · have hp := h.pc w
    refine ⟨fun e he => (h.replayed w e he).1, ?_, ⟨[], ?_, ?_, fun k => ?_⟩, ?_, ?_, ?_, ?_⟩
    · rw [hp]; exact Nat.zero_le _
    · rw [hp]; rfl
    · rw [hp]; exact List.nil_suffix
    · unfold listLayers
      rw [h.list w, h.current, layered_cons, SkipList.find_empty]
      rfl
    · rw [h.list w]; exact SkipList.from_empty
    · rw [hp, h.list w, SkipList.size_empty]; exact Nat.zero_lt_succ _
    · rw [h.current]; intro l hl; cases hl
    · rw [hp]; intro hf; cases hf
  · rw [h.client t] at ht; cases ht
  · rw [h.client t] at ht; cases ht

theorem pushedTo_event (w : Fin kMaxWriter) :
    pushedTo w (s.event l).toList = [] ∨ ∃ t e, l = .client t ∧ s.client t = .set .written e ∧
      pushedTo w (s.event l).toList = if Store.home e = w then [e] else [] := by
  cases l with
  | client t =>
    simp only [event, clientEvent]
    split
    case h_2 e ht =>
      right
      refine ⟨t, e, rfl, ht, ?_⟩
      by_cases hw : Store.home e = w <;> simp [pushedTo, hw]
    all_goals left; rfl
  | _ => left; rfl

theorem pushedTo_event_of_ne (w : Fin kMaxWriter) (h : ∀ t e, l = .client t →
    s.client t ≠ .set .written e) : pushedTo w (s.event l).toList = [] := by
  rcases pushedTo_event w with h1 | ⟨t, e, h1, h2, -⟩
  · exact h1
  · exact absurd h2 (h t e h1)

/-- **Every move keeps the layers of every writer.** -/
theorem Ok.pipe_step (h : Ok pushed s) (hm : Move s l s') (w : Fin kMaxWriter) :
    PipeOk (pushed w ++ pushedTo w (s.event l).toList) (s'.writer_ w) (s'.current_.list_ w) := by
  have hw := h.pipe w
  -- a step that leaves the three layers of every writer as they are
  have same : (∀ t e, l = .client t → s.client t ≠ .set .written e) →
      (s'.writer_ w).queue_.contents = (s.writer_ w).queue_.contents →
      (s'.writer_ w).list_ = (s.writer_ w).list_ → (s'.writer_ w).pc = (s.writer_ w).pc →
      s'.current_.list_ = s.current_.list_ →
      PipeOk (pushed w ++ pushedTo w (s.event l).toList) (s'.writer_ w) (s'.current_.list_ w) := by
    intro hne hq hl hp hc
    rw [pushedTo_event_of_ne w hne, List.append_nil, hc]
    exact hw.congr hq hl hp
  -- a step of writer `w₀`
  have own : ∀ {w₀ wr}, l = .writer w₀ →
      PipeOk (pushed w₀) wr (s.current_.list_ w₀) →
      PipeOk (pushed w ++ pushedTo w (s.event l).toList) ((s.setWriter w₀ wr).writer_ w)
        (s.current_.list_ w) := by
    intro w₀ wr hl hwr
    rw [pushedTo_event_of_ne w (by intro t e ht; rw [hl] at ht; cases ht), List.append_nil,
      setWriter_writer, Function.update_apply]
    split
    · rename_i he; rw [he]; exact hwr
    · exact hw
  cases hm with
  | callSet | callGet => exact same (by intro t e ht; cases ht) rfl rfl rfl rfl
  | take ht | wait ht | skip ht =>
    exact same (by intro t e hl; cases hl; rw [ht]; simp) rfl rfl rfl rfl
  | get ht =>
    exact same (by intro t e hl hc; cases hl; rw [hc] at ht; simp [reads] at ht) rfl rfl rfl rfl
  | lock ht | unlock ht | size ht | append ht | flush ht =>
    refine same (by intro t e hl; cases hl; rw [ht]; simp) ?_ ?_ ?_ rfl
    · exact keeps_field (·.queue_.contents) rfl rfl
    · exact keeps_field (·.list_) rfl rfl
    · exact keeps_field (·.pc) rfl rfl
  | put ht hf =>
    refine same (by intro t e hl; cases hl; rw [ht]; simp) ?_ ?_ ?_ rfl
    · exact keeps_field (·.queue_.contents) rfl (MessageQueue.contents_put hf)
    · exact keeps_field (·.list_) rfl rfl
    · exact keeps_field (·.pc) rfl rfl
  | @count t e q ht hq =>
    have hev : pushedTo w (s.event (.client t)).toList = if Store.home e = w then [e] else [] := by
      by_cases hw : Store.home e = w <;> simp [event, clientEvent, ht, pushedTo, hw]
    rw [hev]
    show PipeOk _ _ (s.current_.list_ w)
    simp only [onQueue, setClient_writer, setWriter_writer, Function.update_apply]
    by_cases he : w = Store.home e
    · subst he
      rw [if_pos rfl, if_pos rfl]
      refine hw.push (h.entry t _ e ht) ?_ rfl rfl
      show q.contents = _
      rw [MessageQueue.contents_advance hq, h.clients.slot t e ht]
    · rw [if_neg (Ne.symm he), if_neg he, List.append_nil]; exact hw
  | acquire hp => exact own rfl ((h.pipe _).relock (.inl hp) (.inr rfl))
  | release hp => exact own rfl ((h.pipe _).relock (.inr hp) (.inl rfl))
  | insert hp hf hl => exact own rfl ((h.pipe _).insert hp (MessageQueue.getFront_some hf) hl)
  | pop hp hq => exact own rfl ((h.pipe _).pop hp (MessageQueue.contents_pop hq))
  | check hp => exact own rfl ((h.pipe _).check hp)
  | renew hp => exact own rfl ((h.pipe _).renew hp)
  | @freeze w₀ hp =>
    rw [pushedTo_event_of_ne w (by intro t e ht; cases ht), List.append_nil]
    simp only [setWriter_writer, Version.appendList, Function.update_apply]
    split
    · rename_i he; rw [he]; exact (h.pipe w₀).freeze hp
    · exact hw

/-- **Every step keeps the invariant.** -/
theorem Ok.step (h : Ok pushed s) (hg : s.SizedStep l) (hs : s.step l = some s') :
    Ok (fun w => pushed w ++ pushedTo w (s.event l).toList) s' := by
  have hm := step_move hs
  have hidx : s.idx_ < 2 ^ 56 := by cases l <;> first | exact hg | exact hg.1
  refine ⟨h.clients.step hm, h.pipe_step hm, fun w e he => ?_, fun t k v d ht => ?_, fun t p e ht => ?_⟩
  · rcases List.mem_append.1 he with he | he
    · exact h.home w e he
    · rcases pushedTo_event w (s := s) (l := l) with h1 | ⟨t, e', -, -, h1⟩
      · rw [h1] at he; cases he
      · rw [h1] at he
        split at he
        · rename_i hw; rw [List.mem_singleton.1 he]; exact hw
        · cases he
  · rcases hm.called_cases ht with h1 | rfl
    · exact h.called t k v d h1
    · exact hg.2
  · rcases hm.set_cases ht with ⟨p', h1⟩ | ⟨k, v, d, h1, rfl, -⟩
    · exact h.entry t p' e h1
    · obtain ⟨h2, h3⟩ := h.called t k v d h1
      exact ⟨⟨h2, h3⟩, hidx⟩

/-- **Every run from a started store keeps the invariant.** -/
theorem Ok.exec {s₀ : Store} {hist : List Event} {pushed : Fin kMaxWriter → List Entry}
    (h0 : Ok pushed s₀) (hx : machine.Exec SizedStep s₀ hist s) :
    Ok (fun w => pushed w ++ pushedTo w hist) s := by
  refine hx.induct (I := fun hist s => Ok (fun w => pushed w ++ pushedTo w hist) s) ?_ ?_
  · simpa using h0
  · intro hist s l s' h hg hs
    have := h.step hg hs
    simp only [List.append_assoc, ← pushedTo_append] at this
    exact this

end Store

/-! ## What a lookup answers -/

/-- The answer for a key whose last entry is given. -/
def answerOf : Option Entry → Status × Option Bytes
  | none => (.notFound, none)
  | some e => if e.value_type then (.notFound, none) else (.ok, some e.value.bytes)

/-- The first list with the key decides, by the entry it holds. -/
theorem findSome_lists {k : Bytes} : ∀ {ls : List SkipList},
    (∀ l ∈ ls, l.From MemEntry.Bounded) →
    ls.findSome? (·.get k) = none ∧ layered (ls.map SkipList.find) k = none ∨
    ∃ slice e, ls.findSome? (·.get k) = some slice ∧ decodeSlice slice = some e ∧
      layered (ls.map SkipList.find) k = some e := by
  intro ls
  induction ls with
  | nil => intro _; exact .inl ⟨rfl, rfl⟩
  | cons l ls ih =>
    intro h
    rw [List.findSome?_cons, List.map_cons, layered_cons]
    cases hg : l.get k with
    | some slice =>
      obtain ⟨e, h1, h2, -⟩ := (h l List.mem_cons_self).get_some hg
      rw [h2]
      exact .inr ⟨slice, e, rfl, h1, rfl⟩
    | none =>
      have : l.find k = none := by unfold SkipList.find; rw [hg]; rfl
      rw [this, Option.none_or]
      exact ih fun x hx => h x (List.mem_cons_of_mem _ hx)

/-- **`Version::Get` answers from the newest frozen list with the key.** -/
theorem Version.get_ok {v : Version SkipList} {k : Bytes}
    (h : ∀ l ∈ v.list_ (writerOf k), l.From MemEntry.Bounded) :
    (v.get k).map (fun r => (r.elim Status.notFound fun _ => .ok, r)) =
      some (answerOf (layered ((v.list_ (writerOf k)).reverse.map SkipList.find) k)) := by
  have hfold : ∀ fs : List FileMetaData,
      fs.foldl (fun (found : Option Bytes) _ => found) none = none := by
    intro fs
    induction fs with
    | nil => rfl
    | cons f fs ih => exact ih
  have hr : ∀ l ∈ (v.list_ (writerOf k)).reverse, l.From MemEntry.Bounded :=
    fun l hl => h l (List.mem_reverse.1 hl)
  unfold Version.get
  rcases findSome_lists (k := k) hr with ⟨h1, h2⟩ | ⟨slice, e, h1, h2, h3⟩
  · rw [h1, h2]
    simp only [hfold]
    rfl
  · rw [h1, h3]
    simp only [h2, Option.map_some, answerOf]
    split <;> rfl

theorem Store.readVersion_ok {s : Store} {k : Bytes}
    (h : ∀ l ∈ s.current_.list_ (writerOf k), l.From MemEntry.Bounded) :
    s.readVersion k =
      some (answerOf (layered ((s.current_.list_ (writerOf k)).reverse.map SkipList.find) k)) := by
  rw [← Version.get_ok h]
  unfold Store.readVersion
  congr 1
  funext r
  cases r <;> rfl

/-- **`getEntry` answers from the active list**, and passes over an entry that is newer than the
number. -/
theorem PipeOk.getEntry_eq {pushed : List Entry} {wr : Writer} {lists : List SkipList}
    (h : PipeOk pushed wr lists) (k : Bytes) (seq : ℕ) :
    wr.getEntry k seq = some ((wr.list_.find k).bind fun e =>
      if seq < e.seq_num then none else some (answerOf (some e))) := by
  unfold Writer.getEntry
  cases hg : wr.list_.get k with
  | none =>
    have : wr.list_.find k = none := by unfold SkipList.find; rw [hg]; rfl
    rw [this]; rfl
  | some slice =>
    obtain ⟨e, h1, h2, -⟩ := h.active.get_some hg
    simp only [h1, h2, Option.map_some, Option.bind_some, answerOf]
    split
    · rfl
    · split <;> rfl

/-- An entry in the active list was pushed. -/
theorem PipeOk.mem_of_find {pushed : List Entry} {wr : Writer} {lists : List SkipList}
    (h : PipeOk pushed wr lists) {k : Bytes} {e : Entry} (hf : wr.list_.find k = some e) :
    e ∈ pushed ∧ e.key.bytes = k := by
  obtain ⟨ins, g1, -, g2⟩ := h.flow
  have hins : lastFor (·.key.bytes) k ins = some e := by
    rw [← g2 k, listLayers, layered_cons, hf, Option.some_or]
  rw [g1]
  exact ⟨List.mem_append_left _ (lastFor_mem hins).1, (lastFor_mem hins).2⟩

/-- For a number no entry of the key exceeds, it passes over nothing. -/
theorem PipeOk.getEntry {pushed : List Entry} {wr : Writer} {lists : List SkipList}
    (h : PipeOk pushed wr lists) {k : Bytes} {seq : ℕ}
    (hseq : ∀ e ∈ pushed, e.key.bytes = k → e.seq_num ≤ seq) :
    wr.getEntry k seq = some ((wr.list_.find k).map fun e => answerOf (some e)) := by
  rw [h.getEntry_eq]
  cases hf : wr.list_.find k with
  | none => rfl
  | some e =>
    obtain ⟨hmem, hk⟩ := h.mem_of_find hf
    rw [Option.bind_some, if_neg (Nat.not_lt.2 (hseq e hmem hk)), Option.map_some]

namespace Store

variable {pushed : Fin kMaxWriter → List Entry} {s : Store}

/-- **With the key out of the queue, the lists give the last entry pushed for it.** -/
theorem Ok.readLists (h : Ok pushed s) {k : Bytes} {seq : ℕ}
    (hq : ∀ e ∈ (s.writer_ (writerOf k)).queue_.contents, e.key.bytes ≠ k)
    (hseq : ∀ e ∈ pushed (writerOf k), e.key.bytes = k → e.seq_num ≤ seq) :
    s.readLists k seq = some (answerOf (lastFor (·.key.bytes) k (pushed (writerOf k)))) := by
  have hp := h.pipe (writerOf k)
  rw [← hp.lookup k, layers, layered_cons, lastFor_eq_none.2 hq, Option.none_or, listLayers,
    layered_cons]
  unfold Store.readLists
  rw [hp.getEntry hseq, Option.bind_some]
  cases (s.writer_ (writerOf k)).list_.find k with
  | some e => rfl
  | none => exact readVersion_ok fun l hl => (hp.frozen l hl).1

end Store

/-! ## The pipeline as a map -/

section

variable {s₀ s : Store} {hist : List Store.Event}

/-- All entries pushed to the queue of `w`: those replayed before the run, then those of the run. -/
def allPushed (s₀ : Store) (w : Fin kMaxWriter) (hist : List Store.Event) :
    List Entry :=
  (s₀.writer_ w).queue_.contents ++ pushedTo w hist

/-- **The write pipeline refines the map of last writes.** In every state of every run: looking a
key up in the queue slots, the active list and the frozen lists, newest first, finds the last
entry pushed for it; a frozen list holds `kMaxActiveListSize` keys, the active list fewer between
iterations; and with an empty queue `getEntry` and `Version::Get` report that entry. -/
theorem pipeline_refines (h0 : s₀.Started) (hx : Store.machine.Exec Store.SizedStep s₀ hist s)
    (w : Fin kMaxWriter) :
    (∀ k, s.lookup w k = lastFor (·.key.bytes) k (allPushed s₀ w hist)) ∧
      (∀ l ∈ s.current_.list_ w, l.size = kMaxActiveListSize) ∧
      ((s.writer_ w).pc = .idle ∨ (s.writer_ w).pc = .loop →
        (s.writer_ w).list_.size < kMaxActiveListSize) ∧
      ((s.writer_ w).queue_.isEmpty = true → ∀ k seq, writerOf k = w →
        (∀ e ∈ allPushed s₀ w hist, e.seq_num ≤ seq) →
        s.readLists k seq = some (answerOf (lastFor (·.key.bytes) k (allPushed s₀ w hist)))) := by
  have h := h0.ok.exec hx
  refine ⟨(h.pipe w).lookup, fun l hl => ((h.pipe w).frozen l hl).2, fun hp => ?_, ?_⟩
  · have hs := (h.pipe w).size
    rcases hp with hp | hp <;> rw [hp] at hs <;> exact hs
  · rintro he k seq rfl hseq
    refine h.readLists (fun e hin => ?_) fun e hin _ => hseq e hin
    rw [MessageQueue.contents, Ring.isEmpty_iff.1 he] at hin
    cases hin

end

/-! ## Runs -/

/-- The store after `init` in an empty directory. -/
def freshStore : Store :=
  { idx_ := 1
    writer_ := fun w =>
      { queue_ :=
          { ring := .emptyAt (fun _ => ⟨⟨[], 0⟩, ⟨[], 0⟩, 0, false⟩) 1
            log_ := .create [] [] []
            logid_ := 1
            writerid_ := w
            max_id_ := 0
            ready_ := true }
        lock_ := none
        list_ := .empty
        pc := .idle }
    current_ := .new
    client := fun _ => .idle }

theorem freshStore_started : freshStore.Started := by
  refine ⟨fun _ => rfl, rfl, fun _ => rfl, fun _ => rfl, fun _ => rfl, fun w e he => ?_⟩
  simp only [MessageQueue.contents, freshStore, Ring.contents_emptyAt, List.not_mem_nil] at he

/-- One write, and the writer thread up to its list. -/
def oneWrite : List Store.Label :=
  .callSet 0 [97] [98] false :: List.replicate 8 (.client 0) ++ List.replicate 4 (.writer 2)

/-- What `oneWrite` shows. -/
def oneWriteEvents : List Store.Event :=
  [.callSet 0 [97] [98] false, .logged 2 (Store.entryOf [97] [98] 1 false),
    .pushed 2 (Store.entryOf [97] [98] 1 false), .retSet 0 [97]]

/-- Entry `i` of those that `init` replays for `w`: the values of ten keys, four times in turn. -/
def replayedEntry (w : Fin kMaxWriter) (i : ℕ) : Entry :=
  Store.entryOf [.ofNat (97 + 4 * (i % 10) + (w + 2) % 4)] [.ofNat (i / 10)] (4 * i + w + 1) false

/-- The store after `init` in a directory with the logs of forty writes for each writer. -/
def replayedStore : Store :=
  { freshStore with
    idx_ := 161
    writer_ := fun w =>
      { freshStore.writer_ w with
        queue_ :=
          { (freshStore.writer_ w).queue_ with
            ring := ⟨fun i => replayedEntry w ((i + 39) % 40), 1, 41, by decide, by decide⟩
            logid_ := 2
            max_id_ := 157 + w } } }

theorem replayedStore_contents (w : Fin kMaxWriter) :
    (replayedStore.writer_ w).queue_.contents = (List.range 40).map (replayedEntry w) := by
  refine List.map_congr_left fun i hi => ?_
  have hlt : i < 40 := List.mem_range.1 hi
  change replayedEntry w (((1 + i) % 40 + 39) % 40) = _
  rw [show ((1 + i) % 40 + 39) % 40 = i by omega]

theorem replayedStore_started : replayedStore.Started := by
  refine ⟨fun _ => rfl, rfl, fun _ => rfl, fun _ => rfl, fun _ => rfl, fun w e he => ?_⟩
  rw [replayedStore_contents] at he
  obtain ⟨i, hi, rfl⟩ := List.mem_map.1 he
  have hentry : ∀ w : Fin kMaxWriter, ∀ i < 40,
      (replayedEntry w i).key.bytes.length + 9 < 2 ^ 32 ∧
      (replayedEntry w i).value.bytes.length + 1 < 2 ^ 32 ∧
      Store.home (replayedEntry w i) = w ∧ (replayedEntry w i).seq_num < replayedStore.idx_ := by
    decide +kernel
  obtain ⟨hkey, hvalue, hhome, hid⟩ := hentry w i (List.mem_range.1 hi)
  exact ⟨⟨⟨hkey, hvalue⟩, hid.trans (by decide)⟩, hhome, hid⟩

/-- Writer 2 freezes four lists of what was replayed, and then takes a new value of a key in them. -/
def fourLists : List Store.Label :=
  List.replicate 130 (.writer 2) ++
    .callSet 0 [97] [98] false :: List.replicate 8 (.client 0) ++ List.replicate 5 (.writer 2)

/-- What `fourLists` shows. -/
def fourListsEvents : List Store.Event :=
  [.callSet 0 [97] [98] false, .logged 2 (Store.entryOf [97] [98] 161 false),
    .pushed 2 (Store.entryOf [97] [98] 161 false), .retSet 0 [97]]

/-- The new value is found in the active list, the value of another key in the last frozen one. -/
theorem pipeline_refines_fourLists : ∃ s,
    Store.machine.Exec Store.SizedStep replayedStore fourListsEvents s ∧
      (s.current_.list_ 2).length = 4 ∧
      (∀ l ∈ s.current_.list_ 2, l.size = kMaxActiveListSize) ∧
      (s.writer_ 2).list_.size < kMaxActiveListSize ∧
      s.lookup 2 [97] = some (Store.entryOf [97] [98] 161 false) ∧
      s.lookup 2 [101] = some (replayedEntry 2 31) ∧
      s.readLists [101] 161 = some (.ok, some [3]) := by
  have hr : (Store.machine.exec Store.SizedStep replayedStore fourLists).map (fun r =>
      decide (r.1 = fourListsEvents ∧ (r.2.current_.list_ 2).length = 4 ∧
        (r.2.writer_ 2).pc = .idle ∧ (r.2.writer_ 2).queue_.isEmpty = true)) = some true := by
    decide +kernel
  obtain ⟨_, s, hx, rfl, hlength, hpc, hempty⟩ := Machine.exec_check hr
  obtain ⟨hlookup, hfrozen, hactive, hread⟩ := pipeline_refines replayedStore_started hx 2
  have hids : ∀ e ∈ allPushed replayedStore 2 fourListsEvents, e.seq_num ≤ 161 := by decide +kernel
  refine ⟨s, hx, hlength, hfrozen, hactive (.inl hpc), ?_, ?_, ?_⟩
  · rw [hlookup]
    decide +kernel
  · rw [hlookup]
    decide +kernel
  · rw [hread hempty [101] 161 rfl hids]
    decide +kernel

end Yangkv
