import Yangkv.Proof.AppendMoves
import Yangkv.Proof.Database
import Yangkv.Proof.Wakeup

/-!
# The room that a writer needs

A writer that empties its queue freezes one list after the other, and each finds room in the
current version or makes the writer sleep. While no compaction makes room, this is settled in
every state.

* `Move.taken_le`, `Move.taken_owner`: the places that are gone, with the one that the owner of the
  mutex takes, stay gone.
* `Clears`: the writer does not sleep, and the places left are enough for every list that it has
  still to test the version for.
* `own_step`: a step of the writer changes nothing in this, and a step of another thread
  does not make it true (`other_step`, `client_step`).
* `Safe.own_next`: a writer that finds room goes on.
-/

namespace Yangkv

open Lib Machine

/-! ## The room that is left -/

/-- The tests of `isFull` that the call has still to pass. -/
def AppendPc.tests {L : Type} : AppendPc L → ℕ
  | .idle | .called _ | .locked _ => 1
  | _ => 0

/-- The lists that are appended without another test. -/
def AppendPc.unchecked {L : Type} : AppendPc L → ℕ
  | .woken _ | .resumed _ | .cleared _ => 1
  | _ => 0

namespace VersionSet

variable {L : Type} {s s' : VersionSet L} {w w' : Fin kMaxWriter} {l : Label L}

/-- What a writer with the mutex is about to append. -/
def owed (v : Version L) : AppendPc L → ℕ
  | .resumed _ | .cleared _ => 1
  | .locked _ => if v.isFull then 0 else 1
  | _ => 0

/-- The places in the version that are gone for the writer `w`: those in use, and the one that the
owner of the mutex takes. -/
def taken (s : VersionSet L) (w : Fin kMaxWriter) : ℕ :=
  s.current_.list_count_ +
    match s.compact_lock_ with
    | some w' => if w' = w then 0 else owed s.current_ (s.writer w')
    | none => 0

theorem taken_free (h : s.compact_lock_ = none ∨ s.compact_lock_ = some w) :
    s.taken w = s.current_.list_count_ := by
  obtain h | h := h <;> simp [taken, h]

theorem taken_owner (h : s.compact_lock_ = some w') (hne : w' ≠ w) :
    s.taken w = s.current_.list_count_ + owed s.current_ (s.writer w') := by
  simp [taken, h, hne]

theorem count_le_taken : s.current_.list_count_ ≤ s.taken w := Nat.le_add_right _ _

/-- The writer that a step is of. -/
def Label.writer? : Label L → Option (Fin kMaxWriter)
  | .call w _ | .writer w | .wake w => some w
  | .compacter => none

/-- **The owner of the mutex takes the place that was counted.** -/
theorem Move.taken_owner (hm : Move s l s') (h : LockOk s) (hl : l.writer? = some w')
    (hw' : Holds (s.writer w')) (hne : w' ≠ w) : s'.taken w = s.taken w := by
  have hlock := (h.mutex w').1 hw'
  rw [VersionSet.taken_owner hlock hne]
  cases hm with
  | call hw | wake hw | enter hw | resume hw =>
    cases hl
    rw [hw] at hw'
    exact hw'.elim
  | @full _ list hw hf =>
    cases hl
    have hs' := VersionSet.taken_owner (s := s.setWriter w' (.tested list)) hlock hne
    rw [hs', setWriter_self, hw]
    simp [owed, hf, setWriter]
  | @room _ list hw hf =>
    cases hl
    have hs' := VersionSet.taken_owner (s := s.setWriter w' (.cleared list)) hlock hne
    rw [hs', setWriter_self, hw]
    simp [owed, hf, setWriter]
  | sleep hw | leave hw =>
    cases hl
    rw [taken_free (.inl rfl), hw]
    rfl
  | @append _ list hw =>
    cases hl
    have hs' := VersionSet.taken_owner (s := s.appendList w' list) hlock hne
    rw [hs']
    obtain hw | hw := hw <;> rw [hw] <;> simp [owed, appendList, setWriter, Version.appendList]

/-- Who does not have the mutex moves past its owner. -/
theorem taken_setWriter {pc : AppendPc L} (h : LockOk s) (hw' : ¬ Holds (s.writer w')) :
    (s.setWriter w' pc).taken w = s.taken w := by
  cases hlock : s.compact_lock_ with
  | none =>
    have hs' := taken_free (s := s.setWriter w' pc) (w := w) (.inl hlock)
    rw [hs', taken_free (.inl hlock)]
    rfl
  | some w₁ =>
    have hne₁ : w₁ ≠ w' := by
      rintro rfl
      exact hw' ((h.mutex w₁).2 hlock)
    by_cases he : w₁ = w
    · rw [he] at hlock
      have hs' := taken_free (s := s.setWriter w' pc) (w := w) (.inr hlock)
      rw [hs', taken_free (.inr hlock)]
      rfl
    · have hs' := VersionSet.taken_owner (s := s.setWriter w' pc) hlock he
      rw [hs', VersionSet.taken_owner hlock he]
      simp only [setWriter, Function.update_of_ne hne₁]

/-- **What is gone stays gone.** -/
theorem Move.taken_le (hm : Move s l s') (h : LockOk s) (hl : l.writer? = some w') (hne : w' ≠ w) :
    s.taken w ≤ s'.taken w := by
  by_cases hw' : Holds (s.writer w')
  · exact (hm.taken_owner h hl hw' hne).ge
  -- a writer takes the free mutex
  have free : s.compact_lock_ = none → s'.current_ = s.current_ → s.taken w ≤ s'.taken w := by
    intro hn hc
    rw [taken_free (.inl hn), ← hc]
    exact count_le_taken
  cases hm with
  | call | wake =>
    cases hl
    exact (taken_setWriter h hw').ge
  | enter _ hn | resume _ hn => exact free hn rfl
  | full hw | room hw | sleep hw | leave hw =>
    cases hl
    rw [hw] at hw'
    exact absurd trivial hw'
  | append hw =>
    cases hl
    obtain hw | hw := hw <;> rw [hw] at hw' <;> exact absurd trivial hw'

theorem Move.other (hm : Move s l s') (hl : l.writer? = some w') (hne : w ≠ w') :
    s'.writer w = s.writer w := by
  cases hm <;> cases hl <;> exact Function.update_of_ne hne ..

/-- The writer will not sleep, and `n` of its tests will find room. -/
def Fits (s : VersionSet L) (w : Fin kMaxWriter) (n : ℕ) : Prop :=
  ¬ Sleepy (s.writer w) ∧
    (n = 0 ∨ s.taken w + (s.writer w).unchecked + n ≤ kMaxFrozenList)

theorem not_fits_sleepy {n : ℕ} (h : Sleepy (s.writer w)) : ¬ s.Fits w n := fun hf => hf.1 h

theorem Fits.le {n : ℕ} (h : s'.Fits w n) (hw : s'.writer w = s.writer w)
    (hle : s.taken w ≤ s'.taken w) : s.Fits w n := by
  unfold Fits at h ⊢
  rw [hw] at h
  refine ⟨h.1, h.2.imp_right fun hroom => ?_⟩
  omega

theorem Fits.fewer {m n : ℕ} (h : s.Fits w n) (hle : m ≤ n) : s.Fits w m := by
  refine ⟨h.1, ?_⟩
  have hroom := h.2
  omega

/-- **A writer in `AppendFrozenList` spends what it was counted for.** -/
theorem Move.fits (hm : Move s l s') (h : LockOk s) (hl : l.writer? = some w) (hwake : l ≠ .wake w)
    (hne : s.writer w ≠ .appended) (F : ℕ) :
    s.Fits w ((s.writer w).tests + F) ↔ s'.Fits w ((s'.writer w).tests + F) := by
  cases hm with
  | call hw =>
    cases hl
    unfold Fits
    rw [taken_setWriter h (by rw [hw]; exact id), hw, setWriter_self]
    exact Iff.rfl
  | @enter _ list hw hn | @resume _ list hw hn =>
    cases hl
    unfold Fits
    rw [taken_free (.inl hn), taken_free (.inr rfl), hw]
    simp only [setWriter, Function.update_self]
    exact Iff.rfl
  | @full _ list hw hf =>
    cases hl
    have hfull : kMaxFrozenList ≤ s.current_.list_count_ := of_decide_eq_true hf
    have hle : s.current_.list_count_ ≤ s.taken w := count_le_taken
    refine iff_of_false ?_ (not_fits_sleepy (by rw [setWriter_self]; trivial))
    rintro ⟨-, h0 | h1⟩
    · rw [hw, AppendPc.tests] at h0
      omega
    · rw [hw, AppendPc.tests] at h1
      omega
  | @room _ list hw hf =>
    cases hl
    have hroom := isFull_false.1 hf
    have hlock := (h.mutex w).1 (by rw [hw]; trivial)
    have hs' := taken_free (s := s.setWriter w (.cleared list)) (w := w) (.inr hlock)
    have hcount : (s.setWriter w (.cleared list)).current_.list_count_ = s.current_.list_count_ := rfl
    unfold Fits
    rw [taken_free (.inr hlock), hs', hw, setWriter_self, hcount]
    simp only [Sleepy, AppendPc.tests, AppendPc.unchecked, not_false_eq_true, true_and]
    omega
  | @sleep _ list hw =>
    cases hl
    refine iff_of_false (not_fits_sleepy (by rw [hw]; trivial)) (not_fits_sleepy ?_)
    show Sleepy (Function.update s.writer w (.waiting list) w)
    rw [Function.update_self]
    trivial
  | @append _ list hw =>
    cases hl
    have hlock := (h.mutex w).1 (by obtain hw | hw := hw <;> rw [hw] <;> trivial)
    have hs' := taken_free (s := s.appendList w list) (w := w) (.inr hlock)
    have hw' : (s.appendList w list).writer w = .appended := Function.update_self ..
    have hcount : (s.appendList w list).current_.list_count_ = s.current_.list_count_ + 1 := rfl
    unfold Fits
    rw [taken_free (.inr hlock), hs', hw', hcount]
    obtain hw | hw := hw <;> rw [hw] <;>
      simp only [Sleepy, AppendPc.tests, AppendPc.unchecked, not_false_eq_true, true_and]
  | leave hw =>
    cases hl
    exact absurd hw hne
  | wake =>
    cases hl
    exact absurd rfl hwake

theorem Move.fits_leave (hm : Move s l s') (h : LockOk s) (hl : l.writer? = some w)
    (hw : s.writer w = .appended) (F : ℕ) : s.Fits w F ↔ s'.Fits w F := by
  have hlock := (h.mutex w).1 (by rw [hw]; trivial)
  cases hm with
  | leave =>
    cases hl
    unfold Fits
    rw [taken_free (.inr hlock), taken_free (.inl rfl), hw]
    simp only [setWriter, Function.update_self]
    exact Iff.rfl
  | append hw' =>
    cases hl
    rw [hw] at hw'
    obtain hw' | hw' := hw' <;> cases hw'
  | call hw' | enter hw' | resume hw' | full hw' | room hw' | sleep hw' | wake hw' =>
    cases hl
    rw [hw] at hw'
    cases hw'

/-- A writer alone at the mutex has it or leaves it free. -/
theorem Move.own_lock (hm : Move s l s') (hl : l.writer? = some w)
    (h : s.compact_lock_ = none ∨ s.compact_lock_ = some w) :
    s'.compact_lock_ = none ∨ s'.compact_lock_ = some w := by
  cases hm <;> cases hl
  case call | full | room | append | wake => exact h
  case enter | resume => exact .inr rfl
  case sleep | leave => exact .inl rfl

/-- How far the owner of the mutex is from giving it back. -/
def inside : AppendPc L → ℕ
  | .locked _ => 3
  | .tested _ | .resumed _ | .cleared _ => 2
  | .appended => 1
  | _ => 0

/-- **The owner of the mutex goes on**, and gives it back in the end. -/
theorem owner_next (h : LockOk s) (hw : Holds (s.writer w)) : ∃ s', s.writerStep w = some s' ∧
    (s'.compact_lock_ = none ∨
      s'.compact_lock_ = some w ∧ inside (s'.writer w) < inside (s.writer w)) := by
  have hlock := (h.mutex w).1 hw
  unfold writerStep
  cases hp : s.writer w with
  | idle | called | waiting | woken =>
    rw [hp] at hw
    exact hw.elim
  | tested | appended => exact ⟨_, rfl, .inl rfl⟩
  | locked list =>
    refine ⟨_, rfl, .inr ⟨hlock, ?_⟩⟩
    rw [setWriter_self]
    split <;> simp [inside]
  | resumed list | cleared list =>
    refine ⟨_, rfl, .inr ⟨hlock, ?_⟩⟩
    show inside (Function.update s.writer w .appended w) < _
    rw [Function.update_self]
    simp [inside]

/-- How far a writer that does not sleep is from the end of `AppendFrozenList`. -/
def AppendPc.left : AppendPc L → ℕ
  | .idle => 5
  | .called _ => 4
  | .locked _ | .woken _ => 3
  | .resumed _ | .cleared _ => 2
  | _ => 1

/-- A writer in `AppendFrozenList` goes on while nobody else has the mutex. -/
theorem writer_next (h : LockOk s) (hlock : s.compact_lock_ = none ∨ s.compact_lock_ = some w)
    (hidle : s.writer w ≠ .idle) (hsleep : ¬ Sleepy (s.writer w)) :
    ∃ s', s.writerStep w = some s' ∧ (s.writer w ≠ .appended → ¬ Sleepy (s'.writer w) →
      AppendPc.left (s'.writer w) < AppendPc.left (s.writer w)) := by
  -- who does not have the mutex finds it free
  have free : ¬ Holds (s.writer w) → s.compact_lock_ = none := by
    intro hn
    obtain hlock | hlock := hlock
    · exact hlock
    · exact absurd ((h.mutex w).2 hlock) hn
  unfold writerStep
  cases hp : s.writer w with
  | idle => exact absurd hp hidle
  | tested | waiting =>
    rw [hp] at hsleep
    exact absurd trivial hsleep
  | called | woken =>
    have hn := free (by rw [hp]; exact id)
    simp only [lock, hn, if_true]
    refine ⟨_, rfl, fun _ _ => ?_⟩
    simp [setWriter, AppendPc.left]
  | locked list =>
    refine ⟨_, rfl, fun _ hs => ?_⟩
    rw [setWriter_self] at hs ⊢
    split at hs
    · exact absurd trivial hs
    · rename_i hf
      simp [hf, AppendPc.left]
  | resumed list | cleared list =>
    refine ⟨_, rfl, fun _ _ => ?_⟩
    simp [appendList, setWriter, AppendPc.left]
  | appended => exact ⟨_, rfl, fun hne => absurd rfl hne⟩

end VersionSet

/-! ## The lists that are still to freeze -/

/-- How many lists fill up while the entries are inserted one after the other. -/
def fills (list : SkipList) : List Entry → ℕ
  | [] => 0
  | e :: es =>
    match list.insert e with
    | some list => if kMaxActiveListSize ≤ list.size then 1 + fills .empty es else fills list es
    | none => 0

/-- The same from the test of the list's size on. -/
def filled (list : SkipList) (es : List Entry) : ℕ :=
  if kMaxActiveListSize ≤ list.size then 1 + fills .empty es else fills list es

theorem fills_cons {list list' : SkipList} {e : Entry} {es : List Entry}
    (h : list.insert e = some list') : fills list (e :: es) = filled list' es := by
  rw [fills, h]
  rfl

theorem fills_append (list : SkipList) (es es' : List Entry) :
    fills list es ≤ fills list (es ++ es') := by
  induction es generalizing list with
  | nil => exact Nat.zero_le _
  | cons e es ih =>
    rw [List.cons_append, fills, fills]
    cases list.insert e with
    | none => exact le_rfl
    | some list' =>
      simp only
      split
      · exact Nat.add_le_add_left (ih _) 1
      · exact ih _

theorem filled_append (list : SkipList) (es es' : List Entry) :
    filled list es ≤ filled list (es ++ es') := by
  unfold filled
  split
  · exact Nat.add_le_add_left (fills_append ..) 1
  · exact fills_append ..

/-- The lists that find room by a test of `isFull`, until the queue is empty. -/
def toFreeze (wr : Writer) (ap : AppendPc SkipList) : ℕ :=
  match wr.pc with
  | .off => 0
  | .idle | .loop => fills wr.list_ wr.queue_.contents
  | .inserted => filled wr.list_ wr.queue_.contents.tail
  | .popped => filled wr.list_ wr.queue_.contents
  | .full => ap.tests + fills .empty wr.queue_.contents
  | .frozen => fills .empty wr.queue_.contents

theorem toFreeze_push {wr wr' : Writer} {ap : AppendPc SkipList} {es : List Entry}
    (hq : wr'.queue_.contents = wr.queue_.contents ++ es) (hl : wr'.list_ = wr.list_)
    (hp : wr'.pc = wr.pc) (ha : wr.pc.ahead ≤ wr.queue_.contents.length) :
    toFreeze wr ap ≤ toFreeze wr' ap := by
  unfold toFreeze
  rw [hq, hl, hp]
  cases hpc : wr.pc with
  | off => exact le_rfl
  | idle | loop | frozen => exact fills_append ..
  | popped => exact filled_append ..
  | full => exact Nat.add_le_add_left (fills_append ..) _
  | inserted =>
    have hne : wr.queue_.contents ≠ [] := by
      rw [hpc] at ha
      exact List.ne_nil_of_length_pos ha
    rw [List.tail_append_of_ne_nil hne]
    exact filled_append ..

namespace Database

variable {d d' : Database} {w w' : Fin kMaxWriter} {g : Fin kMaxWriter → Generations Entry}

/-- The writer does not sleep, and finds room at every test until its queue is empty. -/
def Clears (d : Database) (w : Fin kMaxWriter) : Prop :=
  d.set_.Fits w (toFreeze (d.store.writer_ w) (d.append w))

instance {L : Type} (pc : AppendPc L) : Decidable (VersionSet.Sleepy pc) :=
  match pc with
  | .tested _ | .waiting _ => instDecidableTrue
  | .idle | .called _ | .locked _ | .woken _ | .resumed _ | .cleared _ | .appended =>
    instDecidableFalse

instance (d : Database) (w : Fin kMaxWriter) : Decidable (d.Clears w) :=
  inferInstanceAs (Decidable (¬ VersionSet.Sleepy (d.append w) ∧
    (toFreeze (d.store.writer_ w) (d.append w) = 0 ∨ d.set_.taken w + (d.append w).unchecked +
      toFreeze (d.store.writer_ w) (d.append w) ≤ kMaxFrozenList)))

/-- What a step of a writer with a full list does. -/
structure FullMove (d : Database) (w : Fin kMaxWriter) (d' : Database) : Prop where
  move : ∃ l : VersionSet.Label SkipList, l.writer? = some w ∧ l ≠ .wake w ∧
    VersionSet.Move d.set_ l d'.set_
  client : d'.store.client = d.store.client
  idx : d'.store.idx_ = d.store.idx_
  other : ∀ w', w' ≠ w → d'.store.writer_ w' = d.store.writer_ w'
  own : d.append w ≠ .appended ∧ d'.store.writer_ w = d.store.writer_ w ∨
    d.append w = .appended ∧ d'.store.writer_ w = { d.store.writer_ w with pc := .frozen }

theorem full_step (hp : (d.store.writer_ w).pc = .full) (hs : d.writerStep w = some d') :
    FullMove d w d' := by
  simp only [writerStep, hp, if_true] at hs
  have move_of : ∀ {v}, d.set_.writerStep w = some v → VersionSet.Move d.set_ (.writer w) v := by
    intro v hv
    have hv : d.set_.step (fun _ edit => edit) (.writer w) = some v := hv
    exact VersionSet.step_move (by simp) hv
  -- a step of the set other than the last one
  have inside : ∀ {v}, d.append w ≠ .appended → d.set_.writerStep w = some v → d' = d.withSet v →
      FullMove d w d' := by
    rintro v hne hv rfl
    exact ⟨⟨.writer w, rfl, by simp, move_of hv⟩, rfl, rfl, fun _ _ => rfl, .inl ⟨hne, rfl⟩⟩
  cases ha : d.append w with
  | idle =>
    simp only [ha, Option.some.injEq] at hs
    subst hs
    exact ⟨⟨.call w _, rfl, by simp, .call ha⟩, rfl, rfl, fun _ _ => rfl,
      .inl ⟨by rw [ha]; simp, rfl⟩⟩
  | appended =>
    simp only [ha, Option.map_eq_some_iff] at hs
    obtain ⟨v, hv, rfl⟩ := hs
    refine ⟨⟨.writer w, rfl, by simp, move_of hv⟩, rfl, rfl, fun w' hne => ?_, .inr ⟨ha, ?_⟩⟩
    · exact Function.update_of_ne hne ..
    · exact Function.update_self ..
  | _ =>
    simp only [ha, Option.map_eq_some_iff] at hs
    obtain ⟨v, hv, rfl⟩ := hs
    exact inside (by rw [ha]; simp) hv rfl

/-- A step of the writer itself, in `AppendFrozenList`. -/
theorem own_full (hlock : VersionSet.LockOk d.set_) (hp : (d.store.writer_ w).pc = .full)
    (hm : FullMove d w d') : d.Clears w ↔ d'.Clears w := by
  obtain ⟨⟨l, hl, hwake, hm⟩, -, -, -, hown⟩ := hm
  unfold Clears
  have before : toFreeze (d.store.writer_ w) (d.append w) =
      (d.append w).tests + fills .empty (d.store.writer_ w).queue_.contents := by
    rw [toFreeze, hp]
  rw [before]
  obtain ⟨hne, hw⟩ | ⟨ha, hw⟩ := hown
  · rw [hw, toFreeze, hp]
    exact hm.fits hlock hl hwake hne _
  · have hleave := hm.fits_leave hlock hl ha (fills .empty (d.store.writer_ w).queue_.contents)
    have after : toFreeze { d.store.writer_ w with pc := .frozen } (d'.append w) =
        fills .empty (d.store.writer_ w).queue_.contents := rfl
    have hnone : (d.append w).tests = 0 := by rw [ha]; rfl
    rw [hw, after, hnone, Nat.zero_add]
    exact hleave

/-- A step of the writer itself, outside `AppendFrozenList`. -/
theorem own_outside {s s' : Store} (hp : (s.writer_ w).pc ≠ .full)
    (hs : s.writerStep w = some s') : ∃ wr, s' = s.setWriter w wr ∧
      toFreeze wr .idle = toFreeze (s.writer_ w) .idle ∧
      (wr.pc = .idle → toFreeze (s.writer_ w) .idle = 0) := by
  simp only [Store.writerStep] at hs
  cases hpc : (s.writer_ w).pc with
  | off => simp only [hpc, reduceCtorEq] at hs
  | full => exact absurd hpc hp
  | idle =>
    simp only [hpc, Option.some.injEq] at hs
    exact ⟨_, hs.symm, by rw [toFreeze, toFreeze, hpc], fun h => by cases h⟩
  | loop =>
    simp only [hpc, Writer.insertFront] at hs
    cases he : (s.writer_ w).queue_.isEmpty with
    | true =>
      simp only [he, if_true, Option.map_some, Option.some.injEq] at hs
      have hnil : (s.writer_ w).queue_.contents = [] := Ring.isEmpty_iff.1 he
      refine ⟨_, hs.symm, by rw [toFreeze, toFreeze, hpc], fun _ => ?_⟩
      rw [toFreeze, hpc, hnil, fills]
    | false =>
      simp only [he, Bool.false_eq_true, if_false, Option.bind_eq_bind, Option.map_eq_some_iff,
        Option.bind_eq_some_iff, Option.some.injEq] at hs
      obtain ⟨wr, ⟨front, hf, list, hl, rfl⟩, rfl⟩ := hs
      obtain ⟨rest, hc⟩ := List.head?_eq_some_iff.1 (MessageQueue.getFront_some hf)
      refine ⟨_, rfl, ?_, fun h => by cases h⟩
      rw [toFreeze, toFreeze, hpc, hc, fills_cons hl]
      rfl
  | inserted =>
    simp only [hpc, Writer.popFront, Option.map_eq_some_iff] at hs
    obtain ⟨wr, ⟨q, hq, rfl⟩, rfl⟩ := hs
    refine ⟨_, rfl, ?_, fun h => by cases h⟩
    rw [toFreeze, toFreeze, hpc, MessageQueue.contents_pop hq]
  | popped =>
    simp only [hpc, Option.some.injEq] at hs
    have before : toFreeze (s.writer_ w) .idle =
        filled (s.writer_ w).list_ (s.writer_ w).queue_.contents := by rw [toFreeze, hpc]
    by_cases hsize : kMaxActiveListSize ≤ (s.writer_ w).list_.size
    · simp only [if_pos hsize] at hs
      refine ⟨_, hs.symm, ?_, fun h => by cases h⟩
      rw [before, filled, if_pos hsize]
      rfl
    · simp only [if_neg hsize] at hs
      refine ⟨_, hs.symm, ?_, fun h => by cases h⟩
      rw [before, filled, if_neg hsize]
      rfl
  | frozen =>
    simp only [hpc, Option.some.injEq] at hs
    exact ⟨_, hs.symm, by rw [toFreeze, toFreeze, hpc], fun h => by cases h⟩

/-- **A step of the writer itself** changes nothing in whether it finds room, and it leaves only with
an empty queue. -/
theorem own_step (hlock : VersionSet.LockOk d.set_)
    (hout : (d.store.writer_ w).pc ≠ .full → d.append w = .idle) (hs : d.writerStep w = some d') :
    (d.Clears w ↔ d'.Clears w) ∧ ((d'.store.writer_ w).pc = .idle → d.Clears w) := by
  by_cases hp : (d.store.writer_ w).pc = .full
  · have hm := full_step hp hs
    refine ⟨own_full hlock hp hm, fun hidle => ?_⟩
    obtain ⟨-, hw⟩ | ⟨-, hw⟩ := hm.own
    · rw [hw, hp] at hidle
      cases hidle
    · rw [hw] at hidle
      cases hidle
  · have hidle := hout hp
    simp only [writerStep, if_neg hp, Option.map_eq_some_iff] at hs
    obtain ⟨s', hs', rfl⟩ := hs
    obtain ⟨wr, rfl, hsame, hzero⟩ := own_outside hp hs'
    have hown : ((d.withStore (d.store.setWriter w wr)).store.writer_ w) = wr :=
      Function.update_self ..
    unfold Clears
    rw [hown]
    refine ⟨?_, fun h => ?_⟩
    · show d.set_.Fits w _ ↔ d.set_.Fits w (toFreeze wr (d.append w))
      rw [hidle, hsame]
    · rw [hidle, hzero h]
      refine ⟨?_, .inl rfl⟩
      show ¬ VersionSet.Sleepy (d.append w)
      rw [hidle]
      exact id

/-- A step of another writer makes no room. -/
theorem other_step (hlock : VersionSet.LockOk d.set_) (hne : w' ≠ w)
    (hs : d.writerStep w' = some d') (hc : d'.Clears w) : d.Clears w := by
  by_cases hp : (d.store.writer_ w').pc = .full
  · obtain ⟨⟨l, hl, -, hm⟩, -, -, hother, -⟩ := full_step hp hs
    have hap : d'.append w = d.append w := hm.other hl hne.symm
    have hle := hm.taken_le (w := w) hlock hl hne
    unfold Clears at hc ⊢
    rw [hother w hne.symm, hap] at hc
    exact hc.le (hm.other hl hne.symm) hle
  · simp only [writerStep, if_neg hp, Option.map_eq_some_iff] at hs
    obtain ⟨s', hs', rfl⟩ := hs
    obtain ⟨wr, rfl, -, -⟩ := own_outside hp hs'
    have hown : ((d.withStore (d.store.setWriter w' wr)).store.writer_ w) = d.store.writer_ w :=
      Function.update_of_ne hne.symm ..
    unfold Clears at hc
    rw [hown] at hc
    exact hc

/-- The owner of the mutex takes nobody's room. -/
theorem owner_step (hlock : VersionSet.LockOk d.set_) (hne : w' ≠ w)
    (hw' : VersionSet.Holds (d.append w')) (hp : (d.store.writer_ w').pc = .full)
    (hs : d.writerStep w' = some d') (hc : d.Clears w) : d'.Clears w := by
  obtain ⟨⟨l, hl, -, hm⟩, -, -, hother, -⟩ := full_step hp hs
  have hap : d'.append w = d.append w := hm.other hl hne.symm
  have hle := (hm.taken_owner (w := w) hlock hl hw' hne).le
  unfold Clears at hc ⊢
  rw [hother w hne.symm, hap]
  exact hc.le (hm.other hl hne.symm).symm hle

/-- A writer leaves the clients alone. -/
theorem writer_keeps (hs : d.writerStep w = some d') :
    d'.store.client = d.store.client ∧ d'.store.idx_ = d.store.idx_ := by
  by_cases hp : (d.store.writer_ w).pc = .full
  · have hm := full_step hp hs
    exact ⟨hm.client, hm.idx⟩
  · simp only [writerStep, if_neg hp, Option.map_eq_some_iff] at hs
    obtain ⟨s', hs', rfl⟩ := hs
    obtain ⟨wr, rfl, -, -⟩ := own_outside hp hs'
    exact ⟨rfl, rfl⟩

/-- A step of a client makes no room. -/
theorem client_step (hok : Ok g d) {l : Store.Label} (hl : ∀ w, l ≠ .writer w) {s' : Store}
    (hs : d.store.step l = some s') (hc : (d.withStore s').Clears w) : d.Clears w := by
  obtain ⟨hq, hlist, hpc, hcur⟩ := (Store.step_move hs).outside hok.clients hl w
  have hle : toFreeze (d.store.writer_ w) (d.append w) ≤ toFreeze (s'.writer_ w) (d.append w) :=
    toFreeze_push hq hlist hpc (hok.shelved w).ahead
  have hset : (d.withStore s').set_ = d.set_ := by
    simp only [set_, withStore, hcur]
  unfold Clears at hc ⊢
  rw [hset] at hc
  exact hc.fewer hle

/-! ## The invariant -/

/-- What holds of the database in every run. -/
structure Safe (d : Database) : Prop where
  ok : ∃ g, Ok g d
  lock : VersionSet.LockOk d.set_
  up : ∀ w, (d.store.writer_ w).pc ≠ .off

/-- Only a writer itself moves in `mayInsertMessage`. -/
theorem Safe.pc_other (h : d.Safe) {l : Label} (hl : l ≠ .store (.writer w))
    (hs : d.step l = some d') : (d'.store.writer_ w).pc = (d.store.writer_ w).pc := by
  obtain ⟨g, hok⟩ := h.ok
  cases l with
  | store l =>
    by_cases hcl : ∀ w, l ≠ .writer w
    · rw [step_store hcl] at hs
      obtain ⟨s', hs', rfl⟩ := Option.map_eq_some_iff.1 hs
      exact ((Store.step_move hs').outside hok.clients hcl w).2.2.1
    · push Not at hcl
      obtain ⟨w', rfl⟩ := hcl
      have hne : w ≠ w' := by
        rintro rfl
        exact hl rfl
      by_cases hp : (d.store.writer_ w').pc = .full
      · rw [(full_step hp hs).other w hne]
      · rw [step_writer hp] at hs
        obtain ⟨s', hs', rfl⟩ := Option.map_eq_some_iff.1 hs
        obtain ⟨wr, rfl, -, -⟩ := own_outside hp hs'
        exact congrArg Writer.pc (Function.update_of_ne hne ..)
  | wake w' =>
    simp only [step] at hs
    split at hs
    · cases hs
      rfl
    · cases hs
  | compacter opened => cases compact_move hs <;> rfl

theorem Safe.lock_step (h : d.Safe) {l : Label} (hs : d.step l = some d') :
    VersionSet.LockOk d'.set_ := by
  obtain ⟨g, hok⟩ := h.ok
  cases l with
  | store l =>
    by_cases hcl : ∀ w, l ≠ .writer w
    · rw [step_store hcl] at hs
      obtain ⟨s', hs', rfl⟩ := Option.map_eq_some_iff.1 hs
      have hcur := ((Store.step_move hs').outside hok.clients hcl 0).2.2.2
      have hset : (d.withStore s').set_ = d.set_ := by
        simp only [set_, withStore, hcur]
      rw [hset]
      exact h.lock
    · push Not at hcl
      obtain ⟨w', rfl⟩ := hcl
      by_cases hp : (d.store.writer_ w').pc = .full
      · obtain ⟨l, -, -, hm⟩ := (full_step hp hs).move
        exact h.lock.step_writer hm
      · rw [step_writer hp] at hs
        obtain ⟨s', hs', rfl⟩ := Option.map_eq_some_iff.1 hs
        obtain ⟨wr, rfl, -, -⟩ := own_outside hp hs'
        exact h.lock
  | wake w' =>
    simp only [step] at hs
    split at hs
    · rename_i list hw
      cases hs
      exact h.lock.step_writer (.wake hw)
    · cases hs
  | compacter opened =>
    simp only [step, compacterStep] at hs
    split at hs
    · obtain ⟨r, -, rfl⟩ := Option.map_eq_some_iff.1 hs
      exact ⟨h.lock.mutex, h.lock.cleared, fun _ _ hc => by cases hc⟩
    · cases hs
      have hv : VersionSet.LockOk (d.set_.compacterStep fun _ edit => edit) := h.lock.step_compacter
      exact hv

theorem Safe.step (h : d.Safe) {l : Label} (hg : SizedStep d l) (hs : d.step l = some d') :
    d'.Safe := by
  obtain ⟨g, hok⟩ := h.ok
  obtain ⟨g', -, hok'⟩ := hok.step hg hs
  refine ⟨⟨g', hok'⟩, h.lock_step hs, fun w hoff => ?_⟩
  by_cases hl : l = .store (.writer w)
  · subst hl
    by_cases hp : (d.store.writer_ w).pc = .full
    · obtain ⟨-, hw⟩ | ⟨-, hw⟩ := (full_step hp hs).own
      · rw [hw] at hoff
        exact h.up w hoff
      · rw [hw] at hoff
        cases hoff
    · rw [step_writer hp] at hs
      obtain ⟨s', hs', rfl⟩ := Option.map_eq_some_iff.1 hs
      exact h.up w (((Store.writerStep_move hs').fixed w).1.1 hoff)
  · rw [h.pc_other hl hs] at hoff
    exact h.up w hoff

/-! ## A writer that finds room -/

theorem full_next {v : VersionSet SkipList} (hp : (d.store.writer_ w).pc = .full)
    (hv : d.set_.writerStep w = some v) : ∃ d', d.writerStep w = some d' ∧ d'.set_ = v := by
  simp only [writerStep, hp, if_true]
  cases ha : d.append w with
  | idle =>
    have ha : d.set_.writer w = .idle := ha
    simp only [VersionSet.writerStep, ha, reduceCtorEq] at hv
  | appended => exact ⟨_, by rw [hv]; rfl, rfl⟩
  | _ => exact ⟨_, by rw [hv]; rfl, rfl⟩

/-- How far a writer is from the end of `mayInsertMessage`. -/
def left (wr : Writer) (ap : AppendPc SkipList) : ℕ :=
  16 * wr.queue_.contents.length +
    match wr.pc with
    | .off | .inserted => 0
    | .loop => 1
    | .idle | .frozen => 2
    | .full => 2 + VersionSet.AppendPc.left ap
    | .popped => 8

/-- Outside `AppendFrozenList` a writer goes on by itself. -/
theorem Safe.outside_next (h : d.Safe) (hp : (d.store.writer_ w).pc ≠ .full) :
    ∃ wr, d.store.writerStep w = some (d.store.setWriter w wr) ∧
      (wr.pc = .idle ∨ left wr .idle < left (d.store.writer_ w) .idle) := by
  obtain ⟨g, hok⟩ := h.ok
  have hw := hok.shelved w
  cases hpc : (d.store.writer_ w).pc with
  | off => exact absurd hpc (h.up w)
  | full => exact absurd hpc hp
  | idle =>
    refine ⟨_, by simp only [Store.writerStep, hpc]; rfl, .inr ?_⟩
    simp only [left, hpc]
    omega
  | loop =>
    cases he : (d.store.writer_ w).queue_.isEmpty with
    | true =>
      have hins : (d.store.writer_ w).insertFront = some { d.store.writer_ w with pc := .idle } := by
        simp only [Writer.insertFront, he, if_true]
      exact ⟨_, by simp only [Store.writerStep, hpc, hins, Option.map_some]; rfl, .inl rfl⟩
    | false =>
      obtain ⟨front, hf⟩ : ∃ front, (d.store.writer_ w).queue_.getFront = some front := by
        simp only [MessageQueue.getFront, he]
        exact ⟨_, rfl⟩
      have hbound : front.Bounded := by
        refine (hw.from_queue front ?_).1
        rw [hw.queued, hpc]
        exact List.mem_of_mem_head? (MessageQueue.getFront_some hf)
      obtain ⟨list, hl⟩ : ∃ list, (d.store.writer_ w).list_.insert front = some list := by
        simp only [SkipList.insert, encodeMemEntry_fits hbound.fits]
        exact ⟨_, rfl⟩
      have hins : (d.store.writer_ w).insertFront =
          some { d.store.writer_ w with list_ := list, pc := .inserted } := by
        rw [Writer.insertFront, he, if_neg Bool.false_ne_true, hf]
        simp only [Option.bind_eq_bind, Option.bind_some, hl]
      refine ⟨_, by simp only [Store.writerStep, hpc, hins, Option.map_some]; rfl, .inr ?_⟩
      simp only [left, hpc]
      omega
  | inserted =>
    have hpos := hw.ahead
    rw [hpc] at hpos
    have he : (d.store.writer_ w).queue_.ring.isEmpty = false := by
      rw [← Bool.not_eq_true]
      intro he
      have hnil : (d.store.writer_ w).queue_.contents = [] := Ring.isEmpty_iff.1 he
      rw [hnil] at hpos
      exact absurd hpos (by decide)
    obtain ⟨q, hq⟩ : ∃ q, (d.store.writer_ w).queue_.pop = some q := by
      simp only [MessageQueue.pop, he]
      exact ⟨_, rfl⟩
    refine ⟨_, by simp only [Store.writerStep, hpc, Writer.popFront, hq, Option.map_some]; rfl,
      .inr ?_⟩
    simp only [left, hpc, MessageQueue.contents_pop hq, List.length_tail]
    simp only [WriterPc.ahead] at hpos
    omega
  | popped =>
    by_cases hsize : kMaxActiveListSize ≤ (d.store.writer_ w).list_.size
    · refine ⟨_, by simp only [Store.writerStep, hpc, if_pos hsize]; rfl, .inr ?_⟩
      simp only [left, hpc, VersionSet.AppendPc.left]
      omega
    · refine ⟨_, by simp only [Store.writerStep, hpc, if_neg hsize]; rfl, .inr ?_⟩
      simp only [left, hpc]
      omega
  | frozen =>
    refine ⟨_, by simp only [Store.writerStep, hpc]; rfl, .inr ?_⟩
    simp only [left, hpc]
    omega

/-- **A writer that finds room goes on** while nobody else has the mutex. -/
theorem Safe.own_next (h : d.Safe) (hlock : d.compact_lock_ = none ∨ d.compact_lock_ = some w)
    (hc : d.Clears w) : ∃ d', d.writerStep w = some d' ∧ ((d'.store.writer_ w).pc = .idle ∨
      left (d'.store.writer_ w) (d'.append w) < left (d.store.writer_ w) (d.append w)) := by
  by_cases hp : (d.store.writer_ w).pc = .full
  · have hsleep : ¬ VersionSet.Sleepy (d.set_.writer w) := hc.1
    by_cases hidle : d.append w = .idle
    · have hs : d.writerStep w =
          some (d.withSet (d.set_.setWriter w (.called (d.store.writer_ w).list_))) := by
        simp only [writerStep, hp, if_true, hidle]
      have hap : (d.withSet (d.set_.setWriter w (.called (d.store.writer_ w).list_))).append w =
          .called (d.store.writer_ w).list_ := VersionSet.setWriter_self
      refine ⟨_, hs, .inr ?_⟩
      rw [hap, hidle]
      simp only [left, withSet, hp, VersionSet.AppendPc.left]
      omega
    · obtain ⟨v, hv, hless⟩ := VersionSet.writer_next h.lock hlock hidle hsleep
      obtain ⟨d', hs, hd'⟩ := full_next hp hv
      have hm := full_step hp hs
      have hc' : d'.Clears w := (own_full h.lock hp hm).1 hc
      have hap : d'.append w = v.writer w := by
        rw [← hd']
        rfl
      have hsleep' : ¬ VersionSet.Sleepy (v.writer w) := by
        rw [← hap]
        exact hc'.1
      refine ⟨d', hs, .inr ?_⟩
      obtain ⟨hne, hw⟩ | ⟨ha, hw⟩ := hm.own
      · have hlt := hless hne hsleep'
        have hd : d.set_.writer w = d.append w := rfl
        rw [hd] at hlt
        rw [hw, hap]
        simp only [left, hp]
        omega
      · rw [hw, ha]
        simp only [left, hp, VersionSet.AppendPc.left]
        omega
  · obtain ⟨g, hok⟩ := h.ok
    have hidle := (hok.shelved w).outside hp
    obtain ⟨wr, hs, hlt⟩ := h.outside_next hp
    have hd : d.writerStep w = some (d.withStore (d.store.setWriter w wr)) := by
      simp only [writerStep, if_neg hp, hs, Option.map_some]
    have hw : (d.withStore (d.store.setWriter w wr)).store.writer_ w = wr := Function.update_self ..
    refine ⟨_, hd, ?_⟩
    rw [hw, hidle]
    have hap : (d.withStore (d.store.setWriter w wr)).append w = .idle := hidle
    rw [hap]
    exact hlt

end Database

end Yangkv
