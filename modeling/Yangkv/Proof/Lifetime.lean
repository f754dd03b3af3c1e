import Yangkv.Proof.Freeze
import Yangkv.Spec.Lifetime

/-!
# A reader's version stays alive

`getValue` takes no reference to the version it reads, so the only reference is the
one of `current_`, and `AppendVersion` gives that one up before it has another
version in place. A version that is read is alive while the compacter does not come
to its `Unref` during the read, and no read of `Current()` falls between that `Unref`
and the `Ref` of the next version.

* `HeapOk.step`: under that condition, who reads a version reads the current one,
  whose only reference is in place.
* `readers_alive`: all runs that meet the condition.
* `not_alive_of_not_keeps`: a step that does not meet it leaves a reader with a
  version that has been released.
* `reader_dead`: a run with such a step.
-/

namespace Yangkv

open Lib

namespace VersionHeap

variable {ρ : Type} {compact : (Fin kMaxWriter → List SkipList) → VersionEdit → VersionEdit}
  {s s' : VersionHeap ρ} {l : Label ρ} {r : ρ} {v : ℕ} {hist : List Unit}

/-- The call has obtained the version from `Current()` and not finished reading it. -/
def Reading : ReadPc → ℕ → Prop
  | .fetched _ v', v | .lists _ v' _, v | .files _ v', v => v' = v
  | _, _ => False

/-- None of the lists of a version has been released. -/
def ListsAlive (s : VersionHeap ρ) (v : ℕ) : Prop :=
  ∀ w, ∀ id ∈ (s.version v).version.list_ w, 1 ≤ (s.list id).ref_

/-- Every version that a call reads is referenced, and so are its lists. -/
def ReadersAlive (s : VersionHeap ρ) : Prop :=
  ∀ r v, Reading (s.reader r) v → 1 ≤ (s.version v).ref_ ∧ s.ListsAlive v

/-- The compacter is between the `Unref` and the `Ref` of `AppendVersion`. -/
def Swapping : SwapPc → Prop
  | .release _ _ | .install _ | .ref _ => True
  | _ => False

/-- No read of `Current()` between the `Unref` and the `Ref`, and no `Unref` of a version that is
read. -/
def KeepsReaders (s : VersionHeap ρ) : Label ρ → Prop
  | .read r => (∃ key, s.reader r = .current key) → ¬ Swapping s.compacter
  | .compacter => (∃ v, s.compacter = .unref v) → ∀ r, ¬ Reading (s.reader r) s.current_
  | _ => True

/-- The current version has its reference, and its lists have theirs. -/
def CurrentAlive (s : VersionHeap ρ) : Prop :=
  (s.version s.current_).ref_ = 1 ∧ s.ListsAlive s.current_

/-- Only the compacter has the address, and nothing is in the version yet. -/
structure Unshared (s : VersionHeap ρ) (v : ℕ) : Prop where
  lt : v < s.nextVersion
  ne : v ≠ s.current_
  writer : ∀ w list, s.writer w ≠ some (list, v)
  ref_ : (s.version v).ref_ = 0
  list_ : ∀ w, (s.version v).version.list_ w = []

/-- What the compacter knows at each place. -/
def SwapOk (s : VersionHeap ρ) : SwapPc → Prop
  | .unref v => s.CurrentAlive ∧ s.Unshared v
  | .release v _ | .install v => s.Unshared v ∧ (s.version s.current_).ref_ = 0
  | .ref v => v = s.current_ ∧ (s.version v).ref_ = 0 ∧ s.ListsAlive v
  | _ => s.CurrentAlive

structure HeapOk (s : VersionHeap ρ) : Prop where
  current : s.current_ < s.nextVersion
  writer : ∀ w list v, s.writer w = some (list, v) → v < s.nextVersion
  reading : ∀ r v, Reading (s.reader r) v → v = s.current_ ∧ ¬ Swapping s.compacter
  swap : SwapOk s s.compacter

theorem SwapOk.alive {pc : SwapPc} (h : SwapOk s pc) (hpc : ¬ Swapping pc) : s.CurrentAlive := by
  cases pc with
  | test | compact | apply | broadcast => exact h
  | unref => exact h.1
  | release | install | ref => exact absurd trivial hpc

/-- What nobody shares stays so when neither the version nor who has its address changes. -/
theorem Unshared.carry (h : s.Unshared v) (hn : s'.nextVersion = s.nextVersion)
    (hc : s'.current_ = s.current_)
    (hw : ∀ w list, s'.writer w = some (list, v) → s.writer w = some (list, v))
    (hv : (s'.version v).version = (s.version v).version)
    (hr : (s'.version v).ref_ = (s.version v).ref_) : s'.Unshared v := by
  constructor
  case lt => rw [hn]; exact h.lt
  case ne => rw [hc]; exact h.ne
  case writer => exact fun w list hx => h.writer w list (hw w list hx)
  case ref_ => rw [hr]; exact h.ref_
  case list_ => rw [hv]; exact h.list_

/-- Between the `Unref` and the `Ref` the version that `current_` points to has no reference. -/
theorem SwapOk.dead {pc : SwapPc} (h : SwapOk s pc) (hpc : Swapping pc) :
    (s.version s.current_).ref_ = 0 := by
  cases pc with
  | test | compact | apply | broadcast | unref => exact hpc.elim
  | release | install => exact h.2
  | ref v =>
    obtain ⟨rfl, h0, -⟩ : v = s.current_ ∧ (s.version v).ref_ = 0 ∧ s.ListsAlive v := h
    exact h0

theorem HeapOk.readersAlive (h : HeapOk s) : ReadersAlive s := by
  intro r v hr
  obtain ⟨rfl, hw⟩ := h.reading r v hr
  obtain ⟨h1, h2⟩ := h.swap.alive hw
  exact ⟨h1.ge, h2⟩

theorem start_ok : HeapOk (start : VersionHeap ρ) := by
  constructor
  case current => exact Nat.zero_lt_one
  case writer => intro w list v h; cases h
  case reading => exact fun _ _ h => False.elim h
  case swap => exact ⟨rfl, fun _ _ h => by cases h⟩

/-! ## Steps of the writers -/

/-- A new list is alive, and every list that was. -/
theorem ListsAlive.append {list : SkipList} {w : Fin kMaxWriter} {v' : ℕ} {s' : VersionHeap ρ}
    (h : s.ListsAlive v) (hl : s'.list = Function.update s.list s.nextList ⟨list, 1⟩)
    (hv : s'.version = Function.update s.version v'
      { s.version v' with version := (s.version v').version.appendList s.nextList w }) :
    s'.ListsAlive v := by
  have halive : ∀ id, 1 ≤ (s.list id).ref_ → 1 ≤ (s'.list id).ref_ := by
    intro id hid
    rw [hl, Function.update_apply]
    split
    · exact le_rfl
    · exact hid
  intro w' id hid
  rw [hv, Function.update_apply] at hid
  split at hid
  · rename_i hvv
    subst hvv
    simp only [Version.appendList, Function.update_apply] at hid
    split at hid
    · rename_i hww
      subst hww
      rcases List.mem_append.1 hid with hid | hid
      · exact halive id (h w' id hid)
      · rw [List.mem_singleton] at hid
        rw [hl, hid, Function.update_self]
    · exact halive id (h w' id hid)
  · exact halive id (h w' id hid)

theorem HeapOk.appendStep {w : Fin kMaxWriter} (h : HeapOk s) (hs : s.appendStep w = some s') :
    HeapOk s' := by
  unfold VersionHeap.appendStep at hs
  cases hw : s.writer w with
  | none => rw [hw] at hs; cases hs
  | some job =>
    obtain ⟨list, v⟩ := job
    rw [hw] at hs
    simp only [Option.ite_none_right_eq_some, Option.some.injEq] at hs
    obtain ⟨-, hs⟩ := hs
    have hl : s'.list = Function.update s.list s.nextList ⟨list, 1⟩ := by rw [← hs]; rfl
    have hv : s'.version = Function.update s.version v { s.version v with
        version := (s.version v).version.appendList s.nextList w } := by rw [← hs]; rfl
    have hcurrent : s'.current_ = s.current_ := by rw [← hs]; rfl
    have hnext : s'.nextVersion = s.nextVersion := by rw [← hs]; rfl
    have hwriter : ∀ {w' list' v'}, s'.writer w' = some (list', v') →
        s.writer w' = some (list', v') := by
      intro w' list' v' hx
      rw [← hs] at hx
      simp only [Function.update_apply] at hx
      split at hx
      · cases hx
      · exact hx
    have href : ∀ v', (s'.version v').ref_ = (s.version v').ref_ := by
      intro v'
      rw [hv, Function.update_apply]
      split
      · rename_i hvv; rw [hvv]
      · rfl
    have halive : ∀ {v'}, s.ListsAlive v' → s'.ListsAlive v' := fun ha => ha.append hl hv
    have hcur : s.CurrentAlive → s'.CurrentAlive := by
      intro ha
      rw [CurrentAlive, hcurrent, href]
      exact ⟨ha.1, halive ha.2⟩
    -- no writer has the address of a version that is not shared yet
    have hun : ∀ {v'}, s.Unshared v' → s'.Unshared v' := by
      intro v' hu
      have hne : v' ≠ v := fun he => hu.writer w list (he ▸ hw)
      refine hu.carry hnext hcurrent (fun w' list' hx => hwriter hx) ?_ (href v')
      rw [hv, Function.update_of_ne hne]
    constructor
    case current => rw [hcurrent, hnext]; exact h.current
    case writer => rw [hnext]; exact fun w' list' v' hx => h.writer w' list' v' (hwriter hx)
    case reading => rw [← hs]; exact h.reading
    case swap =>
      have hsw := h.swap
      have hpc : s'.compacter = s.compacter := by rw [← hs]; rfl
      rw [hpc]
      cases hc : s.compacter with
      | test | compact | apply | broadcast => rw [hc] at hsw; exact hcur hsw
      | unref v' => rw [hc] at hsw; exact ⟨hcur hsw.1, hun hsw.2⟩
      | release v' ids | install v' =>
        rw [hc] at hsw
        exact ⟨hun hsw.1, by rw [hcurrent, href]; exact hsw.2⟩
      | ref v' =>
        rw [hc] at hsw
        obtain ⟨h1, h2, h3⟩ : v' = s.current_ ∧ (s.version v').ref_ = 0 ∧ s.ListsAlive v' := hsw
        exact ⟨h1.trans hcurrent.symm, (href v').trans h2, halive h3⟩

/-- A writer takes the address of the current version. -/
theorem HeapOk.freeze {w : Fin kMaxWriter} {list : SkipList} (h : HeapOk s) :
    HeapOk { s with writer := Function.update s.writer w (some (list, s.current_)) } := by
  have hwriter : ∀ {w' list' v'}, Function.update s.writer w (some (list, s.current_)) w' =
      some (list', v') → s.writer w' = some (list', v') ∨ v' = s.current_ := by
    intro w' list' v' hx
    rw [Function.update_apply] at hx
    split at hx
    · cases hx; exact .inr rfl
    · exact .inl hx
  constructor
  case current => exact h.current
  case writer =>
    intro w' list' v' hx
    rcases hwriter hx with hx | rfl
    · exact h.writer w' list' v' hx
    · exact h.current
  case reading => exact h.reading
  case swap =>
    have hun : ∀ {v w' list'}, s.Unshared v →
        Function.update s.writer w (some (list, s.current_)) w' = some (list', v) →
        s.writer w' = some (list', v) := by
      intro v w' list' hu hx
      rcases hwriter hx with hx | rfl
      · exact hx
      · exact absurd rfl hu.ne
    have hsw := h.swap
    show SwapOk _ s.compacter
    cases hc : s.compacter with
    | test | compact | apply | broadcast | ref => rw [hc] at hsw; exact hsw
    | unref v =>
      rw [hc] at hsw
      exact ⟨hsw.1, hsw.2.carry rfl rfl (fun _ _ => hun hsw.2) rfl rfl⟩
    | release v ids | install v =>
      rw [hc] at hsw
      exact ⟨hsw.1.carry rfl rfl (fun _ _ => hun hsw.1) rfl rfl, hsw.2⟩

/-! ## Steps of the compacter -/

theorem HeapOk.compacterStep (h : HeapOk s) (hg : KeepsReaders s (.compacter : Label ρ))
    (hs : s.compacterStep compact = some s') : HeapOk s' := by
  have hsw := h.swap
  have hrd := h.reading
  unfold VersionHeap.compacterStep at hs
  cases hc : s.compacter with
  | test =>
    rw [hc] at hs hsw hrd
    cases hs
    refine ⟨h.current, h.writer, fun r v hv => ⟨(hrd r v hv).1, ?_⟩, ?_⟩
    · show ¬ Swapping (if _ then _ else _)
      split <;> exact id
    · show SwapOk _ (if _ then _ else _)
      split <;> exact hsw
  | compact | broadcast =>
    rw [hc] at hs hsw hrd
    cases hs
    exact ⟨h.current, h.writer, fun r v hv => ⟨(hrd r v hv).1, id⟩, hsw⟩
  | apply edit =>
    -- a new version, which has no lists and which nobody has seen
    rw [hc] at hs hsw hrd
    cases hs
    have hold : ∀ {v o}, v < s.nextVersion →
        Function.update s.version s.nextVersion o v = s.version v :=
      fun hlt => Function.update_of_ne hlt.ne _ _
    have hv : ∀ o, s.CurrentAlive → CurrentAlive (s.setVersion s.nextVersion o) := by
      intro o ha
      refine ⟨(congrArg VersionObject.ref_ (hold h.current)).trans ha.1, fun w id hid => ?_⟩
      rw [show (s.setVersion s.nextVersion o).version (s.setVersion s.nextVersion o).current_ =
        s.version s.current_ from hold h.current] at hid
      exact ha.2 w id hid
    refine ⟨Nat.lt_succ_of_lt h.current, fun w list v hx => Nat.lt_succ_of_lt (h.writer w list v hx),
      fun r v hv => ⟨(hrd r v hv).1, id⟩, hv _ hsw, ?_⟩
    constructor
    case lt => exact Nat.lt_succ_self _
    case ne => exact h.current.ne'
    case writer => exact fun w list hx => absurd (h.writer w list _ hx) (lt_irrefl _)
    case ref_ => simp [setVersion]
    case list_ => intro w; simp [setVersion, Version.apply, Version.new]
  | unref v =>
    rw [hc] at hs hsw
    obtain ⟨ha, hu⟩ : s.CurrentAlive ∧ s.Unshared v := hsw
    simp only [Option.ite_none_right_eq_some, Option.some.injEq] at hs
    obtain ⟨-, rfl⟩ := hs
    -- the version goes with its last reference: here the condition is needed
    have hnone : ∀ r, ¬ Reading (s.reader r) s.current_ := hg ⟨v, hc⟩
    refine ⟨h.current, h.writer, fun r v' hv => ?_, ?_⟩
    · obtain ⟨rfl, -⟩ := hrd r v' hv
      exact absurd hv (hnone r)
    · have hv : ∀ o, (s.setVersion s.current_ o).version v = s.version v :=
        fun o => Function.update_of_ne hu.ne _ _
      have h0 : ∀ o : VersionObject, o.ref_ = 0 →
          ((s.setVersion s.current_ o).version s.current_).ref_ = 0 := fun o ho => by
        simpa [setVersion] using ho
      show SwapOk _ (if _ then _ else _)
      rw [if_pos ha.1]
      exact ⟨hu.carry rfl rfl (fun _ _ => id) (congrArg _ (hv _)) (congrArg _ (hv _)),
        h0 _ (by rw [ha.1])⟩
  | release v ids =>
    rw [hc] at hs hsw hrd
    have hnone : ∀ r v, ¬ Reading (s.reader r) v := fun r v hv => (hrd r v hv).2 trivial
    obtain ⟨hu, h0⟩ : s.Unshared v ∧ (s.version s.current_).ref_ = 0 := hsw
    cases ids with
    | nil =>
      cases hs
      exact ⟨h.current, h.writer, fun r v hv => absurd hv (hnone r v),
        hu.carry rfl rfl (fun _ _ => id) rfl rfl, h0⟩
    | cons id ids =>
      simp only [Option.ite_none_right_eq_some, Option.some.injEq] at hs
      obtain ⟨-, rfl⟩ := hs
      exact ⟨h.current, h.writer, fun r v hv => absurd hv (hnone r v),
        hu.carry rfl rfl (fun _ _ hx => hx) rfl rfl, h0⟩
  | install v =>
    -- no list is shared with the version that goes, so all of them are alive
    rw [hc] at hs hsw hrd
    cases hs
    have hu : s.Unshared v := hsw.1
    refine ⟨hu.lt, h.writer, fun r v hv => absurd trivial (hrd r v hv).2, rfl, hu.ref_,
      fun w id hid => ?_⟩
    have hid : id ∈ (s.version v).version.list_ w := hid
    rw [hu.list_ w] at hid
    cases hid
  | ref v =>
    rw [hc] at hs hsw hrd
    cases hs
    obtain ⟨rfl, h0, ha⟩ : v = s.current_ ∧ (s.version v).ref_ = 0 ∧ s.ListsAlive v := hsw
    refine ⟨h.current, h.writer, fun r v hv => absurd trivial (hrd r v hv).2, ?_, fun w id hid => ?_⟩
    · simp [setVersion, h0]
    · have hid : id ∈ (s.version s.current_).version.list_ w := by simpa [setVersion] using hid
      exact ha w id hid

/-! ## Steps of the readers -/

/-- Only the readers and the locks for reading differ. -/
structure SameHeap (s s' : VersionHeap ρ) : Prop where
  version : ∀ v, (s'.version v).version = (s.version v).version
  ref_ : ∀ v, (s'.version v).ref_ = (s.version v).ref_
  list : s'.list = s.list
  nextVersion : s'.nextVersion = s.nextVersion
  current_ : s'.current_ = s.current_
  writer : s'.writer = s.writer
  compacter : s'.compacter = s.compacter

theorem SameHeap.listsAlive (h : SameHeap s s') (ha : s.ListsAlive v) : s'.ListsAlive v := by
  intro w id hid
  rw [h.version] at hid
  rw [h.list]
  exact ha w id hid

theorem SameHeap.currentAlive (h : SameHeap s s') (ha : s.CurrentAlive) : s'.CurrentAlive := by
  rw [CurrentAlive, h.current_, h.ref_]
  exact ⟨ha.1, h.listsAlive ha.2⟩

theorem SameHeap.unshared (h : SameHeap s s') (hu : s.Unshared v) : s'.Unshared v :=
  hu.carry h.nextVersion h.current_ (fun w list hx => by rwa [h.writer] at hx) (h.version v)
    (h.ref_ v)

theorem SameHeap.swapOk (h : SameHeap s s') {pc : SwapPc} (hs : SwapOk s pc) : SwapOk s' pc := by
  cases pc with
  | test | compact | apply | broadcast => exact h.currentAlive hs
  | unref v => exact ⟨h.currentAlive hs.1, h.unshared hs.2⟩
  | release v ids | install v => exact ⟨h.unshared hs.1, by rw [h.current_, h.ref_]; exact hs.2⟩
  | ref v =>
    obtain ⟨h1, h2, h3⟩ : v = s.current_ ∧ (s.version v).ref_ = 0 ∧ s.ListsAlive v := hs
    exact ⟨h1.trans h.current_.symm, (h.ref_ v).trans h2, h.listsAlive h3⟩

variable [DecidableEq ρ]

theorem SameHeap.setReader (pc : ReadPc) : SameHeap s (s.setReader r pc) :=
  ⟨fun _ => rfl, fun _ => rfl, rfl, rfl, rfl, rfl, rfl⟩

theorem SameHeap.setLock (f : ℕ → ℕ) (pc : ReadPc) :
    SameHeap s ((s.setLock v f).setReader r pc) := by
  have hv : ∀ v', ((s.setLock v f).version v').version = (s.version v').version ∧
      ((s.setLock v f).version v').ref_ = (s.version v').ref_ := by
    intro v'
    rcases eq_or_ne v' v with rfl | hne
    · simp [VersionHeap.setLock, setVersion]
    · simp [VersionHeap.setLock, setVersion, hne]
  exact ⟨fun v' => (hv v').1, fun v' => (hv v').2, rfl, rfl, rfl, rfl, rfl⟩

/-- A call goes on, at most with the version it reads. -/
theorem HeapOk.read (h : HeapOk s) {pc : ReadPc} (hsame : SameHeap s s')
    (hr : s'.reader = Function.update s.reader r pc)
    (hpc : ∀ v, Reading pc v → v = s.current_ ∧ ¬ Swapping s.compacter) : HeapOk s' := by
  constructor
  case current => rw [hsame.current_, hsame.nextVersion]; exact h.current
  case writer => rw [hsame.writer, hsame.nextVersion]; exact h.writer
  case reading =>
    intro r' v hv
    rw [hsame.current_, hsame.compacter]
    rw [hr] at hv
    rcases eq_or_ne r' r with rfl | hne
    · rw [Function.update_self] at hv; exact hpc v hv
    · rw [Function.update_of_ne hne] at hv; exact h.reading r' v hv
  case swap => rw [hsame.compacter]; exact hsame.swapOk h.swap

theorem HeapOk.readStep (h : HeapOk s) (hg : KeepsReaders s (.read r))
    (hs : s.readStep r = some s') : HeapOk s' := by
  unfold VersionHeap.readStep at hs
  have hold := h.reading r
  cases hr : s.reader r with
  | idle => rw [hr] at hs; cases hs
  | current key =>
    -- the version that is read is the current one, with its reference
    rw [hr] at hs
    cases hs
    exact h.read (.setReader _) rfl fun v hv => ⟨hv.symm, hg ⟨key, hr⟩⟩
  | fetched key v =>
    rw [hr] at hs hold
    cases hs
    exact h.read (.setLock _ _) rfl hold
  | lists key v left =>
    rw [hr] at hs hold
    cases left with
    | zero => cases hs; exact h.read (.setLock _ _) rfl hold
    | succ i =>
      obtain ⟨id, -, hs⟩ := Option.bind_eq_some_iff.1 hs
      cases hget : (s.list id).list.get key with
      | none =>
        rw [hget] at hs
        cases hs
        exact h.read (.setReader _) rfl hold
      | some slice =>
        rw [hget] at hs
        obtain ⟨entry, -, hs⟩ := Option.bind_eq_some_iff.1 hs
        cases hs
        exact h.read (.setLock _ _) rfl fun _ hv => False.elim hv
  | files key v | done value =>
    rw [hr] at hs
    cases hs
    exact h.read (.setReader _) rfl fun _ hv => False.elim hv

/-- **Every step keeps the invariant.** -/
theorem HeapOk.step (h : HeapOk s) (hg : KeepsReaders s l) (hs : s.step compact l = some s') :
    HeapOk s' := by
  cases l with
  | read r => exact h.readStep hg hs
  | append w => exact h.appendStep hs
  | compacter => exact h.compacterStep hg hs
  | call r key =>
    simp only [VersionHeap.step] at hs
    split at hs
    · cases hs; exact h.read (.setReader _) rfl fun _ hv => False.elim hv
    · cases hs
  | freeze w list =>
    simp only [VersionHeap.step] at hs
    split at hs
    · cases hs; exact h.freeze
    · cases hs

/-- **A reader's version stays alive** in a run in which no read of `Current()` falls between the
`Unref` and the `Ref` of `AppendVersion`, and no `Unref` during a read of its version. -/
theorem readers_alive (hx : (machine compact).Exec KeepsReaders start hist s) : ReadersAlive s :=
  (hx.invariant start_ok fun _ _ _ hi hg hs => hi.step hg hs).readersAlive

/-- **Nothing less is enough**: the first step of a run that does not meet the condition leaves a
reader with a version that has been released. -/
theorem not_alive_of_not_keeps (hx : (machine compact).Exec KeepsReaders start hist s)
    (hs : s.step compact l = some s') (hg : ¬ KeepsReaders s l) : ¬ ReadersAlive s' := by
  have h : HeapOk s := hx.invariant start_ok fun _ _ _ hi hg hs => hi.step hg hs
  intro hal
  cases l with
  | call | freeze | append => exact hg trivial
  | read r =>
    simp only [KeepsReaders, Classical.not_imp, not_not] at hg
    obtain ⟨⟨key, hr⟩, hsw⟩ := hg
    simp only [VersionHeap.step, readStep, hr, Option.some.injEq] at hs
    subst hs
    have h1 := (hal r s.current_ (by simp [setReader, Reading])).1
    have h0 : (s.version s.current_).ref_ = 0 := h.swap.dead hsw
    rw [show (s.setReader r (.fetched key s.current_)).version = s.version from rfl, h0] at h1
    cases h1
  | compacter =>
    simp only [KeepsReaders, Classical.not_imp, not_forall, not_not] at hg
    obtain ⟨⟨v, hc⟩, r, hr⟩ := hg
    have hsw := h.swap
    rw [hc] at hsw
    obtain ⟨ha, hu⟩ : s.CurrentAlive ∧ s.Unshared v := hsw
    simp only [VersionHeap.step, compacterStep, hc, Option.ite_none_right_eq_some,
      Option.some.injEq] at hs
    obtain ⟨-, rfl⟩ := hs
    have h1 := (hal r s.current_ hr).1
    simp [setVersion, ha.1] at h1

/-! ## Two runs -/

/-- Writer 0 freezes ten lists and the compacter comes to the `Ref` of the next version. -/
def fillAndSwap : List (Label (Fin 1)) :=
  (List.range 10).flatMap (fun _ => [.freeze 0 .empty, .append 0]) ++ List.replicate 17 .compacter

instance (pc : SwapPc) : Decidable (Swapping pc) :=
  match pc with
  | .release _ _ | .install _ | .ref _ => instDecidableTrue
  | .test | .compact | .apply _ | .unref _ | .broadcast => instDecidableFalse

instance (pc : ReadPc) (v : ℕ) : Decidable (Reading pc v) :=
  match pc with
  | .fetched _ v' | .lists _ v' _ | .files _ v' => inferInstanceAs (Decidable (v' = v))
  | .idle | .current _ | .done _ => instDecidableFalse

instance (s : VersionHeap (Fin 1)) (l : Label (Fin 1)) : Decidable (KeepsReaders s l) :=
  match l with
  | .call _ _ | .freeze _ _ | .append _ => instDecidableTrue
  | .read r => decidable_of_iff
      ((match s.reader r with | .current _ => true | _ => false) = true → ¬ Swapping s.compacter)
      ⟨fun hd ⟨_, h⟩ => hd (by rw [h]), fun hd h => by
        cases hr : s.reader r with
        | current key => exact hd ⟨key, hr⟩
        | _ => rw [hr] at h; cases h⟩
  | .compacter => decidable_of_iff
      ((match s.compacter with | .unref _ => true | _ => false) = true →
        ∀ r, ¬ Reading (s.reader r) s.current_)
      ⟨fun hd ⟨_, h⟩ => hd (by rw [h]), fun hd h => by
        cases hc : s.compacter with
        | unref v => exact hd ⟨v, hc⟩
        | _ => rw [hc] at h; cases h⟩

/-- A call that reads the version after the compaction has put it in place. -/
theorem readers_alive_fillAndSwap : ∃ hist s,
    (machine (VersionSet.noTable SkipList)).Exec KeepsReaders (start : VersionHeap (Fin 1)) hist s ∧
      Reading (s.reader 0) 1 ∧ ReadersAlive s := by
  have hr : ((machine (VersionSet.noTable SkipList)).exec KeepsReaders start
      (fillAndSwap ++ [.call 0 [], .read 0])).map (fun r => decide (Reading (r.2.reader 0) 1)) =
      some true := by decide +kernel
  obtain ⟨hist, s, hx, hread⟩ := Machine.exec_check hr
  exact ⟨hist, s, hx, hread, readers_alive hx⟩

/-- **A compaction releases the version that a call has just read from `Current()`**, and its
lists. -/
theorem reader_dead : ∃ hist s,
    (machine (VersionSet.noTable SkipList)).Exec Machine.Any (start : VersionHeap (Fin 1)) hist s ∧
      ¬ ReadersAlive s ∧ Reading (s.reader 0) 0 ∧ (s.version 0).ref_ = 0 ∧ ¬ s.ListsAlive 0 := by
  have hr : ((machine (VersionSet.noTable SkipList)).exec Machine.Any (start : VersionHeap (Fin 1))
      ([.call 0 [], .read 0] ++ fillAndSwap)).map (fun r => (decide (Reading (r.2.reader 0) 0),
        (r.2.version 0).ref_, (r.2.version 0).version.list_ 0, (r.2.list 0).ref_)) =
      some (true, 0, List.range 10, 0) := by decide +kernel
  obtain ⟨r, hr, he⟩ := Option.map_eq_some_iff.1 hr
  simp only [Prod.mk.injEq] at he
  obtain ⟨h1, h2, h3, h4⟩ := he
  have hread : Reading (r.2.reader 0) 0 := of_decide_eq_true h1
  refine ⟨r.1, r.2, Machine.exec_sound hr, fun h => ?_, hread, h2, fun h => ?_⟩
  · have := (h 0 0 hread).1
    omega
  · have := h 0 0 (by rw [h3]; decide)
    omega

end VersionHeap

end Yangkv
