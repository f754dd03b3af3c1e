import Yangkv.Lib.Arc
import Yangkv.Proof.FailedCompaction
import Yangkv.Proof.Start
import Yangkv.Proof.VersionCounts

/-!
# The names of table files over many starts

`compact` numbers its files from what `file_seq_num_` happens to hold at a start, modulo
2 ^ 32.

* `starts`: of each start, this value and how many files it has named and created.
* `Inv.next`: what a step does to the names and to the numbers in the current version.
* `never_overwritten_iff`: no name comes a second time if and only if every start stops
  counting before it comes to where another one began.
-/

namespace Yangkv

open Lib

theorem tableFileName_inj {i j : ℕ} (h : tableFileName i = tableFileName j) : i = j := by
  have hdigits : ∀ n : ℕ, (toString n).toList = Nat.toDigits 10 n := fun n => Nat.toList_repr
  have hlist := congrArg String.toList h
  unfold tableFileName at hlist
  rw [String.toList_append, String.toList_append, hdigits, hdigits] at hlist
  exact toDigits_inj (List.append_cancel_left hlist)

namespace Compacter

variable {h : List Event} {s s' : Option Process} {p : Process}

/-- A start of the store: where it counts from, how many names it has passed to `NewWritableFile`,
and how many of these files were created. -/
structure StartCount where
  file_seq_num_ : ℕ
  passed : ℕ
  created : ℕ

/-- One more event, in the counts from the last start back to the first one. -/
def count : List StartCount → Event → List StartCount
  | cs, .started file_seq_num_ => ⟨file_seq_num_.toNat, 0, 0⟩ :: cs
  | c :: cs, .opened _ created =>
    ⟨c.file_seq_num_, c.passed + 1, c.created + created.toNat⟩ :: cs
  | [], .opened _ _ => []

/-- The starts of a history, the last one first. -/
def starts (h : List Event) : List StartCount := h.foldl count []

/-- Once a file has been created, its name is not passed to `NewWritableFile` again. -/
def NeverOverwritten (h : List Event) : Prop :=
  h.Pairwise fun e e' => ∀ fname created, e = .opened fname true → e' ≠ .opened fname created

/-- The numbers of the files that a version lists. -/
def numbers (v : Version SkipList) : List ℕ :=
  ((List.finRange kMaxLevel).flatMap v.files_).map (·.number)

/-- Each of the starts stops counting before it comes to where the other one began, or it makes no
file. -/
def Apart (later earlier : StartCount) : Prop :=
  earlier.created = 0 ∨ later.passed = 0 ∨
    earlier.created ≤ ahead (2 ^ 32) earlier.file_seq_num_ later.file_seq_num_ ∧
      later.passed ≤ ahead (2 ^ 32) later.file_seq_num_ earlier.file_seq_num_

/-- The numbers that a start has given out. -/
def StartCount.given (c : StartCount) : List ℕ := arc (2 ^ 32) c.file_seq_num_ c.passed

def StartCount.files (c : StartCount) : List ℕ := arc (2 ^ 32) c.file_seq_num_ c.created

/-- No start gives out a number of its own or of a file of an earlier start. -/
def Fresh (cs : List StartCount) : Prop :=
  (∀ c ∈ cs, c.given.Nodup) ∧ cs.Pairwise fun later earlier => earlier.files.Disjoint later.given

/-- What holds after every run. -/
structure Inv (h : List Event) (s : Option Process) : Prop where
  lt : ∀ c ∈ starts h, c.file_seq_num_ < 2 ^ 32
  created : ∀ n, .opened (tableFileName n) true ∈ h ↔ ∃ c ∈ starts h, n ∈ c.files
  process : ∀ p ∈ s, ∃ c cs, starts h = c :: cs ∧ c.created = c.passed ∧
    p.compacter_.file_seq_num_ = (c.file_seq_num_ + c.passed) % 2 ^ 32 ∧
    (numbers p.current_).Perm c.given
  fresh : NeverOverwritten h ↔ Fresh (starts h)

/-! ## Steps -/

theorem starts_snoc (e : Event) : starts (h ++ [e]) = count (starts h) e := by
  unfold starts
  rw [List.foldl_append]
  rfl

theorem numbers_withTable {v : Version SkipList} {f : FileMetaData} :
    (numbers (withTable v f)).Perm (numbers v ++ [f.number]) := by
  have hperm := VersionList.flatMap_update_perm (List.nodup_finRange kMaxLevel)
    (List.mem_finRange (0 : Fin kMaxLevel)) v.files_ f
  have hmap := hperm.map (·.number)
  rw [List.map_append] at hmap
  exact hmap

/-- The number that is given becomes the number in the metadata. -/
theorem buildTable_number {lists : Fin kMaxWriter → List SkipList} {file file' : WritableFile}
    {number : ℕ} {metadata : FileMetaData}
    (hb : buildTable lists file number = some (file', metadata)) : metadata.number = number := by
  unfold buildTable at hb
  simp only [Option.bind_eq_bind, Option.bind_eq_some_iff, Prod.exists] at hb
  obtain ⟨_, _, _, _, _, _, _, _, _, hb⟩ := hb
  split at hb
  · split at hb
    · cases hb
    · cases hb
      rfl
  · cases hb
    rfl

theorem roundEnv_number {c c' : Compacter} {v v' : Version SkipList} {opened : Option WritableFile}
    {file' : WritableFile} (hr : c.roundEnv v opened = some (c', file', v')) :
    opened.isSome = true ∧ c'.file_seq_num_ = (c.file_seq_num_ + 1) % 2 ^ 32 ∧
      (numbers v').Perm (numbers v ++ [(c.file_seq_num_ + 1) % 2 ^ 32]) := by
  rw [roundEnv_eq] at hr
  obtain ⟨⟨st, file, metadata⟩, hb, heq⟩ := Option.map_eq_some_iff.1 hr
  simp only [Prod.mk.injEq] at heq
  obtain ⟨rfl, rfl, rfl⟩ := heq
  unfold buildTableEnv at hb
  obtain ⟨file₀, hopened, hb⟩ := Option.bind_eq_some_iff.1 hb
  obtain ⟨⟨file₁, metadata₁⟩, hbuilt, heq⟩ := Option.bind_eq_some_iff.1 hb
  cases heq
  refine ⟨by rw [hopened]; rfl, rfl, ?_⟩
  rw [← buildTable_number hbuilt]
  exact numbers_withTable

theorem neverOverwritten_snoc {e : Event} : NeverOverwritten (h ++ [e]) ↔
    NeverOverwritten h ∧ ∀ fname created, e = .opened fname created → .opened fname true ∉ h := by
  unfold NeverOverwritten
  rw [List.pairwise_append]
  constructor
  · rintro ⟨hpair, -, hlast⟩
    refine ⟨hpair, fun fname created he hin => ?_⟩
    exact hlast _ hin e (List.mem_singleton_self e) fname created rfl he
  · rintro ⟨hpair, hnew⟩
    refine ⟨hpair, List.pairwise_singleton _ e, fun e₀ he₀ e₁ he₁ fname created hcreated => ?_⟩
    rw [List.mem_singleton.1 he₁]
    exact fun he => hnew fname created he (hcreated ▸ he₀)

/-- One more number of the last start. -/
theorem fresh_next {c c' : StartCount} {cs : List StartCount}
    (hsame : c'.file_seq_num_ = c.file_seq_num_) (hpassed : c'.passed = c.passed + 1)
    (hall : c.created = c.passed) : Fresh (c' :: cs) ↔ Fresh (c :: cs) ∧
      ∀ e ∈ c :: cs, (c.file_seq_num_ + 1 + c.passed) % 2 ^ 32 ∉ e.files := by
  set n := (c.file_seq_num_ + 1 + c.passed) % 2 ^ 32 with hn
  have hgiven : c'.given = c.given ++ [n] := by
    unfold StartCount.given
    rw [hsame, hpassed, arc_succ]
  have hfiles : c.files = c.given := by
    unfold StartCount.files StartCount.given
    rw [hall]
  have hself : (c.given ++ [n]).Nodup ↔ c.given.Nodup ∧ n ∉ c.given := by
    rw [List.nodup_append]
    constructor
    · rintro ⟨hnodup, -, hne⟩
      exact ⟨hnodup, fun hin => hne n hin n (List.mem_singleton_self n) rfl⟩
    · rintro ⟨hnodup, hnot⟩
      refine ⟨hnodup, List.nodup_singleton n, fun x hx y hy hxy => hnot ?_⟩
      rw [← List.mem_singleton.1 hy, ← hxy]
      exact hx
  have hother : ∀ e : StartCount, e.files.Disjoint (c.given ++ [n]) ↔
      e.files.Disjoint c.given ∧ n ∉ e.files := by
    intro e
    rw [List.disjoint_append_right, List.disjoint_singleton]
  unfold Fresh
  simp only [List.forall_mem_cons, List.pairwise_cons, hgiven, hself, hother, hfiles]
  constructor
  · rintro ⟨⟨⟨hnodup, hnot⟩, hrest⟩, hdisj, hpair⟩
    exact ⟨⟨⟨hnodup, hrest⟩, fun e he => (hdisj e he).1, hpair⟩, hnot, fun e he => (hdisj e he).2⟩
  · rintro ⟨⟨⟨hnodup, hrest⟩, hdisj, hpair⟩, hnot, hnots⟩
    exact ⟨⟨⟨hnodup, hnot⟩, hrest⟩, fun e he => ⟨hdisj e he, hnots e he⟩, hpair⟩

theorem Inv.start (hi : Inv h s) (v : UInt32) :
    Inv (h ++ [.started v]) (some ⟨⟨v.toNat⟩, Version.new⟩) := by
  have hstarts : starts (h ++ [.started v]) = ⟨v.toNat, 0, 0⟩ :: starts h := starts_snoc _
  have hlt : v.toNat < 2 ^ 32 := v.toNat_lt
  constructor
  case lt =>
    rw [hstarts]
    exact List.forall_mem_cons.2 ⟨hlt, hi.lt⟩
  case created =>
    intro n
    rw [hstarts, List.mem_append, hi.created]
    simp [StartCount.files]
  case process =>
    rintro p ⟨⟩
    refine ⟨_, _, hstarts, rfl, (Nat.mod_eq_of_lt hlt).symm, ?_⟩
    have hnil : numbers Version.new = [] := by decide
    rw [hnil]
    exact .nil
  case fresh =>
    rw [hstarts, neverOverwritten_snoc, hi.fresh]
    unfold Fresh
    simp [StartCount.given]

/-- **A compaction** passes the next number; `s'` is none when it crashes. -/
theorem Inv.compact (hi : Inv h (some p)) {created : Bool}
    (hs' : ∀ p' ∈ s', created = true ∧
      p'.compacter_.file_seq_num_ = (p.compacter_.file_seq_num_ + 1) % 2 ^ 32 ∧
      (numbers p'.current_).Perm
        (numbers p.current_ ++ [(p.compacter_.file_seq_num_ + 1) % 2 ^ 32])) :
    Inv (h ++ [.opened (tableFileName ((p.compacter_.file_seq_num_ + 1) % 2 ^ 32)) created]) s' := by
  obtain ⟨c, cs, hstarts, hall, hvalue, hnumbers⟩ := hi.process p rfl
  set n := (c.file_seq_num_ + 1 + c.passed) % 2 ^ 32 with hn
  have hnext : (p.compacter_.file_seq_num_ + 1) % 2 ^ 32 = n := by
    rw [hvalue, hn]
    omega
  rw [hnext] at hs' ⊢
  set c' : StartCount := ⟨c.file_seq_num_, c.passed + 1, c.created + created.toNat⟩ with hc'
  have hstarts' : starts (h ++ [.opened (tableFileName n) created]) = c' :: cs := by
    rw [starts_snoc, hstarts]
    rfl
  have hlt := hi.lt
  rw [hstarts] at hlt
  constructor
  case lt =>
    rw [hstarts']
    exact List.forall_mem_cons.2 (List.forall_mem_cons.1 hlt)
  case created =>
    intro m
    have hfiles : m ∈ c'.files ↔ m ∈ c.files ∨ created = true ∧ m = n := by
      unfold StartCount.files
      cases created with
      | false => simp [hc']
      | true =>
        have hone : c'.created = c.created + 1 := rfl
        rw [hone, arc_succ, List.mem_append, List.mem_singleton, hn, hall]
        simp [hc']
    have hlast : Event.opened (tableFileName m) true = .opened (tableFileName n) created ↔
        created = true ∧ m = n := by
      simp only [Event.opened.injEq]
      exact ⟨fun e => ⟨e.2.symm, tableFileName_inj e.1⟩, fun e => ⟨by rw [e.2], e.1.symm⟩⟩
    rw [List.mem_append, hi.created, hstarts, hstarts', List.mem_singleton, hlast,
      List.exists_mem_cons_iff, List.exists_mem_cons_iff, hfiles]
    exact or_right_comm
  case process =>
    intro p' hp'
    obtain ⟨rfl, hvalue', hnumbers'⟩ := hs' p' hp'
    refine ⟨c', cs, hstarts', ?_, ?_, ?_⟩
    · rw [hc']
      dsimp only
      rw [hall]
      rfl
    · rw [hvalue', hn, hc']
      dsimp only
      congr 1
      omega
    · have hgiven : c'.given = c.given ++ [n] := arc_succ
      rw [hgiven]
      exact hnumbers'.trans (hnumbers.append_right _)
  case fresh =>
    have hfresh : Fresh (c' :: cs) ↔ Fresh (c :: cs) ∧ ∀ e ∈ c :: cs, n ∉ e.files :=
      fresh_next rfl rfl hall
    rw [hstarts', hfresh, neverOverwritten_snoc, hi.fresh, hstarts]
    refine and_congr_right fun _ => ?_
    have hnot : .opened (tableFileName n) true ∉ h ↔ ∀ e ∈ c :: cs, n ∉ e.files := by
      rw [hi.created, hstarts]
      push Not
      rfl
    rw [← hnot]
    constructor
    · exact fun hall => hall _ _ rfl
    · intro hnot fname b he
      cases he
      exact hnot

/-- **Every step** keeps the invariant. -/
theorem Inv.next (hi : Inv h s) {l : Label} (hs : machine.step s l = some s') :
    Inv (h ++ (machine.event s l).toList) s' := by
  cases l with
  | start v =>
    cases hs
    exact hi.start v
  | append list idx =>
    obtain ⟨p, rfl, rfl⟩ := Option.map_eq_some_iff.1 hs
    have hnone : (machine.event (some p) (.append list idx)).toList = [] := rfl
    rw [hnone, List.append_nil]
    refine ⟨hi.lt, hi.created, ?_, hi.fresh⟩
    rintro p' ⟨⟩
    exact hi.process p rfl
  | compact opened =>
    obtain ⟨p, rfl, hround⟩ := Option.bind_eq_some_iff.1 hs
    by_cases hfull : p.current_.isFull = true
    · rw [if_pos hfull, Option.some.injEq] at hround
      refine hi.compact fun p' hp' => ?_
      rw [← hround] at hp'
      obtain ⟨⟨c', file', v'⟩, hr, rfl⟩ := Option.map_eq_some_iff.1 hp'
      exact roundEnv_number hr
    · rw [if_neg hfull] at hround
      cases hround

theorem inv_of_exec (hx : machine.Exec Machine.Any none h s) : Inv h s := by
  refine hx.induct (I := Inv) ?_ fun _ _ _ _ hi _ hs => hi.next hs
  constructor
  case lt => exact fun c hc => (List.not_mem_nil hc).elim
  case created =>
    intro n
    simp [starts]
  case process => exact fun p hp => (Option.not_mem_none p hp).elim
  case fresh => exact ⟨fun _ => ⟨fun c hc => (List.not_mem_nil hc).elim, .nil⟩, fun _ => .nil⟩

/-! ## Whole runs -/

theorem fresh_iff {cs : List StartCount} (hlt : ∀ c ∈ cs, c.file_seq_num_ < 2 ^ 32) :
    Fresh cs ↔ (∀ c ∈ cs, c.passed ≤ 2 ^ 32) ∧ cs.Pairwise Apart := by
  unfold Fresh StartCount.given StartCount.files Apart
  have hnodup : ∀ c ∈ cs, (arc (2 ^ 32) c.file_seq_num_ c.passed).Nodup ↔ c.passed ≤ 2 ^ 32 :=
    fun c _ => arc_nodup_iff (by decide)
  refine and_congr (forall₂_congr hnodup) ?_
  exact List.Pairwise.iff_of_mem fun {c e} hc he => arc_disjoint_iff (hlt e he) (hlt c hc)

/-- **No table file is overwritten, and the numbers in a version are distinct**, if and only if no
start gives out more than 2 ^ 32 numbers and each start stops before it comes, modulo 2 ^ 32, to where
another one began. -/
theorem never_overwritten_iff (hx : machine.Exec Machine.Any none h s) :
    (NeverOverwritten h ∧ ∀ p ∈ s, (numbers p.current_).Nodup) ↔
      (∀ c ∈ starts h, c.passed ≤ 2 ^ 32) ∧ (starts h).Pairwise Apart := by
  have hi := inv_of_exec hx
  rw [← fresh_iff hi.lt]
  constructor
  · exact fun hgood => hi.fresh.1 hgood.1
  · intro hfresh
    refine ⟨hi.fresh.2 hfresh, fun p hp => ?_⟩
    obtain ⟨c, cs, hstarts, -, -, hnumbers⟩ := hi.process p hp
    have hc := hfresh.1 c (hstarts ▸ List.mem_cons_self)
    exact hnumbers.nodup_iff.2 hc

/-- Two starts whose `file_seq_num_` holds `v` and `v'`, each with the compaction of a full version. -/
def twoStarts (v v' : UInt32) : List Label :=
  let compaction := (List.range kMaxFrozenList).map (fun i => .append (tenKeys (1 + 10 * i)) 2) ++
    [.compact (some (.create [] [] []))]
  .start v :: compaction ++ .start v' :: compaction

/-- What they show. -/
def twoNames (v v' : UInt32) : List Event :=
  [.started v, .opened (tableFileName ((v.toNat + 1) % 2 ^ 32)) true,
    .started v', .opened (tableFileName ((v'.toNat + 1) % 2 ^ 32)) true]

theorem never_overwritten_iff_apart :
    ∃ s, machine.Exec Machine.Any none (twoNames 0 5) s ∧ NeverOverwritten (twoNames 0 5) ∧
      ∀ p ∈ s, (numbers p.current_).Nodup := by
  have hr : (machine.exec Machine.Any none (twoStarts 0 5)).map Prod.fst = some (twoNames 0 5) := by
    decide +kernel
  obtain ⟨s, hx⟩ := Machine.exec_history hr
  have hstarts : starts (twoNames 0 5) = [⟨5, 1, 1⟩, ⟨0, 1, 1⟩] := rfl
  refine ⟨s, hx, (never_overwritten_iff hx).2 ?_⟩
  rw [hstarts]
  refine ⟨by decide, List.pairwise_pair.2 (.inr (.inr ?_))⟩
  unfold ahead
  decide

/-- **The second start truncates the table file of the first one** where both begin with 0. -/
theorem table_overwritten :
    (∃ s, machine.Exec Machine.Any none (twoNames 0 0) s) ∧ ¬ NeverOverwritten (twoNames 0 0) := by
  have hr : (machine.exec Machine.Any none (twoStarts 0 0)).map Prod.fst = some (twoNames 0 0) := by
    decide +kernel
  refine ⟨Machine.exec_history hr, fun hnever => ?_⟩
  have hrest := (List.pairwise_cons.1 hnever).2
  have hfirst := (List.pairwise_cons.1 hrest).1 (twoNames 0 0)[3] (by decide)
  exact hfirst _ true rfl rfl

end Compacter

end Yangkv
