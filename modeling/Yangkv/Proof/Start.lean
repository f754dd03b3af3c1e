import Yangkv.Proof.Recovery
import Yangkv.Proof.Steps
import Yangkv.Spec.History

/-!
# What a start does with the directory

* `logFileName_inj`: a file name tells its writer and its number, so that the logs
  of two writers, and of two starts, are different files.
* `getLogID_eq`: `getLogID` finds the first number behind the logs there are.
* `construct_same`, `construct_replays`: the constructor leaves its new log as it was
  opened; the queue holds the records of the old ones, and their largest number.
-/

namespace Yangkv

open Lib

/-! ## File names -/

theorem append_sep_inj {α : Type*} {c : α} : ∀ {xs xs' ys ys' : List α}, c ∉ xs → c ∉ xs' →
    xs ++ c :: ys = xs' ++ c :: ys' → xs = xs' ∧ ys = ys' := by
  intro xs
  induction xs with
  | nil =>
    intro xs' ys ys' _ h h1
    cases xs' with
    | nil => simpa using h1
    | cons x xs' =>
      rw [List.nil_append, List.cons_append, List.cons.injEq] at h1
      exact absurd (h1.1 ▸ List.mem_cons_self) h
  | cons x xs ih =>
    intro xs' ys ys' h h' h1
    cases xs' with
    | nil =>
      rw [List.nil_append, List.cons_append, List.cons.injEq] at h1
      exact absurd (h1.1 ▸ List.mem_cons_self) h
    | cons x' xs' =>
      rw [List.cons_append, List.cons_append, List.cons.injEq] at h1
      obtain ⟨rfl, h1⟩ := h1
      obtain ⟨rfl, rfl⟩ := ih (fun hm => h (List.mem_cons_of_mem _ hm))
        (fun hm => h' (List.mem_cons_of_mem _ hm)) h1
      exact ⟨rfl, rfl⟩

theorem toDigits_inj {i j : ℕ} (h : Nat.toDigits 10 i = Nat.toDigits 10 j) : i = j := by
  rw [← Nat.ofDigitChars_ten_toDigits (n := i), h, Nat.ofDigitChars_ten_toDigits]

theorem toList_logFileName (i w : ℕ) : (logFileName i w).toList =
    "yang_log_writer_".toList ++ (Nat.toDigits 10 w ++ '_' :: Nat.toDigits 10 i) := by
  have h1 : ∀ n : ℕ, (toString n).toList = Nat.toDigits 10 n := fun n => Nat.toList_repr
  have h2 : "_".toList = ['_'] := by decide
  unfold logFileName
  rw [String.toList_append, String.toList_append, String.toList_append, h1, h1, h2,
    List.append_assoc, List.append_assoc, List.singleton_append]

/-- **A log file name tells its writer and its number.** -/
theorem logFileName_inj {i j w w' : ℕ} (h : logFileName i w = logFileName j w') : i = j ∧ w = w' := by
  have h1 := congrArg String.toList h
  rw [toList_logFileName, toList_logFileName] at h1
  have h2 := List.append_cancel_left h1
  obtain ⟨hw, hi⟩ := append_sep_inj Nat.underscore_not_in_toDigits Nat.underscore_not_in_toDigits h2
  exact ⟨toDigits_inj hi, toDigits_inj hw⟩

theorem getLogID_eq {disk : Disk} {w m : ℕ} (h1 : ∀ i, 1 ≤ i → i ≤ m → (disk (logFileName i w)).isSome)
    (h2 : disk (logFileName (m + 1) w) = none) : ∀ {fuel i id : ℕ}, 1 ≤ i → i ≤ m + 1 →
    getLogID disk w i fuel = some id → id = m + 1 := by
  intro fuel
  induction fuel with
  | zero => intro i id _ _ h; cases h
  | succ fuel ih =>
    intro i id hi hle h
    unfold getLogID at h
    split at h
    · rename_i hs
      refine ih (Nat.succ_le_succ (Nat.zero_le _)) ?_ h
      rcases Nat.lt_or_ge i (m + 1) with hlt | hge
      · exact hlt
      · rw [show i = m + 1 by omega, h2] at hs; cases hs
    · rename_i hs
      cases h
      by_contra hne
      exact hs (h1 i hi (by omega))

theorem getLogID_none {disk : Disk} {w : ℕ} : ∀ {fuel i id : ℕ}, getLogID disk w i fuel = some id →
    disk (logFileName id w) = none := by
  intro fuel
  induction fuel with
  | zero => intro i id h; cases h
  | succ fuel ih =>
    intro i id h
    unfold getLogID at h
    split at h
    · exact ih h
    · rename_i hs
      cases h
      exact Option.not_isSome_iff_eq_none.1 hs

/-! ## The constructor -/

namespace MessageQueue

/-- What the replay leaves as it is. -/
def SameLog {σ : Type} (q q' : MessageQueue σ) : Prop :=
  q'.log_ = q.log_ ∧ q'.logid_ = q.logid_ ∧ q'.ring.rd = q.ring.rd

theorem SameLog.trans {σ : Type} {q q' q'' : MessageQueue σ} (h : SameLog q q')
    (h' : SameLog q' q'') : SameLog q q'' :=
  ⟨h'.1.trans h.1, h'.2.1.trans h.2.1, h'.2.2.trans h.2.2⟩

theorem pushReplayed_same {σ : Type} {q q' : MessageQueue σ} {e : MemEntry σ} {fuel : ℕ}
    (h : q.pushReplayed e fuel = some q') : SameLog q q' := by
  induction fuel with
  | zero => cases h
  | succ fuel ih =>
    unfold pushReplayed at h
    split at h
    · exact ih h
    · obtain ⟨hf, rfl⟩ := advance_some h
      exact ⟨rfl, rfl, rfl⟩

theorem replay_same {file : ℕ} : ∀ {fuel : ℕ} {rd rd' : Reader} {q q' : MessageQueue BufView},
    replay file fuel rd q = some (rd', q') → SameLog q q' := by
  intro fuel
  induction fuel with
  | zero => intro rd rd' q q' h; cases h
  | succ fuel ih =>
    intro rd rd' q q' h
    rw [replay] at h
    split at h
    · cases h; exact ⟨rfl, rfl, rfl⟩
    · simp only [Option.bind_eq_bind, Option.bind_eq_some_iff, Prod.exists] at h
      obtain ⟨v, rd₁, -, q₁, h2, h3⟩ := h
      exact (pushReplayed_same h2).trans (ih h3)

theorem replayLogs_same {fuel : ℕ} {files : ℕ → Option Bytes} : ∀ {is : List ℕ}
    {q q' : MessageQueue BufView} {bufs bufs' : ℕ → Bytes},
    replayLogs fuel files is (q, bufs) = some (q', bufs') → SameLog q q' := by
  intro is
  induction is with
  | nil => intro q q' bufs bufs' h; cases h; exact ⟨rfl, rfl, rfl⟩
  | cons i is ih =>
    intro q q' bufs bufs' h
    simp only [replayLogs, Option.bind_eq_bind, Option.bind_eq_some_iff, Prod.exists] at h
    obtain ⟨oldlog, -, rd, q₁, h2, h3⟩ := h
    exact (replay_same h2).trans (ih h3)

/-- **The constructor leaves its new log empty**, and is ready when it returns. -/
theorem construct_same {fuel : ℕ} {files : ℕ → Option Bytes} {logfile : WritableFile}
    {slots : ℕ → MemEntry BufView} {scratch bufs : ℕ → Bytes} {writerID logID : ℕ}
    {q : MessageQueue BufView}
    (h : construct fuel files logfile slots scratch writerID logID = some (q, bufs)) :
    q.log_ = logfile ∧ q.logid_ = logID ∧ q.ring.rd = 1 ∧ q.ready_ = true := by
  simp only [construct, Option.bind_eq_bind, Option.bind_eq_some_iff, Option.some.injEq,
    Prod.exists, Prod.mk.injEq] at h
  obtain ⟨q₁, bufs₁, h1, rfl, -⟩ := h
  obtain ⟨h2, h3, h4⟩ := replayLogs_same h1
  exact ⟨h2, h3, h4, rfl⟩

/-- More fuel does not change what the constructor makes. -/
theorem replayLogs_mono {files : ℕ → Option Bytes} {fuel fuel' : ℕ} (hle : fuel ≤ fuel') :
    ∀ {is : List ℕ} {s r : MessageQueue BufView × (ℕ → Bytes)},
    replayLogs fuel files is s = some r → replayLogs fuel' files is s = some r := by
  intro is
  induction is with
  | nil => intro s r h; exact h
  | cons i is ih =>
    rintro ⟨q, bufs⟩ r h
    simp only [replayLogs, Option.bind_eq_bind, Option.bind_eq_some_iff, Prod.exists] at h ⊢
    obtain ⟨oldlog, h1, rd, q₁, h2, h3⟩ := h
    exact ⟨oldlog, h1, rd, q₁, replay_mono hle h2, ih h3⟩

section

variable {files : ℕ → Option Bytes} {logfile : WritableFile} {slots : ℕ → MemEntry BufView}
  {scratch bufs : ℕ → Bytes} {writerID fuel : ℕ} {segs : List (List Entry)} {q : MessageQueue BufView}

theorem construct_returns {logID : ℕ}
    (h : construct fuel files logfile slots scratch writerID logID = some (q, bufs)) :
    Returns (fun fuel => construct fuel files logfile slots scratch writerID logID) (q, bufs) := by
  refine ⟨fuel, fun fuel' hle => ?_⟩
  simp only [construct, Option.bind_eq_bind, Option.bind_eq_some_iff] at h ⊢
  obtain ⟨r, h1, h2⟩ := h
  exact ⟨r, replayLogs_mono hle h1, h2⟩

/-- **What the constructor has made when it returns**: a slot for every record. -/
theorem construct_replays (hfit : ∀ es ∈ segs, ∀ e ∈ es, e.Readable) (hlog : LogsAt files 1 segs)
    (h : construct fuel files logfile slots scratch writerID (segs.length + 1) = some (q, bufs)) :
    q.contents = viewsFrom 1 segs ∧ q.max_id_ = maxSeq segs.flatten 0 := by
  rcases Nat.lt_or_ge kQueueSize segs.flatten.length with hlt | hroom
  · exact absurd (construct_returns h)
      ((construct_stuck logfile slots scratch writerID hfit hlog hlt).not_returns _)
  · obtain ⟨q', h1, h2, h3, -⟩ := construct_ok logfile slots scratch writerID hfit hlog hroom
    obtain ⟨rfl, -⟩ := Prod.mk.inj (h1.unique (construct_returns h))
    exact ⟨h2, h3⟩

end

end MessageQueue

/-- The number and the type of an entry. -/
def MemEntry.stamp {σ : Type} (e : MemEntry σ) : ℕ × Bool := (e.seq_num, e.value_type)

/-- The number and the type that the record of an entry gives back. -/
def MemEntry.storedStamp (e : Entry) : ℕ × Bool := (e.seq_num % 2 ^ 56, e.value_type)

theorem stamp_viewsFrom : ∀ (segs : List (List Entry)) (i : ℕ),
    (viewsFrom i segs).map MemEntry.stamp = segs.flatten.map MemEntry.storedStamp := by
  intro segs
  induction segs with
  | nil => intro i; rfl
  | cons es segs ih =>
    intro i
    rw [viewsFrom, List.map_append, ih, List.flatten_cons, List.map_append]
    congr 1
    rw [viewsIn, List.map_map]
    rfl

/-- Reading the slots changes no number and no type. -/
theorem stamp_resolve (bufs : ℕ → Bytes) (q : MessageQueue BufView) :
    (q.resolve bufs).contents.map MemEntry.stamp = q.contents.map MemEntry.stamp := by
  have h : (q.resolve bufs).contents =
      q.contents.map fun v => v.map fun w => w.view.read (bufs w.file) := Ring.contents_map _
  rw [h, List.map_map]
  rfl

/-- The largest number of the records is not below any of them. -/
theorem le_maxSeq {es : List Entry} {e : Entry} (he : e ∈ es) : ∀ m,
    e.seq_num % 2 ^ 56 ≤ maxSeq es m := by
  have hmono : ∀ (es : List Entry) m, m ≤ maxSeq es m := by
    intro es
    induction es with
    | nil => intro m; exact le_rfl
    | cons e es ih => intro m; exact le_trans (Nat.le_max_left _ _) (ih _)
  induction es with
  | nil => cases he
  | cons x es ih =>
    intro m
    rcases List.mem_cons.1 he with rfl | he
    · exact le_trans (Nat.le_max_right _ _) (hmono es _)
    · exact ih he _

end Yangkv
