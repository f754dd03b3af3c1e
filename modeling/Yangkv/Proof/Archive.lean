import Yangkv.Proof.Database
import Yangkv.Proof.FailedCompaction
import Yangkv.Proof.TableLookup

/-!
# Memory and tables together

`Version::Get` gathers the files that may hold a key and then reads none of them. What
it would find there is `readTables`.

* `Archived.step`: the files of the current version hold what is gone from memory, and
  a table under way holds the frozen lists.
* `nothing_lost`: memory and tables together have the newest value pushed for any key.
-/

namespace Yangkv

open Lib

/-! ## Reading the files of a version -/

/-- The value of a key in the last of the files that has one. -/
def searchTables (disk : Disk) (files : List FileMetaData) (key : Bytes) : Option Bytes :=
  files.reverse.findSome? fun f => (disk (tableFileName f.number)).bind (findInTable · key)

theorem searchTables_snoc (disk : Disk) (files : List FileMetaData) (f : FileMetaData) (key : Bytes) :
    searchTables disk (files ++ [f]) key =
      ((disk (tableFileName f.number)).bind (findInTable · key)).or
        (searchTables disk files key) := by
  unfold searchTables
  rw [List.reverse_append, List.reverse_singleton, List.singleton_append, List.findSome?_cons]
  cases (disk (tableFileName f.number)).bind (findInTable · key) <;> rfl

theorem searchTables_congr {disk disk' : Disk} {files : List FileMetaData} (key : Bytes)
    (h : ∀ f ∈ files, disk' (tableFileName f.number) = disk (tableFileName f.number)) :
    searchTables disk' files key = searchTables disk files key := by
  unfold searchTables
  induction files with
  | nil => rfl
  | cons f files ih =>
    have ih := ih fun f hf => h f (List.mem_cons_of_mem _ hf)
    simp only [List.reverse_cons, List.findSome?_append, List.findSome?_singleton, ih,
      h f List.mem_cons_self]

namespace Database

/-- What `search_list` leads to, the last file first. -/
def readTables (d : Database) (key : Bytes) : Option Bytes :=
  searchTables d.disk (d.store.current_.searchList key) key

/-- The value of a key in memory, or else in the tables. -/
def readAll (d : Database) (key : Bytes) : Option Bytes :=
  ((d.store.lookup (writerOf key) key).map (·.value.bytes)).or (d.readTables key)

/-! ## Steps that do the tables no harm -/

end Database

/-- Between `BuildTable` and `AppendVersion`. -/
def CompactPc.merging {L : Type} : CompactPc L → Bool
  | .apply _ _ | .appendVersion _ _ => true
  | _ => false

namespace Database

/-- What `NewWritableFile` gives is a new file that takes every write. -/
def Writable (disk : Disk) (fname : String) : Option WritableFile → Prop
  | some file => disk fname = none ∧ file = .create file.writes file.syncs file.closes ∧ file.NoFail
  | none => False

/-- The step of the compacter merges lists, if any, into a new file whose blocks are small. -/
def Merges (d : Database) (opened : Option WritableFile) : CompactPc SkipList → Prop
  | .compact => (MergeIterator.new d.store.current_.list_).size < 2 ^ 28 ∧
    SmallBlocks .default (keptCalls d.store.current_.list_) ∧
    Writable d.disk (tableFileName ((d.compacter_.file_seq_num_ + 1) % 2 ^ 32)) opened
  | _ => True

/-- A step within bounds, which freezes no list while others are merged, and merges them into a new
file that `ReadBlock` can read. -/
def CarefulStep (d : Database) (l : Label) : Prop :=
  SizedStep d l ∧ match l with
    | .store (.writer w) => d.writerEvent w = some (.appended w) → d.compacter.merging = false
    | .compacter opened => d.Merges opened d.compacter
    | _ => True

/-- The file of `f` has the newest values of the lists. -/
structure Filed (disk : Disk) (f : FileMetaData) (lists : Fin kMaxWriter → List SkipList) :
    Prop where
  contents : ∃ bytes, disk (tableFileName f.number) = some bytes ∧
    ∀ k, findInTable bytes k = (newest lists k).map (·.value.bytes)
  bounds : ∀ k, (newest lists k).isSome → f.mayInFile k = true

/-- The files hold the newest values of what is gone. -/
structure Archive (gone : Fin kMaxWriter → List Entry) (files : Fin kMaxLevel → List FileMetaData)
    (disk : Disk) : Prop where
  levels : ∀ lv, lv ≠ 0 → files lv = []
  opened : ∀ f ∈ files 0, (disk (tableFileName f.number)).isSome
  values : ∀ k, searchTables disk ((files 0).filter (·.mayInFile k)) k =
    (lastFor (·.key.bytes) k (gone (writerOf k))).map (·.value.bytes)

namespace Archive

variable {gone frozen : Fin kMaxWriter → List Entry} {files : Fin kMaxLevel → List FileMetaData}
  {disk : Disk} {f : FileMetaData} {lists : Fin kMaxWriter → List SkipList} {k : Bytes}

/-- With level 0 alone, `search_list` is its files that may hold the key. -/
theorem searchList (h : Archive gone files disk) {v : Version SkipList} (hv : v.files_ = files) :
    v.searchList k = (files 0).filter (·.mayInFile k) := by
  have hlevel : ∀ lv : Fin kMaxLevel, (if lv = 0 then (v.files_ lv).filter (·.mayInFile k)
      else ((v.files_ lv).filter (·.mayInFile k)).take 1) =
      if lv = 0 then (files 0).filter (·.mayInFile k) else [] := by
    intro lv
    rw [hv]
    split
    · rename_i h0
      rw [h0]
    · rename_i h0
      rw [h.levels lv h0]
      rfl
  unfold Version.searchList
  simp only [hlevel]
  exact List.append_nil _

/-- A new file leaves the others as they are. -/
theorem write (h : Archive gone files disk) {fname : String} (hn : disk fname = none) (bytes : Bytes) :
    Archive gone files (Function.update disk fname (some bytes)) := by
  have hother : ∀ f ∈ files 0, Function.update disk fname (some bytes) (tableFileName f.number) =
      disk (tableFileName f.number) := by
    intro f hf
    refine Function.update_of_ne ?_ _ _
    intro he
    have hsome := h.opened f hf
    rw [he, hn] at hsome
    cases hsome
  refine ⟨h.levels, fun f hf => ?_, fun k => ?_⟩
  · rw [hother f hf]
    exact h.opened f hf
  · rw [searchTables_congr k fun f hf => hother f (List.mem_of_mem_filter hf)]
    exact h.values k

/-- **A table for the frozen lists takes over what they held.** -/
theorem add (h : Archive gone files disk) (hf : Filed disk f lists)
    (hlists : ∀ k, newest lists k = lastFor (·.key.bytes) k (frozen (writerOf k))) :
    Archive (fun w => gone w ++ frozen w) (withFile files f) disk := by
  obtain ⟨bytes, hdisk, hfind⟩ := hf.contents
  have hzero : withFile files f 0 = files 0 ++ [f] := Function.update_self ..
  refine ⟨fun lv hlv => ?_, fun f' hf' => ?_, fun k => ?_⟩
  · rw [withFile, Function.update_of_ne hlv]
    exact h.levels lv hlv
  · rw [hzero] at hf'
    obtain hf' | hf' := List.mem_append.1 hf'
    · exact h.opened f' hf'
    · rw [List.mem_singleton.1 hf', hdisk]
      rfl
  · rw [hzero, List.filter_append, lastFor_append, ← hlists]
    cases hnew : newest lists k with
    | some e =>
      have hmay : f.mayInFile k = true := hf.bounds k (by rw [hnew]; rfl)
      rw [List.filter_singleton, hmay, cond_true, searchTables_snoc, hdisk, Option.bind_some, hfind,
        hnew]
      rfl
    | none =>
      rw [Option.none_or, ← h.values k]
      cases hmay : f.mayInFile k with
      | false => simp [hmay]
      | true =>
        rw [List.filter_singleton, hmay, cond_true, searchTables_snoc, hdisk, Option.bind_some, hfind,
          hnew]
        rfl

end Archive

/-- The current version is an archive of what is gone, and a table under way has the frozen lists. -/
structure Archived (g : Fin kMaxWriter → Generations Entry) (d : Database) : Prop where
  archive : Archive (fun w => (g w).gone) d.store.current_.files_ d.disk
  built : ∀ merged edit, d.compacter = .apply merged edit →
    ∃ f, edit = ⟨[(0, f)]⟩ ∧ Filed d.disk f d.store.current_.list_
  applied : ∀ merged v, d.compacter = .appendVersion merged v →
    ∃ f, v = Compacter.withTable d.store.current_ f ∧ Filed d.disk f d.store.current_.list_

variable {g g' : Fin kMaxWriter → Generations Entry} {d d' d₀ : Database} {w : Fin kMaxWriter}
  {opened : Option WritableFile} {hist : List Event} {k : Bytes}

theorem Archive.archived (h : Archive (fun w => (g w).gone) d.store.current_.files_ d.disk)
    (hc : d.compacter.merging = false) : Archived g d := by
  refine ⟨h, ?_, ?_⟩
  · intro merged edit hm
    rw [hm] at hc
    cases hc
  · intro merged v hm
    rw [hm] at hc
    cases hc

theorem Archived.readTables (h : Archived g d) : d.readTables k =
    (lastFor (·.key.bytes) k (g (writerOf k)).gone).map (·.value.bytes) := by
  unfold Database.readTables
  rw [h.archive.searchList rfl]
  exact h.archive.values k

theorem Started.archived (h : Started d) :
    Archived (fun w => .start (d.store.writer_ w).queue_.contents) d := by
  refine Archive.archived ⟨fun lv _ => ?_, fun f hf => ?_, fun k => ?_⟩ (by rw [h.compacter]; rfl)
  · rw [h.store.current]
    rfl
  · rw [h.store.current] at hf
    cases hf
  · rw [h.store.current]
    rfl

/-- A step outside the compacter. -/
theorem Archived.frame (h : Archived g d) (hf : d'.store.current_.files_ = d.store.current_.files_)
    (hd : d'.disk = d.disk) (hc : d'.compacter = d.compacter)
    (hl : d.compacter.merging = true → d'.store.current_ = d.store.current_)
    (hg : ∀ w, (g' w).gone = (g w).gone) : Archived g' d' := by
  refine ⟨?_, fun merged edit hm => ?_, fun merged v hm => ?_⟩
  · rw [hf, hd, funext hg]
    exact h.archive
  · rw [hc] at hm
    rw [hl (by rw [hm]; rfl), hd]
    exact h.built merged edit hm
  · rw [hc] at hm
    rw [hl (by rw [hm]; rfl), hd]
    exact h.applied merged v hm

/-- The lists of the current version are the frozen generations. -/
theorem Ok.newest (h : Ok g d) (k : Bytes) :
    newest d.store.current_.list_ k = lastFor (·.key.bytes) k (g (writerOf k)).frozen :=
  (h.shelved (writerOf k)).frozen k

theorem Ok.routed (h : Ok g d) : Routed d.store.current_.list_ := fun w => (h.shelved w).from_lists

/-- A step of the compacter. -/
theorem Archived.compact (h : Archived g d) (hok : Ok g d) (hcare : CarefulStep d (.compacter opened))
    (hm : CompactMove d opened d')
    (hg : follow next g (d.event (.compacter opened)).toList = some g') : Archived g' d' := by
  -- a step that leaves the version
  have quiet : (∀ merged v, d.compacter ≠ .appendVersion merged v) → g' = g := by
    intro hne
    have hev : d.event (.compacter opened) = none := by
      simp only [event]
    rw [hev] at hg
    exact (Option.some.inj hg).symm
  cases hm with
  | @test pc hc hpc =>
    rw [quiet (by simp [hc])]
    refine Archive.archived h.archive ?_
    obtain rfl | rfl := hpc <;> rfl
  | @build st c file edit hc hr =>
    rw [quiet (by simp [hc])]
    simp only [CarefulStep, hc] at hcare
    obtain ⟨-, hn, hsmall, hw⟩ := hcare
    cases opened with
    | none => exact absurd hw id
    | some file₀ =>
      obtain ⟨hfresh, hcreate, hnf⟩ := hw
      simp only [Compacter.compactEnv, buildTableEnv, Option.bind_eq_bind, Option.bind_some,
        Option.bind_eq_some_iff, Option.some.injEq, Prod.mk.injEq] at hr
      obtain ⟨⟨st', file', f⟩, ⟨⟨file'', f'⟩, hb, rfl, rfl, rfl⟩, rfl, rfl, rfl, rfl⟩ := hr
      have hnum := (buildTable_metadata hb).2
      refine ⟨h.archive.write hfresh file''.fd, ?_, ?_⟩
      · intro _ _ hm
        cases hm
        refine ⟨f', rfl, ⟨file''.fd, ?_, ?_⟩, fun k => buildTable_bounds hok.routed hb⟩
        · rw [hnum]
          exact Function.update_self ..
        · rw [hcreate] at hb
          exact buildTable_finds hok.routed hn hnf hb hsmall
      · intro _ _ hm
        cases hm
  | @apply merged edit hc =>
    rw [quiet (by simp [hc])]
    obtain ⟨f, rfl, hf⟩ := h.built merged edit hc
    refine ⟨h.archive, ?_, ?_⟩
    · intro _ _ hm
      cases hm
    · intro _ _ hm
      cases hm
      exact ⟨f, rfl, hf⟩
  | @install merged v hc =>
    obtain ⟨f, rfl, hf⟩ := h.applied merged v hc
    have hev : d.event (.compacter opened) = some .replaced := by simp only [event, hc]
    rw [hev, Option.toList_some, follow_singleton] at hg
    cases hg
    exact Archive.archived (h.archive.add hf hok.newest) rfl
  | broadcast hc =>
    rw [quiet (by simp [hc])]
    exact Archive.archived h.archive rfl

/-- What is gone changes with the version only. -/
theorem next_gone {e : Event} (h : next g e = some g') (he : e ≠ .replaced) (w : Fin kMaxWriter) :
    (g' w).gone = (g w).gone := by
  have at_writer : ∀ (w₀ : Fin kMaxWriter) (f : Generations Entry), f.gone = (g w₀).gone →
      (Function.update g w₀ f w).gone = (g w).gone := by
    intro w₀ f hf
    by_cases hw : w = w₀
    · rw [hw, Function.update_self, hf]
    · rw [Function.update_of_ne hw]
  cases e with
  | replaced => exact absurd rfl he
  | appended w₀ =>
    cases h
    exact at_writer w₀ _ rfl
  | inserted w₀ e =>
    simp only [next] at h
    split at h
    · cases h
      exact at_writer w₀ _ rfl
    · cases h
  | store e =>
    cases e with
    | pushed w₀ e =>
      cases h
      exact at_writer w₀ _ rfl
    | _ =>
      cases h
      rfl

/-- Only the compacter replaces the version. -/
theorem event_ne_replaced {l : Label} (hl : ∀ opened, l ≠ .compacter opened) :
    d.event l ≠ some .replaced := by
  intro he
  cases l with
  | compacter opened => exact hl opened rfl
  | wake w => cases he
  | store l =>
    by_cases hw : ∀ w, l ≠ .writer w
    · rw [event_store hw] at he
      obtain ⟨e, -, he⟩ := Option.map_eq_some_iff.1 he
      cases he
    · push Not at hw
      obtain ⟨w, rfl⟩ := hw
      simp only [event, writerEvent] at he
      split at he
      · obtain ⟨e, -, he⟩ := Option.map_eq_some_iff.1 he
        cases he
      all_goals cases he

/-- A writer freezes no list while others are merged. -/
theorem CarefulStep.appends (h : CarefulStep d (.store (.writer w)))
    (hp : (d.store.writer_ w).pc = .full) {list : SkipList}
    (ha : d.append w = .resumed list ∨ d.append w = .cleared list) : d.compacter.merging = false := by
  refine h.2 ?_
  obtain ha | ha := ha <;> simp only [writerEvent, hp, ha]

/-- **Every careful step keeps the archive.** -/
theorem Archived.step (h : Archived g d) (hok : Ok g d) {l : Label} (hcare : CarefulStep d l)
    (hs : d.step l = some d') (hg : follow next g (d.event l).toList = some g') :
    Archived g' d' := by
  have hgone : (∀ opened, l ≠ .compacter opened) → ∀ w, (g' w).gone = (g w).gone := by
    intro hl w
    cases he : d.event l with
    | none =>
      rw [he] at hg
      rw [Option.some.inj hg]
    | some e =>
      rw [he, Option.toList_some, follow_singleton] at hg
      exact next_gone hg (fun hr => event_ne_replaced hl (by rw [he, hr])) w
  cases l with
  | store l =>
    by_cases hl : ∀ w, l ≠ .writer w
    · rw [step_store hl] at hs
      obtain ⟨s', hs', rfl⟩ := Option.map_eq_some_iff.1 hs
      have hcur : s'.current_ = d.store.current_ :=
        ((Store.step_move hs').outside hok.clients hl 0).2.2.2
      exact h.frame (by simp only [withStore, hcur]) rfl rfl (fun _ => hcur) (hgone (by simp))
    · push Not at hl
      obtain ⟨w, rfl⟩ := hl
      by_cases hp : (d.store.writer_ w).pc = .full
      · cases freeze_move hp hs with
        | append _ ha =>
          refine h.frame rfl rfl rfl (fun hm => ?_) (hgone (by simp))
          rw [hcare.appends hp ha] at hm
          cases hm
        | _ => exact h.frame rfl rfl rfl (fun _ => rfl) (hgone (by simp))
      · rw [step_writer hp] at hs
        obtain ⟨s', hs', rfl⟩ := Option.map_eq_some_iff.1 hs
        have hcur : s'.current_ = d.store.current_ := by
          cases Store.writerStep_move hs' with
          | freeze hfull => exact absurd hfull hp
          | _ => rfl
        exact h.frame (by simp only [withStore, hcur]) rfl rfl (fun _ => hcur) (hgone (by simp))
  | wake w =>
    simp only [Database.step] at hs
    split at hs
    · cases hs
      exact h.frame rfl rfl rfl (fun _ => rfl) (hgone (by simp))
    · cases hs
  | compacter opened => exact h.compact hok hcare (compact_move hs) hg

/-- **Nothing is lost.** In every run in which the compactions write small blocks to new files that
take every write, and no list is frozen while others are merged: between the rounds of a writer, the
newest value that was pushed for one of its keys is the one in memory, or else the one that
`search_list` leads to. -/
theorem nothing_lost (h0 : d₀.Started) (hx : machine.Exec CarefulStep d₀ hist d) (k : Bytes)
    (hp : (d.store.writer_ (writerOf k)).pc = .idle) :
    d.readAll k = (lastFor (·.key.bytes) k
      (allPushed d₀.store (writerOf k) (storeEvents hist))).map (·.value.bytes) := by
  obtain ⟨g, hg, hok, harch⟩ := hx.refines (R := fun g d => Ok g d ∧ Archived g d)
    ⟨h0.ok, h0.archived⟩ fun g d l d' hR hG hs => by
      obtain ⟨g', h1, h2⟩ := hR.1.step hG.1 hs
      exact ⟨g', h1, h2, hR.2.step hR.1 hG hs h1⟩
  have hall : (g (writerOf k)).all = allPushed d₀.store (writerOf k) (storeEvents hist) :=
    follow_all hg (writerOf k)
  rw [← hall, Generations.lastFor_all, readAll, hok.lookup hp, harch.readTables, Option.map_or]

/-! ## A run -/

instance (disk : Disk) (fname : String) (opened : Option WritableFile) :
    Decidable (Writable disk fname opened) :=
  match opened with
  | some file => inferInstanceAs
      (Decidable (disk fname = none ∧ file = .create file.writes file.syncs file.closes ∧
        WriteResult.fail ∉ file.writes))
  | none => instDecidableFalse

instance (d : Database) (opened : Option WritableFile) (pc : CompactPc SkipList) :
    Decidable (d.Merges opened pc) :=
  match pc with
  | .compact => inferInstanceAs (Decidable (_ ∧ SmallBlocks _ _ ∧ Writable _ _ _))
  | .test | .apply _ _ | .appendVersion _ _ | .broadcast => instDecidableTrue

instance (d : Database) (l : Label) : Decidable (CarefulStep d l) :=
  match l with
  | .store (.writer w) => inferInstanceAs (Decidable (SizedStep d (.store (.writer w)) ∧
      (d.writerEvent w = some (.appended w) → d.compacter.merging = false)))
  | .compacter opened => inferInstanceAs (Decidable (SizedStep d (.compacter opened) ∧
      d.Merges opened d.compacter))
  | .store (.callSet _ _ _ _) | .store (.callGet _ _) | .store (.client _) | .wake _ =>
    inferInstanceAs (Decidable (SizedStep d _ ∧ True))

/-- After `turnover` one key is in memory and another only in the table. -/
theorem nothing_lost_turnover : ∃ hist d, machine.Exec CarefulStep replayedDatabase hist d ∧
    Event.replaced ∈ hist ∧ d.store.lookup 2 [101] = none ∧ d.readAll [101] = some [3] ∧
    d.readAll [97] = some [98] := by
  have hr : (machine.exec CarefulStep replayedDatabase turnover).map (fun r =>
      decide (Event.replaced ∈ r.1 ∧ (r.2.store.writer_ 2).pc = .idle ∧
        r.2.store.lookup 2 [101] = none ∧
        (lastEntry (storeEvents r.1) [101]).map (·.value.bytes) = some [3] ∧
        (lastEntry (storeEvents r.1) [97]).map (·.value.bytes) = some [98])) = some true := by
    decide +kernel
  obtain ⟨hist, d, hx, hrep, hidle, hnone, hold, hnew⟩ := Machine.exec_check hr
  exact ⟨hist, d, hx, hrep, hnone, (nothing_lost replayedDatabase_started hx [101] hidle).trans hold,
    (nothing_lost replayedDatabase_started hx [97] hidle).trans hnew⟩

end Database

end Yangkv
