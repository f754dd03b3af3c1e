import Yangkv.Lib.LastWrite

/-!
# Entries in generations

A log of entries that moves from a queue into an active generation, is frozen with it,
and is at last dropped with all that is frozen. The four parts, oldest first, are the
whole log at every time: only `push` adds to it, and nothing passes anything else.

* `all_push`, `all_insert`, `all_freeze`, `all_drop`: what each operation does to the log.
* `lastFor_all`: the last entry about a key is among those that are kept, or there it has none.
-/

namespace Yangkv.Lib

/-- What was dropped, what is frozen, the active generation, and what waits for it. -/
structure Generations (α : Type*) where
  gone : List α
  frozen : List α
  active : List α
  queued : List α

namespace Generations

variable {α κ : Type*} {g : Generations α} {a : α}

/-- Nothing yet but what waits in the queue. -/
def start (queued : List α) : Generations α := ⟨[], [], [], queued⟩

/-- The log. -/
def all (g : Generations α) : List α := g.gone ++ (g.frozen ++ (g.active ++ g.queued))

/-- The part of it that is not dropped. -/
def kept (g : Generations α) : List α := g.frozen ++ (g.active ++ g.queued)

def push (g : Generations α) (a : α) : Generations α := { g with queued := g.queued ++ [a] }

/-- The first entry of the queue becomes the last one of the active generation. -/
def insert (g : Generations α) : Generations α :=
  { g with active := g.active ++ g.queued.take 1, queued := g.queued.drop 1 }

def freeze (g : Generations α) : Generations α :=
  { g with frozen := g.frozen ++ g.active, active := [] }

def drop (g : Generations α) : Generations α := { g with gone := g.gone ++ g.frozen, frozen := [] }

theorem all_push : (g.push a).all = g.all ++ [a] := by simp [all, push]

theorem all_insert : g.insert.all = g.all := by
  have hq : g.queued.take 1 ++ g.queued.drop 1 = g.queued := List.take_append_drop 1 g.queued
  simp only [all, insert, List.append_assoc, hq]

theorem all_freeze : g.freeze.all = g.all := by simp [all, freeze]

theorem all_drop : g.drop.all = g.all := by simp [all, drop]

theorem all_eq : g.all = g.gone ++ g.kept := rfl

theorem lastFor_all [DecidableEq κ] (key : α → κ) (k : κ) :
    lastFor key k g.all = (lastFor key k g.kept).or (lastFor key k g.gone) := by
  rw [all_eq, lastFor_append]

end Generations

end Yangkv.Lib
