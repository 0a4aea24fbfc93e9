/-
# The undo log

A trail holds one list of entries per open decision level. An entry keeps what a
variable or a slot held, and its stamp, before it was first written at that level;
later writes at the same level need none, since restoring the first is enough.

Nothing is recorded while no level is open: what is written at the root is never
taken back.
-/

import Placement.Domain
import Placement.Index

namespace Placement

/-- What one write replaced. -/
inductive Trail.Entry (w : Width) where
  /-- A variable was narrowed. -/
  | domain (var : Var) (old : Domain w) (stamp : Nat)
  /-- A slot was overwritten. -/
  | slot (slot : Slot) (old : List Nat) (stamp : Nat)
deriving DecidableEq

/-- The entries of the open levels, the current level first and in each level the newest
entry first. -/
structure Trail (w : Width) where
  levels : List (List (Trail.Entry w))
deriving DecidableEq

namespace Trail

variable {w : Width}

/-- The text of an entry. -/
def Entry.text : Entry w → String
  | .domain v old stamp =>
    s!"TrailEntry(var: {v.val}, old_domain: {old.text}, old_stamp: {stamp})"
  | .slot k old stamp =>
    s!"TrailEntry(slot: {k.val}, old_len: {old.length}, old_stamp: {stamp})"

/-- No open level, nothing recorded. -/
def empty : Trail w := ⟨[]⟩

/-- The number of open levels. -/
def depth (t : Trail w) : Nat := t.levels.length

/-- All entries, the oldest first. -/
def entries (t : Trail w) : List (Entry w) := t.levels.flatten.reverse

/-- How many entries were recorded before each of the given levels, the outermost first. -/
def marksOf : List (List (Entry w)) → List Nat
  | [] => []
  | _ :: older => marksOf older ++ [older.flatten.length]

/-- How many entries were recorded before each open level, the outermost level first. -/
def marks (t : Trail w) : List Nat := marksOf t.levels

/-- Opens a level. -/
def push (t : Trail w) : Trail w := ⟨[] :: t.levels⟩

/-- Records an entry at the current level. -/
def record (t : Trail w) (e : Entry w) : Trail w :=
  match t.levels with
  | [] => t
  | level :: older => ⟨(e :: level) :: older⟩

/-- Leaves the current level: its entries, the newest first, and the trail without it. -/
def pop? (t : Trail w) : Option (List (Entry w) × Trail w) :=
  match t.levels with
  | [] => none
  | level :: older => some (level, ⟨older⟩)

/-- A new level makes the trail deeper by one. -/
@[simp] theorem depth_push (t : Trail w) : t.push.depth = t.depth + 1 := rfl

/-- An entry leaves the depth of the trail. -/
@[simp] theorem depth_record (t : Trail w) (e : Entry w) : (t.record e).depth = t.depth := by
  cases t with | mk levels => cases levels <;> rfl

/-- The level opened last has no entries yet. -/
@[simp] theorem pop?_push (t : Trail w) : t.push.pop? = some ([], t) := rfl

/-- The text of a trail. -/
def text (t : Trail w) : String := s!"Trail(entries: {t.entries.length}, frames: {t.depth})"

end Trail
end Placement
