/-
# The store

A store holds the domains of the variables, the values of the saved slots, and the
trail that restores both. Every variable and every slot has a *stamp*, the level at
which it was last written; a write records an undo entry only if the stamp lies
below the current level. Variables written since the last `takeChanged` are
*pending*.

A saved slot holds a list of numbers for whoever allocated it. It follows the
search as the domains do.
-/

import Placement.Inconsistency
import Placement.Trail

namespace Placement

/-- A variable: its domain, the level of its last write, whether that write is pending. -/
structure Cell (w : Width) where
  domain : Domain w
  stamp : Nat
  pending : Bool
deriving DecidableEq

/-- A saved list of numbers and the level of its last write. -/
structure Saved where
  value : List Nat
  stamp : Nat
deriving DecidableEq, Repr

/-- Variables, saved slots and the trail that restores them. -/
structure Store (w : Width) where
  cells : List (Cell w)
  slots : List Saved
  trail : Trail w
deriving DecidableEq

namespace Store

variable {w : Width}

/-- The store without variables at level zero. -/
def empty : Store w := ⟨[], [], .empty⟩

/-- The current decision level. -/
def level (s : Store w) : Nat := s.trail.depth

/-- The number of variables. -/
def numVars (s : Store w) : Nat := s.cells.length

/-- All variables, ascending. -/
def vars (s : Store w) : List Var := (List.range s.numVars).map Index.mk

/-! ## Reading -/

/-- A variable that must exist. -/
def cell (s : Store w) (v : Var) : Except Fault (Cell w) := entry s.cells v.val

/-- The domain of a variable. -/
def domain (s : Store w) (v : Var) : Except Fault (Domain w) := return (← s.cell v).domain

/-- The level at which a variable was last written. -/
def stamp (s : Store w) (v : Var) : Except Fault Nat := return (← s.cell v).stamp

/-- A slot that must exist. -/
def saved (s : Store w) (k : Slot) : Except Fault Saved := entry s.slots k.val

/-- The value of a slot. -/
def snapshot (s : Store w) (k : Slot) : Except Fault (List Nat) := return (← s.saved k).value

/-- Some variable is pending. -/
def hasChanges (s : Store w) : Bool := s.cells.any Cell.pending

/-- The pending variables, ascending. -/
def changed (s : Store w) : List Var :=
  s.vars.filter fun v => (s.cells[v.val]?).any Cell.pending

/-- How many values all domains together can still lose. -/
def slack (s : Store w) : Nat := s.cells.foldr (fun c n => c.domain.slack + n) 0

/-- The variables of the given numbers, which must all exist. -/
def varSet (s : Store w) (numbers : List Nat) : Except Fault (List Var) :=
  if numbers.all (· < s.numVars) then .ok (numbers.map Index.mk) else .error .index

/-! ## Creating -/

/-- Creates a variable. -/
def newVar (s : Store w) (d : Domain w) : Var × Store w :=
  (⟨s.numVars⟩, { s with cells := s.cells ++ [⟨d, s.level, false⟩] })

/-- Creates a slot. -/
def newSnapshot (s : Store w) (value : List Nat) : Slot × Store w :=
  (⟨s.slots.length⟩, { s with slots := s.slots ++ [⟨value, s.level⟩] })

/-! ## Writing -/

/-- Records an entry if what it restores was last written below the current level. -/
def note (s : Store w) (stamp : Nat) (e : Trail.Entry w) : Trail w :=
  if stamp < s.level then s.trail.record e else s.trail

/-- Intersects the domain of `v` with `lo … hi`, and says whether that changed it. A
variable left without a value keeps its domain, stamp and mark. -/
def setBounds (s : Store w) (v : Var) (lo hi : Int) :
    Except (Failure Inconsistency) (Bool × Store w) := do
  let c ← s.cell v
  match c.domain.restrict? lo hi with
  | none => throw (.refuted (.emptyDomain v))
  | some d =>
    if d = c.domain then return (false, s)
    else return (true,
      { s with
        cells := s.cells.set v.val ⟨d, s.level, true⟩
        trail := s.note c.stamp (.domain v c.domain c.stamp) })

/-- Raises the lower bound of `v` to `lo`. -/
def setMin (s : Store w) (v : Var) (lo : Int) :
    Except (Failure Inconsistency) (Bool × Store w) := do
  let d ← s.domain v
  s.setBounds v lo d.hi

/-- Lowers the upper bound of `v` to `hi`. -/
def setMax (s : Store w) (v : Var) (hi : Int) :
    Except (Failure Inconsistency) (Bool × Store w) := do
  let d ← s.domain v
  s.setBounds v d.lo hi

/-- Leaves `v` the value `x` only. -/
def fix (s : Store w) (v : Var) (x : Int) : Except (Failure Inconsistency) (Bool × Store w) :=
  s.setBounds v x x

/-- Replaces the value of a slot. -/
def setSnapshot (s : Store w) (k : Slot) (value : List Nat) : Except Fault (Store w) := do
  let a ← s.saved k
  return { s with
    slots := s.slots.set k.val ⟨value, s.level⟩
    trail := s.note a.stamp (.slot k a.value a.stamp) }

/-- Marks `v` as pending without narrowing it. -/
def touch (s : Store w) (v : Var) : Except Fault (Store w) := do
  let c ← s.cell v
  return { s with cells := s.cells.set v.val { c with pending := true } }

/-- Marks all of `vs` as pending. -/
def touchAll (s : Store w) (vs : List Var) : Except Fault (Store w) := vs.foldlM touch s

/-- No variable is pending. -/
def clearPending (s : Store w) : Store w :=
  { s with cells := s.cells.map fun c => { c with pending := false } }

/-- The pending variables, and the store in which none is. -/
def takeChanged (s : Store w) : List Var × Store w := (s.changed, s.clearPending)

/-! ## Levels -/

/-- Opens a decision level. -/
def pushLevel (s : Store w) : Store w := { s with trail := s.trail.push }

/-- Takes one write back. -/
def undo (s : Store w) : Trail.Entry w → Store w
  | .domain v old stamp =>
    { s with cells := s.cells.modify v.val fun c => { c with domain := old, stamp := stamp } }
  | .slot k old stamp => { s with slots := s.slots.set k.val ⟨old, stamp⟩ }

/-- Leaves the current level and takes back everything written at it; at the root there is
nothing to leave. What was pending belongs to the abandoned branch and is dropped. -/
def backtrack (s : Store w) : Bool × Store w :=
  match s.trail.pop? with
  | none => (false, s.clearPending)
  | some (entries, trail) => (true, { entries.foldl undo s with trail := trail }.clearPending)

/-- Opening a level adds one. -/
@[simp] theorem level_pushLevel (s : Store w) : s.pushLevel.level = s.level + 1 := rfl

/-- After clearing, a store has no changes. -/
@[simp] theorem hasChanges_clearPending (s : Store w) : s.clearPending.hasChanges = false := by
  simp [hasChanges, clearPending]

/-- Backtracking a level at which nothing was written drops what was pending, and no more. -/
@[simp] theorem backtrack_pushLevel (s : Store w) : s.pushLevel.backtrack = (true, s.clearPending) :=
  rfl

/-- The text of a store. -/
def text (s : Store w) : String :=
  s!"Store(vars: {s.numVars}, snapshots: {s.slots.length}, level: {s.level}, " ++
    s!"trail: {s.trail.entries.length})"

end Store
end Placement
