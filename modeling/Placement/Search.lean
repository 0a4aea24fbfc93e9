/-
# Search

Depth-first labelling on an engine. At every node the engine propagates; then the
first variable that is not fixed takes each value of its domain in turn, one level
deeper. A limit on the number of nodes ends the search early.
-/

import Placement.Engine

namespace Placement
namespace Search

/-- What a search has found so far. -/
structure Found where
  /-- Nodes visited. -/
  nodes : Nat
  /-- Nodes and values refuted. -/
  failures : Nat
  /-- Leaves reached. -/
  solutions : Nat
  /-- Leaves at which all constraints hold. -/
  satisfied : Nat
  /-- The values at the first leaf. -/
  first : Option (List Int)
  /-- The values at the last leaf. -/
  last : Option (List Int)
deriving DecidableEq, Repr

/-- Nothing found. -/
def Found.start : Found := ⟨0, 0, 0, 0, none, none⟩

/-- Counts a node. -/
def Found.node (f : Found) : Found := { f with nodes := f.nodes + 1 }

/-- Counts a refutation. -/
def Found.failure (f : Found) : Found := { f with failures := f.failures + 1 }

/-- Adds a leaf. -/
def Found.leaf (f : Found) (values : List Int) (satisfied : Bool) : Found :=
  { f with
    solutions := f.solutions + 1
    satisfied := if satisfied then f.satisfied + 1 else f.satisfied
    first := f.first <|> some values
    last := some values }

/-- A search that may end early. -/
abbrev Labelling (w : Width) (π : Type) := StateT Found (Engine.Action w π)

variable {w : Width} {π α : Type}

/-- Runs an action on the engine that is searched. -/
def onEngine (m : Engine.Action w π α) : Labelling w π α := fun f => return (← m, f)

/-- The first variable that is not fixed, and its domain. -/
def unfixed? (s : Store w) : Option (Var × Domain w) :=
  s.vars.findSome? fun v =>
    match s.cells[v.val]? with
    | some c => if c.domain.IsFixed then none else some (v, c.domain)
    | none => none

/-- The least values of all variables. -/
def values (s : Store w) : List Int := s.cells.map fun c => c.domain.lo

/-- Gives `v` the value `x` at a level of its own, at which `below` searches on. -/
def assign (below : Labelling w π Unit) (v : Var) (x : Int) : Labelling w π Unit := do
  onEngine (Engine.update Store.pushLevel)
  match ← onEngine (Engine.attempt (Engine.fix v x)) with
  | .ok _ => below
  | .error _ => modify Found.failure
  onEngine (Engine.update fun s => s.backtrack.2)

/-- Gives `v` the value `x`, then the `more` values after it. -/
def branch (below : Labelling w π Unit) (limit : Nat) (v : Var) : Nat → Int → Labelling w π Unit
  | 0, x => assign below v x
  | more + 1, x => do
    assign below v x
    if (← get).nodes < limit then branch below limit v more (x + 1)

/-- Searches below the current node. A search at depth `n` has visited `n` nodes before it, so
`limit` bounds its depth too. -/
def label [Propagator π] (limit : Nat) : Nat → Labelling w π Unit
  | 0 => return
  | depth + 1 => do
    if limit ≤ (← get).nodes then return
    modify Found.node
    match ← onEngine (Engine.attempt Engine.propagate) with
    | .error _ => modify Found.failure
    | .ok () =>
      let g ← onEngine get
      match unfixed? g.store with
      | some (v, d) => branch (label limit depth) limit v (d.hi - d.lo).toNat d.lo
      | none =>
        let satisfied ← onEngine (Engine.read Engine.satisfied)
        modify fun f => f.leaf (values g.store) satisfied

/-- Searches from the current node, visiting at most `limit` nodes. -/
def solve [Propagator π] (limit : Nat) : Engine.Action w π Found := do
  return (← (label limit limit).run .start).2

/-- Gives `v` the value that lies `offset` above the least, counted around its domain, at a new
level, and propagates. -/
def choose [Propagator π] (v : Var) (offset : Int) :
    Engine.Action w π (Int × Except Inconsistency Unit) := do
  let d ← Engine.read (·.store.domain v)
  let x := d.lo + offset % (d.hi - d.lo + 1)
  Engine.update Store.pushLevel
  let outcome ← Engine.attempt do
    let _ ← Engine.fix v x
    Engine.propagate
  return (x, outcome)

end Search
end Placement
