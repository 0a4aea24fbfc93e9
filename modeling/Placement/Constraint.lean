/-
# Constraints of either kind

An engine runs propagators of one type. `Constraint` is the type for an engine that
holds both non-overlap and precedence constraints.
-/

import Placement.Disjoint
import Placement.Precedence

namespace Placement

/-- A constraint of either kind. -/
inductive Constraint where
  | disjoint (d : Disjoint)
  | precedence (p : Precedence)

namespace Constraint

variable {w : Width}

/-- The non-overlap constraint, if it is one. -/
def disjoint? : Constraint → Option Disjoint
  | disjoint d => some d
  | precedence _ => none

/-- Narrows a store. -/
def narrow (c : Constraint) (changed : List Var) (s : Store w) : Narrowed w Constraint :=
  match c with
  | disjoint d =>
    let r := Propagator.narrow d changed s
    ⟨disjoint r.propagator, r.store, r.events, r.outcome⟩
  | precedence p =>
    let r := Propagator.narrow p changed s
    ⟨precedence r.propagator, r.store, r.events, r.outcome⟩

/-- Registers the constraint with a store. -/
def impose (c : Constraint) (id : ConstraintId) (s : Store w) :
    Constraint × Store w × List Event :=
  match c with
  | disjoint d =>
    let (d, s, events) := Propagator.impose d id s
    (disjoint d, s, events)
  | precedence p =>
    let (p, s, events) := Propagator.impose p id s
    (precedence p, s, events)

instance : Propagator Constraint where
  name
    | disjoint d => Propagator.name d
    | precedence p => Propagator.name p
  scope
    | disjoint d => Propagator.scope d
    | precedence p => Propagator.scope p
  impose := impose
  narrow := narrow
  satisfied
    | disjoint d => Propagator.satisfied d
    | precedence p => Propagator.satisfied p
  describe
    | disjoint d => Propagator.describe d
    | precedence p => Propagator.describe p

end Constraint
end Placement
