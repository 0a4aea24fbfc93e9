/-
# Propagators

A propagator watches the variables of its scope and narrows domains. It holds no
domains itself; what has to follow the search lives in slots of the store, which it
allocates when it is imposed.

`fixpoint` runs one propagator alone until nothing is pending. A propagator that only
narrows takes a value from some domain in every round but the last, so the number of
values there are to lose bounds the number of rounds.
-/

import Placement.Narrowing

namespace Placement

/-- What a propagator leaves behind after it narrowed a store. -/
structure Narrowed (w : Width) (π : Type) where
  propagator : π
  store : Store w
  events : List Event
  outcome : Except (Failure Inconsistency) Unit

/-- A constraint that narrows domains. -/
class Propagator (π : Type) where
  /-- A short name for reports. -/
  name : π → String
  /-- The watched variables. -/
  scope : π → List Var
  /-- Registers the propagator with a store under an id, before it first narrows. -/
  impose {w : Width} : π → ConstraintId → Store w → π × Store w × List Event
  /-- Narrows domains, given the variables that changed since the last time. -/
  narrow {w : Width} : π → List Var → Store w → Narrowed w π
  /-- The constraint takes itself to hold for the current domains. -/
  satisfied {w : Width} : π → Store w → Except Fault Bool
  /-- The constraint with the current domains. -/
  describe {w : Width} : π → Store w → Except Fault String

namespace Propagator

variable {w : Width} {π : Type} [Propagator π]

/-- Narrows until nothing is pending, for at most the given number of rounds. -/
def rounds : Nat → π → Store w → Narrowed w π
  | limit, p, s =>
    if s.hasChanges then
      match limit with
      | 0 => ⟨p, s, [], .error (.fault .roundLimit)⟩
      | limit + 1 =>
        let (changed, s) := s.takeChanged
        let first := narrow p changed s
        match first.outcome with
        | .error _ => first
        | .ok () =>
          let rest := rounds limit first.propagator first.store
          { rest with events := first.events ++ rest.events }
    else ⟨p, s, [], .ok ()⟩

/-- Narrows until nothing is pending. -/
def fixpoint (p : π) (s : Store w) : Narrowed w π := rounds (s.slack + 1) p s

end Propagator
end Placement
