/-
# Narrowing a store

Whatever narrows domains works on a `Pass`: the store it narrows and the events it
reports, newest first. Both outlive a failure, since a refutation leaves what was
narrowed before it in place.
-/

import Placement.Event
import Placement.Store

namespace Placement

/-- A store being narrowed, and the events reported so far, newest first. -/
structure Pass (w : Width) where
  store : Store w
  events : List Event

/-- A computation that narrows a store, reports events, and may end early. -/
abbrev Narrowing (w : Width) := EStateM (Failure Inconsistency) (Pass w)

namespace Narrowing

variable {w : Width} {α : Type}

/-- Reports an event. -/
def report (e : Event) : Narrowing w Unit :=
  modify fun p => { p with events := e :: p.events }

/-- Reads the store. -/
def read (f : Store w → Except Fault α) : Narrowing w α := do
  match f (← get).store with
  | .ok a => return a
  | .error cause => throw (.fault cause)

/-- Intersects the domain of `v` with `lo … hi`, and says whether that changed it. -/
def setBounds (v : Var) (lo hi : Int) : Narrowing w Bool := do
  match (← get).store.setBounds v lo hi with
  | .ok (changed, s) =>
    modify fun p => { p with store := s }
    return changed
  | .error e => throw e

/-- Replaces the store by one computed from it. -/
def update (f : Store w → Except Fault (Store w)) : Narrowing w Unit := do
  let s ← read f
  modify fun p => { p with store := s }

/-- The store, the events in order, and the outcome of narrowing a store. -/
def runOn (m : Narrowing w α) (s : Store w) :
    Store w × List Event × Except (Failure Inconsistency) α :=
  match m ⟨s, []⟩ with
  | .ok a p => (p.store, p.events.reverse, .ok a)
  | .error e p => (p.store, p.events.reverse, .error e)

end Narrowing
end Placement
