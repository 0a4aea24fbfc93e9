/-
# The engine

An engine holds a store and the propagators posted to it. `propagate` works in
rounds: a round takes the pending variables and runs, in the order of posting, every
propagator that watches one of them; rounds follow until nothing is pending or a
propagator refutes the store. What was narrowed before a refutation stays, and so
does what is pending; backtracking the store takes both back.
-/

import Placement.Propagator

namespace Placement

/-- A posted propagator and the variables that wake it. -/
structure Posted (π : Type) where
  propagator : π
  watched : List Var

/-- What an engine counts. -/
structure EngineStatistics where
  propagations : Nat
  rounds : Nat
  calls : Nat
  failures : Nat
deriving DecidableEq, Repr

/-- The report of the counters. -/
def EngineStatistics.text (s : EngineStatistics) : String :=
  "Propagation Engine Statistics:\n" ++
  s!"  Propagations:      {s.propagations}\n" ++
  s!"  Rounds:            {s.rounds}\n" ++
  s!"  Propagator calls:  {s.calls}\n" ++
  s!"  Failures:          {s.failures}\n"

/-- A store, the propagators posted to it, and the events reported so far, newest first. -/
structure Engine (w : Width) (π : Type) where
  store : Store w
  posted : List (Posted π)
  statistics : EngineStatistics
  events : List Event

namespace Engine

variable {w : Width} {π α : Type}

/-- An engine around a store. -/
def ofStore (s : Store w) : Engine w π := ⟨s, [], ⟨0, 0, 0, 0⟩, []⟩

/-- A computation on an engine that may end early. -/
abbrev Action (w : Width) (π : Type) := EStateM (Failure Inconsistency) (Engine w π)

/-- Reports an event. -/
def report (e : Event) : Action w π Unit := modify fun g => { g with events := e :: g.events }

/-- Counts something. -/
def tally (f : EngineStatistics → EngineStatistics) : Action w π Unit :=
  modify fun g => { g with statistics := f g.statistics }

/-- Replaces the store by one computed from it. -/
def update (f : Store w → Store w) : Action w π Unit :=
  modify fun g => { g with store := f g.store }

/-- Reads the engine. -/
def read (f : Engine w π → Except Fault α) : Action w π α := do
  match f (← get) with
  | .ok a => return a
  | .error cause => throw (.fault cause)

/-- Leaves `v` the value `x` only. -/
def fix (v : Var) (x : Int) : Action w π Bool := do
  match (← get).store.fix v x with
  | .ok (changed, s) =>
    update fun _ => s
    return changed
  | .error e => throw e

/-- Turns a refutation into a result; a fault still ends the computation. -/
def attempt (m : Action w π α) : Action w π (Except Inconsistency α) :=
  tryCatch (return .ok (← m)) fun
    | .fault cause => throw (.fault cause)
    | .refuted cause => return .error cause

variable [Propagator π]

/-- Posts a propagator. Its whole scope becomes pending, so the next propagation runs it. -/
def post (p : π) : Action w π ConstraintId := do
  let g ← get
  let id : ConstraintId := ⟨g.posted.length⟩
  let (p, s, events) := Propagator.impose p id g.store
  set { g with store := s, events := events.reverse ++ g.events }
  let watched := Propagator.scope p
  let s ← read fun _ => s.touchAll watched
  modify fun g => { g with store := s, posted := g.posted ++ [⟨p, watched⟩] }
  report (.posted (Propagator.name p) id)
  return id

/-- Runs the propagator at position `k` if it watches a changed variable. -/
def wake (changed : List Var) (k : Nat) : Action w π Unit := do
  let g ← get
  match g.posted[k]? with
  | none => return
  | some p =>
    if p.watched.any changed.contains then
      tally fun c => { c with calls := c.calls + 1 }
      report (.waking (Propagator.name p.propagator) k)
      let r := Propagator.narrow p.propagator changed g.store
      modify fun g =>
        { g with
          store := r.store
          posted := g.posted.set k { p with propagator := r.propagator }
          events := r.events.reverse ++ g.events }
      match r.outcome with
      | .ok () => return
      | .error (.fault cause) => throw (.fault cause)
      | .error (.refuted cause) =>
        tally fun c => { c with failures := c.failures + 1 }
        report (.failed (Propagator.name r.propagator) r.store.level cause)
        throw (.refuted cause)

/-- Takes the pending variables and runs the propagators that watch one of them. -/
def round : Action w π Unit := do
  let g ← get
  let (changed, s) := g.store.takeChanged
  update fun _ => s
  tally fun c => { c with rounds := c.rounds + 1 }
  (List.range g.posted.length).forM (wake changed)

/-- Rounds until nothing is pending, at most the given number of them. -/
def rounds : Nat → Action w π Unit
  | 0 => do if (← get).store.hasChanges then throw (.fault .roundLimit)
  | limit + 1 => do
    if (← get).store.hasChanges then
      round
      rounds limit

/-- Propagates until nothing is pending. Every round but the last takes a value from some
domain, which bounds their number. -/
def propagate : Action w π Unit := do
  tally fun c => { c with propagations := c.propagations + 1 }
  rounds ((← get).store.slack + 1)

/-- All posted constraints take themselves to hold for the current domains. -/
def satisfied (g : Engine w π) : Except Fault Bool :=
  g.posted.allM fun p => Propagator.satisfied p.propagator g.store

/-- All posted constraints with the current domains, one a line. -/
def describe (g : Engine w π) : Except Fault String := do
  return "\n".intercalate
    (← g.posted.mapM fun p => Propagator.describe p.propagator g.store)

/-- The text of an engine. -/
def text (g : Engine w π) : String :=
  s!"PropagationEngine(constraints: {g.posted.length}, {g.store.text})"

end Engine
end Placement
