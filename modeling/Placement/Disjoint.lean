/-
# Non-overlap

`Disjoint` requires that no two of its rectangles overlap. One pass looks at every
rectangle in turn:

1. a rectangle whose length may be negative, or that was fixed before the current
   level, is passed over;
2. it is analysed against its overlap candidates, which may refute the store;
3. unless neither it nor a neighbour that matters changed, nor its candidates became
   fewer, its candidates are replaced and its origins are tightened.
-/

import Placement.Candidates
import Placement.Propagator
import Placement.Statistics
import Placement.Tighten

namespace Placement

/-- No two of the rectangles overlap. -/
structure Disjoint where
  id : Option ConstraintId
  rectangles : List Rectangle
  mode : Mode
  candidates : Candidates
  statistics : Statistics
  uniform : ∀ a ∈ rectangles, ∀ b ∈ rectangles, a.dim = b.dim

namespace Disjoint

variable {w : Width}

/-- The constraint over rectangles of one dimensionality, not yet imposed. -/
def make (rectangles : List Rectangle) (mode : Mode) : Except Fault Disjoint :=
  if h : ∀ a ∈ rectangles, ∀ b ∈ rectangles, a.dim = b.dim then
    .ok ⟨none, rectangles, mode, .empty, .zero, h⟩
  else .error .mixedDimensions

/-- The name of the constraint in reports, with its number once it is imposed. -/
def label (d : Disjoint) : String :=
  match d.id with
  | some id => s!"Disjoint#{id.val}"
  | none => "Disjoint"

/-- The variables of all rectangles. -/
def scope (d : Disjoint) : List Var := d.rectangles.flatMap Rectangle.vars

/-- Allocates the overlap candidates and takes an id. -/
def impose (d : Disjoint) (id : ConstraintId) (s : Store w) : Disjoint × Store w × List Event :=
  let (candidates, s) := Candidates.allocate s d.rectangles.length
  let d := { d with id := some id, candidates := candidates }
  (d, s, [.imposed d.label d.rectangles.length d.mode])

/-- The rectangles that may overlap the one at position `k`; all others before the constraint
is imposed. -/
def overlapCandidates (d : Disjoint) (s : Store w) (k : Nat) : Except Fault (List Nat) :=
  if d.candidates.isAllocated then d.candidates.get s k
  else .ok (Candidates.others d.rectangles.length k)

/-! ## One pass -/

/-- Analyses the rectangle at position `k` against its candidates. -/
def inspect (d : Disjoint) (changed : List Var) (k : Nat) (candidates : List Nat) :
    Narrowing w Neighborhood := do
  match analyze (← get).store d.rectangles k candidates changed with
  | .ok found => return found
  | .error (.fault cause) => throw (.fault cause)
  | .error (.refuted violation) =>
    Narrowing.report (.violated k violation)
    Narrowing.report (.infeasible d.label k violation.bound)
    throw (.refuted (.violated violation.bound))

/-- Tightens the origins of the rectangle at position `k`. -/
def tighten (d : Disjoint) (k : Nat) (found : Neighborhood) : Narrowing w Unit := do
  let moved ← tryCatch (Tighten.rectangle d.rectangles k found d.mode) fun
    | .fault cause => throw (.fault cause)
    | .refuted cause => do
      Narrowing.report (.stuck d.label k cause)
      throw (.refuted cause)
  Narrowing.report (.tightened moved)

/-- Analyses the rectangle `r` at position `k` and, if anything it depends on changed, replaces
its candidates and tightens its origins. -/
def revise (d : Disjoint) (changed : List Var) (k : Nat) (r : Rectangle) : Narrowing w Unit := do
  Narrowing.report .analyzed
  let current ← Narrowing.read (d.candidates.get · k)
  let found ← d.inspect changed k current
  let shrunk := found.overlapping.length ≠ current.length
  if shrunk ∨ found.changed ∨ r.touches changed then
    if shrunk then
      Narrowing.report (.candidates d.label k current.length found.overlapping.length)
      Narrowing.update (d.candidates.replace · k found.overlapping)
    d.tighten k found
  else Narrowing.report (.unchanged d.label k)

/-- Narrows the rectangle at position `k`. -/
def narrowRectangle (d : Disjoint) (changed : List Var) (k : Nat) : Narrowing w Unit := do
  let r ← Narrowing.read fun _ => entry d.rectangles k
  if ← Narrowing.read r.hasNegativeLength then
    Narrowing.report (.negativeLength d.label k (r.describe (← get).store))
  else if ← Narrowing.read r.isSettled then Narrowing.report .settled
  else d.revise changed k r

/-- One pass over all rectangles. -/
def pass (d : Disjoint) (changed : List Var) : Narrowing w Unit := do
  if !d.rectangles.isEmpty && !d.candidates.isAllocated then throw (.fault .notImposed)
  Narrowing.report .pass
  (List.range d.rectangles.length).forM (d.narrowRectangle changed)

/-- One pass over all rectangles, with its events counted. -/
def narrow (d : Disjoint) (changed : List Var) (s : Store w) : Narrowed w Disjoint :=
  let (store, events, outcome) := (d.pass changed).runOn s
  ⟨{ d with statistics := d.statistics.countEvents events }, store, events, outcome⟩

/-! ## Entailment and texts -/

/-- No rectangle may overlap one of its candidates. -/
def satisfied (d : Disjoint) (s : Store w) : Except Fault Bool :=
  (List.range d.rectangles.length).allM fun k => do
    let r ← entry d.rectangles k
    (← d.overlapCandidates s k).allM fun j => do
      return !(← r.mayOverlap (← entry d.rectangles j) s)

/-- The constraint with the current domains. -/
def describe (d : Disjoint) (s : Store w) : Except Fault String := do
  let rectangles ← d.rectangles.mapM (·.describe s)
  return s!"{d.label} : disjoint({Rectangle.bracketed rectangles}, {d.mode.text})"

/-- The constraint with the numbers of its variables. -/
def text (d : Disjoint) : String :=
  s!"{d.label}(mode: {d.mode.text}, rectangles: " ++
    Rectangle.bracketed (d.rectangles.map Rectangle.text) ++ ")"

instance : Propagator Disjoint where
  name _ := "Disjoint"
  scope := scope
  impose := impose
  narrow := narrow
  satisfied := satisfied
  describe := describe

end Disjoint
end Placement
