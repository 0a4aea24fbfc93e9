/-
# Why the current domains admit no solution

Propagation refutes a store in two ways: a narrowing would leave a variable
without a value, or one of three volume bounds shows that the rectangles cannot
fit. A `Violation` is a violated bound with the numbers that violate it.
-/

import Placement.Index

namespace Placement

/-- The volume bounds of a rectangle and its neighbours. -/
inductive Bound where
  /-- What the neighbours must take of the rectangle's reach leaves too little of it. -/
  | commonArea
  /-- The minimal areas together exceed the space they lie in. -/
  | area
  /-- The space is too small for that many rectangles of the least size. -/
  | capacity
deriving DecidableEq, Repr

/-- A short description of a violated bound. -/
def Bound.reason : Bound → String
  | commonArea => "forced neighbor volume exceeds the rectangle's reach"
  | area => "minimal areas exceed the available envelope"
  | capacity => "envelope cannot hold every rectangle at minimal size"

/-- A bound and the numbers that violate it. -/
inductive Violation where
  /-- `forced + own > reach`. -/
  | commonArea (forced own reach : Int)
  /-- `needed > available`. -/
  | area (needed available : Int)
  /-- `cells < needed`. -/
  | capacity (cells needed : Int)
deriving DecidableEq, Repr

/-- The bound that is violated. -/
def Violation.bound : Violation → Bound
  | commonArea .. => .commonArea
  | area .. => .area
  | capacity .. => .capacity

/-- The text of a violation. -/
def Violation.text : Violation → String
  | commonArea forced own reach => s!"fails common area: {forced} + {own} > {reach}"
  | area needed available => s!"fails area: {needed} > {available}"
  | capacity cells needed => s!"fails capacity: {cells} cells for {needed} rectangles"

/-- The current domains admit no solution. -/
inductive Inconsistency where
  /-- A narrowing would have left the variable without a value. -/
  | emptyDomain (var : Var)
  /-- A volume bound is violated. -/
  | violated (bound : Bound)
deriving DecidableEq, Repr

/-- The text of an inconsistency. -/
def Inconsistency.text : Inconsistency → String
  | emptyDomain var => s!"Domain of {var.text} became empty"
  | violated bound => s!"Infeasibility proven: {bound.reason}"

end Placement
