/-
# Rectangles

A rectangle has one side per dimension; the origin and the length of a side are
variables of a store. The variables need not exist when the rectangle is made, so
everything read through them may fault.
-/

import Placement.Rectangle.Extent
import Placement.Store

namespace Placement

/-- The variables of one dimension of a rectangle. -/
structure Side where
  origin : Var
  length : Var
deriving DecidableEq, Repr

/-- An axis-parallel box in one or more dimensions. -/
structure Rectangle where
  sides : List Side
  sides_ne_nil : sides ≠ []
deriving DecidableEq

/-- What a store knows of one side. -/
def Store.extent {w : Width} (s : Store w) (side : Side) : Except Fault (Extent w) := do
  let origin ← s.domain side.origin
  let length ← s.domain side.length
  return ⟨origin, length⟩

namespace Rectangle

variable {w : Width}

/-- The number of dimensions. -/
def dim (r : Rectangle) : Nat := r.sides.length

/-- The origin variables. -/
def origins (r : Rectangle) : List Var := r.sides.map Side.origin

/-- The length variables. -/
def lengths (r : Rectangle) : List Var := r.sides.map Side.length

/-- All variables, the origins first. -/
def vars (r : Rectangle) : List Var := r.origins ++ r.lengths

/-- The side of dimension `i`. -/
def side (r : Rectangle) (i : Nat) : Except Fault Side := entry r.sides i

/-- Some variable of the rectangle is among `changed`. -/
def touches (r : Rectangle) (changed : List Var) : Bool := r.vars.any changed.contains

/-! ## What a store knows of it -/

/-- The extent along dimension `i`. -/
def extent (r : Rectangle) (s : Store w) (i : Nat) : Except Fault (Extent w) := do
  s.extent (← r.side i)

/-- The extents along all dimensions. -/
def extents (r : Rectangle) (s : Store w) : Except Fault (List (Extent w)) :=
  r.sides.mapM s.extent

/-- The reach along dimension `i`. -/
def reach (r : Rectangle) (s : Store w) (i : Nat) : Except Fault Span := do
  (← r.extent s i).reach

/-- The mandatory part along dimension `i`. -/
def mandatory? (r : Rectangle) (s : Store w) (i : Nat) : Except Fault (Option Span) := do
  return (← r.extent s i).mandatory?

/-- The least length along dimension `i`. -/
def minLength (r : Rectangle) (s : Store w) (i : Nat) : Except Fault Int := do
  return (← s.domain (← r.side i).length).lo

/-- Some length may be zero or less. -/
def hasZeroExtent (r : Rectangle) (s : Store w) : Except Fault Bool :=
  r.lengths.anyM fun l => return (← s.domain l).lo ≤ 0

/-- Some length may be negative. -/
def hasNegativeLength (r : Rectangle) (s : Store w) : Except Fault Bool :=
  r.lengths.anyM fun l => return (← s.domain l).lo < 0

/-- All variables are fixed, and none of them was written at the current level. -/
def isSettled (r : Rectangle) (s : Store w) : Except Fault Bool :=
  r.vars.allM fun v => do
    let c ← s.cell v
    return c.domain.IsFixed ∧ c.stamp < s.level

/-- The product of the least lengths, where a negative one counts as zero. -/
def minArea (r : Rectangle) (s : Store w) : Except Fault Int := do
  let lengths ← r.lengths.mapM s.domain
  return w.product (lengths.map fun l => max l.lo 0)

/-- The reaches along corresponding sides all meet; stops at the first that do not. -/
def reachesMeet (s : Store w) : List Side → List Side → Except Fault Bool
  | [], _ => return true
  | _ :: _, [] => throw .index
  | a :: as, b :: bs => do
    let x ← (← s.extent a).reach
    let y ← (← s.extent b).reach
    if x.Meets y then reachesMeet s as bs else return false

/-- The reaches of two rectangles of positive least lengths meet in every dimension. -/
def mayOverlap (a b : Rectangle) (s : Store w) : Except Fault Bool := do
  if a.dim ≠ b.dim then throw .unlikeDimensions
  if ← a.hasZeroExtent s then return false
  if ← b.hasZeroExtent s then return false
  reachesMeet s a.sides b.sides

/-! ## Texts -/

/-- Items between brackets, separated by commas. -/
def bracketed (items : List String) : String := "[" ++ ", ".intercalate items ++ "]"

/-- The rectangle with the current domains. -/
def describe (r : Rectangle) (s : Store w) : Except Fault String := do
  let origins ← r.origins.mapM s.domain
  let lengths ← r.lengths.mapM s.domain
  return s!"[origin: {bracketed (origins.map Domain.text)}, " ++
    s!"length: {bracketed (lengths.map Domain.text)}]"

/-- The rectangle with the numbers of its variables. -/
def text (r : Rectangle) : String :=
  let numbers := fun (vs : List Var) => bracketed (vs.map fun v => toString v.val)
  s!"Rectangle(origin: {numbers r.origins}, length: {numbers r.lengths})"

end Rectangle
end Placement
