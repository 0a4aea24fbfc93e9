/-
# Regions a rectangle cannot cover

Along one dimension `i`, other rectangles keep the focus out of two kinds of
stretches:

* *used space*: where a neighbour is in every placement, if the neighbour also meets
  the focus's mandatory part in every other dimension;
* *full profiles*: where the neighbours' mandatory parts, stacked along a second
  dimension `j` inside the focus's reach, leave less room than the focus needs. In
  more than two dimensions a neighbour counts only if, in every remaining dimension,
  it and the focus both cover the focus's latest origin in every placement.

Both give merged intervals.
-/

import Placement.Neighborhood
import Placement.Profile

namespace Placement
namespace Region

variable {w : Width}

/-- The dimensions other than those given. -/
def otherDims (r : Rectangle) (dims : List Nat) : List Nat :=
  (List.range r.dim).filter fun k => ¬ dims.contains k

/-- The used space meets the focus's mandatory part in every dimension but `i`. -/
def blocks (s : Store w) (r : Rectangle) (i : Nat) (u : Used) : Except Fault Bool :=
  (otherDims r [i]).allM fun j => do
    match ← r.mandatory? s j with
    | none => return false
    | some part => return part.Meets (← entry u.boxes j)

/-- The intervals along `i` of the used spaces that block the focus. -/
def blocking (s : Store w) (r : Rectangle) (i : Nat) : List Used → Except Fault (List Span)
  | [] => return []
  | u :: us => do
    if ← blocks s r i u then
      let box ← entry u.boxes i
      return box :: (← blocking s r i us)
    else blocking s r i us

/-- The stretches of dimension `i` that rectangle `r` cannot cover because of used space. -/
def ofUsed (s : Store w) (r : Rectangle) (i : Nat) (used : List Used) :
    Except Fault (List Span) := do
  return Span.merge (← blocking s r i used)

/-- The latest origins of the focus in the given dimensions, if it covers each of them in
every placement. -/
def sharedPoints (s : Store w) (r : Rectangle) : List Nat → Except Fault (Option (List (Nat × Int)))
  | [] => return some []
  | k :: ks => do
    let e ← r.extent s k
    match e.mandatory? with
    | none => return none
    | some part =>
      if e.origin.hi ∈ part then return (← sharedPoints s r ks).map ((k, e.origin.hi) :: ·)
      else return none

/-- The rectangle covers the given points in every placement. -/
def covers (s : Store w) (r : Rectangle) (points : List (Nat × Int)) : Except Fault Bool :=
  points.allM fun (k, p) => do
    match ← r.mandatory? s k with
    | none => return false
    | some part => return decide (p ∈ part)

/-- What a neighbour adds to the profile over `sweep` along `i`, measured along `j` inside
`reach`. -/
def contribution? (s : Store w) (r : Rectangle) (i j : Nat) (sweep reach : Span)
    (points : List (Nat × Int)) : Except Fault (Option Contribution) := do
  match (← r.mandatory? s i).bind (·.inter? sweep) with
  | none => return none
  | some along =>
    match ← r.mandatory? s j with
    | none => return none
    | some part =>
      let height := part.overlap w reach
      let shared ← covers s r points
      if 0 < height ∧ shared then return some ⟨along, height⟩ else return none

/-- What all candidates add to the profile. -/
def contributions (s : Store w) (rectangles : List Rectangle) (i j : Nat) (sweep reach : Span)
    (points : List (Nat × Int)) : List Nat → Except Fault (List Contribution)
  | [] => return []
  | k :: ks => do
    let c ← contribution? s (← entry rectangles k) i j sweep reach points
    return c.toList ++ (← contributions s rectangles i j sweep reach points ks)

/-- The stretches of dimension `i` that the rectangle at position `r` cannot cover because the
candidates leave too little room for it along dimension `j`; `sorter` sorts the steps of their
profile. -/
def ofProfile (s : Store w) (rectangles : List Rectangle) (r i j : Nat) (candidates : List Nat)
    (sorter : Sorter Step.place := .stable Step.place) : Except Fault (List Span) := do
  if i = j then throw .sameDimension
  let r ← entry rectangles r
  let e ← r.extent s i
  match Span.make? e.origin.lo e.latestStop with
  | none => return []
  | some sweep =>
    let f ← r.extent s j
    let reach ← f.reach
    let limit := w.sub (reach.length w) f.length.lo
    match ← sharedPoints s r (otherDims r [i, j]) with
    | none => return []
    | some points =>
      let profile ←
        Profile.build w (← contributions s rectangles i j sweep reach points candidates) sorter
      return profile.above limit

end Region
end Placement
