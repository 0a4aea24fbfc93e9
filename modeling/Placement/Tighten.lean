/-
# Tightening origins

The origin of a rectangle of least length `length` moves past every region that the
rectangle would cover at one of its bounds. Regions are ascending and disjoint, so
one scan from the left finds the least origin that avoids them all, and one scan
from the right the greatest.
-/

import Placement.Narrowing
import Placement.Region

namespace Placement
namespace Tighten

variable {w : Width}

/-- Moves the lower bound `lo` past ascending regions. -/
def raise (w : Width) (length : Int) : Int → List Span → Int
  | lo, [] => lo
  | lo, region :: rest =>
    if region.stop ≤ lo then raise w length lo rest
    else if region.start < w.add lo length then raise w length region.stop rest
    else lo

/-- Moves the upper bound `hi` before descending regions. -/
def lower (w : Width) (length : Int) : Int → List Span → Int
  | hi, [] => hi
  | hi, region :: rest =>
    if w.add hi length ≤ region.start then lower w length hi rest
    else if hi < region.stop then lower w length (w.sub region.start length) rest
    else hi

/-- Moves both bounds of the origin `v` off the regions; the number of bounds that moved. -/
def origin (v : Var) (length : Int) (regions : List Span) : Narrowing w Nat := do
  if regions = [] ∨ length ≤ 0 then return 0
  let d ← Narrowing.read (·.domain v)
  let lo := raise w length d.lo regions
  let hi := lower w length d.hi regions.reverse
  let moved := (if d.lo < lo then 1 else 0) + (if hi < d.hi then 1 else 0)
  if 0 < moved then
    Narrowing.report (.tightening v d.lo d.hi lo hi)
    let _ ← Narrowing.setBounds v lo hi
  return moved

/-- Tightens one origin against a list of computed regions, each computed from the bounds that
the regions before it have left. -/
def originAgainst (v : Var) (length : Int) :
    List (Store w → Except Fault (List Span)) → Narrowing w Nat
  | [] => return 0
  | regions :: rest => do
    let moved ← origin v length (← Narrowing.read regions)
    return moved + (← originAgainst v length rest)

/-- The regions along dimension `i` of the rectangle `r` at position `k`: those of the used
space, then in profile mode those of the profiles over each other dimension. -/
def regions (rectangles : List Rectangle) (k : Nat) (r : Rectangle) (found : Neighborhood)
    (mode : Mode) (i : Nat) : List (Store w → Except Fault (List Span)) :=
  (fun s => Region.ofUsed s r i found.used) ::
    match mode with
    | .pairwise => []
    | .profile sorter =>
      if found.profiled = [] then []
      else (Region.otherDims r [i]).map fun j s =>
        Region.ofProfile s rectangles k i j found.profiled sorter

/-- Tightens the origins of the given dimensions in turn. A dimension whose least length is
zero or less is left alone. -/
def dimensions (rectangles : List Rectangle) (k : Nat) (r : Rectangle) (found : Neighborhood)
    (mode : Mode) : List Nat → Narrowing w Nat
  | [] => return 0
  | i :: is => do
    let length ← Narrowing.read (r.minLength · i)
    if length ≤ 0 then dimensions rectangles k r found mode is
    else
      let side ← Narrowing.read fun _ => r.side i
      let moved ← originAgainst side.origin length (regions rectangles k r found mode i)
      return moved + (← dimensions rectangles k r found mode is)

/-- Tightens every origin of the rectangle at position `k` against its neighbours; the number
of bounds that moved. -/
def rectangle (rectangles : List Rectangle) (k : Nat) (found : Neighborhood) (mode : Mode) :
    Narrowing w Nat := do
  let r ← Narrowing.read fun _ => entry rectangles k
  dimensions rectangles k r found mode (List.range r.dim)

end Tighten
end Placement
