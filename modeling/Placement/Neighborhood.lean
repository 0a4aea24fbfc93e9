/-
# A rectangle and its neighbours

`analyze` looks at one rectangle, the *focus*, and at a list of others. It keeps
those whose reach meets the reach of the focus in every dimension, and says which
of them cover space in every placement. On the way it tests three bounds on volumes;
the store is refuted when one of them is violated:

* *common area*: what the neighbours must take of the focus's reach, together with the
  focus's own least area, exceeds the volume of that reach;
* *area*: the least areas of the focus and its neighbours exceed the volume of the
  envelope that holds them all;
* *capacity*: the envelope, cut into cells of the least lengths, has fewer cells than
  there are rectangles.

The first is tested after every neighbour, the others once at the end, and only if
some neighbour has positive least lengths.
-/

import Placement.Neighborhood.Forced
import Placement.Rectangle

namespace Placement

/-- The space a neighbour covers in every placement, one interval per dimension. -/
structure Used where
  neighbor : Nat
  boxes : List Span
deriving DecidableEq

/-- What the analysis of a focus says of its neighbours. -/
structure Neighborhood where
  /-- Those whose reach meets the reach of the focus in every dimension. -/
  overlapping : List Nat
  /-- Overlapping neighbours with a mandatory part in every dimension. -/
  used : List Used
  /-- Overlapping neighbours of positive least lengths with a mandatory part in some dimension. -/
  profiled : List Nat
  /-- A variable of a used or profiled neighbour changed. -/
  changed : Bool
deriving DecidableEq

namespace Neighborhood

variable {w : Width}

/-- One dimension of the focus. -/
structure Window where
  reach : Span
  latestStop : Int
  minLength : Int
deriving DecidableEq

/-- The rectangle that is analysed. -/
structure Focus where
  index : Nat
  windows : List Window
  /-- The volume of the reach. -/
  volume : Int
  /-- The least area. -/
  area : Int
deriving DecidableEq

/-- One dimension of the focus, from what the store knows of it. -/
def Window.ofExtent (e : Extent w) : Except Fault Window := do
  return ⟨← e.reach, e.latestStop, e.length.lo⟩

/-- The focus on rectangle `r` at position `index`. -/
def focus (s : Store w) (r : Rectangle) (index : Nat) : Except Fault Focus := do
  let extents ← r.extents s
  let windows ← extents.mapM Window.ofExtent
  return {
    index, windows
    volume := w.product (windows.map fun d => d.reach.length w)
    area := w.product (extents.map fun e => max e.length.lo 0) }

/-- An overlapping neighbour. -/
structure Neighbor (w : Width) where
  index : Nat
  /-- Its extents along the dimensions of the focus. -/
  extents : List (Extent w)
  /-- All its least lengths are positive. -/
  solid : Bool
  /-- The least area of a solid neighbour. -/
  area : Int
  /-- One of its variables changed. -/
  changed : Bool

/-- The extents of a neighbour along the windows of the focus, if its reach meets them
all; stops at the first that it does not meet. -/
def meeting? (s : Store w) : List Window → List Side → Except Fault (Option (List (Extent w)))
  | [], _ => return some []
  | _ :: _, [] => throw .index
  | window :: windows, side :: sides => do
    let e ← s.extent side
    if window.reach.Meets (← e.reach) then
      return (← meeting? s windows sides).map (e :: ·)
    else return none

/-- Rectangle `r` at position `index` as a neighbour of the focus, if it overlaps. -/
def neighbor? (s : Store w) (changed : List Var) (f : Focus) (r : Rectangle) (index : Nat) :
    Except Fault (Option (Neighbor w)) := do
  match ← meeting? s f.windows r.sides with
  | none => return none
  | some extents =>
    let solid := !(← r.hasZeroExtent s)
    let area ← if solid then r.minArea s else pure 0
    return some { index, extents, solid, area, changed := r.touches changed }

/-- One dimension of the envelope: the earliest start, the latest stop at least length, and
the least length of all rectangles in it. -/
structure Stretch where
  start : Int
  stop : Int
  minLength : Int
deriving DecidableEq

/-- The stretch that also holds `e`. -/
def Stretch.widen (t : Stretch) (e : Extent w) : Stretch :=
  ⟨min t.start e.origin.lo, max t.stop e.latestStop, min t.minLength e.length.lo⟩

/-- The sums over the neighbours seen so far. -/
structure Tally where
  found : Neighborhood
  /-- The focus and the solid neighbours. -/
  envelope : List Stretch
  /-- The number of solid neighbours. -/
  solids : Nat
  /-- The least areas of the solid neighbours. -/
  area : Int
  /-- What all neighbours must take of the focus's reach. -/
  forced : Int

/-- No neighbour seen. -/
def Tally.start (f : Focus) : Tally where
  found := ⟨[], [], [], false⟩
  envelope := f.windows.map fun d => ⟨d.reach.start, d.latestStop, d.minLength⟩
  solids := 0
  area := 0
  forced := 0

/-- What a neighbour must take of the focus's reach. -/
def forcedVolume (f : Focus) (n : Neighbor w) : Int :=
  w.product (List.zipWith
    (fun d e =>
      let length := max e.length.lo 0
      forcedExtent w e.origin.lo (w.add e.origin.hi length) length d.reach d.latestStop)
    f.windows n.extents)

/-- The mandatory parts of a neighbour. -/
def Neighbor.boxes (n : Neighbor w) : List Span := n.extents.filterMap Extent.mandatory?

/-- The neighbour has a mandatory part in every dimension. -/
def Neighbor.isUsed (n : Neighbor w) : Bool := n.boxes.length == n.extents.length

/-- The neighbour is solid and has a mandatory part in some dimension. -/
def Neighbor.isProfiled (n : Neighbor w) : Bool := n.solid && !n.boxes.isEmpty

/-- Adds an overlapping neighbour. -/
def add (h : Neighborhood) (n : Neighbor w) : Neighborhood where
  overlapping := h.overlapping ++ [n.index]
  used := if n.isUsed then h.used ++ [⟨n.index, n.boxes⟩] else h.used
  profiled := if n.isProfiled then h.profiled ++ [n.index] else h.profiled
  changed := h.changed || (n.changed && (n.isUsed || n.isProfiled))

/-- Adds a neighbour to the sums. -/
def Tally.add (f : Focus) (t : Tally) (n : Neighbor w) : Tally :=
  let forced := w.add t.forced (forcedVolume f n)
  if n.solid then
    { found := t.found.add n
      envelope := List.zipWith Stretch.widen t.envelope n.extents
      solids := t.solids + 1
      area := w.add t.area n.area
      forced }
  else { t with found := t.found.add n, forced }

/-- The common area bound. -/
def Tally.checkCommonArea (w : Width) (f : Focus) (t : Tally) : Except (Failure Violation) Unit :=
  if f.volume < w.add t.forced f.area then
    .error (.refuted (.commonArea t.forced f.area f.volume))
  else .ok ()

/-- Looks at the rectangle at position `index`; the focus itself is passed over. -/
def visit (s : Store w) (rectangles : List Rectangle) (changed : List Var) (f : Focus) (t : Tally)
    (index : Nat) : Except (Failure Violation) Tally := do
  if index = f.index then return t
  let r ← entry rectangles index
  let t := match ← neighbor? s changed f r index with
    | none => t
    | some n => t.add f n
  t.checkCommonArea w f
  return t

/-- The area bound and the capacity bound. -/
def Tally.checkEnvelope (w : Width) (f : Focus) (t : Tally) : Except (Failure Violation) Unit := do
  let area := w.add t.area f.area
  let available := w.product (t.envelope.map fun d => w.sub d.stop d.start)
  if available < area then throw (.refuted (.area area available))
  if t.envelope.all (0 < ·.minLength) then
    let cells := w.product (t.envelope.map fun d => w.sub d.stop d.start / d.minLength)
    let needed := w.clamp (t.solids + 1)
    if cells < needed then throw (.refuted (.capacity cells needed))

end Neighborhood

/-- Analyses the rectangle at position `r` against the rectangles at the positions
`neighbors`. -/
def analyze {w : Width} (s : Store w) (rectangles : List Rectangle) (r : Nat)
    (neighbors : List Nat) (changed : List Var) : Except (Failure Violation) Neighborhood := do
  let f ← Neighborhood.focus s (← entry rectangles r) r
  let t ← neighbors.foldlM (Neighborhood.visit s rectangles changed f) (.start f)
  if 0 < t.solids then t.checkEnvelope w f
  return t.found

end Placement
