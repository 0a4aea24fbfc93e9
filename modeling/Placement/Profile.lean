/-
# Profiles

A profile is a step function of one coordinate: at each point, the sum of the
heights of the contributions that cover it. It is kept as the ascending list of its
maximal non-zero stretches.

It is computed by a sweep. Every contribution raises the height at its start and
lowers it at its end; sorted by place, these steps are summed from left to right.
The order of steps at one place does not change the profile, but it decides whether
the running sum leaves the width on its way from the height before the place to the
height after it. So `sweep` takes any sorted list, and `build` any sorter.
-/

import Placement.Span.Merge

namespace Placement

/-- A height over an interval. -/
structure Contribution where
  span : Span
  height : Int
deriving DecidableEq

/-- A change of height at a place. -/
structure Step where
  place : Int
  delta : Int
deriving DecidableEq, Repr

/-- A stretch of constant height. -/
structure Segment where
  span : Span
  height : Int
deriving DecidableEq

/-- A step function, as its non-zero stretches in ascending order. -/
structure Profile where
  segments : List Segment
deriving DecidableEq

namespace Profile

/-- The steps of all contributions that cover a point with a height other than zero. -/
def steps (w : Width) : List Contribution → Except Fault (List Step)
  | [] => return []
  | c :: cs => do
    if c.span.IsEmpty ∨ c.height = 0 then steps w cs
    else
      let fall ← w.negChecked c.height
      let rest ← steps w cs
      return ⟨c.span.start, c.height⟩ :: ⟨c.span.stop, fall⟩ :: rest

/-- Adds the stretch from `start` to `stop` to the stretches found so far, newest first.
A stretch of height zero is left out, and one that continues the last is joined to it. -/
def extend (done : List Segment) (start stop height : Int) : Except Fault (List Segment) := do
  if height = 0 then return done
  match done with
  | last :: older =>
    if last.span.stop = start ∧ last.height = height then
      return ⟨← Span.make last.span.start stop, height⟩ :: older
    else return ⟨← Span.make start stop, height⟩ :: done
  | [] => return [⟨← Span.make start stop, height⟩]

/-- Sums sorted steps from a height on: the last height, and the stretches newest first. -/
def sweepFrom (w : Width) :
    Int → List Segment → List Step → Except Fault (Int × List Segment)
  | height, done, [] => return (height, done)
  | height, done, [step] => return (← w.addChecked height step.delta, done)
  | height, done, step :: next :: rest => do
    let height ← w.addChecked height step.delta
    let done ←
      if step.place = next.place then pure done else extend done step.place next.place height
    sweepFrom w height done (next :: rest)

/-- The profile of steps sorted by place. -/
def sweep (w : Width) (steps : List Step) : Except Fault Profile := do
  let (height, done) ← sweepFrom w 0 [] steps
  if height = 0 then return ⟨done.reverse⟩ else throw .heightLeft

/-- The profile of a list of contributions, whose steps `sorter` sorts. -/
def build (w : Width) (contributions : List Contribution)
    (sorter : Sorter Step.place := .stable Step.place) : Except Fault Profile := do
  sweep w (sorter.sort (← steps w contributions))

/-- The stretches where the height exceeds `limit`. -/
def above (p : Profile) (limit : Int) : List Span :=
  Span.merge ((p.segments.filter fun g => limit < g.height).map Segment.span)

/-- The text of a profile. -/
def text (p : Profile) : String :=
  let segment := fun (g : Segment) =>
    "ProfileSegment \x7b interval: " ++ g.span.text ++ s!", height: {g.height} " ++ "\x7d"
  "Profile \x7b segments: [" ++ ", ".intercalate (p.segments.map segment) ++ "] \x7d"

end Profile
end Placement
