/-
# What propagation reports

Everything noteworthy that happens while constraints are posted and domains are
narrowed is an `Event`, in order. Some events have a line in the report, at one of
three levels; the others are silent and only counted.

Nothing depends on whether the report is read. A line that describes a rectangle
through a variable that does not exist cannot be written, which is a fault of the
report and not of the propagation: `report` gives the lines before it and the fault.
-/

import Placement.Fault
import Placement.Inconsistency
import Placement.Profile

namespace Placement

/-- Which reasoning tightens a rectangle. -/
inductive Mode where
  /-- Used space only. -/
  | pairwise
  /-- Used space, and profiles over every pair of dimensions. The `sorter` of their steps stands for
  whatever order the steps of one place come in. -/
  | profile (sorter : Sorter Step.place := .stable Step.place)

/-- The text of a mode. -/
def Mode.text : Mode → String
  | pairwise => "pairwise"
  | profile _ => "profile"

/-- How important a line of the report is. -/
inductive Level where
  | trace
  | debug
  | warn
deriving DecidableEq, Repr

/-- The text of a level. -/
def Level.text : Level → String
  | trace => "TRACE"
  | debug => "DEBUG"
  | warn => "WARN"

/-- Something that happened during propagation. `label` names a constraint and `rectangle` is
a position in its list. -/
inductive Event where
  /-- A constraint of non-overlap was imposed on a store. -/
  | imposed (label : String) (rectangles : Nat) (mode : Mode)
  /-- A constraint was posted to an engine. -/
  | posted (name : String) (id : ConstraintId)
  /-- An engine runs a constraint that watches a changed variable. -/
  | waking (name : String) (position : Nat)
  /-- A constraint refuted the store. -/
  | failed (name : String) (level : Nat) (cause : Inconsistency)
  /-- A pass over all rectangles of a constraint begins. -/
  | pass
  /-- A rectangle with a length that may be negative is passed over; its description, if all
  its variables exist. -/
  | negativeLength (label : String) (rectangle : Nat) (description : Except Fault String)
  /-- A rectangle that was fixed before the current level is passed over. -/
  | settled
  /-- A rectangle is analysed. -/
  | analyzed
  /-- A volume bound of a rectangle is violated. -/
  | violated (rectangle : Nat) (violation : Violation)
  /-- The analysis of a rectangle refuted the store. -/
  | infeasible (label : String) (rectangle : Nat) (bound : Bound)
  /-- Nothing that a rectangle depends on changed. -/
  | unchanged (label : String) (rectangle : Nat)
  /-- A rectangle lost overlap candidates. -/
  | candidates (label : String) (rectangle before after : Nat)
  /-- The bounds of an origin move from `min … max` to `lo … hi`. -/
  | tightening (origin : Var) (min max lo hi : Int)
  /-- The origins of a rectangle are tightened; so many bounds moved. -/
  | tightened (moved : Nat)
  /-- The origins of a rectangle could not be tightened. -/
  | stuck (label : String) (rectangle : Nat) (cause : Inconsistency)

namespace Event

/-- Why the line of an event cannot be written. -/
def fault? : Event → Option Fault
  | negativeLength _ _ (.error cause) => some cause
  | _ => none

/-- The level and the text of an event that has a line in the report. -/
def line? : Event → Option (Level × String)
  | imposed label rectangles mode =>
    some (.debug, s!"{label}: imposed over {rectangles} rectangles ({mode.text})")
  | posted name id => some (.debug, s!"posted {name} as {id.text}")
  | waking name position => some (.trace, s!"waking {name} ({position})")
  | failed name level cause => some (.debug, s!"{name} failed at level {level}: {cause.text}")
  | negativeLength _ _ (.error _) => none
  | negativeLength label rectangle (.ok description) =>
    some (.warn, s!"{label}: skipping rectangle {rectangle} " ++
      s!"with a negative minimal length {description}")
  | violated rectangle violation => some (.trace, s!"rectangle {rectangle} {violation.text}")
  | infeasible label rectangle bound =>
    some (.debug, s!"{label}: rectangle {rectangle} is infeasible: {bound.reason}")
  | unchanged label rectangle => some (.trace, s!"{label}: rectangle {rectangle} unchanged")
  | candidates label rectangle before after =>
    some (.trace, s!"{label}: rectangle {rectangle} candidates {before} -> {after}")
  | tightening origin min max lo hi =>
    some (.trace, s!"tightening {origin.text} from {min}..{max} to {lo}..{hi}")
  | stuck label rectangle cause =>
    some (.debug, s!"{label}: tightening rectangle {rectangle} failed: {cause.text}")
  | pass | settled | analyzed | tightened _ => none

/-- The lines of the report on a list of events, up to the first that cannot be written, and
the fault of that one. -/
def report (events : List Event) : List String × Option Fault :=
  let written := events.takeWhile fun e => e.fault?.isNone
  ((written.filterMap line?).map fun (level, text) => level.text ++ " " ++ text,
    events.findSome? fault?)

end Event
end Placement
