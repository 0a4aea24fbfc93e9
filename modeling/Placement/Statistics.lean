/-
# Counters of a non-overlap constraint

The counters of a constraint are a function of its events: each event ticks at most
one of them, and a tightening two. A counter stops at the largest 64-bit word.
-/

import Placement.Event

namespace Placement

/-- What a counter counts. -/
inductive Tick where
  /-- A pass over all rectangles. -/
  | pass
  /-- A rectangle analysed. -/
  | analyzed
  /-- A settled rectangle passed over. -/
  | settled
  /-- A rectangle with a possibly negative length passed over. -/
  | negativeLength
  /-- A candidate set replaced by a smaller one. -/
  | candidates
  /-- A rectangle tightened; so many bounds moved. -/
  | tightened (moved : Nat)
  /-- A store refuted by a volume bound. -/
  | infeasible (bound : Bound)
  /-- A store refuted by an origin without a value. -/
  | stuck
deriving DecidableEq, Repr

/-- What an event counts as. -/
def Event.tick? : Event → Option Tick
  | pass => some .pass
  | analyzed => some .analyzed
  | settled => some .settled
  | negativeLength .. => some .negativeLength
  | candidates .. => some .candidates
  | tightened moved => some (.tightened moved)
  | infeasible _ _ bound => some (.infeasible bound)
  | stuck .. => some .stuck
  | imposed .. | posted .. | waking .. | failed .. | violated .. | unchanged .. | tightening .. => none

/-- The counters of a constraint. -/
structure Statistics where
  passes : Nat
  analyzed : Nat
  settled : Nat
  negativeLengths : Nat
  candidateUpdates : Nat
  tightenings : Nat
  boundsMoved : Nat
  commonAreaFailures : Nat
  areaFailures : Nat
  capacityFailures : Nat
  domainFailures : Nat
deriving DecidableEq, Repr

namespace Statistics

/-- Nothing counted. -/
def zero : Statistics := ⟨0, 0, 0, 0, 0, 0, 0, 0, 0, 0, 0⟩

/-- The largest value of a counter. -/
def limit : Nat := 18446744073709551615

/-- Adds to a counter, up to its largest value. -/
def bump (counter amount : Nat) : Nat := min (counter + amount) limit

/-- Counts one tick. -/
def count (s : Statistics) : Tick → Statistics
  | .pass => { s with passes := bump s.passes 1 }
  | .analyzed => { s with analyzed := bump s.analyzed 1 }
  | .settled => { s with settled := bump s.settled 1 }
  | .negativeLength => { s with negativeLengths := bump s.negativeLengths 1 }
  | .candidates => { s with candidateUpdates := bump s.candidateUpdates 1 }
  | .tightened moved =>
    { s with tightenings := bump s.tightenings 1, boundsMoved := bump s.boundsMoved moved }
  | .infeasible .commonArea => { s with commonAreaFailures := bump s.commonAreaFailures 1 }
  | .infeasible .area => { s with areaFailures := bump s.areaFailures 1 }
  | .infeasible .capacity => { s with capacityFailures := bump s.capacityFailures 1 }
  | .stuck => { s with domainFailures := bump s.domainFailures 1 }

/-- Counts a list of events. -/
def countEvents (s : Statistics) (events : List Event) : Statistics :=
  (events.filterMap Event.tick?).foldl count s

/-- The number of refutations of any kind. -/
def failures (s : Statistics) : Nat :=
  bump (bump (bump s.commonAreaFailures s.areaFailures) s.capacityFailures) s.domainFailures

/-- The report of the counters. -/
def text (s : Statistics) : String :=
  "Disjoint Statistics:\n" ++
  s!"  Narrow calls:          {s.passes}\n" ++
  s!"  Rectangles analyzed:   {s.analyzed}\n" ++
  s!"  Settled skips:         {s.settled}\n" ++
  s!"  Negative-length skips: {s.negativeLengths}\n" ++
  s!"  Cache updates:         {s.candidateUpdates}\n" ++
  s!"  Tightening runs:       {s.tightenings}\n" ++
  s!"  Bounds tightened:      {s.boundsMoved}\n" ++
  s!"  Failures (common area):{s.commonAreaFailures}\n" ++
  s!"  Failures (area):       {s.areaFailures}\n" ++
  s!"  Failures (capacity):   {s.capacityFailures}\n" ++
  s!"  Failures (domain):     {s.domainFailures}\n"

end Statistics
end Placement
