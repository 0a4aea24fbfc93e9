/-
# Misuse and refutation

Two different things can end a computation early.

* A `Fault` says that the computation was asked something that has no answer: an
  inverted interval, an index outside its table, a height outside its width. It
  is not part of the problem being solved.
* A refutation says that the problem has no solution. It is the normal way for
  propagation to fail, and the evidence travels with it.
-/

namespace Placement

/-- What a computation was asked that has no answer, by cause. -/
inductive Fault where
  /-- The start of an interval lies after its end. -/
  | invertedSpan
  /-- The lower bound of a domain lies above its upper bound. -/
  | emptyDomain
  /-- A value lies outside the width. -/
  | outsideWidth
  /-- A table has no entry at an index. -/
  | index
  /-- A running sum left the width. -/
  | addOverflow
  /-- A negated value left the width. -/
  | negOverflow
  /-- A profile ended at a height other than zero. -/
  | heightLeft
  /-- A profile was asked for two equal dimensions. -/
  | sameDimension
  /-- A rectangle was given no dimension. -/
  | noDimension
  /-- A rectangle was given different numbers of origins and lengths. -/
  | unpairedSides (origins lengths : Nat)
  /-- A row of variables is empty or has odd length. -/
  | oddRow (length : Nat)
  /-- No columns were given. -/
  | noColumn
  /-- Different numbers of origin and length columns were given. -/
  | unpairedColumns (origins lengths : Nat)
  /-- The columns have different lengths. -/
  | raggedColumns
  /-- The rectangles of one constraint have different dimensionality. -/
  | mixedDimensions
  /-- Two rectangles of different dimensionality were compared. -/
  | unlikeDimensions
  /-- A candidate set was replaced by one that is not a subset. -/
  | strangerCandidate
  /-- A constraint narrowed before it was imposed. -/
  | notImposed
  /-- Propagation was still changing domains when its round limit was used up. -/
  | roundLimit
deriving DecidableEq, Repr

namespace Fault

/-- The text reported for a fault; an index outside its table has none. -/
def message : Fault → String
  | invertedSpan =>
    "Invalid interval: start_inclusive must be less than or equal to end_exclusive"
  | emptyDomain =>
    "called `IntervalDomain::new` with an empty domain: min must not exceed max"
  | outsideWidth => "value outside the coordinate width"
  | index => ""
  | addOverflow => "attempt to add with overflow"
  | negOverflow => "attempt to negate with overflow"
  | heightLeft => "profile events must cancel out"
  | sameDimension => "called `forbidden_regions` with identical dimensions"
  | noDimension => "called `Rectangle::new` with zero dimensions"
  | unpairedSides origins lengths =>
    s!"called `Rectangle::new` with {origins} origins but {lengths} lengths"
  | oddRow length =>
    s!"called `Rectangle::from_row` with a row of length {length}; expected a non-empty even length"
  | noColumn => "called `rectangles_from_columns` with zero dimensions"
  | unpairedColumns origins lengths =>
    s!"called `rectangles_from_columns` with {origins} origin columns but {lengths} length columns"
  | raggedColumns => "called `rectangles_from_columns` with columns of different lengths"
  | mixedDimensions => "called `Disjoint::new` with rectangles of mixed dimensionality"
  | unlikeDimensions =>
    "called `Rectangle::dom_overlap` with rectangles of different dimensionality"
  | strangerCandidate =>
    "called `OverlapCache::replace` with a candidate outside the current set"
  | notImposed => "called `Disjoint::narrow` before `Disjoint::impose`"
  | roundLimit => "round limit used up"

end Fault

/-- The entry of a table at an index that must exist. -/
def entry {α : Type} (table : List α) (i : Nat) : Except Fault α :=
  match table[i]? with
  | some a => .ok a
  | none => .error .index

/-- How a computation over a store ends early: on misuse, or with a refutation. -/
inductive Failure (ε : Type) where
  | fault (cause : Fault)
  | refuted (evidence : ε)
deriving DecidableEq, Repr

/-- A computation that can only be misused runs where a refutation is possible too. -/
instance {ε : Type} : MonadLift (Except Fault) (Except (Failure ε)) where
  monadLift := Except.mapError .fault

end Placement
