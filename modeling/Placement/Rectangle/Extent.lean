/-
# One dimension of a rectangle

An `Extent` holds what is known of a rectangle along one dimension: the domains of
its origin and of its length. Two intervals follow from it:

* the *reach* `[origin.lo, origin.hi + length.hi)`, which no placement leaves;
* the *mandatory part* `[origin.hi, origin.lo + length.lo)`, which every placement
  covers, if the latest start does not lie after the earliest stop.
-/

import Placement.Domain
import Placement.Span

namespace Placement

/-- The domains of an origin and of a length along one dimension. -/
structure Extent (w : Width) where
  origin : Domain w
  length : Domain w
deriving DecidableEq

namespace Extent

variable {w : Width}

/-- The least interval that no placement leaves; empty if the length cannot be positive. -/
def reach (e : Extent w) : Except Fault Span :=
  if e.length.hi ≤ 0 then Span.make e.origin.lo e.origin.lo
  else Span.make e.origin.lo (w.add e.origin.hi e.length.hi)

/-- The interval that every placement covers. -/
def mandatory? (e : Extent w) : Option Span :=
  Span.make? e.origin.hi (w.add e.origin.lo e.length.lo)

/-- A mandatory part goes from the latest start to the earliest stop. -/
theorem mandatory?_eq_some {e : Extent w} {m : Span} (h : e.mandatory? = some m) :
    m.start = e.origin.hi ∧ m.stop = w.add e.origin.lo e.length.lo := Span.make?_eq_some h

/-- Where the rectangle stops at its latest start and its least length. -/
def latestStop (e : Extent w) : Int := w.add e.origin.hi e.length.lo

/-- A clamped stop never lies before the latest start. -/
theorem hi_le_add (e : Extent w) (x : Int) (hx : 0 ≤ x) : e.origin.hi ≤ w.add e.origin.hi x := by
  have h := w.clamp_mono (show e.origin.hi ≤ e.origin.hi + x by omega)
  rwa [Width.clamp_of_holds e.origin.holds_hi] at h

/-- **Every extent has a reach**, also when its end is clamped. -/
theorem reach_eq_ok (e : Extent w) :
    ∃ r : Span, e.reach = .ok r ∧ r.start = e.origin.lo ∧
      r.stop = if e.length.hi ≤ 0 then e.origin.lo else w.add e.origin.hi e.length.hi := by
  unfold reach
  split
  · exact ⟨_, Span.make_of_le (Int.le_refl _), rfl, rfl⟩
  · next h =>
    have := e.origin.lo_le_hi
    have := e.hi_le_add e.length.hi (by omega)
    exact ⟨_, Span.make_of_le (by omega), rfl, rfl⟩

end Extent
end Placement
