/-
# What a neighbour must take of a window

A neighbour of least length `length` starts at `start` at the earliest and stops
at `stop` at the latest. Of the window `[window.start, window.stop)` it takes least
at one of its two extreme placements, so the smaller of those two overlaps bounds
every placement in between.

A neighbour that may stick out on the right is measured against `latestStop`, where
the rectangle that owns the window stops at its latest start and its least length.
-/

import Placement.Span

namespace Placement

/-- The number of points of `window` that every placement of a neighbour takes. -/
def forcedExtent (w : Width) (start stop length : Int) (window : Span) (latestStop : Int) : Int :=
  let early := w.sub (w.add start length) window.start
  let late := w.sub length (w.sub stop latestStop)
  if start ≤ window.start then
    if stop ≤ window.stop then max 0 early
    else
      let room := w.sub latestStop window.start
      if min early room < min late room then max (min early room) 0
      else if 0 < min late room then min (min late room) length
      else 0
  else if window.stop < stop then
    if 0 < late then min late length else 0
  else length

end Placement
