/-
# What every placement takes of a window

From the origin `o`, an interval of length `l` takes `commonPoints` of a window. The count rises with the
origin up to the start of the window and falls from there on, so between two origins it is never less than
at one of them (`min_commonPoints_le`), and the least overlap over all origins is the smaller one of the two
extreme placements (`isLeast_commonPoints`).

Where no sum or difference saturates, `forcedExtent` is this least overlap (`forcedExtent_eq`): with the
whole window for a neighbour that cannot stick out on the right, and for any other with the part of it
before the latest stop of the rectangle that owns it. So every placement takes that much, also with more
than the least length, and if the latest stop is the end of the window, some placement takes no more
(`forcedExtent_least_overlap`).
-/

import Placement.Proofs.Placing
import Mathlib.Order.Bounds.Defs

namespace Placement

variable {w : Width}

/-! ## Common points -/

/-- The number of points that `[o, o + l)` and `[a, b)` have in common. -/
def commonPoints (a b o l : Int) : Int := max 0 (min (o + l) b - max o a)

/-- Common points are counted by the overlap of the two spans. -/
theorem card_points_inter (a b o l : Int) :
    ((Box.points (o, o + l) ∩ Box.points (a, b)).card : Int) = commonPoints a b o l := by
  have hinter : Box.points (o, o + l) ∩ Box.points (a, b) = Box.points (max o a, min (o + l) b) := by
    ext x
    rw [Finset.mem_inter, Box.mem_points, Box.mem_points, Box.mem_points]
    omega
  rw [hinter, Box.card_points, commonPoints]
  omega

section Extremes

variable {a b o l first last : Int}

/-- Before the window, a later origin has no fewer common points. -/
theorem commonPoints_rises {o' : Int} (h : o ≤ o') (ho' : o' ≤ a) :
    commonPoints a b o l ≤ commonPoints a b o' l := by
  unfold commonPoints
  omega

/-- Inside the window, a later origin has no more common points. -/
theorem commonPoints_falls {o' : Int} (ho : a ≤ o) (h : o ≤ o') :
    commonPoints a b o' l ≤ commonPoints a b o l := by
  unfold commonPoints
  omega

/-- **Between two origins, no less is taken than at one of them.** -/
theorem min_commonPoints_le (hfirst : first ≤ o) (hlast : o ≤ last) :
    min (commonPoints a b first l) (commonPoints a b last l) ≤ commonPoints a b o l := by
  rcases Int.le_total o a with h | h
  · exact le_trans (min_le_left ..) (commonPoints_rises hfirst h)
  · exact le_trans (min_le_right ..) (commonPoints_falls h hlast)

/-- **The least overlap is that of an extreme placement.** -/
theorem isLeast_commonPoints (hle : first ≤ last) :
    IsLeast {n | ∃ o, first ≤ o ∧ o ≤ last ∧ n = commonPoints a b o l}
      (min (commonPoints a b first l) (commonPoints a b last l)) := by
  constructor
  · rcases min_choice (commonPoints a b first l) (commonPoints a b last l) with hmin | hmin
    · exact ⟨first, Int.le_refl _, hle, hmin⟩
    · exact ⟨last, hle, Int.le_refl _, hmin⟩
  · rintro n ⟨o, hfirst, hlast, rfl⟩
    exact min_commonPoints_le hfirst hlast

/-- A longer interval takes no less of a window that stops no earlier. -/
theorem commonPoints_mono {b' l' : Int} (hb : b ≤ b') (hl : l ≤ max 0 l') :
    commonPoints a b o l ≤ commonPoints a b' o l' := by
  unfold commonPoints
  omega

end Extremes

/-! ## What must be taken -/

/-- What must be taken of a window is not negative, however its ends are clamped. -/
theorem forcedExtent_nonneg {start stop length latestStop : Int} {window : Span} (h : 0 ≤ length) :
    0 ≤ forcedExtent w start stop length window latestStop := by
  unfold forcedExtent
  dsimp only
  repeat' split
  all_goals omega

/-- The smaller of two overlaps, cut off at the room there is. -/
theorem smaller_eq {least early late room : Int} (h0 : 0 ≤ least) (hearly : early ≤ least) :
    (if min early room < min late room then max (min early room) 0
      else if 0 < min late room then min (min late room) least else 0) = max 0 (min (min early late) room) := by
  split
  · omega
  · split <;> omega

/-- A test for a positive value cuts the lesser one off at zero. -/
theorem positive_eq {least late : Int} (h0 : 0 ≤ least) :
    (if 0 < late then min late least else 0) = max 0 (min late least) := by
  split <;> omega

section Frame

variable {f : Int × Int} {first last least latestStop : Int} {window : Span} (hf : IsFrame w f)
  (hle : first ≤ last) (hleast : 0 ≤ least) (hfirst : f.1 ≤ first) (hlast : last + least ≤ f.2)
  (hstart : f.1 ≤ window.start) (hstop : window.stop ≤ f.2) (hlate : window.start ≤ latestStop)
  (hlate' : latestStop ≤ window.stop)

include hf hle hleast hfirst hlast hstart hstop hlate hlate'

/-- **What must be taken is the smaller overlap of the two extreme placements**, with the window up to
`cut`. -/
theorem forcedExtent_eq {cut : Int}
    (hcut : cut = if last + least ≤ window.stop then window.stop else latestStop) :
    forcedExtent w first (last + least) least window latestStop =
      min (commonPoints window.start cut first least) (commonPoints window.start cut last least) := by
  -- no sum or difference saturates
  have hadd : w.add first least = first + least := hf.add_eq (by omega) (by omega)
  have hearly : w.sub (first + least) window.start = first + least - window.start :=
    hf.sub_eq (by omega) (by omega)
  have hover : w.sub (last + least) latestStop = last + least - latestStop :=
    hf.sub_eq (by omega) (by omega)
  have hroom : w.sub latestStop window.start = latestStop - window.start :=
    hf.sub_eq (by omega) (by omega)
  -- the last one only for a neighbour that may stick out, the only one it matters to
  have hout : window.stop < last + least →
      w.sub least (last + least - latestStop) = least - (last + least - latestStop) := fun h =>
    hf.sub_eq (by omega) (by omega)
  unfold forcedExtent commonPoints
  rw [hadd, hearly, hover, hroom, ← max_min_distrib_left]
  clear hf hadd hearly hover hroom hfirst hlast hstart hstop
  dsimp only
  by_cases hin : last + least ≤ window.stop
  · rw [if_pos hin] at hcut
    rw [if_pos hin, if_neg (Int.not_lt.2 hin), hcut]
    split
    · exact congrArg (max 0) (by omega)
    · omega
  · rw [if_neg hin] at hcut
    rw [if_neg hin, if_pos (Int.not_le.1 hin), hout (Int.not_le.1 hin), hcut]
    split
    · rw [smaller_eq hleast (by omega)]
      exact congrArg (max 0) (by omega)
    · rw [positive_eq hleast]
      exact congrArg (max 0) (by omega)

/-- **Every placement takes at least what must be taken.** -/
theorem forcedExtent_le {o l : Int} (ho : first ≤ o) (ho' : o ≤ last) (hl : least ≤ max 0 l) :
    forcedExtent w first (last + least) least window latestStop ≤
      commonPoints window.start window.stop o l := by
  rw [forcedExtent_eq hf hle hleast hfirst hlast hstart hstop hlate hlate' rfl]
  refine le_trans (min_commonPoints_le ho ho') (commonPoints_mono ?_ hl)
  split
  · exact Int.le_refl _
  · exact hlate'

/-- **What must be taken is guaranteed, and exact for a window up to the latest stop.** A neighbour of the
least length `least` starts between `first` and `last`, and its placements at that length lie in a frame with
the window. What it must take of the window is not negative, and every placement, of any length from `least`
on, shares at least so many points with the window. If the latest stop is the end of the window, it is the
least number of points that a placement of the least length shares with it. -/
theorem forcedExtent_least_overlap :
    0 ≤ forcedExtent w first (last + least) least window latestStop ∧
    (∀ o l : Int, first ≤ o → o ≤ last → least ≤ l →
      forcedExtent w first (last + least) least window latestStop ≤
        (Box.points (o, o + l) ∩ Box.points (window.start, window.stop)).card) ∧
    (latestStop = window.stop →
      IsLeast {n : Int | ∃ o, first ≤ o ∧ o ≤ last ∧
          n = (Box.points (o, o + least) ∩ Box.points (window.start, window.stop)).card}
        (forcedExtent w first (last + least) least window latestStop)) := by
  simp only [card_points_inter]
  refine ⟨forcedExtent_nonneg hleast, fun o l ho ho' hl => ?_, fun hend => ?_⟩
  · exact forcedExtent_le hf hle hleast hfirst hlast hstart hstop hlate hlate' ho ho' (le_max_of_le_right hl)
  · have hcut : window.stop = if last + least ≤ window.stop then window.stop else latestStop := by
      rw [hend, ite_self]
    rw [forcedExtent_eq hf hle hleast hfirst hlast hstart hstop hlate hlate' hcut]
    exact isLeast_commonPoints hle

end Frame

/-- In a frame as wide as bytes allow, a neighbour of length 20 that may stick out of the window on either
side takes 12 of its points at the latest origin, and no less from any other. -/
theorem forcedExtent_least_overlap_bytes :
    let window : Span := ⟨-120, -10, by decide⟩
    IsFrame .w8 (-128, -1) ∧ forcedExtent .w8 (-125) (-22 + 20) 20 window window.stop = 12 ∧
      (∀ o l : Int, -125 ≤ o → o ≤ -22 → 20 ≤ l →
        12 ≤ ((Box.points (o, o + l) ∩ Box.points (-120, -10)).card : Int)) ∧
      IsLeast {n : Int | ∃ o : Int, -125 ≤ o ∧ o ≤ -22 ∧
        n = (Box.points (o, o + 20) ∩ Box.points (-120, -10)).card} 12 := by
  intro window
  have hframe : IsFrame .w8 (-128, -1) := ⟨by decide, by decide, by decide⟩
  have hforced : forcedExtent .w8 (-125) (-22 + 20) 20 window window.stop = 12 := by decide
  obtain ⟨-, htaken, hleast⟩ := @forcedExtent_least_overlap .w8 (-128, -1) (-125) (-22) 20 window.stop window
    hframe (by decide) (by decide) (by decide) (by decide) (by decide) (by decide) (by decide) (by decide)
  rw [hforced] at htaken hleast
  exact ⟨hframe, hforced, htaken, hleast rfl⟩

end Placement
