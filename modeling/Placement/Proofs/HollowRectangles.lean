/-
# Rectangles that cover nothing

A rectangle is hollow (`Rectangle.Hollow`) if one of its lengths cannot be positive. Its reach is
empty along that side, so it is not seen by any analysis, and an analysis of it sees nothing.

An analysis tests the common area bound after every candidate, whether it is seen or not. For a
regular rectangle the bound holds before the first neighbour (`Rectangle.Regular.fits`), so a
hollow candidate may be left out (`analyze_erase_hollow`). The analysis of a hollow rectangle itself
finds nothing (`analyze_of_hollow`), and a rectangle with no neighbours stands still.
-/

import Placement.Proofs.Renumbering
import Placement.Proofs.UndecidedLengths
import Mathlib.Algebra.BigOperators.Ring.List

namespace Placement

open Neighborhood

variable {w : Width}

/-! ## Reaches and lengths -/

namespace Extent

variable {e : Extent w}

/-- A side whose length cannot be positive meets nothing. -/
theorem not_meets_of_flat (h : e.length.hi ≤ 0) (g : Span) : ¬ g.Meets e.span ∧ ¬ e.span.Meets g := by
  have hstop : e.span.stop = e.origin.lo := if_pos h
  have hstart : e.span.start = e.origin.lo := rfl
  unfold Span.Meets
  omega

/-- A side that ends within the width is at least as long in its reach as it must be. -/
theorem least_le_length_span (hstop : w.Holds (e.origin.hi + max 0 e.length.hi)) :
    max e.length.lo 0 ≤ e.span.length w := by
  have horigin := e.origin.lo_le_hi
  have hlength := e.length.lo_le_hi
  have hroom : max e.length.lo 0 ≤ e.span.stop - e.span.start := by
    unfold span
    dsimp only
    split
    · omega
    · next hpos =>
      rw [Int.max_eq_right (by omega)] at hstop
      rw [Width.add, Width.clamp_of_holds hstop]
      omega
  have hholds : w.Holds (max e.length.lo 0) :=
    max_rec (fun _ => e.length.holds_lo) fun _ => w.holds_zero
  calc max e.length.lo 0 = w.clamp (max e.length.lo 0) := (Width.clamp_of_holds hholds).symm
    _ ≤ e.span.length w := w.clamp_mono hroom

/-- The length of a reach is not negative. -/
theorem zero_le_length_span (e : Extent w) : 0 ≤ e.span.length w :=
  Width.clamp_nonneg (Int.sub_nonneg.2 e.span.start_le_stop)

end Extent

namespace Neighborhood.Focus

/-- The bound of common area holds before the first neighbour if the least area is at most the volume
of the reach. -/
theorem fits_of_area_le {k : Nat} {es : List (Extent w)} (h : (Focus.of k es).area ≤ (Focus.of k es).volume) :
    (Focus.of k es).Fits w := by
  have hadd : w.add 0 (Focus.of k es).area = (Focus.of k es).area := by
    rw [Width.add, Int.zero_add]
    exact Width.clamp_of_holds (w.holds_product _)
  refine if_neg ?_
  show ¬ (Focus.of k es).volume < w.add 0 (Focus.of k es).area
  rw [hadd]
  exact Int.not_lt.2 h

/-- **A focus that ends within the width along every dimension fits into its reach.** -/
theorem fits_of_holds {es : List (Extent w)} (h : ∀ e ∈ es, w.Holds (e.origin.hi + max 0 e.length.hi))
    (k : Nat) : (Focus.of k es).Fits w := by
  refine fits_of_area_le ?_
  have hsides : List.Forall₂ (fun least length => 0 ≤ least ∧ least ≤ length)
      (es.map fun e => max e.length.lo 0) (es.map fun e => e.span.length w) := by
    rw [List.forall₂_map_left_iff, List.forall₂_map_right_iff, List.forall₂_same]
    exact fun e he => ⟨le_max_right _ _, Extent.least_le_length_span (h e he)⟩
  obtain ⟨hnonneg, hle⟩ := prod_le_prod_of_forall₂ hsides
  show w.product _ ≤ w.product _
  rw [Width.product_eq_clamp hnonneg, Width.product_eq_clamp]
  · exact w.clamp_mono hle
  · exact List.forall_mem_map.2 fun e _ => e.zero_le_length_span

end Neighborhood.Focus

namespace Rectangle

variable {r z : Rectangle} {s t : Store w}

/-! ## Regular rectangles -/

/-- A regular rectangle stays regular as the store shrinks. -/
theorem Regular.shrinks (h : r.Regular s) (hst : s.Shrinks t) : r.Regular t := by
  have hnonneg := h.nonneg.shrinks h.known hst
  refine ⟨hst.known h.known, hnonneg, fun x hx => ?_⟩
  obtain ⟨horigin, hlength⟩ := hst.look h.known hx
  have hlo := hnonneg x hx
  have hle := (t.look x).length.lo_le_hi
  have horigin := horigin.2
  have hlength := hlength.2
  refine w.holds_between (t.look x).origin.holds_hi (h.holds_stop x hx) ?_ ?_
  · omega
  · omega

/-- **A regular rectangle fits into its reach.** -/
theorem Regular.fits (h : r.Regular s) (k : Nat) : (Focus.of k (r.view s)).Fits w := by
  refine Focus.fits_of_holds (List.forall_mem_map.2 fun x hx => ?_) k
  have hlo := h.nonneg x hx
  have hle := (s.look x).length.lo_le_hi
  rw [Int.max_eq_right (by omega)]
  exact h.holds_stop x hx

/-! ## Hollow rectangles -/

/-- All variables of the rectangle exist, and some length cannot be positive. -/
structure Hollow (r : Rectangle) (s : Store w) : Prop where
  known : r.Known s
  flat : ∃ x ∈ r.sides, (s.look x).length.hi ≤ 0

instance decidableHollow (r : Rectangle) (s : Store w) : Decidable (r.Hollow s) :=
  decidable_of_iff (r.Known s ∧ ∃ x ∈ r.sides, (s.look x).length.hi ≤ 0)
    ⟨fun ⟨h₁, h₂⟩ => ⟨h₁, h₂⟩, fun h => ⟨h.known, h.flat⟩⟩

/-- A hollow rectangle stays hollow as the store shrinks. -/
theorem Hollow.shrinks (h : z.Hollow s) (hst : s.Shrinks t) : z.Hollow t := by
  obtain ⟨x, hx, hflat⟩ := h.flat
  exact ⟨hst.known h.known, x, hx, (hst.look h.known hx).length.2.trans hflat⟩

/-- A hollow rectangle meets nothing, on whichever side it stands. -/
theorem Hollow.not_meet (h : z.Hollow s) {es : List (Extent w)} (hlen : es.length = z.dim) :
    meet es (z.view s) = false ∧ meet (z.view s) es = false := by
  have hlen' : es.length = (z.view s).length := hlen.trans (z.length_view s).symm
  obtain ⟨x, hx, hflat⟩ := h.flat
  have hmem : s.look x ∈ z.view s := List.mem_map_of_mem hx
  constructor
  · refine Bool.eq_false_iff.2 fun hmeet => ?_
    obtain ⟨e, -, hmeets⟩ := exists_of_forall₂ ((meet_iff hlen').1 hmeet).flip hmem
    exact (Extent.not_meets_of_flat hflat _).1 hmeets
  · refine Bool.eq_false_iff.2 fun hmeet => ?_
    obtain ⟨e, -, hmeets⟩ := exists_of_forall₂ ((meet_iff hlen'.symm).1 hmeet) hmem
    exact (Extent.not_meets_of_flat hflat _).2 hmeets

/-- A hollow rectangle has no area, so it fits into its reach. -/
theorem Hollow.fits (h : z.Hollow s) (k : Nat) : (Focus.of k (z.view s)).Fits w := by
  refine Focus.fits_of_area_le ?_
  obtain ⟨x, hx, hflat⟩ := h.flat
  have hzero : (0 : Int) ∈ (z.view s).map fun e => max e.length.lo 0 := by
    refine List.mem_map.2 ⟨s.look x, List.mem_map_of_mem hx, ?_⟩
    exact max_eq_right ((s.look x).length.lo_le_hi.trans hflat)
  show w.product _ ≤ w.product _
  rw [Width.product_eq_clamp, Width.product_eq_clamp, List.prod_eq_zero hzero]
  · exact w.clamp_mono (prod_nonneg_of_forall (List.forall_mem_map.2 fun e _ => e.zero_le_length_span))
  · exact List.forall_mem_map.2 fun e _ => e.zero_le_length_span
  · exact List.forall_mem_map.2 fun e _ => le_max_right _ _

end Rectangle

/-! ## Analyses -/

section Analysis

variable {s : Store w} {rectangles : List Rectangle} {changed : List Var} {k n : Nat} {r z : Rectangle}
  {cs : List Nat}

/-- **A hollow candidate is not seen**, so the analysis of a regular rectangle is what it is without
the candidate. -/
theorem analyze_erase_hollow (hu : Uniform rectangles s) (hr : rectangles[k]? = some r) (hregular : r.Regular s)
    (hz : rectangles[n]? = some z) (hhollow : z.Hollow s) (hcs : ∀ j ∈ cs, j < rectangles.length ∧ j ≠ k) :
    analyze s rectangles k (cs.filter (· ≠ n)) changed = analyze s rectangles k cs changed := by
  have hdim : (r.view s).length = z.dim :=
    (r.length_view s).trans (hu.dim_eq r (List.mem_of_getElem? hr) z (List.mem_of_getElem? hz))
  have hunseen : sight s rectangles changed (r.view s) n = none := by
    unfold sight
    rw [hz]
    exact if_neg (by simp [(hhollow.not_meet hdim).1])
  refine analyze_of_seen hu hr (hregular.fits k) hcs (fun j hj => hcs j (List.mem_of_mem_filter hj)) ?_
  unfold seen
  rw [List.filterMap_filter]
  refine List.filterMap_congr fun j _ => ?_
  by_cases hj : j = n
  · simp [hj, hunseen]
  · simp [hj]

/-- **An analysis of a hollow rectangle finds nothing.** -/
theorem analyze_of_hollow (hu : Uniform rectangles s) (hz : rectangles[k]? = some z) (hhollow : z.Hollow s)
    (hcs : ∀ j ∈ cs, j < rectangles.length ∧ j ≠ k) :
    analyze s rectangles k cs changed = .ok (ofNeighbors ([] : List (Neighbor w))) := by
  have hunseen : seen s rectangles changed (z.view s) cs = [] := by
    refine List.filterMap_eq_nil_iff.2 fun j hj => ?_
    obtain ⟨q, hq⟩ : ∃ q, rectangles[j]? = some q := ⟨_, List.getElem?_eq_getElem (hcs j hj).1⟩
    have hdim : (q.view s).length = z.dim :=
      (q.length_view s).trans (hu.dim_eq q (List.mem_of_getElem? hq) z (List.mem_of_getElem? hz))
    unfold sight
    rw [hq]
    exact if_neg (by simp [(hhollow.not_meet hdim).2])
  have hnone : ∀ j ∈ ([] : List Nat), j < rectangles.length ∧ j ≠ k := nofun
  rw [analyze_of_seen hu hz (hhollow.fits k) hnone hcs hunseen, analyze_eq hu hz hnone]
  rfl

/-- A rectangle without neighbours stands still. -/
theorem Tighten.stillAlong_of_nothing (s : Store w) (rectangles : List Rectangle) (k : Nat) (r : Rectangle)
    (mode : Mode) (i : Nat) : StillAlong s rectangles k r (ofNeighbors ([] : List (Neighbor w))) mode i := by
  intro x _ _ f hf
  rcases mem_regions.1 hf with rfl | ⟨-, -, hprofiled, -⟩
  · exact ⟨[], rfl, le_refl _, le_refl _⟩
  · exact absurd rfl hprofiled

end Analysis
end Placement
