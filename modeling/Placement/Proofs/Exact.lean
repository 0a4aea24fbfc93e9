/-
# Exact counterparts

The width without ends (`Width.unbounded`) makes every definition exact, so the exact counterpart of
a store is the same store over that width (`Store.exact`). For extents whose latest stop is a value
of the width (`Extent.Fits`), the windows of a focus and what a neighbour must take along one of them
do not saturate; products are the exact ones, cut off at the end of the width.
-/

import Placement.Proofs.Analysis
import Placement.Proofs.VolumeBounds

namespace Placement

open Neighborhood

variable {w : Width}

/-! ## Exact arithmetic -/

/-- The same values. -/
def Domain.exact (d : Domain w) : Domain .unbounded := ⟨d.lo, d.hi, d.lo_le_hi, trivial, trivial⟩

def Cell.exact (c : Cell w) : Cell .unbounded := ⟨c.domain.exact, c.stamp, c.pending⟩

def Trail.Entry.exact : Trail.Entry w → Trail.Entry .unbounded
  | .domain v old stamp => .domain v old.exact stamp
  | .slot k old stamp => .slot k old stamp

/-- The same store, over the width without ends. -/
def Store.exact (s : Store w) : Store .unbounded where
  cells := s.cells.map Cell.exact
  slots := s.slots
  trail := ⟨s.trail.levels.map (List.map Trail.Entry.exact)⟩

def Extent.exact (e : Extent w) : Extent .unbounded := ⟨e.origin.exact, e.length.exact⟩

/-- The exact counterpart has the same variables. -/
theorem Store.length_cells_exact (s : Store w) : s.exact.cells.length = s.cells.length := List.length_map ..

/-- The exact counterpart of a variable has the same bounds. -/
theorem Store.domain_exact (s : Store w) (v : Var) : s.exact.domain v = (s.domain v).map Domain.exact := by
  unfold domain cell entry exact
  rw [List.getElem?_map]
  cases s.cells[v.val]? with
  | none => rfl
  | some c => rfl

/-- The domain of a variable in the exact counterpart is its exact domain. -/
theorem Store.dom_exact (s : Store w) (v : Var) : s.exact.dom v = (s.dom v).exact := by
  unfold dom exact
  rw [List.getElem?_map]
  cases s.cells[v.val]? with
  | none => rfl
  | some c => rfl

/-- The extent of a side in the exact counterpart is its exact extent. -/
theorem Store.look_exact (s : Store w) (x : Side) : s.exact.look x = (s.look x).exact := by
  unfold look
  rw [dom_exact, dom_exact]
  rfl

namespace Width

variable {x y : Int}

/-- Values whose clamped values differ are in the same order. -/
theorem lt_of_clamp_lt (h : w.clamp x < w.clamp y) : x < y :=
  Int.not_le.1 fun hle => Int.not_lt.2 (w.clamp_mono hle) h

/-- Clamped summands do not change a clamped sum. -/
theorem clamp_add_clamp (hx : 0 ≤ x) (hy : 0 ≤ y) : w.clamp (w.clamp x + w.clamp y) = w.clamp (x + y) := by
  cases w with
  | unbounded => rfl
  | word top htop =>
    simp only [clamp]
    repeat' split
    all_goals omega

/-- Clamped factors do not change a clamped product. -/
theorem product_clamp {xs : List Int} (h : ∀ x ∈ xs, 0 ≤ x) : w.product (xs.map w.clamp) = w.clamp xs.prod := by
  have hclamp : ∀ x ∈ xs.map w.clamp, 0 ≤ x := by
    intro _ hmem
    obtain ⟨x, hx, rfl⟩ := List.mem_map.1 hmem
    exact clamp_nonneg (h x hx)
  rw [product_eq_clamp hclamp]
  induction xs with
  | nil => rfl
  | cons x xs ih =>
    obtain ⟨hx, hxs⟩ := List.forall_mem_cons.1 h
    obtain ⟨-, hclamp⟩ := List.forall_mem_cons.1 hclamp
    have hprod := prod_nonneg_of_forall hxs
    have hprod' := prod_nonneg_of_forall hclamp
    rw [List.map_cons, List.prod_cons, List.prod_cons, clamp_clamp_mul hx hprod', mul_comm,
      ← clamp_clamp_mul hprod' hx, ih hxs hclamp, clamp_clamp_mul hprod hx, mul_comm]

/-- A product without negative factors and without a width is the product. -/
theorem unbounded_product {xs : List Int} (h : ∀ x ∈ xs, 0 ≤ x) : Width.unbounded.product xs = xs.prod :=
  product_eq_clamp h

/-- A product is the exact one, clamped. -/
theorem product_exact {xs : List Int} (h : ∀ x ∈ xs, 0 ≤ x) :
    w.product xs = w.clamp (Width.unbounded.product xs) ∧ 0 ≤ Width.unbounded.product xs := by
  rw [unbounded_product h]
  exact ⟨product_eq_clamp h, prod_nonneg_of_forall h⟩

end Width

/-! ## What a neighbour must take -/

/-- Cut off below zero and above `top`, the two are the same. -/
def Agree (top x y : Int) : Prop := max 0 (min x top) = max 0 (min y top)

namespace Agree

variable {top x x' y y' : Int}

/-- Agreement carries over. -/
theorem trans {z : Int} (h : Agree top x y) (h' : Agree top y z) : Agree top x z := Eq.trans h h'

/-- The lesser values of pairs that agree agree. -/
theorem min (h : Agree top x x') (h' : Agree top y y') : Agree top (min x y) (min x' y') := by
  have hmin : ∀ a b : Int, max 0 (Min.min (Min.min a b) top) = Min.min (max 0 (Min.min a top)) (max 0 (Min.min b top)) := by
    omega
  unfold Agree at *
  rw [hmin, hmin, h, h']

/-- What is left of `top`. -/
theorem left (h : Agree top x x') : Agree top (top - x) (top - x') := by
  unfold Agree at *
  omega

/-- Values that agree and do not exceed the top are the same above zero. -/
theorem eq_of_le (h : Agree top x x') (hx : x ≤ top) (hx' : x' ≤ top) : max 0 x = max 0 x' := by
  unfold Agree at h
  omega

end Agree

/-- Clamping agrees with its argument up to any value of the width. -/
theorem Width.agree_clamp {top : Int} (htop : w.Holds top) (x : Int) : Agree top (w.clamp x) x := by
  unfold Agree
  cases w with
  | unbounded => rfl
  | word _ _ =>
    simp only [Holds] at htop
    simp only [clamp]
    split
    · omega
    · split
      · omega
      · rfl

/-- **What must be taken of a window does not saturate.** -/
theorem forcedExtent_exact {start last least latestStop : Int} {window : Span} (hstart : w.Holds start)
    (hlast : start ≤ last) (hleast : w.Holds least) (h0 : 0 ≤ least) (hstop : w.Holds (last + least)) :
    forcedExtent .unbounded start (last + least) least window latestStop =
        forcedExtent w start (last + least) least window latestStop ∧
      0 ≤ forcedExtent w start (last + least) least window latestStop := by
  have hadd : w.add start least = start + least :=
    Width.clamp_of_holds (w.holds_between hstart hstop (by omega) (by omega))
  have hearly : Agree least (w.sub (start + least) window.start) (start + least - window.start) :=
    Width.agree_clamp hleast _
  have hroom : Agree least (w.sub latestStop window.start) (latestStop - window.start) :=
    Width.agree_clamp hleast _
  have hlate : Agree least (w.sub least (w.sub (last + least) latestStop))
      (least - (last + least - latestStop)) := by
    have hover : Agree least (w.sub (last + least) latestStop) (last + least - latestStop) :=
      Width.agree_clamp hleast _
    exact (Width.agree_clamp hleast _).trans hover.left
  have hle : start ≤ window.start → w.sub (start + least) window.start ≤ least := fun h => by
    have := w.clamp_mono (show start + least - window.start ≤ least by omega)
    rwa [Width.clamp_of_holds hleast] at this
  have hexact : ∀ x, Width.unbounded.clamp x = x := fun _ => rfl
  refine ⟨?_, forcedExtent_nonneg h0⟩
  unfold forcedExtent
  rw [hadd]
  generalize w.sub (start + least) window.start = early at hearly hle ⊢
  generalize w.sub latestStop window.start = room at hroom ⊢
  generalize w.sub least (w.sub (last + least) latestStop) = late at hlate ⊢
  simp only [Width.add, Width.sub, hexact]
  split
  · next hbefore =>
    have hearly' : start + least - window.start ≤ least := by omega
    split
    · exact (hearly.eq_of_le (hle hbefore) hearly').symm
    · rw [smaller_eq h0 (hle hbefore), smaller_eq h0 hearly']
      have hmin := (hearly.min hlate).min hroom
      exact (hmin.eq_of_le (by have := hle hbefore; omega) (by omega)).symm
  · split
    · rw [positive_eq h0, positive_eq h0]
      exact hlate.symm
    · rfl

/-! ## Extents that end within the width -/

/-- The latest stop is a value of the width. -/
def Extent.Fits (e : Extent w) : Prop := w.Holds (e.origin.hi + max 0 e.length.hi)

instance (e : Extent w) : Decidable e.Fits := inferInstanceAs (Decidable (w.Holds _))

namespace Extent.Fits

variable {d e : Extent w}

/-- Up to the greatest length, the end of an extent is computed exactly. -/
theorem add_eq (h : e.Fits) {x : Int} (h0 : 0 ≤ x) (hx : x ≤ max 0 e.length.hi) :
    w.add e.origin.hi x = e.origin.hi + x :=
  Width.clamp_of_holds (w.holds_between e.origin.holds_hi h (by omega) (by omega))

/-- The reach of an extent that fits is exact. -/
theorem span_exact (h : e.Fits) : e.exact.span = e.span := by
  refine Span.ext rfl ?_
  change (if e.length.hi ≤ 0 then e.origin.lo else e.origin.hi + e.length.hi) =
    if e.length.hi ≤ 0 then e.origin.lo else w.add e.origin.hi e.length.hi
  split
  · rfl
  · rw [h.add_eq (by omega) (by omega)]

/-- The latest stop at least length of an extent that fits is exact. -/
theorem latestStop_eq (h : e.Fits) (hl : 0 ≤ e.length.lo) : e.latestStop = e.origin.hi + e.length.lo := by
  have := e.length.lo_le_hi
  exact h.add_eq hl (by omega)

/-- An extent that fits makes the same window without a width. -/
theorem window_exact (h : e.Fits) (hl : 0 ≤ e.length.lo) : Window.of e.exact = Window.of e := by
  unfold Window.of
  rw [h.span_exact, h.latestStop_eq hl]
  rfl

/-- **What a neighbour must take along one dimension is exact**, and not negative. -/
theorem forcedAlong_exact (hd : d.Fits) (he : e.Fits) (hnn : 0 ≤ d.length.lo) :
    forcedAlong d.exact e.exact = forcedAlong d e ∧ 0 ≤ forcedAlong d e := by
  have hle := e.length.lo_le_hi
  have hmax : max e.length.lo 0 ≤ max 0 e.length.hi := by omega
  have hleast : w.Holds (max e.length.lo 0) := by
    rcases Int.le_total e.length.lo 0 with h | h
    · rw [max_eq_right h]
      exact w.holds_zero
    · rw [max_eq_left h]
      exact e.length.holds_lo
  have hstop : w.Holds (e.origin.hi + max e.length.lo 0) :=
    w.holds_between e.origin.holds_hi he (by omega) (by omega)
  unfold forcedAlong
  rw [hd.span_exact, hd.latestStop_eq hnn, he.add_eq (le_max_right ..) hmax]
  exact forcedExtent_exact e.origin.holds_lo e.origin.lo_le_hi hleast (le_max_right ..) hstop

end Extent.Fits

namespace Neighborhood

/-! ## The focus -/

section Focus

variable {k : Nat} {es : List (Extent w)}

/-- The length of a reach is the exact one, clamped. -/
theorem length_span_exact {e : Extent w} (h : e.Fits) : e.span.length w = w.clamp (e.exact.span.length .unbounded) := by
  rw [h.span_exact]
  rfl

/-- The exact length of a reach is not negative. -/
theorem length_span_nonneg (e : Extent .unbounded) : 0 ≤ e.span.length .unbounded :=
  Int.sub_nonneg.2 e.span.start_le_stop

/-- Least lengths, a negative one counting as zero. -/
theorem product_least (es : List (Extent w)) :
    w.product (es.map fun e => max e.length.lo 0) =
        w.clamp (Width.unbounded.product ((es.map Extent.exact).map fun e => max e.length.lo 0)) ∧
      0 ≤ Width.unbounded.product ((es.map Extent.exact).map fun e => max e.length.lo 0) := by
  have hnonneg : ∀ x ∈ es.map fun e => max e.length.lo 0, 0 ≤ x := by
    intro x hx
    obtain ⟨e, -, rfl⟩ := List.mem_map.1 hx
    exact le_max_right ..
  have hmap : ((es.map Extent.exact).map fun e => max e.length.lo 0) = es.map fun e => max e.length.lo 0 := by
    rw [List.map_map]
    rfl
  rw [hmap]
  exact Width.product_exact hnonneg

/-- A focus has the same windows without a width. -/
theorem Focus.windows_exact (hes : ∀ e ∈ es, e.Fits ∧ 0 ≤ e.length.lo) :
    (Focus.of k (es.map Extent.exact)).windows = (Focus.of k es).windows := by
  change (es.map Extent.exact).map Window.of = es.map Window.of
  rw [List.map_map]
  exact List.map_congr_left fun e he => (hes e he).1.window_exact (hes e he).2

/-- The volume of a focus is the exact one, clamped. -/
theorem Focus.volume_exact (hes : ∀ e ∈ es, e.Fits ∧ 0 ≤ e.length.lo) :
    (Focus.of k es).volume = w.clamp (Focus.of k (es.map Extent.exact)).volume := by
  have hnonneg : ∀ x ∈ (es.map Extent.exact).map fun e => e.span.length .unbounded, 0 ≤ x := by
    intro x hx
    obtain ⟨e, -, rfl⟩ := List.mem_map.1 hx
    exact length_span_nonneg e
  change w.product _ = w.clamp (Width.unbounded.product _)
  rw [Width.unbounded_product hnonneg, ← Width.product_clamp hnonneg, List.map_map, List.map_map]
  exact congrArg w.product (List.map_congr_left fun e he => length_span_exact (hes e he).1)

end Focus

end Neighborhood
end Placement
