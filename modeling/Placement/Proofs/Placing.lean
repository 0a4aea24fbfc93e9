/-
# Placed rectangles

An assignment gives every variable a value, and so places every rectangle: `Rectangle.box` is
the box it takes. Two placed rectangles overlap if all their lengths are positive and they
share a point along every dimension (`Rectangle.Overlaps`); otherwise their boxes have no
common point.

`Scene` collects what is known when a constraint looks at a store that still admits a
solution: the rectangles exist, the assignment lies in the domains, no two boxes have a
common point, and along every dimension all positions lie in a frame of the width, so that
no sum or difference of positions saturates.
-/

import Placement.Proofs.Analysis
import Placement.Proofs.Volume

namespace Placement

variable {w : Width}

namespace Rectangle

variable {a b r : Rectangle} {α : Var → Int}

/-- The box of a placed rectangle. -/
def box (r : Rectangle) (α : Var → Int) : Box :=
  r.sides.map fun x => (α x.origin, α x.origin + α x.length)

/-- A placed rectangle is a box of its dimensions. -/
@[simp] theorem length_box (r : Rectangle) (α : Var → Int) : (r.box α).length = r.dim :=
  List.length_map ..

/-- Two placed rectangles overlap: all lengths are positive, and along every dimension they share a
point. -/
structure Overlaps (a b : Rectangle) (α : Var → Int) : Prop where
  pos_left : ∀ x ∈ a.sides, 0 < α x.length
  pos_right : ∀ y ∈ b.sides, 0 < α y.length
  shared : List.Forall₂ (fun x y => ∃ p, (α x.origin ≤ p ∧ p < α x.origin + α x.length) ∧
    α y.origin ≤ p ∧ p < α y.origin + α y.length) a.sides b.sides

/-- A point of the box of a rectangle lies in every side. -/
theorem mem_cells_box {p : List Int} :
    p ∈ Box.cells (r.box α) ↔
      List.Forall₂ (fun c x => α x.origin ≤ c ∧ c < α x.origin + α x.length) p r.sides := by
  rw [Box.mem_cells, box, List.forall₂_map_right_iff]

/-- A rectangle that takes a cell has positive lengths. -/
theorem pos_of_mem_cells {p : List Int} (h : p ∈ Box.cells (r.box α)) : ∀ x ∈ r.sides, 0 < α x.length := by
  intro x hx
  obtain ⟨i, hi⟩ := List.getElem?_of_mem hx
  obtain ⟨hlt, rfl⟩ := List.getElem?_eq_some_iff.1 hi
  obtain ⟨hlen, hget⟩ := List.forall₂_iff_get.1 (mem_cells_box.1 h)
  have := hget i (hlen ▸ hlt) hlt
  simp only [List.get_eq_getElem] at this
  omega

/-- **Rectangles that do not overlap have boxes without a common point.** -/
theorem clear_of_not_overlaps (h : ¬ a.Overlaps b α) : Box.Clear (a.box α) (b.box α) := by
  intro p ha hb
  refine h ⟨pos_of_mem_cells ha, pos_of_mem_cells hb, ?_⟩
  rw [mem_cells_box] at ha hb
  have hlen := ha.length_eq.symm.trans hb.length_eq
  refine List.forall₂_iff_get.2 ⟨hlen, fun i hi hi' => ?_⟩
  have hip : i < p.length := ha.length_eq ▸ hi
  exact ⟨p[i], (List.forall₂_iff_get.1 ha).2 i hip hi, (List.forall₂_iff_get.1 hb).2 i hip hi'⟩

/-- Rectangles that share a point along every dimension have boxes with a common point. -/
theorem not_clear_of_shared
    (h : List.Forall₂ (fun x y => ∃ p, (α x.origin ≤ p ∧ p < α x.origin + α x.length) ∧
      α y.origin ≤ p ∧ p < α y.origin + α y.length) a.sides b.sides) : ¬ Box.Clear (a.box α) (b.box α) := by
  suffices ∃ p, p ∈ Box.cells (a.box α) ∧ p ∈ Box.cells (b.box α) by
    obtain ⟨p, ha, hb⟩ := this
    exact fun hc => hc p ha hb
  simp only [mem_cells_box]
  generalize a.sides = xs at h
  generalize b.sides = ys at h
  induction h with
  | nil => exact ⟨[], .nil, .nil⟩
  | cons hxy _ ih =>
    obtain ⟨c, hx, hy⟩ := hxy
    obtain ⟨p, hp, hp'⟩ := ih
    exact ⟨c :: p, .cons hx hp, .cons hy hp'⟩

end Rectangle

/-! ## Frames -/

/-- Positions between the two ends can be subtracted within the width. -/
structure IsFrame (w : Width) (f : Int × Int) : Prop where
  holds_fst : w.Holds f.1
  holds_snd : w.Holds f.2
  holds_sub : w.Holds (f.2 - f.1)

namespace IsFrame

variable {f : Int × Int} (h : IsFrame w f) {x y : Int}

include h

/-- A sum that stays in a frame is exact. -/
theorem add_eq (hlo : f.1 ≤ x + y) (hhi : x + y ≤ f.2) : w.add x y = x + y :=
  Width.clamp_of_holds (w.holds_between h.holds_fst h.holds_snd hlo hhi)

/-- A difference within a frame is exact. -/
theorem sub_eq (hlo : f.1 - f.2 ≤ x - y) (hhi : x - y ≤ f.2 - f.1) : w.sub x y = x - y := by
  refine Width.clamp_of_holds ?_
  have := h.holds_sub
  cases w with
  | word top _ => simp only [Width.Holds] at this ⊢; omega
  | unbounded => trivial

end IsFrame

/-- No placement within the domains leaves the frame. -/
structure Extent.Inside (e : Extent w) (f : Int × Int) : Prop where
  le_lo : f.1 ≤ e.origin.lo
  hi_le : e.origin.hi + max 0 e.length.hi ≤ f.2

namespace Extent.Inside

variable {e : Extent w} {f : Int × Int} (hf : IsFrame w f) (h : e.Inside f)

include hf h

/-- In a frame, the latest stop at least length is exact. -/
theorem latestStop_eq (hl : 0 ≤ e.length.lo) : e.latestStop = e.origin.hi + e.length.lo := by
  have := h.le_lo
  have := h.hi_le
  have := e.origin.lo_le_hi
  have := e.length.lo_le_hi
  exact hf.add_eq (by omega) (by omega)

/-- In a frame, the end of the reach is exact. -/
theorem stop_span (hl : 0 < e.length.hi) : e.span.stop = e.origin.hi + e.length.hi := by
  have := h.le_lo
  have := h.hi_le
  have := e.origin.lo_le_hi
  have hstop : e.span.stop = w.add e.origin.hi e.length.hi := if_neg (by omega)
  rw [hstop]
  exact hf.add_eq (by omega) (by omega)

/-- In a frame, the length of the reach is exact. -/
theorem length_span : e.span.length w = e.span.stop - e.span.start := by
  have := h.le_lo
  have := h.hi_le
  have := e.origin.lo_le_hi
  have hstart : e.span.start = e.origin.lo := rfl
  rcases le_or_gt e.length.hi 0 with hl | hl
  · have hstop : e.span.stop = e.origin.lo := if_pos hl
    exact hf.sub_eq (by omega) (by omega)
  · have hstop := h.stop_span hf hl
    exact hf.sub_eq (by omega) (by omega)

end Extent.Inside

/-! ## Scenes -/

/-- Every variable has a value of its domain. -/
def Store.Admits (s : Store w) (α : Var → Int) : Prop := ∀ v : Var, v.val < s.cells.length → α v ∈ s.dom v

/-- Clearing what is pending excludes no assignment. -/
theorem Store.Admits.clearPending {s : Store w} {α : Var → Int} (h : s.Admits α) : s.clearPending.Admits α := by
  intro v hv
  rw [Store.dom_clearPending]
  exact h v (by simpa [Store.clearPending] using hv)

/-- A constraint over `rectangles` looks at a store that admits a solution. -/
structure Scene (α : Var → Int) (s : Store w) (rectangles : List Rectangle) (frames : Box) : Prop where
  uniform : Neighborhood.Uniform rectangles s
  admits : s.Admits α
  isFrame : ∀ f ∈ frames, IsFrame w f
  framed : ∀ r ∈ rectangles, List.Forall₂ (fun x f => (s.look x).Inside f) r.sides frames
  clear : ∀ (i j : Nat) (a b : Rectangle), i ≠ j → rectangles[i]? = some a → rectangles[j]? = some b →
    Box.Clear (a.box α) (b.box α)

namespace Scene

variable {α : Var → Int} {s t : Store w} {rectangles : List Rectangle} {frames : Box}
  (h : Scene α s rectangles frames)

include h

/-- Narrowing that keeps the solution keeps the scene. -/
theorem shrinks (hst : s.Shrinks t) (ht : t.Admits α) :
    Scene α t rectangles frames where
  uniform := ⟨fun r hr => hst.known (h.uniform.known r hr), h.uniform.dim_eq⟩
  admits := ht
  isFrame := h.isFrame
  framed r hr := by
    refine List.forall₂_iff_get.2 ⟨(h.framed r hr).length_eq, fun i hi hi' => ?_⟩
    have hin := (List.forall₂_iff_get.1 (h.framed r hr)).2 i hi hi'
    have hw := hst.look (h.uniform.known r hr) (List.get_mem r.sides ⟨i, hi⟩)
    have hlo := hin.le_lo
    have hhi := hin.hi_le
    obtain ⟨⟨h₁, h₂⟩, h₃, h₄⟩ := hw
    exact ⟨by omega, by omega⟩
  clear := h.clear

/-- The assignment gives a side an origin and a length of its domains. -/
theorem fits {r : Rectangle} (hr : r ∈ rectangles) {x : Side} (hx : x ∈ r.sides) :
    α x.origin ∈ (s.look x).origin ∧ α x.length ∈ (s.look x).length :=
  ⟨h.admits _ ((h.uniform.known r hr).origin hx), h.admits _ ((h.uniform.known r hr).length hx)⟩

/-- Two rectangles lie in the same frames. -/
theorem framed_pair {a b : Rectangle} (ha : a ∈ rectangles) (hb : b ∈ rectangles) :
    List.Forall₂ (fun x y => ∃ f, IsFrame w f ∧ (s.look x).Inside f ∧ (s.look y).Inside f)
      a.sides b.sides := by
  have hfa := h.framed a ha
  have hfb := h.framed b hb
  refine List.forall₂_iff_get.2 ⟨hfa.length_eq.trans hfb.length_eq.symm, fun i hi hi' => ?_⟩
  have hif : i < frames.length := hfa.length_eq ▸ hi
  exact ⟨frames[i], h.isFrame _ (List.getElem_mem hif), (List.forall₂_iff_get.1 hfa).2 i hi hif,
    (List.forall₂_iff_get.1 hfb).2 i hi' hif⟩

/-- Every side lies in a frame. -/
theorem frame {r : Rectangle} (hr : r ∈ rectangles) {x : Side} (hx : x ∈ r.sides) :
    ∃ f, IsFrame w f ∧ (s.look x).Inside f := by
  obtain ⟨f, hf, hin, -⟩ := List.forall₂_same.1 (h.framed_pair hr hr) x hx
  exact ⟨f, hf, hin⟩

end Scene
end Placement
