/-
# Used space keeps the focus out

The regions of used space are the points at which some used space blocks the focus
(`Region.ofUsed_iff`): it lies there along one dimension, and meets the mandatory part of the focus
along all others. Merged, they are ascending with a gap between any two (`Span.pairwise_merge`).

A placed rectangle covers its mandatory parts (`Extent.covers_mandatory`). So where the space that a
neighbour takes blocks the focus, the neighbour and the focus share a point along all dimensions but
one, and the focus cannot cover a point of this space along the last (`Region.ofUsed_avoids`).
-/

import Placement.Region
import Placement.Proofs.Placing

namespace Placement

variable {w : Width}

/-! ## Covered points -/

/-- **Every placement covers the mandatory part.** -/
theorem Extent.covers_mandatory {e : Extent w} {m : Span} (hm : e.mandatory? = some m) {o l : Int}
    (ho : o ∈ e.origin) (hl : l ∈ e.length) {p : Int} (hp : p ∈ m) : o ≤ p ∧ p < o + l := by
  obtain ⟨hstart, hstop⟩ := mandatory?_eq_some hm
  obtain ⟨hp₁, hp₂⟩ := hp
  obtain ⟨ho₁, ho₂⟩ := ho
  have := hl.1
  have hhi := e.origin.holds_hi
  rw [hstart] at hp₁
  rw [hstop] at hp₂
  refine ⟨Int.le_trans ho₂ hp₁, ?_⟩
  -- the stop of the mandatory part is never clamped from below, since it lies after `p`
  have hlt : p < e.origin.lo + e.length.lo := by
    cases w with
    | word top _ =>
      simp only [Width.add, Width.clamp, Width.Holds] at hp₂ hhi
      split at hp₂
      · omega
      · split at hp₂ <;> omega
    | unbounded => exact hp₂
  omega

namespace Rectangle

/-- The placed rectangle covers the coordinate `p` along dimension `i`. -/
def Along (r : Rectangle) (α : Var → Int) (i : Nat) (p : Int) : Prop :=
  ∃ x, r.sides[i]? = some x ∧ α x.origin ≤ p ∧ p < α x.origin + α x.length

/-- Rectangles that share a coordinate along every dimension have boxes with a common point. -/
theorem not_clear_of_along {a b : Rectangle} {α : Var → Int} (hd : a.dim = b.dim)
    (h : ∀ i < a.dim, ∃ p, a.Along α i p ∧ b.Along α i p) : ¬ Box.Clear (a.box α) (b.box α) := by
  refine not_clear_of_shared (List.forall₂_iff_get.2 ⟨hd, fun i hi hi' => ?_⟩)
  obtain ⟨p, ⟨x, hx, hxp⟩, y, hy, hyp⟩ := h i hi
  obtain ⟨_, rfl⟩ := List.getElem?_eq_some_iff.1 hx
  obtain ⟨_, rfl⟩ := List.getElem?_eq_some_iff.1 hy
  exact ⟨p, hxp, hyp⟩

end Rectangle

/-! ## Merged regions -/

namespace Span

/-- Joining onto a span that is not empty gives none that is. -/
theorem not_isEmpty_join? {s t u : Span} (h : s.join? t = some u) (hs : ¬ s.IsEmpty) : ¬ u.IsEmpty := by
  intro hu
  have hs' := hs
  simp only [isEmpty_iff, Classical.not_forall, Classical.not_not] at hs'
  obtain ⟨p, hp⟩ := hs'
  exact isEmpty_iff.1 hu p ((mem_join? h p).2 (.inl hp))

/-- Joining from the left makes no empty span, if there was none. -/
theorem not_isEmpty_coalesceFrom {first : Span} {rest : List Span} (hf : ¬ first.IsEmpty)
    (hr : ∀ s ∈ rest, ¬ s.IsEmpty) : ∀ s ∈ coalesceFrom first rest, ¬ s.IsEmpty := by
  induction rest generalizing first with
  | nil =>
    intro s hs
    rw [List.mem_singleton.1 hs]
    exact hf
  | cons next rest ih =>
    obtain ⟨hn, hr⟩ := List.forall_mem_cons.1 hr
    unfold coalesceFrom
    split
    · next joined hj => exact ih (not_isEmpty_join? hj hf) hr
    · exact List.forall_mem_cons.2 ⟨hf, ih hn hr⟩

/-- Joining spans that are not empty makes no empty one. -/
theorem not_isEmpty_coalesce {spans : List Span} (h : ∀ s ∈ spans, ¬ s.IsEmpty) :
    ∀ s ∈ coalesce spans, ¬ s.IsEmpty := by
  cases spans with
  | nil => exact nofun
  | cons first rest =>
    obtain ⟨hfirst, hrest⟩ := List.forall_mem_cons.1 h
    exact not_isEmpty_coalesceFrom hfirst hrest

/-- Merged regions are not empty. -/
theorem not_isEmpty_merge (spans : List Span) : ∀ s ∈ merge spans, ¬ s.IsEmpty := by
  rw [merge_eq_coalesce]
  refine not_isEmpty_coalesce fun s hs => ?_
  simpa using (List.mem_filter.1 ((sortOn_perm _ _).mem_iff.1 hs)).2

/-- A span joined onto one that starts earlier starts where that does. -/
theorem start_of_join? {s t u : Span} (h : s.join? t = some u) (hst : s.start ≤ t.start) :
    u.start = s.start := by
  unfold join? at h
  split at h
  · cases h
    dsimp only
    omega
  · cases h

/-- Spans that cannot be joined leave a gap. -/
theorem stop_lt_of_join? {s t : Span} (h : s.join? t = none) (hst : s.start ≤ t.start) :
    s.stop < t.start := by
  have := t.start_le_stop
  unfold join? at h
  split at h
  · cases h
  · omega

/-- Joining sorted intervals leaves a gap between any two that are left. -/
theorem pairwise_coalesceFrom {first : Span} {rest : List Span}
    (hs : (first :: rest).Pairwise fun a b => a.start ≤ b.start) :
    (coalesceFrom first rest).Pairwise (fun a b => a.stop < b.start) ∧
      ∀ s ∈ coalesceFrom first rest, first.start ≤ s.start := by
  induction rest generalizing first with
  | nil =>
    refine ⟨List.pairwise_singleton _ _, fun s hs => ?_⟩
    rw [List.mem_singleton.1 hs]
  | cons next rest ih =>
    obtain ⟨hfirst, hrest⟩ := List.pairwise_cons.1 hs
    have hnext := hfirst next List.mem_cons_self
    unfold coalesceFrom
    split
    · next joined hj =>
      have hstart := start_of_join? hj hnext
      rw [← hstart]
      refine ih (List.pairwise_cons.2 ⟨fun s hs => ?_, (List.pairwise_cons.1 hrest).2⟩)
      rw [hstart]
      exact hfirst s (List.mem_cons_of_mem _ hs)
    · next hj =>
      have hgap := stop_lt_of_join? hj hnext
      obtain ⟨hsep, hle⟩ := ih hrest
      refine ⟨List.pairwise_cons.2 ⟨fun s hs => ?_, hsep⟩, List.forall_mem_cons.2 ⟨Int.le_refl _, fun s hs => ?_⟩⟩
      · exact Int.lt_of_lt_of_le hgap (hle s hs)
      · exact Int.le_trans hnext (hle s hs)

/-- **Joining sorted spans leaves gaps between them.** -/
theorem pairwise_coalesce {spans : List Span} (hs : spans.Pairwise fun a b => a.start ≤ b.start) :
    (coalesce spans).Pairwise fun a b => a.stop < b.start := by
  cases spans with
  | nil => exact .nil
  | cons first rest => exact (pairwise_coalesceFrom hs).1

/-- **Merged regions are ascending, with a gap between any two.** -/
theorem pairwise_merge (spans : List Span) : (merge spans).Pairwise fun a b => a.stop < b.start := by
  rw [merge_eq_coalesce]
  exact pairwise_coalesce (pairwise_sortOn Span.start _)

end Span

/-! ## Regions of used space -/

/-- The other dimensions are those of the rectangle that are not listed. -/
theorem mem_otherDims {r : Rectangle} {dims : List Nat} {j : Nat} :
    j ∈ Region.otherDims r dims ↔ j < r.dim ∧ j ∉ dims := by
  simp [Region.otherDims, List.mem_filter, List.mem_range]

/-- The used space lies at the point `p` along dimension `i`, and meets the mandatory part of a focus
with the extents `ds` along every other dimension. -/
structure Used.BlocksAt (u : Used) (ds : List (Extent w)) (i : Nat) (p : Int) : Prop where
  along : ∃ box, u.boxes[i]? = some box ∧ p ∈ box
  across : ∀ j < ds.length, j ≠ i → ∃ d m box, ds[j]? = some d ∧ d.mandatory? = some m ∧
    u.boxes[j]? = some box ∧ m.Meets box

/-- **What blocks goes on blocking** as the domains of the focus shrink. -/
theorem Used.BlocksAt.shrinks {u : Used} {ds es : List (Extent w)} {i : Nat} {p : Int} (h : u.BlocksAt es i p)
    (hds : List.Forall₂ Extent.Within ds es) : u.BlocksAt ds i p := by
  refine ⟨h.along, fun j hj hji => ?_⟩
  obtain ⟨e, m, box, he, hm, hbox, hmeets⟩ := h.across j (by rwa [← hds.length_eq]) hji
  obtain ⟨d, n, hd, hn, hsub⟩ := Extent.mandatory?_of_within hds he hm
  obtain ⟨c, hc, hc'⟩ := Span.meets_iff.1 hmeets
  exact ⟨d, n, box, hd, hn, hbox, Span.meets_iff.2 ⟨c, hsub c hc, hc'⟩⟩

namespace Region

variable {s : Store w} {r : Rectangle}

/-- Whether used space blocks the focus can always be told. -/
theorem blocks_iff (hk : r.Known s) {u : Used} (hu : u.boxes.length = r.dim) (i : Nat) :
    ∃ b, blocks s r i u = .ok b ∧ (b = true ↔ ∀ j < r.dim, j ≠ i → ∃ d m box,
      (r.view s)[j]? = some d ∧ d.mandatory? = some m ∧ u.boxes[j]? = some box ∧ m.Meets box) := by
  have hall : ∃ b, blocks s r i u = .ok b ∧ (b = true ↔ ∀ j ∈ otherDims r [i], ∃ d m box,
      (r.view s)[j]? = some d ∧ d.mandatory? = some m ∧ u.boxes[j]? = some box ∧ m.Meets box) := by
    refine allM_iff fun j hj => ?_
    -- along one dimension
    obtain ⟨hj, -⟩ := mem_otherDims.1 hj
    have hd : (r.view s)[j]? = some ((r.view s).get ⟨j, by rwa [r.length_view]⟩) :=
      List.getElem?_eq_getElem (by rwa [r.length_view])
    have hbox : u.boxes[j]? = some (u.boxes.get ⟨j, by omega⟩) := List.getElem?_eq_getElem (by omega)
    rw [hk.mandatory?_eq hd, ok_bind]
    cases hm : ((r.view s).get ⟨j, by rwa [r.length_view]⟩).mandatory? with
    | none =>
      refine ⟨false, rfl, fun h => absurd h Bool.false_ne_true, ?_⟩
      rintro ⟨d, m, box, hd', hm', -⟩
      rw [hd] at hd'
      cases hd'
      rw [hm] at hm'
      cases hm'
    | some m =>
      dsimp only
      rw [entry_eq_ok.2 hbox, ok_bind]
      refine ⟨_, rfl, ?_⟩
      rw [decide_eq_true_eq]
      refine ⟨fun h => ⟨_, m, _, hd, hm, hbox, h⟩, ?_⟩
      rintro ⟨d, m', box, hd', hm', hbox', h⟩
      rw [hd] at hd'
      cases hd'
      rw [hm] at hm'
      cases hm'
      rw [hbox] at hbox'
      cases hbox'
      exact h
  obtain ⟨b, hb, hiff⟩ := hall
  refine ⟨b, hb, hiff.trans ⟨fun hall j hj hji => ?_, fun hall j hj => ?_⟩⟩
  · exact hall j (mem_otherDims.2 ⟨hj, by simpa using hji⟩)
  · obtain ⟨hj, hji⟩ := mem_otherDims.1 hj
    exact hall j hj (by simpa using hji)

/-- The used spaces that block the focus, along dimension `i`. -/
theorem blocking_iff (hk : r.Known s) {i : Nat} (hi : i < r.dim) {us : List Used}
    (hus : ∀ u ∈ us, u.boxes.length = r.dim) :
    ∃ spans, blocking s r i us = .ok spans ∧
      ∀ p, Covered spans p ↔ ∃ u ∈ us, u.BlocksAt (r.view s) i p := by
  induction us with
  | nil => exact ⟨[], rfl, fun p => by simp [Covered]⟩
  | cons u us ih =>
    obtain ⟨hu, hus⟩ := List.forall_mem_cons.1 hus
    obtain ⟨spans, hspans, hiff⟩ := ih hus
    obtain ⟨b, hb, hblocks⟩ := blocks_iff hk hu i
    have hbox : u.boxes[i]? = some (u.boxes.get ⟨i, by omega⟩) := List.getElem?_eq_getElem (by omega)
    have hat : ∀ p, u.BlocksAt (r.view s) i p ↔ b = true ∧ p ∈ u.boxes.get ⟨i, by omega⟩ := by
      intro p
      constructor
      · rintro ⟨⟨box, hbox', hp⟩, hacross⟩
        rw [hbox] at hbox'
        cases hbox'
        exact ⟨hblocks.2 fun j hj => hacross j (by rwa [r.length_view]), hp⟩
      · rintro ⟨htrue, hp⟩
        exact ⟨⟨_, hbox, hp⟩, fun j hj => hblocks.1 htrue j (by rwa [r.length_view] at hj)⟩
    unfold blocking
    rw [hb, ok_bind]
    cases b with
    | false =>
      refine ⟨spans, hspans, fun p => (hiff p).trans ?_⟩
      simp [hat]
    | true =>
      rw [if_pos rfl, entry_eq_ok.2 hbox, ok_bind, hspans, ok_bind]
      refine ⟨_, rfl, fun p => ?_⟩
      simp only [Covered, List.mem_cons, exists_eq_or_imp] at hiff ⊢
      rw [hat, hiff]
      simp

/-- **The regions of used space are where some used space blocks the focus.** -/
theorem ofUsed_iff (hk : r.Known s) {i : Nat} (hi : i < r.dim) {us : List Used}
    (hus : ∀ u ∈ us, u.boxes.length = r.dim) :
    ∃ regions, ofUsed s r i us = .ok regions ∧ (regions.Pairwise fun a b => a.stop < b.start) ∧
      (∀ g ∈ regions, ¬ g.IsEmpty) ∧
      ∀ p, Covered regions p ↔ ∃ u ∈ us, u.BlocksAt (r.view s) i p := by
  obtain ⟨spans, hspans, hiff⟩ := blocking_iff hk hi hus
  refine ⟨Span.merge spans, ?_, Span.pairwise_merge _, Span.not_isEmpty_merge _, fun p => ?_⟩
  · unfold ofUsed
    rw [hspans]
    rfl
  · rw [Span.covered_merge, hiff]

end Region

/-! ## Used space -/

/-- The boxes are space that a neighbour of the rectangle at position `k` covers. -/
def Used.Taken (u : Used) (α : Var → Int) (rectangles : List Rectangle) (k : Nat) : Prop :=
  u.neighbor ≠ k ∧ ∃ q, rectangles[u.neighbor]? = some q ∧ u.boxes.length = q.dim ∧
    ∀ (i : Nat) (b : Span), u.boxes[i]? = some b → ∀ p ∈ b, q.Along α i p

section Placed

variable {α : Var → Int} {s : Store w} {r : Rectangle} {i : Nat}

/-- A placed rectangle covers its mandatory parts. -/
theorem Rectangle.Known.along_mandatory (hk : r.Known s) (hα : s.Admits α) {e : Extent w}
    (he : (r.view s)[i]? = some e) {m : Span} (hm : e.mandatory? = some m) {p : Int} (hp : p ∈ m) :
    r.Along α i p := by
  rw [r.view_getElem?, Option.map_eq_some_iff] at he
  obtain ⟨x, hx, rfl⟩ := he
  have hmem := List.mem_of_getElem? hx
  exact ⟨x, hx, Extent.covers_mandatory hm (hα _ (hk.origin hmem)) (hα _ (hk.length hmem)) hp⟩

/-- The focus covers no point at which space blocks it that a rectangle without a common point with it
covers. -/
theorem Used.BlocksAt.not_along {u : Used} {p : Int} (h : u.BlocksAt (r.view s) i p) (hk : r.Known s)
    (hα : s.Admits α) {q : Rectangle} (hdim : r.dim = q.dim) (hclear : Box.Clear (r.box α) (q.box α))
    (htaken : ∀ (i : Nat) (b : Span), u.boxes[i]? = some b → ∀ p ∈ b, q.Along α i p) : ¬ r.Along α i p := by
  -- otherwise the two would share a coordinate along every dimension
  refine fun hp => Rectangle.not_clear_of_along hdim (fun j hj => ?_) hclear
  by_cases hji : j = i
  · subst hji
    obtain ⟨box, hbox, hpbox⟩ := h.along
    exact ⟨p, hp, htaken j box hbox p hpbox⟩
  · obtain ⟨e, m, box, he, hm, hbox, hmeets⟩ := h.across j (by rwa [r.length_view]) hji
    obtain ⟨c, hc, hc'⟩ := Span.meets_iff.1 hmeets
    exact ⟨c, hk.along_mandatory hα he hm hc, htaken j box hbox c hc'⟩

/-- **The focus covers no point of a region of used space.** -/
theorem Region.ofUsed_avoids {rectangles : List Rectangle} (hdim : ∀ q ∈ rectangles, r.dim = q.dim)
    {k : Nat} (hclear : ∀ j q, j ≠ k → rectangles[j]? = some q → Box.Clear (r.box α) (q.box α))
    (hk : r.Known s) (hα : s.Admits α) (hi : i < r.dim) {us : List Used}
    (hus : ∀ u ∈ us, u.Taken α rectangles k) :
    ∃ regions, ofUsed s r i us = .ok regions ∧ (∀ g ∈ regions, ¬ g.IsEmpty) ∧
      ∀ p, Covered regions p → ¬ r.Along α i p := by
  obtain ⟨regions, hok, -, hne, hcovered⟩ := ofUsed_iff hk hi fun u hu => by
    obtain ⟨-, q, hq, hlen, -⟩ := hus u hu
    exact hlen.trans (hdim q (List.mem_of_getElem? hq)).symm
  refine ⟨regions, hok, hne, fun p hp => ?_⟩
  obtain ⟨u, hu, hblocks⟩ := (hcovered p).1 hp
  obtain ⟨hne, q, hq, -, htaken⟩ := hus u hu
  exact hblocks.not_along hk hα (hdim q (List.mem_of_getElem? hq)) (hclear _ q hne hq) htaken

end Placed

namespace Scene

variable {α : Var → Int} {s : Store w} {rectangles : List Rectangle} {frames : Box}
  (h : Scene α s rectangles frames) {r : Rectangle} {k i : Nat}

include h

/-- A rectangle covers its mandatory part. -/
theorem along_mandatory (hr : r ∈ rectangles) {e : Extent w} (he : (r.view s)[i]? = some e) {m : Span}
    (hm : e.mandatory? = some m) {p : Int} (hp : p ∈ m) : r.Along α i p :=
  (h.uniform.known r hr).along_mandatory h.admits he hm hp

/-- **The focus covers no point of a region of used space**, in a scene. -/
theorem ofUsed_spec (hr : rectangles[k]? = some r) (hi : i < r.dim) {us : List Used}
    (hus : ∀ u ∈ us, u.Taken α rectangles k) :
    ∃ regions, Region.ofUsed s r i us = .ok regions ∧ (∀ g ∈ regions, ¬ g.IsEmpty) ∧
      ∀ p, Covered regions p → ¬ r.Along α i p := by
  have hmem := List.mem_of_getElem? hr
  exact Region.ofUsed_avoids (fun q hq => h.uniform.dim_eq r hmem q hq)
    (fun j q hjk hq => h.clear k j r q hjk.symm hr hq) (h.uniform.known r hmem) h.admits hi hus

end Scene

/-! ## What an analysis calls used -/

open Neighborhood

/-- Where a filter drops nothing, every entry has a value. -/
theorem forall₂_of_length_filterMap {β γ : Type} {f : β → Option γ} {bs : List β}
    (h : (bs.filterMap f).length = bs.length) :
    List.Forall₂ (fun b c => f b = some c) bs (bs.filterMap f) := by
  induction bs with
  | nil => exact .nil
  | cons b bs ih =>
    cases hb : f b with
    | none =>
      rw [List.filterMap_cons_none hb] at h
      have := List.length_filterMap_le f bs
      simp only [List.length_cons] at h
      omega
    | some c =>
      rw [List.filterMap_cons_some hb] at h ⊢
      exact .cons hb (ih (by simpa using h))

/-- **What an analysis calls used space is covered by its neighbour**, then and in every later
placement of the solution. -/
theorem Scene.taken_of_seen {α : Var → Int} {s : Store w} {rectangles : List Rectangle} {frames : Box}
    (h : Scene α s rectangles frames) {k : Nat} {cs : List Nat} (hk : k ∉ cs) {es : List (Extent w)}
    {changed : List Var} :
    ∀ u ∈ (ofNeighbors (seen s rectangles changed es cs)).used, u.Taken α rectangles k := by
  intro u hu
  obtain ⟨n, hn, rfl⟩ := List.mem_map.1 hu
  obtain ⟨hn, hused⟩ := List.mem_filter.1 hn
  obtain ⟨j, hj, hsight⟩ := List.mem_filterMap.1 hn
  obtain ⟨q, hq, -, rfl⟩ := sight_eq_some hsight
  have hqmem := List.mem_of_getElem? hq
  have hboxes : List.Forall₂ (fun e b => e.mandatory? = some b) (q.view s)
      ((q.view s).filterMap Extent.mandatory?) :=
    forall₂_of_length_filterMap (beq_iff_eq.1 hused)
  refine ⟨fun hjk => hk (hjk ▸ hj), q, hq, ?_, fun i b hb p hp => ?_⟩
  · exact hboxes.length_eq.symm.trans (q.length_view s)
  · obtain ⟨hlen, hget⟩ := List.forall₂_iff_get.1 hboxes
    obtain ⟨hlt, rfl⟩ := List.getElem?_eq_some_iff.1 hb
    have hi : i < (q.view s).length := hlen ▸ hlt
    exact h.along_mandatory hqmem (List.getElem?_eq_getElem hi) (hget i hi hlt) hp

end Placement
