/-
# A store with a solution does not violate the common area bound

The bound compares a saturating count with a saturating count. In a scene the true counts are
in order, because they count lattice points of boxes without common points: what a neighbour
must take of the focus's reach is at most what it takes of it (`forcedAlong_le`), and the focus
itself takes at least its least area of it (`Scene.commonArea_le`).
-/

import Placement.Proofs.LeastOverlaps

namespace Placement

variable {w : Width}

open Neighborhood

/-! ## What a neighbour must take -/

/-- What a neighbour with the extent `e` must take of a focus with the extent `d`. -/
def forcedAlong (d e : Extent w) : Int :=
  forcedExtent w e.origin.lo (w.add e.origin.hi (max e.length.lo 0)) (max e.length.lo 0) d.span
    d.latestStop

/-- **What a neighbour must take of a window is at most what it takes of it**, along one dimension. -/
theorem forcedAlong_le {d e : Extent w} {f : Int × Int} (hf : IsFrame w f) (hd : d.Inside f)
    (he : e.Inside f) (hpos : 0 < d.length.hi) (hnn : 0 ≤ d.length.lo) {o l : Int} (ho : o ∈ e.origin)
    (hl : l ∈ e.length) :
    0 ≤ forcedAlong d e ∧
      forcedAlong d e ≤ max 0 (min (o + l) d.span.stop - max o d.span.start) := by
  have hleast : 0 ≤ max e.length.lo 0 := le_max_right ..
  have hlast : e.origin.hi + max e.length.lo 0 ≤ f.2 := by
    have := he.hi_le
    have := e.length.lo_le_hi
    omega
  have hd₁ := hd.le_lo
  have hd₂ := hd.hi_le
  have he₁ := he.le_lo
  have hdo := d.origin.lo_le_hi
  have hdl := d.length.lo_le_hi
  have heo := e.origin.lo_le_hi
  have hstart : d.span.start = d.origin.lo := rfl
  have hstop := hd.stop_span hf hpos
  have hlate := hd.latestStop_eq hf hnn
  have hadd : w.add e.origin.hi (max e.length.lo 0) = e.origin.hi + max e.length.lo 0 :=
    hf.add_eq (by omega) hlast
  obtain ⟨ho₁, ho₂⟩ := ho
  obtain ⟨hl₁, -⟩ := hl
  unfold forcedAlong
  rw [hadd]
  exact ⟨forcedExtent_nonneg hleast, forcedExtent_le hf heo hleast he₁ hlast (by omega) (by omega) (by omega)
    (by omega) ho₁ ho₂ (by omega)⟩

/-! ## Boxes of the focus and its neighbours -/

namespace Rectangle

/-- The reach of a rectangle, as a box. -/
def reachBox (r : Rectangle) (s : Store w) : Box := r.sides.map fun x =>
  ((s.look x).span.start, (s.look x).span.stop)

/-- What a placed rectangle takes at its least lengths. -/
def core (r : Rectangle) (s : Store w) (α : Var → Int) : Box := r.sides.map fun x =>
  (α x.origin, α x.origin + max (s.look x).length.lo 0)

/-- The least area is the volume of what is taken at least lengths, clamped. -/
theorem product_lengths (r : Rectangle) (s : Store w) (α : Var → Int) :
    w.product ((r.view s).map fun e => max e.length.lo 0) = w.clamp (Box.volume (r.core s α)) := by
  unfold view core
  rw [List.map_map]
  refine Box.product_eq_clamp_volume fun x _ => ?_
  simp only [Function.comp_apply]
  omega

/-- No length of the rectangle can be negative. -/
def Nonneg (r : Rectangle) (s : Store w) : Prop := ∀ x ∈ r.sides, 0 ≤ (s.look x).length.lo

/-- Least lengths that are not negative stay so as the store shrinks. -/
theorem Nonneg.shrinks {r : Rectangle} {s t : Store w} (h : r.Nonneg s) (hk : r.Known s)
    (hst : s.Shrinks t) : r.Nonneg t := fun x hx =>
  Int.le_trans (h x hx) (hst.within _ (hk.length hx)).1

end Rectangle

namespace Scene

variable {α : Var → Int} {s : Store w} {rectangles : List Rectangle} {frames : Box}
  (h : Scene α s rectangles frames) {r q : Rectangle}

include h

/-- A rectangle takes at least what it takes at its least lengths. -/
theorem core_subset_box (hr : r ∈ rectangles) (hnn : r.Nonneg s) :
    Box.cells (r.core s α) ⊆ Box.cells (r.box α) := by
  refine Box.cells_subset (List.forall₂_map_left_iff.2 (List.forall₂_map_right_iff.2 ?_))
  refine List.forall₂_same.2 fun x hx c hc hc' => ⟨hc, ?_⟩
  have hl := (h.fits hr hx).2.1
  have := hnn x hx
  simp only at hc'
  omega

/-- What a rectangle takes at its least lengths lies in its reach. -/
theorem core_subset_reachBox (hr : r ∈ rectangles) (hnn : r.Nonneg s) :
    Box.cells (r.core s α) ⊆ Box.cells (r.reachBox s) := by
  refine Box.cells_subset (List.forall₂_map_left_iff.2 (List.forall₂_map_right_iff.2 ?_))
  refine List.forall₂_same.2 fun x hx c hc hc' => ?_
  obtain ⟨f, hf, hin⟩ := h.frame hr hx
  obtain ⟨⟨ho₁, ho₂⟩, hl₁, hl₂⟩ := h.fits hr hx
  have := hnn x hx
  simp only at hc hc' ⊢
  have hstop := hin.stop_span hf (by omega)
  exact ⟨le_trans ho₁ hc, by omega⟩

/-- The volume of the focus is that of its reach, clamped. -/
theorem volume_focus (hr : r ∈ rectangles) (k : Nat) :
    (Focus.of k (r.view s)).volume = w.clamp (Box.volume (r.reachBox s)) := by
  change w.product ((r.view s).map fun e => e.span.length w) = _
  unfold Rectangle.view Rectangle.reachBox
  rw [List.map_map]
  refine Box.product_eq_clamp_volume fun x hx => ?_
  obtain ⟨f, hf, hin⟩ := h.frame hr hx
  have := (s.look x).span.start_le_stop
  simp only [Function.comp_apply, hin.length_span hf]
  omega

/-! ## The common area bound -/

/-- **What a neighbour must take of the focus's reach is at most what it takes of it.** -/
theorem forcedVolume_le (hr : r ∈ rectangles) (hq : q ∈ rectangles) (hnn : r.Nonneg s)
    (hm : meet (r.view s) (q.view s) = true) (k j : Nat) (c : Bool) :
    0 ≤ forcedVolume (Focus.of k (r.view s)) (Neighbor.of j (q.view s) c) ∧
      forcedVolume (Focus.of k (r.view s)) (Neighbor.of j (q.view s) c) ≤
        Box.volume (Box.inter (q.box α) (r.reachBox s)) := by
  have hdim : r.dim = q.dim := h.uniform.dim_eq r hr q hq
  have heq : forcedVolume (Focus.of k (r.view s)) (Neighbor.of j (q.view s) c) =
      w.product (List.zipWith forcedAlong (r.view s) (q.view s)) := by
    change w.product (List.zipWith _ ((r.view s).map Window.of) (q.view s)) = _
    rw [List.zipWith_map_left]
    rfl
  have hfactors : List.Forall₂ (fun x y => 0 ≤ x ∧ x ≤ y)
      (List.zipWith forcedAlong (r.view s) (q.view s))
      ((Box.inter (q.box α) (r.reachBox s)).map fun t => max 0 (t.2 - t.1)) := by
    have hmeet : List.Forall₂ (fun x y => (s.look x).span.Meets (s.look y).span) r.sides q.sides := by
      have := (meet_iff (by simpa using hdim)).1 hm
      unfold Rectangle.view at this
      rwa [List.forall₂_map_left_iff, List.forall₂_map_right_iff] at this
    have hpair := h.framed_pair hr hq
    have hside : ∀ y ∈ q.sides, α y.origin ∈ (s.look y).origin ∧ α y.length ∈ (s.look y).length :=
      fun y hy => h.fits hq hy
    unfold Rectangle.Nonneg at hnn
    unfold Rectangle.view Rectangle.box Rectangle.reachBox Box.inter
    generalize r.sides = xs at hmeet hpair hnn
    generalize q.sides = ys at hmeet hpair hside
    induction hpair with
    | nil => exact .nil
    | @cons x y xs ys hxy _ ih =>
      obtain ⟨f, hf, hx, hy⟩ := hxy
      rw [List.forall₂_cons] at hmeet
      have hpos : 0 < (s.look x).length.hi := by
        by_contra hle
        have hempty : (s.look x).span.stop = (s.look x).span.start := if_pos (by omega)
        have := hmeet.1
        simp only [Span.Meets] at this
        omega
      obtain ⟨ho, hl⟩ := hside y List.mem_cons_self
      have := forcedAlong_le hf hx hy hpos (hnn x List.mem_cons_self) ho hl
      exact .cons this (ih (fun z hz => hnn z (List.mem_cons_of_mem _ hz)) hmeet.2
        fun z hz => hside z (List.mem_cons_of_mem _ hz))
  obtain ⟨hfac, hle⟩ := prod_le_prod_of_forall₂ hfactors
  have hprod := prod_nonneg_of_forall hfac
  rw [heq, Width.product_eq_clamp hfac]
  exact ⟨Width.clamp_nonneg hprod, le_trans (Width.clamp_le_self hprod) hle⟩

end Scene

/-- Different neighbours of the rectangle `r` at position `k`, where `q` gives the rectangle of each. -/
structure Crowd (s : Store w) (rectangles : List Rectangle) (k : Nat) (r : Rectangle)
    (q : Neighbor w → Rectangle) (ns : List (Neighbor w)) : Prop where
  nodup : (ns.map Neighbor.index).Nodup
  ne : ∀ n ∈ ns, n.index ≠ k
  at_index : ∀ n ∈ ns, rectangles[n.index]? = some (q n)
  meets : ∀ n ∈ ns, meet (r.view s) ((q n).view s) = true
  eq_of : ∀ n ∈ ns, ∃ c, n = Neighbor.of n.index ((q n).view s) c

namespace Crowd

variable {s : Store w} {rectangles : List Rectangle} {k : Nat} {r : Rectangle}
  {q : Neighbor w → Rectangle} {ns ms : List (Neighbor w)}

/-- Some neighbours of different rectangles are neighbours of different rectangles. -/
theorem sublist (h : Crowd s rectangles k r q ns) (hms : ms.Sublist ns) : Crowd s rectangles k r q ms :=
  ⟨h.nodup.sublist (hms.map _), fun n hn => h.ne n (hms.subset hn), fun n hn => h.at_index n (hms.subset hn),
    fun n hn => h.meets n (hms.subset hn), fun n hn => h.eq_of n (hms.subset hn)⟩

/-- What an analysis sees among different candidates. -/
theorem of_seen (s : Store w) (rectangles : List Rectangle) (r : Rectangle) {cs : List Nat} (hnd : cs.Nodup) (hk : k ∉ cs) (changed : List Var) :
    Crowd s rectangles k r (fun n => rectangles[n.index]?.getD r)
      (seen s rectangles changed (r.view s) cs) := by
  have hsub := index_seen_sublist s rectangles changed (r.view s) cs
  have hmem : ∀ n ∈ seen s rectangles changed (r.view s) cs, ∃ q, rectangles[n.index]? = some q ∧
      meet (r.view s) (q.view s) = true ∧ n = Neighbor.of n.index (q.view s) (q.touches changed) := by
    intro n hn
    obtain ⟨j, -, hj⟩ := List.mem_filterMap.1 hn
    obtain ⟨q, hq, hm, rfl⟩ := sight_eq_some hj
    exact ⟨q, hq, hm, rfl⟩
  refine ⟨hnd.sublist hsub, fun n hn he => hk (hsub.subset (he ▸ List.mem_map.2 ⟨n, hn, rfl⟩)),
    fun n hn => ?_, fun n hn => ?_, fun n hn => ?_⟩
  · obtain ⟨q, hq, -, -⟩ := hmem n hn
    rw [hq, Option.getD_some]
  · obtain ⟨q, hq, hm, -⟩ := hmem n hn
    rw [hq, Option.getD_some]
    exact hm
  · obtain ⟨q, hq, -, he⟩ := hmem n hn
    rw [hq, Option.getD_some]
    exact ⟨_, he⟩

/-- The rectangles of neighbours are in the list. -/
theorem mem (h : Crowd s rectangles k r q ns) {n : Neighbor w} (hn : n ∈ ns) : q n ∈ rectangles :=
  List.mem_of_getElem? (h.at_index n hn)

end Crowd

/-- A neighbour adds what it must take. -/
theorem forced_add (f : Focus) (t : Tally) (n : Neighbor w) :
    (t.add f n).forced = w.add t.forced (forcedVolume f n) := by
  unfold Tally.add
  dsimp only
  split <;> rfl

/-- What all neighbours must take is at most the sum of what each of them takes. -/
theorem forced_tally_le {f : Focus} {ns : List (Neighbor w)} {g : Neighbor w → Int}
    (hg : ∀ n ∈ ns, 0 ≤ forcedVolume f n ∧ forcedVolume f n ≤ g n) :
    0 ≤ (tally f ns).forced ∧ (tally f ns).forced ≤ (ns.map g).sum := by
  induction ns using List.reverseRecOn with
  | nil => exact ⟨le_refl _, le_refl _⟩
  | append_singleton ns n ih =>
    obtain ⟨h₀, hle⟩ := ih fun m hm => hg m (List.mem_append_left _ hm)
    obtain ⟨hn₀, hnle⟩ := hg n (by simp)
    rw [tally_concat, forced_add, List.map_append, List.sum_append, List.map_singleton, List.sum_singleton]
    have hsum : 0 ≤ (tally f ns).forced + forcedVolume f n := add_nonneg h₀ hn₀
    exact ⟨Width.clamp_nonneg hsum, le_trans (Width.clamp_le_self hsum) (add_le_add hle hnle)⟩

namespace Scene

variable {α : Var → Int} {s : Store w} {rectangles : List Rectangle} {frames : Box}
  (h : Scene α s rectangles frames) {r : Rectangle} {k : Nat} {q : Neighbor w → Rectangle}
  {ns : List (Neighbor w)}

include h

/-- The boxes of different neighbours have no common point, and none with the focus. -/
theorem clear_crowd (hr : rectangles[k]? = some r) (hc : Crowd s rectangles k r q ns) :
    (∀ n ∈ ns, Box.Clear (r.box α) ((q n).box α)) ∧
      ns.Pairwise fun m n => Box.Clear ((q m).box α) ((q n).box α) := by
  refine ⟨fun n hn => h.clear k n.index r (q n) (hc.ne n hn).symm hr (hc.at_index n hn), ?_⟩
  refine (List.pairwise_map.1 hc.nodup).imp_of_mem fun {m n} hm hn hne => ?_
  exact h.clear m.index n.index (q m) (q n) hne (hc.at_index m hm) (hc.at_index n hn)

/-- **A scene does not violate the common area bound.** -/
theorem commonArea_le (hr : rectangles[k]? = some r) (hnn : r.Nonneg s)
    (hc : Crowd s rectangles k r q ns) :
    w.add (tally (Focus.of k (r.view s)) ns).forced (Focus.of k (r.view s)).area ≤
      (Focus.of k (r.view s)).volume := by
  have hmem := List.mem_of_getElem? hr
  have hforced : (tally (Focus.of k (r.view s)) ns).forced ≤
      (ns.map fun n => Box.volume (Box.inter ((q n).box α) (r.reachBox s))).sum := by
    refine (forced_tally_le fun n hn => ?_).2
    obtain ⟨c, he⟩ := hc.eq_of n hn
    have := h.forcedVolume_le hmem (hc.mem hn) hnn (hc.meets n hn) k n.index c
    rwa [← he] at this
  have harea : (Focus.of k (r.view s)).area ≤ Box.volume (r.core s α) := by
    change w.product _ ≤ _
    rw [r.product_lengths s α]
    exact Width.clamp_le_self (Box.volume_nonneg _)
  -- what the neighbours take of the reach, and the focus at its least lengths
  let boxes := r.core s α :: ns.map fun n => Box.inter ((q n).box α) (r.reachBox s)
  have hlen : ∀ n ∈ ns, ((q n).box α).length = (r.reachBox s).length := fun n hn => by
    rw [Rectangle.length_box, h.uniform.dim_eq (q n) (hc.mem hn) r hmem]
    exact (List.length_map ..).symm
  obtain ⟨hfocus, hpair⟩ := h.clear_crowd hr hc
  have hpacked : (boxes.map Box.volume).sum ≤ Box.volume (r.reachBox s) := by
    refine Box.sum_volume_le (List.pairwise_cons.2 ⟨fun b hb => ?_, ?_⟩) fun b hb => ?_
    · obtain ⟨n, hn, rfl⟩ := List.mem_map.1 hb
      exact (hfocus n hn).mono (h.core_subset_box hmem hnn) fun p hp =>
        ((Box.mem_inter (hlen n hn)).1 hp).1
    · refine List.pairwise_map.2 (hpair.imp_of_mem fun {m n} hm hn hmn => ?_)
      exact hmn.mono (fun p hp => ((Box.mem_inter (hlen m hm)).1 hp).1) fun p hp =>
        ((Box.mem_inter (hlen n hn)).1 hp).1
    · rcases List.mem_cons.1 hb with rfl | hb
      · exact h.core_subset_reachBox hmem hnn
      · obtain ⟨n, hn, rfl⟩ := List.mem_map.1 hb
        exact fun p hp => ((Box.mem_inter (hlen n hn)).1 hp).2
  rw [h.volume_focus hmem]
  refine w.clamp_mono ?_
  have hsum : (boxes.map Box.volume).sum = Box.volume (r.core s α) +
      (ns.map fun n => Box.volume (Box.inter ((q n).box α) (r.reachBox s))).sum := by
    rw [List.map_cons, List.sum_cons, List.map_map]
    rfl
  omega

end Scene

end Placement
