/-
# A store with a solution violates no bound on the envelope

The envelope of a focus and its solid neighbours holds all of them at their least lengths
(`Scene.envelope`). So it has room for their least areas (`Scene.area_le`). Cut it into cells of
the least lengths, and mark for each rectangle the cell that holds its origin: two rectangles
with one mark would overlap, so there are at least as many cells as rectangles
(`Scene.capacity_le`). With the common area bound, an analysis of a store that has a solution
ends well (`Scene.analyze`).
-/

import Placement.Proofs.VolumeBounds

namespace Placement

variable {w : Width}

open Neighborhood

/-! ## The envelope -/

/-- A stretch of the envelope holds every placement of an extent at its least length. -/
structure Neighborhood.Stretch.Covers (t : Stretch) (e : Extent w) : Prop where
  start_le : t.start ≤ e.origin.lo
  le_stop : e.origin.hi + e.length.lo ≤ t.stop
  minLength_le : t.minLength ≤ e.length.lo

/-- A solid neighbour widens the envelope, and no other one does. -/
theorem envelope_add (f : Focus) (t : Tally) (n : Neighbor w) :
    (t.add f n).envelope =
      if n.solid then List.zipWith Stretch.widen t.envelope n.extents else t.envelope := by
  unfold Tally.add
  dsimp only
  split <;> rfl

/-- Solid neighbours are counted. -/
theorem solids_add (f : Focus) (t : Tally) (n : Neighbor w) :
    (t.add f n).solids = if n.solid then t.solids + 1 else t.solids := by
  unfold Tally.add
  dsimp only
  split <;> rfl

/-- The least areas of solid neighbours are added up. -/
theorem area_add (f : Focus) (t : Tally) (n : Neighbor w) :
    (t.add f n).area = if n.solid then w.add t.area n.area else t.area := by
  unfold Tally.add
  dsimp only
  split <;> rfl

/-- Relations to a third list carry over to what two lists are combined to. -/
theorem forall₂_zipWith {β γ δ ε : Type} {R : β → δ → Prop} {S : γ → δ → Prop} {T : ε → δ → Prop}
    {g : β → γ → ε} (hg : ∀ b c d, R b d → S c d → T (g b c) d) {bs : List β} {cs : List γ} {ds : List δ}
    (hR : List.Forall₂ R bs ds) (hS : List.Forall₂ S cs ds) :
    List.Forall₂ T (List.zipWith g bs cs) ds := by
  induction hR generalizing cs with
  | nil => cases hS; exact .nil
  | cons hb _ ih =>
    cases hS with
    | cons hc hS => exact .cons (hg _ _ _ hb hc) (ih hS)

/-- The number of solid neighbours. -/
theorem solids_tally (f : Focus) (ns : List (Neighbor w)) :
    (tally f ns).solids = (ns.filter Neighbor.solid).length := by
  induction ns using List.reverseRecOn with
  | nil => rfl
  | append_singleton ns n ih =>
    rw [tally_concat, solids_add, ih, List.filter_append, List.length_append]
    cases hn : n.solid <;> simp [hn]

/-- The least areas of the solid neighbours add up to at most the sum of their areas. -/
theorem area_tally_le {f : Focus} {ns : List (Neighbor w)} {g : Neighbor w → Int}
    (hg : ∀ n ∈ ns, n.solid = true → 0 ≤ n.area ∧ n.area ≤ g n) :
    0 ≤ (tally f ns).area ∧ (tally f ns).area ≤ ((ns.filter Neighbor.solid).map g).sum := by
  induction ns using List.reverseRecOn with
  | nil => exact ⟨le_refl _, le_refl _⟩
  | append_singleton ns n ih =>
    obtain ⟨h₀, hle⟩ := ih fun m hm => hg m (List.mem_append_left _ hm)
    rw [tally_concat, area_add, List.filter_append, List.map_append, List.sum_append]
    cases hn : n.solid with
    | false => simpa [hn] using ⟨h₀, hle⟩
    | true =>
      obtain ⟨hn₀, hnle⟩ := hg n (by simp) hn
      have hsum : 0 ≤ (tally f ns).area + n.area := add_nonneg h₀ hn₀
      simp only [if_true, List.filter_cons_of_pos hn, List.filter_nil, List.map_singleton,
        List.sum_singleton]
      exact ⟨Width.clamp_nonneg hsum, le_trans (Width.clamp_le_self hsum) (add_le_add hle hnle)⟩

namespace Scene

variable {α : Var → Int} {s : Store w} {rectangles : List Rectangle} {frames : Box}
  (h : Scene α s rectangles frames) {r : Rectangle} {k : Nat} {q : Neighbor w → Rectangle}
  {ns : List (Neighbor w)}

/-- All least lengths of a solid neighbour are positive. -/
theorem pos_of_solid (hc : Crowd s rectangles k r q ns) {n : Neighbor w} (hn : n ∈ ns)
    (hs : n.solid = true) : ∀ x ∈ (q n).sides, 0 < (s.look x).length.lo := by
  obtain ⟨c, he⟩ := hc.eq_of n hn
  rw [he] at hs
  simp only [Neighbor.of, Bool.not_eq_true', List.any_eq_false, decide_eq_true_eq, not_le] at hs
  exact fun x hx => hs _ (List.mem_map.2 ⟨x, hx, rfl⟩)

include h

/-- What is not negative stops, at its latest start and least length, in its frame. -/
theorem latestStop_of_nonneg {p : Rectangle} (hp : p ∈ rectangles) (hnn : p.Nonneg s) :
    ∀ x ∈ p.sides, (s.look x).latestStop = (s.look x).origin.hi + (s.look x).length.lo := by
  intro x hx
  obtain ⟨f, hf, hin⟩ := h.frame hp hx
  exact hin.latestStop_eq hf (hnn x hx)

/-- A rectangle without negative least lengths starts and stops within its frames. -/
theorem framed_of_nonneg {p : Rectangle} (hp : p ∈ rectangles) (hnn : p.Nonneg s) :
    List.Forall₂ (fun x (f : Int × Int) => f.1 ≤ (s.look x).origin.lo ∧ (s.look x).latestStop ≤ f.2)
      p.sides frames := by
  have hboth := (List.forall₂_and_left _ _).2 ⟨h.latestStop_of_nonneg hp hnn, h.framed p hp⟩
  refine hboth.imp fun x f hx => ?_
  obtain ⟨hlate, hin⟩ := hx
  have := hin.hi_le
  have := (s.look x).length.lo_le_hi
  exact ⟨hin.le_lo, by omega⟩

/-- **The envelope lies in the frames and covers the focus and every solid neighbour.** -/
theorem envelope (hr : r ∈ rectangles) (hnn : r.Nonneg s) (hc : Crowd s rectangles k r q ns) :
    List.Forall₂ (fun (t : Stretch) (f : Int × Int) => f.1 ≤ t.start ∧ t.stop ≤ f.2)
      (tally (Focus.of k (r.view s)) ns).envelope frames ∧
    List.Forall₂ (fun (t : Stretch) x => t.Covers (s.look x))
      (tally (Focus.of k (r.view s)) ns).envelope r.sides ∧
    ∀ n ∈ ns, n.solid = true → List.Forall₂ (fun (t : Stretch) x => t.Covers (s.look x))
      (tally (Focus.of k (r.view s)) ns).envelope (q n).sides := by
  induction ns using List.reverseRecOn with
  | nil =>
    have hstart : (tally (w := w) (Focus.of k (r.view s)) []).envelope = r.sides.map fun x =>
        ⟨(s.look x).origin.lo, (s.look x).latestStop, (s.look x).length.lo⟩ := by
      change ((r.view s).map Window.of).map _ = _
      unfold Rectangle.view
      rw [List.map_map, List.map_map]
      rfl
    rw [hstart]
    refine ⟨List.forall₂_map_left_iff.2 ?_, List.forall₂_map_left_iff.2 ?_, nofun⟩
    · exact h.framed_of_nonneg hr hnn
    · refine List.forall₂_same.2 fun x hx => ⟨le_refl _, ?_, le_refl _⟩
      rw [h.latestStop_of_nonneg hr hnn x hx]
  | append_singleton ns n ih =>
    obtain ⟨hframes, hfocus, hothers⟩ := ih (hc.sublist (List.sublist_append_left _ _))
    have hn : n ∈ ns ++ [n] := by simp
    rw [tally_concat, envelope_add]
    cases hsolid : n.solid with
    | false =>
      refine ⟨hframes, hfocus, fun m hm hms => hothers m ?_ hms⟩
      rcases List.mem_append.1 hm with hm | hm
      · exact hm
      · rw [List.mem_singleton.1 hm, hsolid] at hms
        cases hms
    | true =>
      have hpos := pos_of_solid hc hn hsolid
      have hnn' : (q n).Nonneg s := fun x hx => le_of_lt (hpos x hx)
      have hext : n.extents = (q n).view s := by
        obtain ⟨c, he⟩ := hc.eq_of n hn
        exact congrArg Neighbor.extents he
      -- the extents of the new neighbour beside the sides of any rectangle
      have beside : ∀ p ∈ rectangles, List.Forall₂ (fun _ _ => True) ((q n).view s) p.sides := fun p hp =>
        List.forall₂_iff_get.2 ⟨by rw [Rectangle.length_view, h.uniform.dim_eq _ (hc.mem hn) p hp]; rfl,
          fun _ _ _ => trivial⟩
      have hold : ∀ p ∈ rectangles, List.Forall₂ (fun (t : Stretch) x => t.Covers (s.look x))
          (tally (Focus.of k (r.view s)) ns).envelope p.sides →
          List.Forall₂ (fun (t : Stretch) x => t.Covers (s.look x))
            (List.zipWith Stretch.widen (tally (Focus.of k (r.view s)) ns).envelope n.extents) p.sides := by
        intro p hp hcov
        rw [hext]
        refine forall₂_zipWith (fun t e x ht _ => ?_) hcov (beside p hp)
        exact ⟨min_le_of_left_le ht.start_le, le_max_of_le_left ht.le_stop,
          min_le_of_left_le ht.minLength_le⟩
      simp only [if_true]
      refine ⟨?_, hold r hr hfocus, fun m hm hms => ?_⟩
      · rw [hext]
        have hnew : List.Forall₂ (fun (e : Extent w) (f : Int × Int) => f.1 ≤ e.origin.lo ∧
            e.latestStop ≤ f.2) ((q n).view s) frames :=
          List.forall₂_map_left_iff.2 (h.framed_of_nonneg (hc.mem hn) hnn')
        refine forall₂_zipWith (fun t e f ht he => ?_) hframes hnew
        exact ⟨le_min ht.1 he.1, max_le ht.2 he.2⟩
      · rcases List.mem_append.1 hm with hm | hm
        · exact hold (q m) (hc.mem (List.mem_append_left _ hm)) (hothers m hm hms)
        · rw [List.mem_singleton.1 hm, hext]
          have hsame : List.Forall₂ (fun e x => e = s.look x ∧
              e.latestStop = (s.look x).origin.hi + (s.look x).length.lo) ((q n).view s) (q n).sides :=
            List.forall₂_map_left_iff.2 (List.forall₂_same.2 fun x hx =>
              ⟨rfl, h.latestStop_of_nonneg (hc.mem hn) hnn' x hx⟩)
          have henv : List.Forall₂ (fun (_ : Stretch) (_ : Side) => True)
              (tally (Focus.of k (r.view s)) ns).envelope (q n).sides :=
            List.forall₂_iff_get.2 ⟨hfocus.length_eq.trans (h.uniform.dim_eq r hr _ (hc.mem hn)),
              fun _ _ _ => trivial⟩
          refine forall₂_zipWith (fun t e x _ he => ?_) henv hsame
          obtain ⟨rfl, hlate⟩ := he
          exact ⟨min_le_right _ _, hlate ▸ le_max_right _ _, min_le_right _ _⟩

/-- The stretches of the envelope are in order, and their ends can be subtracted. -/
theorem sub_envelope (hr : r ∈ rectangles) (hnn : r.Nonneg s) (hc : Crowd s rectangles k r q ns) :
    ∀ t ∈ (tally (Focus.of k (r.view s)) ns).envelope,
      t.start ≤ t.stop ∧ w.sub t.stop t.start = t.stop - t.start := by
  intro t ht
  obtain ⟨hframes, hfocus, -⟩ := h.envelope hr hnn hc
  obtain ⟨f, hf, hin⟩ := exists_of_forall₂ hframes ht
  obtain ⟨x, hx, hcov⟩ := exists_of_forall₂ hfocus ht
  have hstart := hcov.start_le
  have hstop := hcov.le_stop
  have := (s.look x).origin.lo_le_hi
  have := hnn x hx
  exact ⟨by omega, (h.isFrame f hf).sub_eq (by omega) (by omega)⟩

/-! ## The area bound -/

/-- What a stretch of the envelope covers lies in it at its least length. -/
theorem core_subset_envelope {p : Rectangle} (hp : p ∈ rectangles) (hnn : p.Nonneg s) {env : List Stretch}
    (hcov : List.Forall₂ (fun (t : Stretch) x => t.Covers (s.look x)) env p.sides) :
    Box.cells (p.core s α) ⊆ Box.cells (env.map fun t => (t.start, t.stop)) := by
  refine Box.cells_subset (List.forall₂_map_left_iff.2 (List.forall₂_map_right_iff.2 ?_))
  have hboth := (List.forall₂_and_left _ _).2 ⟨fun x hx => And.intro (h.fits hp hx) (hnn x hx), hcov.flip⟩
  refine hboth.imp fun x t hx c hc hc' => ?_
  obtain ⟨⟨⟨⟨ho₁, ho₂⟩, -⟩, hnn⟩, hcov⟩ := hx
  have := hcov.start_le
  have := hcov.le_stop
  simp only at hc hc' ⊢
  omega

/-- **A scene does not violate the area bound.** -/
theorem area_le (hr : rectangles[k]? = some r) (hnn : r.Nonneg s) (hc : Crowd s rectangles k r q ns) :
    w.add (tally (Focus.of k (r.view s)) ns).area (Focus.of k (r.view s)).area ≤
      w.product ((tally (Focus.of k (r.view s)) ns).envelope.map fun t => w.sub t.stop t.start) := by
  have hmem := List.mem_of_getElem? hr
  have harea : ∀ p : Rectangle, 0 ≤ w.product ((p.view s).map fun e => max e.length.lo 0) ∧
      w.product ((p.view s).map fun e => max e.length.lo 0) ≤ Box.volume (p.core s α) := fun p => by
    rw [p.product_lengths s α]
    exact ⟨Width.clamp_nonneg (Box.volume_nonneg _), Width.clamp_le_self (Box.volume_nonneg _)⟩
  have hothers : (tally (Focus.of k (r.view s)) ns).area ≤
      ((ns.filter Neighbor.solid).map fun n => Box.volume ((q n).core s α)).sum := by
    refine (area_tally_le fun n hn hs => ?_).2
    obtain ⟨c, he⟩ := hc.eq_of n hn
    have hn : n.area = w.product (((q n).view s).map fun e => max e.length.lo 0) := by
      have hsolid := hs
      rw [he] at hsolid
      exact (congrArg Neighbor.area he).trans (if_pos hsolid)
    rw [hn]
    exact harea (q n)
  obtain ⟨hframes, hcovr, hcov⟩ := h.envelope hmem hnn hc
  obtain ⟨hfocus, hpair⟩ := h.clear_crowd hr hc
  have hnn' : ∀ n ∈ ns, n.solid = true → (q n).Nonneg s := fun n hn hs x hx =>
    le_of_lt (pos_of_solid hc hn hs x hx)
  -- the focus and the solid neighbours at their least lengths
  let boxes := r.core s α :: (ns.filter Neighbor.solid).map fun n => (q n).core s α
  have hpacked : (boxes.map Box.volume).sum ≤
      Box.volume ((tally (Focus.of k (r.view s)) ns).envelope.map fun t => (t.start, t.stop)) := by
    refine Box.sum_volume_le (List.pairwise_cons.2 ⟨fun b hb => ?_, ?_⟩) fun b hb => ?_
    · obtain ⟨n, hn, rfl⟩ := List.mem_map.1 hb
      obtain ⟨hn, hs⟩ := List.mem_filter.1 hn
      exact (hfocus n hn).mono (h.core_subset_box hmem hnn)
        (h.core_subset_box (hc.mem hn) (hnn' n hn hs))
    · refine List.pairwise_map.2 ((hpair.filter _).imp_of_mem fun {m n} hm hn hmn => ?_)
      obtain ⟨hm, hms⟩ := List.mem_filter.1 hm
      obtain ⟨hn, hns⟩ := List.mem_filter.1 hn
      exact hmn.mono (h.core_subset_box (hc.mem hm) (hnn' m hm hms))
        (h.core_subset_box (hc.mem hn) (hnn' n hn hns))
    · rcases List.mem_cons.1 hb with rfl | hb
      · exact h.core_subset_envelope hmem hnn hcovr
      · obtain ⟨n, hn, rfl⟩ := List.mem_map.1 hb
        obtain ⟨hn, hs⟩ := List.mem_filter.1 hn
        exact h.core_subset_envelope (hc.mem hn) (hnn' n hn hs) (hcov n hn hs)
  have havailable : w.product ((tally (Focus.of k (r.view s)) ns).envelope.map fun t =>
      w.sub t.stop t.start) =
      w.clamp (Box.volume ((tally (Focus.of k (r.view s)) ns).envelope.map fun t => (t.start, t.stop))) := by
    refine Box.product_eq_clamp_volume fun t ht => ?_
    obtain ⟨hle, hsub⟩ := h.sub_envelope hmem hnn hc t ht
    rw [hsub]
    exact (max_eq_right (by omega)).symm
  rw [havailable]
  refine w.clamp_mono ?_
  have hsum : (boxes.map Box.volume).sum = Box.volume (r.core s α) +
      ((ns.filter Neighbor.solid).map fun n => Box.volume ((q n).core s α)).sum := by
    rw [List.map_cons, List.sum_cons, List.map_map]
    rfl
  have hown : (Focus.of k (r.view s)).area ≤ Box.volume (r.core s α) := (harea r).2
  omega

end Scene

/-! ## The capacity bound -/

/-- The mark of a placed rectangle: the cell of the envelope that holds its origin, when the envelope is
cut into cells of the least lengths. -/
def mark (α : Var → Int) (env : List Stretch) (p : Rectangle) : List Int :=
  List.zipWith (fun t x => (α x.origin - t.start) / t.minLength) env p.sides

/-- Two numbers with the same quotient differ by less than the divisor. -/
theorem lt_add_of_ediv_eq {x y m : Int} (hm : 0 < m) (h : x / m = y / m) : x < y + m := by
  have hx := Int.mul_ediv_add_emod x m
  have hy := Int.mul_ediv_add_emod y m
  have := Int.emod_lt_of_pos x hm
  have := Int.emod_nonneg y (Int.ne_of_gt hm)
  rw [h] at hx
  omega

/-- A cell that starts early enough to hold the least length is one of the cells of its stretch. -/
theorem ediv_lt_ediv {x y m : Int} (hm : 0 < m) (h : x + m ≤ y) : x / m < y / m := by
  have hstep : (x + 1 * m) / m = x / m + 1 := Int.add_mul_ediv_right x 1 (Int.ne_of_gt hm)
  have := Int.ediv_le_ediv hm (show x + 1 * m ≤ y by omega)
  omega

namespace Scene

variable {α : Var → Int} {s : Store w} {rectangles : List Rectangle} {frames : Box}
  (h : Scene α s rectangles frames) {r : Rectangle} {k : Nat} {q : Neighbor w → Rectangle}
  {ns : List (Neighbor w)} {env : List Stretch}

include h

/-- The mark of a covered rectangle is a cell of the envelope. -/
theorem mark_mem {p : Rectangle} (hp : p ∈ rectangles) (hpos : ∀ t ∈ env, 0 < t.minLength)
    (hcov : List.Forall₂ (fun (t : Stretch) x => t.Covers (s.look x)) env p.sides) :
    mark α env p ∈ Box.cells (env.map fun t => (0, (t.stop - t.start) / t.minLength)) := by
  rw [Box.mem_cells, List.forall₂_map_right_iff]
  have hfits : ∀ x ∈ p.sides, α x.origin ∈ (s.look x).origin := fun x hx => (h.fits hp hx).1
  unfold mark
  generalize p.sides = xs at hcov hfits
  induction hcov with
  | nil => exact .nil
  | @cons t x env xs htx _ ih =>
    have hm := hpos t List.mem_cons_self
    obtain ⟨ho₁, ho₂⟩ := hfits x List.mem_cons_self
    have := htx.start_le
    have := htx.le_stop
    have := htx.minLength_le
    refine .cons ⟨Int.ediv_nonneg (by omega) (by omega), ediv_lt_ediv hm (by omega)⟩ ?_
    exact ih (fun u hu => hpos u (List.mem_cons_of_mem _ hu)) fun y hy => hfits y (List.mem_cons_of_mem _ hy)

/-- **Rectangles without a common point have different marks.** -/
theorem mark_ne {a b : Rectangle} (ha : a ∈ rectangles) (hb : b ∈ rectangles)
    (hclear : Box.Clear (a.box α) (b.box α)) (hpos : ∀ t ∈ env, 0 < t.minLength)
    (hcova : List.Forall₂ (fun (t : Stretch) x => t.Covers (s.look x)) env a.sides)
    (hcovb : List.Forall₂ (fun (t : Stretch) x => t.Covers (s.look x)) env b.sides) :
    mark α env a ≠ mark α env b := by
  intro heq
  refine Rectangle.not_clear_of_shared ?_ hclear
  have hfita : ∀ x ∈ a.sides, (s.look x).length.lo ≤ α x.length := fun x hx => (h.fits ha hx).2.1
  have hfitb : ∀ x ∈ b.sides, (s.look x).length.lo ≤ α x.length := fun x hx => (h.fits hb hx).2.1
  unfold mark at heq
  generalize a.sides = xs at hcova hfita heq
  generalize b.sides = ys at hcovb hfitb heq
  induction hcova generalizing ys with
  | nil =>
    cases hcovb
    exact .nil
  | @cons t x env xs htx _ ih =>
    cases hcovb with
    | @cons _ y _ ys hty hcovb =>
      rw [List.zipWith_cons_cons, List.zipWith_cons_cons, List.cons.injEq] at heq
      have hm := hpos t List.mem_cons_self
      have hxy := lt_add_of_ediv_eq hm heq.1
      have hyx := lt_add_of_ediv_eq hm heq.1.symm
      have := htx.minLength_le
      have := hty.minLength_le
      have := hfita x List.mem_cons_self
      have := hfitb y List.mem_cons_self
      -- the later of the two origins lies in both sides
      refine .cons ⟨max (α x.origin) (α y.origin), by omega, by omega⟩ ?_
      exact ih (fun u hu => hpos u (List.mem_cons_of_mem _ hu))
        (fun z hz => hfita z (List.mem_cons_of_mem _ hz)) ys hcovb
        (fun z hz => hfitb z (List.mem_cons_of_mem _ hz)) heq.2

/-- **A scene does not violate the capacity bound.** -/
theorem capacity_le (hr : rectangles[k]? = some r) (hnn : r.Nonneg s) (hc : Crowd s rectangles k r q ns)
    (hpos : ∀ t ∈ (tally (Focus.of k (r.view s)) ns).envelope, 0 < t.minLength) :
    w.clamp ((tally (Focus.of k (r.view s)) ns).solids + 1) ≤
      w.product ((tally (Focus.of k (r.view s)) ns).envelope.map fun t =>
        w.sub t.stop t.start / t.minLength) := by
  have hmem := List.mem_of_getElem? hr
  obtain ⟨-, hcovr, hcov⟩ := h.envelope hmem hnn hc
  obtain ⟨hfocus, hpair⟩ := h.clear_crowd hr hc
  have hsub := h.sub_envelope hmem hnn hc
  rw [solids_tally]
  generalize (tally (Focus.of k (r.view s)) ns).envelope = env at hpos hcovr hcov hsub
  let marks := mark α env r :: (ns.filter Neighbor.solid).map fun n => mark α env (q n)
  have hnodup : marks.Nodup := by
    refine List.nodup_cons.2 ⟨fun hm => ?_, List.pairwise_map.2 ?_⟩
    · obtain ⟨n, hn, he⟩ := List.mem_map.1 hm
      obtain ⟨hn, hs⟩ := List.mem_filter.1 hn
      exact h.mark_ne hmem (hc.mem hn) (hfocus n hn) hpos hcovr (hcov n hn hs) he.symm
    · refine (hpair.filter _).imp_of_mem fun {m n} hm hn hmn => ?_
      obtain ⟨hm, hms⟩ := List.mem_filter.1 hm
      obtain ⟨hn, hns⟩ := List.mem_filter.1 hn
      exact h.mark_ne (hc.mem hm) (hc.mem hn) hmn hpos (hcov m hm hms) (hcov n hn hns)
  have hmarks : ∀ p ∈ marks, p ∈ Box.cells (env.map fun t => (0, (t.stop - t.start) / t.minLength)) := by
    intro p hp
    rcases List.mem_cons.1 hp with rfl | hp
    · exact h.mark_mem hmem hpos hcovr
    · obtain ⟨n, hn, rfl⟩ := List.mem_map.1 hp
      obtain ⟨hn, hs⟩ := List.mem_filter.1 hn
      exact h.mark_mem (hc.mem hn) hpos (hcov n hn hs)
  have hcount := Box.length_le_volume hnodup hmarks
  have hcells : w.product (env.map fun t => w.sub t.stop t.start / t.minLength) =
      w.clamp (Box.volume (env.map fun t => (0, (t.stop - t.start) / t.minLength))) := by
    refine Box.product_eq_clamp_volume fun t ht => ?_
    obtain ⟨hle, hsub⟩ := hsub t ht
    have := Int.ediv_nonneg (show 0 ≤ t.stop - t.start by omega) (le_of_lt (hpos t ht))
    simp only [hsub]
    omega
  rw [hcells]
  refine w.clamp_mono ?_
  have hlen : marks.length = (ns.filter Neighbor.solid).length + 1 := by
    rw [List.length_cons, List.length_map]
  rw [hlen] at hcount
  exact_mod_cast hcount

/-- **An analysis of a store that has a solution ends well**: it finds the neighbours that it sees. -/
theorem analyze (hr : rectangles[k]? = some r) (hnn : r.Nonneg s) {cs : List Nat} (hnd : cs.Nodup)
    (hcs : ∀ j ∈ cs, j < rectangles.length ∧ j ≠ k) (changed : List Var) :
    Placement.analyze s rectangles k cs changed =
      .ok (ofNeighbors (seen s rectangles changed (r.view s) cs)) := by
  have hcrowd := Crowd.of_seen s rectangles r hnd (fun hk => (hcs k hk).2 rfl) changed
  cases ha : Placement.analyze s rectangles k cs changed with
  | ok found => rw [analyze_ok h.uniform hr hcs ha]
  | error e =>
    exfalso
    rcases analyze_error h.uniform hr hcs ha with ⟨ms, hms, he⟩ | ⟨-, he⟩
    · have hle := h.commonArea_le hr hnn (hcrowd.sublist hms)
      unfold Tally.checkCommonArea at he
      rw [if_neg (not_lt.2 hle)] at he
      cases he
    · have harea := h.area_le hr hnn hcrowd
      have hcap := h.capacity_le hr hnn hcrowd
      unfold Tally.checkEnvelope at he
      rw [if_neg (not_lt.2 harea)] at he
      split at he
      · next hall =>
        rw [if_neg (not_lt.2 (hcap (by simpa using hall)))] at he
        cases he
      · cases he

end Scene
end Placement
