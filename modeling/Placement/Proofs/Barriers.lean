/-
# What keeps a rectangle that stands still where it is

The regions of the used space that an analysis found are exactly the points from which a neighbour
bars the focus (`Region.ofUsed_seen`): the neighbour covers the point in every placement, and along
every other dimension its mandatory part meets that of the focus. Regions are ascending with a gap
between any two, so a scan that leaves a bound where it is has found no region that the rectangle
would cover there (`Tighten.not_covered_of_still`).

Together: at either bound of its origin, a rectangle at rest covers no point from which another
rectangle of its constraint bars it (`Disjoint.Rests.not_barred`). A rectangle that bars another
is never missing from its candidates, since the reaches of the two meet.
-/

import Placement.Proofs.Fixpoint
import Placement.Proofs.Tightening

namespace Placement

variable {w : Width}

/-! ## Scans that move nothing -/

/-- A position before a clamped stop lies before the stop. -/
theorem Width.lt_add_of_lt {x length p : Int} (hp : w.Holds (p + 1)) (h : p < x + length) :
    p < w.add x length := by
  have hmono := w.clamp_mono (Int.add_one_le_iff.2 h)
  rw [Width.clamp_of_holds hp] at hmono
  exact Int.add_one_le_iff.1 hmono

namespace Tighten

variable {length lo hi : Int} {regions : List Span}

/-- Moving a lower bound past regions does not lower it. -/
theorem le_raise (lo : Int) (regions : List Span) : lo ≤ raise w length lo regions := by
  induction regions generalizing lo with
  | nil => exact Int.le_refl lo
  | cons g rest ih =>
    unfold raise
    split
    · exact ih lo
    · split
      · have := ih g.stop
        omega
      · exact Int.le_refl lo

/-- A region that the rectangle would cover moves the lower bound. -/
theorem lt_raise (hsorted : regions.Pairwise fun a b => a.start ≤ b.start) {g : Span} (hg : g ∈ regions)
    (hstop : lo < g.stop) (hstart : g.start < w.add lo length) : lo < raise w length lo regions := by
  induction regions with
  | nil => cases hg
  | cons x rest ih =>
    obtain ⟨hx, hrest⟩ := List.pairwise_cons.1 hsorted
    unfold raise
    split
    · rcases List.mem_cons.1 hg with rfl | hg
      · omega
      · exact ih hrest hg
    · split
      · have : x.stop ≤ raise w length x.stop rest := le_raise ..
        omega
      · next hbeyond =>
        rcases List.mem_cons.1 hg with rfl | hg
        · exact absurd hstart hbeyond
        · have := hx g hg
          omega

/-- The place before a region is no later than the place it is moved from. -/
theorem sub_le {x : Int} (hhi : w.Holds hi) (hpos : 0 < length) (h : x < w.add hi length) :
    w.sub x length ≤ hi ∧ (w.Holds (hi - 1) → w.sub x length < hi) := by
  have hadd : w.add hi length ≤ hi + length := Width.clamp_le_of_le hhi (by omega)
  have hmono := w.clamp_mono (show x - length ≤ hi - 1 by omega)
  refine ⟨?_, fun hpred => ?_⟩
  · rw [← Width.clamp_of_holds hhi]
    exact w.clamp_mono (by omega)
  · rw [Width.clamp_of_holds hpred] at hmono
    exact Int.lt_of_le_sub_one hmono

/-- Moving an upper bound before regions does not raise it. -/
theorem lower_le (hhi : w.Holds hi) (hpos : 0 < length) (regions : List Span) :
    lower w length hi regions ≤ hi := by
  induction regions generalizing hi with
  | nil => exact Int.le_refl hi
  | cons g rest ih =>
    unfold lower
    split
    · exact ih hhi
    · next hstart =>
      split
      · exact Int.le_trans (ih (w.holds_clamp _)) (sub_le hhi hpos (Int.not_le.1 hstart)).1
      · exact Int.le_refl hi

/-- A region that the rectangle would cover moves the upper bound, unless that is the least value of
the width. -/
theorem lower_lt (hsorted : regions.Pairwise fun a b => b.stop ≤ a.stop) (hhi : w.Holds hi)
    (hpred : w.Holds (hi - 1)) (hpos : 0 < length) {g : Span} (hg : g ∈ regions) (hstop : hi < g.stop)
    (hstart : g.start < w.add hi length) : lower w length hi regions < hi := by
  induction regions with
  | nil => cases hg
  | cons x rest ih =>
    obtain ⟨hx, hrest⟩ := List.pairwise_cons.1 hsorted
    unfold lower
    split
    · rcases List.mem_cons.1 hg with rfl | hg
      · omega
      · exact ih hrest hg
    · next hbefore =>
      split
      · exact Int.lt_of_le_of_lt (lower_le (w.holds_clamp _) hpos rest)
          ((sub_le hhi hpos (Int.not_le.1 hbefore)).2 hpred)
      · next hbeyond =>
        rcases List.mem_cons.1 hg with rfl | hg
        · exact absurd hstop hbeyond
        · have := hx g hg
          omega

/-- **A rectangle that stands still covers no point of a region at either bound of its origin.** -/
theorem not_covered_of_still {d : Domain w} (hpos : 0 < length)
    (hsep : regions.Pairwise fun a b => a.stop < b.start) (hraise : raise w length d.lo regions ≤ d.lo)
    (hlower : d.hi ≤ lower w length d.hi regions.reverse) {p : Int} (hp : Covered regions p)
    (hw : w.Holds (p + 1)) :
    ¬ (d.lo ≤ p ∧ p < d.lo + length) ∧ ¬ (d.hi ≤ p ∧ p < d.hi + length) := by
  obtain ⟨g, hg, hgp, hpg⟩ := hp
  have hlow : ¬ (d.lo ≤ p ∧ p < d.lo + length) := fun ⟨hle, hlt⟩ => by
    have hstarts : regions.Pairwise fun a b => a.start ≤ b.start := hsep.imp fun {a b} hab => by
      have := a.start_le_stop
      omega
    have := Width.lt_add_of_lt hw hlt
    have := lt_raise hstarts hg (by omega) (show g.start < w.add d.lo length by omega)
    omega
  refine ⟨hlow, fun ⟨hle, hlt⟩ => ?_⟩
  by_cases hpred : w.Holds (d.hi - 1)
  · have hstops : regions.reverse.Pairwise fun a b => b.stop ≤ a.stop :=
      List.pairwise_reverse.2 (hsep.imp fun {a b} hab => by
        have := b.start_le_stop
        omega)
    have := Width.lt_add_of_lt hw hlt
    have := lower_lt hstops d.holds_hi hpred hpos (List.mem_reverse.2 hg) (by omega)
      (show g.start < w.add d.hi length by omega)
    omega
  · -- below the upper bound the width has no value, so the lower bound is the same
    have hlo : d.lo = d.hi := by
      have := d.lo_le_hi
      by_contra hne
      exact hpred (w.holds_between d.holds_lo d.holds_hi (by omega) (by omega))
    exact hlow ⟨by omega, by omega⟩

end Tighten

/-! ## Points from which a neighbour bars the focus -/

/-- A rectangle with the extents `es` bars one with the extents `ds` from the point `p` along dimension
`i`: it covers the point in every placement, and along every other dimension the mandatory parts
of the two meet. -/
structure Bars (es ds : List (Extent w)) (i : Nat) (p : Int) : Prop where
  along : ∃ e part, es[i]? = some e ∧ e.mandatory? = some part ∧ p ∈ part
  across : ∀ j < ds.length, j ≠ i → ∃ d m e n, ds[j]? = some d ∧ d.mandatory? = some m ∧
    es[j]? = some e ∧ e.mandatory? = some n ∧ m.Meets n

namespace Extent

/-- The point after one that every placement covers is a value of the width. -/
theorem holds_succ {e : Extent w} {m : Span} (hm : e.mandatory? = some m) {p : Int} (hp : p ∈ m) :
    w.Holds (p + 1) := by
  obtain ⟨hstart, hstop⟩ := mandatory?_eq_some hm
  obtain ⟨hle, hlt⟩ := hp
  rw [hstart] at hle
  rw [hstop] at hlt
  exact w.holds_between e.origin.holds_hi (w.holds_clamp _) (by omega) hlt

/-- Some placement reaches every point that a placement at one of the two bounds covers. -/
theorem mem_span {e : Extent w} {o l p : Int} (ho : o ∈ e.origin) (hl : l ≤ e.length.hi)
    (hw : w.Holds (p + 1)) (hle : o ≤ p) (hlt : p < o + l) : p ∈ e.span := by
  obtain ⟨hlo, hhi⟩ := ho
  refine ⟨Int.le_trans hlo hle, ?_⟩
  unfold span
  dsimp only
  rw [if_neg (by omega)]
  exact Width.lt_add_of_lt hw (by omega)

/-- The mandatory part lies in the reach. -/
theorem mem_span_of_mandatory {e : Extent w} {m : Span} (hm : e.mandatory? = some m) {p : Int}
    (hp : p ∈ m) : p ∈ e.span := by
  obtain ⟨hle, hlt⟩ := covers_mandatory hm (o := e.origin.lo) (l := e.length.lo)
    ⟨Int.le_refl _, e.origin.lo_le_hi⟩ ⟨Int.le_refl _, e.length.lo_le_hi⟩ hp
  exact mem_span ⟨Int.le_refl _, e.origin.lo_le_hi⟩ e.length.lo_le_hi (holds_succ hm hp) hle hlt

end Extent

namespace Bars

variable {es ds es' ds' : List (Extent w)} {i : Nat} {p : Int}

/-- After a barred point there is another value of the width. -/
theorem holds_succ (h : Bars es ds i p) : w.Holds (p + 1) := by
  obtain ⟨e, part, -, hpart, hp⟩ := h.along
  exact Extent.holds_succ hpart hp

/-- **What bars goes on barring** as domains shrink. -/
theorem shrinks (h : Bars es ds i p) (hes : List.Forall₂ Extent.Within es' es)
    (hds : List.Forall₂ Extent.Within ds' ds) : Bars es' ds' i p := by
  refine ⟨?_, fun j hj hji => ?_⟩
  · obtain ⟨e, part, he, hpart, hp⟩ := h.along
    obtain ⟨e', part', he', hpart', hsub⟩ := Extent.mandatory?_of_within hes he hpart
    exact ⟨e', part', he', hpart', hsub p hp⟩
  · obtain ⟨d, m, e, n, hd, hm, he, hn, hmeets⟩ := h.across j (by rwa [← hds.length_eq]) hji
    obtain ⟨d', m', hd', hm', hsubd⟩ := Extent.mandatory?_of_within hds hd hm
    obtain ⟨e', n', he', hn', hsube⟩ := Extent.mandatory?_of_within hes he hn
    obtain ⟨q, hq, hq'⟩ := Span.meets_iff.1 hmeets
    exact ⟨d', m', e', n', hd', hm', he', hn', Span.meets_iff.2 ⟨q, hsubd q hq, hsube q hq'⟩⟩

/-- A rectangle that bars another has a mandatory part along every dimension. -/
theorem mandatory? (h : Bars es ds i p) (hlen : es.length = ds.length) :
    ∀ e ∈ es, (e.mandatory?).isSome := by
  intro e he
  obtain ⟨j, hj, rfl⟩ := List.getElem_of_mem he
  have hget := List.getElem?_eq_getElem hj
  by_cases hji : j = i
  · obtain ⟨e', part, he', hpart, -⟩ := h.along
    rw [← hji, hget] at he'
    cases he'
    rw [hpart]
    rfl
  · obtain ⟨-, -, e', n, -, -, he', hn, -⟩ := h.across j (by omega) hji
    rw [hget] at he'
    cases he'
    rw [hn]
    rfl

end Bars

/-! ## Used neighbours -/

namespace Neighborhood

/-- The boxes of a used neighbour are its mandatory parts. -/
theorem boxes_of_isUsed {n : Neighbor w} (hu : n.isUsed = true) :
    List.Forall₂ (fun e b => e.mandatory? = some b) n.extents n.boxes :=
  forall₂_of_length_filterMap (beq_iff_eq.1 hu)

/-- **Used space blocks the focus where its neighbour bars it.** -/
theorem blocksAt_iff_bars {n : Neighbor w} (hu : n.isUsed = true) {ds : List (Extent w)} {i : Nat} {p : Int} :
    Used.BlocksAt ⟨n.index, n.boxes⟩ ds i p ↔ Bars n.extents ds i p := by
  obtain ⟨hlen, hget⟩ := List.forall₂_iff_get.1 (boxes_of_isUsed hu)
  have boxed : ∀ {j : Nat} {e part}, n.extents[j]? = some e → e.mandatory? = some part →
      n.boxes[j]? = some part := by
    intro j e part he hpart
    obtain ⟨hj, rfl⟩ := List.getElem?_eq_some_iff.1 he
    have hbox := hget j hj (hlen ▸ hj)
    rw [List.getElem?_eq_getElem (hlen ▸ hj)]
    exact congrArg some (Option.some.inj (hbox.symm.trans hpart))
  have unboxed : ∀ {j : Nat} {box}, n.boxes[j]? = some box →
      ∃ e, n.extents[j]? = some e ∧ e.mandatory? = some box := by
    intro j box hbox
    obtain ⟨hj, rfl⟩ := List.getElem?_eq_some_iff.1 hbox
    exact ⟨_, List.getElem?_eq_getElem (hlen ▸ hj), hget j (hlen ▸ hj) hj⟩
  constructor
  · rintro ⟨⟨box, hbox, hp⟩, hacross⟩
    obtain ⟨e, he, hpart⟩ := unboxed hbox
    refine ⟨⟨e, box, he, hpart, hp⟩, fun j hj hji => ?_⟩
    obtain ⟨d, m, box', hd, hm, hbox', hmeets⟩ := hacross j hj hji
    obtain ⟨e', he', hpart'⟩ := unboxed hbox'
    exact ⟨d, m, e', box', hd, hm, he', hpart', hmeets⟩
  · rintro ⟨⟨e, part, he, hpart, hp⟩, hacross⟩
    refine ⟨⟨part, boxed he hpart, hp⟩, fun j hj hji => ?_⟩
    obtain ⟨d, m, e', m', hd, hm, he', hm', hmeets⟩ := hacross j hj hji
    exact ⟨d, m, m', hd, hm, boxed he' hm', hmeets⟩

/-- A rectangle that bars another one has a mandatory part along every dimension. -/
theorem isUsed_of_bars {es ds : List (Extent w)} {i : Nat} {p : Int} (h : Bars es ds i p)
    (hlen : es.length = ds.length) (j : Nat) (c : Bool) : (Neighbor.of j es c).isUsed = true := by
  unfold Neighbor.isUsed Neighbor.boxes
  rw [beq_iff_eq]
  change (es.filterMap Extent.mandatory?).length = es.length
  rw [List.filterMap_length_eq_length]
  exact h.mandatory? hlen

end Neighborhood

open Neighborhood

/-- The used space that an analysis found has the boxes of a neighbour that it saw. -/
theorem Neighborhood.mem_used_seen {s : Store w} {rectangles : List Rectangle} {changed : List Var}
    {es : List (Extent w)} {cs : List Nat} {u : Used}
    (hu : u ∈ (ofNeighbors (seen s rectangles changed es cs)).used) :
    ∃ n ∈ seen s rectangles changed es cs, n.isUsed = true ∧ u = ⟨n.index, n.boxes⟩ := by
  obtain ⟨n, hn, rfl⟩ := List.mem_map.1 hu
  obtain ⟨hn, hused⟩ := List.mem_filter.1 hn
  exact ⟨n, hn, hused, rfl⟩

section Seen

variable {s t : Store w} {rectangles : List Rectangle}
  (hdim : ∀ a ∈ rectangles, ∀ b ∈ rectangles, a.dim = b.dim) {r : Rectangle} (hr : r ∈ rectangles)

include hdim hr

/-- A neighbour that is seen has the dimensions of the focus. -/
theorem Neighborhood.length_extents_seen {changed : List Var} {es : List (Extent w)} {cs : List Nat} :
    ∀ n ∈ seen s rectangles changed es cs, n.extents.length = r.dim := by
  intro n hn
  obtain ⟨j, -, hsight⟩ := List.mem_filterMap.1 hn
  obtain ⟨q, hq, -, rfl⟩ := sight_eq_some hsight
  exact (q.length_view s).trans (hdim q (List.mem_of_getElem? hq) r hr)

/-- The used space that an analysis found has a box along every dimension. -/
theorem Neighborhood.length_boxes_seen {changed : List Var} {es : List (Extent w)} {cs : List Nat} :
    ∀ u ∈ (ofNeighbors (seen s rectangles changed es cs)).used, u.boxes.length = r.dim := by
  intro u hu
  obtain ⟨n, hn, hused, rfl⟩ := mem_used_seen hu
  exact (boxes_of_isUsed hused).length_eq.symm.trans (length_extents_seen hdim hr n hn)

/-- **The regions of the used space that an analysis found are where a neighbour that it saw bars the
focus.** They may be asked for in a later store. -/
theorem Region.ofUsed_seen (hk : r.Known t) {i : Nat} (hi : i < r.dim) (changed : List Var)
    (es : List (Extent w)) (cs : List Nat) :
    ∃ regions, ofUsed t r i (ofNeighbors (seen s rectangles changed es cs)).used = .ok regions ∧
      (regions.Pairwise fun a b => a.stop < b.start) ∧ (∀ g ∈ regions, ¬ g.IsEmpty) ∧
      ∀ p, Covered regions p ↔ ∃ n ∈ seen s rectangles changed es cs, Bars n.extents (r.view t) i p := by
  obtain ⟨regions, hok, hsep, hne, hcovered⟩ := ofUsed_iff hk hi (length_boxes_seen hdim hr)
  refine ⟨regions, hok, hsep, hne, fun p => (hcovered p).trans ⟨?_, ?_⟩⟩
  · rintro ⟨u, hu, hblocks⟩
    obtain ⟨n, hn, hused, rfl⟩ := mem_used_seen hu
    exact ⟨n, hn, (blocksAt_iff_bars hused).1 hblocks⟩
  · rintro ⟨n, hn, hbars⟩
    have hlen := length_extents_seen hdim hr n hn
    obtain ⟨j, es', c, rfl⟩ : ∃ j es' c, n = Neighbor.of j es' c := by
      obtain ⟨j, -, hsight⟩ := List.mem_filterMap.1 hn
      obtain ⟨q, -, -, rfl⟩ := sight_eq_some hsight
      exact ⟨_, _, _, rfl⟩
    have hisUsed := isUsed_of_bars hbars (hlen.trans (r.length_view t).symm) j c
    exact ⟨_, List.mem_map.2 ⟨_, List.mem_filter.2 ⟨hn, hisUsed⟩, rfl⟩, (blocksAt_iff_bars hisUsed).2 hbars⟩

end Seen

/-! ## Rectangles at rest -/

/-- At the root nothing is settled. -/
theorem Rectangle.Settled.level_pos {r : Rectangle} {s : Store w} (h : r.Settled s) (hk : r.Known s) :
    0 < s.level := by
  obtain ⟨x, hx⟩ := List.exists_mem_of_ne_nil _ r.sides_ne_nil
  have hv : x.origin ∈ r.vars := List.mem_append_left _ (List.mem_map.2 ⟨x, hx, rfl⟩)
  exact Nat.zero_lt_of_lt (h _ hv _ (List.getElem?_eq_getElem (hk _ hv))).2

/-- Rectangles whose reaches meet do not lie apart. -/
theorem Rectangle.not_apart_of_meet {a b : Rectangle} {s : Store w} (hdim : a.dim = b.dim)
    (h : meet (a.view s) (b.view s) = true) : ¬ a.Apart b s := by
  rintro ⟨i, x, y, hx, hy, hxy⟩
  obtain ⟨sx, ex, hsx, hex, rfl⟩ := reach_eq_ok.1 hx
  obtain ⟨sy, ey, hsy, hey, rfl⟩ := reach_eq_ok.1 hy
  obtain ⟨-, rfl⟩ := Store.extent_eq_ok.1 hex
  obtain ⟨-, rfl⟩ := Store.extent_eq_ok.1 hey
  have hall := (meet_iff (by simpa using hdim)).1 h
  unfold view at hall
  rw [List.forall₂_map_left_iff, List.forall₂_map_right_iff] at hall
  obtain ⟨hi, rfl⟩ := List.getElem?_eq_some_iff.1 hsx
  obtain ⟨hi', rfl⟩ := List.getElem?_eq_some_iff.1 hsy
  exact hxy ((List.forall₂_iff_get.1 hall).2 i hi hi')

/-- A rectangle whose reach meets that of another is among the candidates of that one. -/
theorem Disjoint.Sound.mem_of_meet {d : Disjoint} {s : Store w} (h : d.Sound s) {j k : Nat} {r q : Rectangle}
    (hr : d.rectangles[k]? = some r) (hq : d.rectangles[j]? = some q) (hjk : j ≠ k) {cs : List Nat}
    (hcs : d.candidates.get s k = .ok cs) (hmeet : meet (r.view s) (q.view s) = true) : j ∈ cs := by
  obtain ⟨cs', hcs', hat⟩ := h k (List.getElem?_eq_some_iff.1 hr).1
  obtain rfl : cs' = cs := Except.ok.inj (hcs'.symm.trans hcs)
  by_contra hnot
  obtain ⟨a, b, ha, hb, hapart⟩ := hat.apart j (List.getElem?_eq_some_iff.1 hq).1 hjk hnot
  obtain rfl : r = a := Option.some.inj (hr.symm.trans ha)
  obtain rfl : q = b := Option.some.inj (hq.symm.trans hb)
  exact Rectangle.not_apart_of_meet
    (d.uniform r (List.mem_of_getElem? hr) q (List.mem_of_getElem? hq)) hmeet hapart

/-- The reaches of two rectangles meet if one bars the other from a point of its reach. -/
theorem meet_of_bars {es ds : List (Extent w)} {i : Nat} {p : Int} (h : Bars es ds i p)
    (hlen : ds.length = es.length) {d : Extent w} (hd : ds[i]? = some d) (hp : p ∈ d.span) :
    meet ds es = true := by
  rw [meet_iff hlen]
  refine List.forall₂_iff_get.2 ⟨hlen, fun j hj hj' => ?_⟩
  by_cases hji : j = i
  · subst hji
    obtain ⟨e, part, he, hpart, hp'⟩ := h.along
    rw [List.getElem?_eq_getElem hj] at hd
    rw [List.getElem?_eq_getElem hj'] at he
    cases hd
    cases he
    exact Span.meets_iff.2 ⟨p, hp, Extent.mem_span_of_mandatory hpart hp'⟩
  · obtain ⟨d', m, e, n, hd', hm, he, hn, hmeets⟩ := h.across j hj hji
    rw [List.getElem?_eq_getElem hj] at hd'
    rw [List.getElem?_eq_getElem hj'] at he
    cases hd'
    cases he
    obtain ⟨q, hq, hq'⟩ := Span.meets_iff.1 hmeets
    exact Span.meets_iff.2 ⟨q, Extent.mem_span_of_mandatory hm hq, Extent.mem_span_of_mandatory hn hq'⟩

/-- **A rectangle at rest covers no point, at either bound of its origin, from which another rectangle
of its constraint bars it.** -/
theorem Disjoint.Rests.not_barred {d : Disjoint} {s : Store w} {j k i : Nat} {r q : Rectangle}
    (h : d.Rests s k) (hquiet : d.Quiet s) (hsound : d.Sound s) (hr : d.rectangles[k]? = some r)
    (hnn : r.Nonneg s) (hset : ¬ r.Settled s) (hq : d.rectangles[j]? = some q) (hjk : j ≠ k)
    {x : Side} (hx : r.sides[i]? = some x) (hpos : 0 < (s.look x).length.lo) {p : Int}
    (hbars : Bars (q.view s) (r.view s) i p) :
    ¬ ((s.dom x.origin).lo ≤ p ∧ p < (s.dom x.origin).lo + (s.look x).length.lo) ∧
      ¬ ((s.dom x.origin).hi ≤ p ∧ p < (s.dom x.origin).hi + (s.look x).length.lo) := by
  have hmem := List.mem_of_getElem? hr
  have hqmem := List.mem_of_getElem? hq
  have hi : i < r.dim := (List.getElem?_eq_some_iff.1 hx).1
  have hdim := d.uniform r hmem q hqmem
  have hlook : (r.view s)[i]? = some (s.look x) := by rw [r.view_getElem?, hx]; rfl
  by_cases hin : p ∈ (s.look x).span
  · have hmeet := meet_of_bars hbars (by simpa using hdim) hlook hin
    obtain ⟨cs, σ, hcs, hσ, htight, -⟩ := h r hr hnn hset (hquiet.untouched hmem)
    have hview : ∀ a ∈ d.rectangles, a.view s = a.view σ := fun a ha => hσ.view_eq a ha (hquiet.untouched ha)
    have hjcs := hsound.mem_of_meet hr hq hjk hcs hmeet
    rw [hview r hmem, hview q hqmem] at hmeet hbars
    have hseen : Neighbor.of j (q.view σ) (q.touches []) ∈ seen σ d.rectangles [] (r.view σ) cs := by
      refine List.mem_filterMap.2 ⟨j, hjcs, ?_⟩
      unfold sight
      rw [hq]
      exact if_pos hmeet
    have hxσ : σ.look x = s.look x := by
      rw [hview r hmem, r.view_getElem?, hx] at hlook
      exact Option.some.inj hlook
    have hdomσ : σ.dom x.origin = s.dom x.origin := congrArg Extent.origin hxσ
    obtain ⟨regions, hok, hraise, hlower⟩ :=
      htight.still i hi x hx (by rw [hxσ]; exact hpos) _ List.mem_cons_self
    obtain ⟨regions', hok', hsep, -, hcovered⟩ :=
      Region.ofUsed_seen (s := σ) d.uniform hmem (hσ.known r hmem) hi [] (r.view σ) cs
    obtain rfl : regions' = regions := Except.ok.inj (hok'.symm.trans hok)
    have hp := (hcovered p).2 ⟨_, hseen, hbars⟩
    rw [hxσ, hdomσ] at hraise hlower
    exact Tighten.not_covered_of_still hpos hsep hraise hlower hp hbars.holds_succ
  · -- a placement at one of the bounds does not leave the reach
    have hle := (s.look x).length.lo_le_hi
    have hdom := (s.dom x.origin).lo_le_hi
    refine ⟨fun ⟨h₁, h₂⟩ => hin ?_, fun ⟨h₁, h₂⟩ => hin ?_⟩
    · exact Extent.mem_span (o := (s.dom x.origin).lo) ⟨Int.le_refl _, hdom⟩ hle hbars.holds_succ h₁ h₂
    · exact Extent.mem_span (o := (s.dom x.origin).hi) ⟨hdom, Int.le_refl _⟩ hle hbars.holds_succ h₁ h₂

end Placement
