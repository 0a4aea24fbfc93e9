/-
# Tightening that moves nothing

A rectangle stands still along a dimension if no region that it is tightened against moves a bound
of its origin (`Tighten.StillAlong`). Where it stands still along all dimensions, tightening it
leaves the store as it is (`Disjoint.tighten_of_still`). Conversely, tightening that ends well has
found the rectangle standing still, or has left one of its origins pending
(`Disjoint.still_of_tighten`).

Regions are computed from the extents of the rectangle and of the neighbours that have a place in
its profiles, so a rectangle stands still as long as these extents stay what they are
(`Tighten.StillAlong.congr`).
-/

import Placement.Proofs.Drift

namespace Placement

variable {w : Width}

/-! ## Regions as functions of extents -/

/-- A known rectangle that shows the same has the same extents. -/
theorem Rectangle.extent_congr {r : Rectangle} {s t : Store w} (hs : r.Known s) (ht : r.Known t)
    (h : r.view t = r.view s) : r.extent t = r.extent s := by
  funext i
  cases hx : r.sides[i]? with
  | none =>
    unfold extent side entry
    rw [hx]
    rfl
  | some x =>
    have he : (r.view s)[i]? = some (s.look x) := by rw [r.view_getElem?, hx]; rfl
    rw [hs.extent_eq he, ht.extent_eq (h ▸ he)]

namespace Region

variable {s t : Store w} {r : Rectangle}

/-- Mandatory parts depend on the extents only. -/
theorem mandatory?_congr (h : r.extent t = r.extent s) : r.mandatory? t = r.mandatory? s := by
  funext i
  unfold Rectangle.mandatory?
  rw [h]

/-- A region of used space depends on the extents of the focus only. -/
theorem ofUsed_congr (h : r.extent t = r.extent s) (i : Nat) (used : List Used) :
    ofUsed t r i used = ofUsed s r i used := by
  have hblocks : ∀ u, blocks t r i u = blocks s r i u := fun u => by
    unfold blocks
    rw [mandatory?_congr h]
  have hblocking : blocking t r i used = blocking s r i used := by
    induction used with
    | nil => rfl
    | cons u us ih =>
      unfold blocking
      rw [hblocks, ih]
  unfold ofUsed
  rw [hblocking]

/-- The points that the focus covers for certain depend on its extents only. -/
theorem sharedPoints_congr (h : r.extent t = r.extent s) (dims : List Nat) :
    sharedPoints t r dims = sharedPoints s r dims := by
  induction dims with
  | nil => rfl
  | cons k ks ih =>
    unfold sharedPoints
    rw [h, ih]

/-- What a neighbour adds to a profile depends on its extents only. -/
theorem contribution?_congr (h : r.extent t = r.extent s) (i j : Nat) (sweep reach : Span)
    (points : List (Nat × Int)) :
    contribution? t r i j sweep reach points = contribution? s r i j sweep reach points := by
  have hcovers : covers t r points = covers s r points := by
    unfold covers
    rw [mandatory?_congr h]
  unfold contribution?
  rw [mandatory?_congr h, hcovers]

/-- What the candidates add to a profile depends on their extents only. -/
theorem contributions_congr {rectangles : List Rectangle} {ks : List Nat}
    (h : ∀ n ∈ ks, ∀ q, rectangles[n]? = some q → q.extent t = q.extent s) (i j : Nat) (sweep reach : Span)
    (points : List (Nat × Int)) : contributions t rectangles i j sweep reach points ks =
      contributions s rectangles i j sweep reach points ks := by
  induction ks with
  | nil => rfl
  | cons n ks ih =>
    obtain ⟨hn, hks⟩ := List.forall_mem_cons.1 h
    unfold contributions
    rw [ih hks]
    cases hq : rectangles[n]? with
    | none =>
      unfold entry
      rw [hq]
      rfl
    | some q => rw [entry_eq_ok.2 hq, ok_bind, ok_bind, contribution?_congr (hn q hq)]

/-- A region of full profiles depends on the extents of the focus and of the candidates only. -/
theorem ofProfile_congr {rectangles : List Rectangle} {k : Nat} (hr : rectangles[k]? = some r)
    (h : r.extent t = r.extent s) {ks : List Nat}
    (hks : ∀ n ∈ ks, ∀ q, rectangles[n]? = some q → q.extent t = q.extent s) (i j : Nat)
    (sorter : Sorter Step.place) :
    ofProfile t rectangles k i j ks sorter = ofProfile s rectangles k i j ks sorter := by
  have hcontributions := contributions_congr hks
  unfold ofProfile
  simp only [entry_eq_ok.2 hr, ok_bind, h, sharedPoints_congr h, hcontributions]

end Region

/-! ## Standing still -/

namespace Tighten

/-- The computed regions leave both bounds of the origin where they are. -/
def Still (s : Store w) (v : Var) (length : Int) (f : Store w → Except Fault (List Span)) : Prop :=
  ∃ regions, f s = .ok regions ∧ raise w length (s.dom v).lo regions ≤ (s.dom v).lo ∧
    (s.dom v).hi ≤ lower w length (s.dom v).hi regions.reverse

/-- No region along dimension `i` moves a bound of the rectangle's origin. -/
def StillAlong (s : Store w) (rectangles : List Rectangle) (k : Nat) (r : Rectangle)
    (found : Neighborhood) (mode : Mode) (i : Nat) : Prop :=
  ∀ x, r.sides[i]? = some x → 0 < (s.look x).length.lo →
    ∀ f ∈ regions rectangles k r found mode i, Still s x.origin (s.look x).length.lo f

variable {s t : Store w} {rectangles : List Rectangle} {k : Nat} {r : Rectangle}
  {found found' : Neighborhood} {mode : Mode} {i : Nat}

/-- A rectangle stands still as long as it and its profiled neighbours look the same. -/
theorem StillAlong.congr (h : StillAlong s rectangles k r found mode i) (hr : rectangles[k]? = some r)
    (hs : ∀ q ∈ rectangles, q.Known s) (ht : ∀ q ∈ rectangles, q.Known t) (hview : r.view t = r.view s)
    (hused : found'.used = found.used) (hprofiled : found'.profiled = found.profiled)
    (hviews : ∀ n ∈ found.profiled, ∀ q, rectangles[n]? = some q → q.view t = q.view s) :
    StillAlong t rectangles k r found' mode i := by
  intro x hx hpos f hf
  have hlook : t.look x = s.look x := by
    have := congrArg (fun es : List (Extent w) => es[i]?) hview
    rw [r.view_getElem?, r.view_getElem?, hx] at this
    exact Option.some.inj this
  have hdom : t.dom x.origin = s.dom x.origin := congrArg Extent.origin hlook
  have hregions : regions rectangles k r found' mode i =
      (regions rectangles k r found mode i : List (Store w → Except Fault (List Span))) := by
    unfold regions
    rw [hused, hprofiled]
  have hmem := List.mem_of_getElem? hr
  have hextent := Rectangle.extent_congr (hs r hmem) (ht r hmem) hview
  have hextents : ∀ n ∈ found.profiled, ∀ q, rectangles[n]? = some q → q.extent t = q.extent s :=
    fun n hn q hq =>
      Rectangle.extent_congr (hs q (List.mem_of_getElem? hq)) (ht q (List.mem_of_getElem? hq)) (hviews n hn q hq)
  rw [hlook] at hpos ⊢
  rw [hregions] at hf
  have hft : f t = f s := by
    rcases mem_regions.1 hf with rfl | ⟨sorter, -, -, j, -, rfl⟩
    · exact Region.ofUsed_congr hextent i _
    · exact Region.ofProfile_congr hr hextent hextents i j sorter
  obtain ⟨regions, hok, hraise, hlower⟩ := h x hx hpos f hf
  refine ⟨regions, hft.trans hok, ?_, ?_⟩
  · rw [hdom]
    exact hraise
  · rw [hdom]
    exact hlower

/-! ## Still rectangles are left alone -/

/-- An origin that stands still is left alone. -/
theorem originAgainst_of_still {v : Var} {length : Int} {fs : List (Store w → Except Fault (List Span))}
    {p : Pass w} (hp : p.store = s) (hv : v.val < s.cells.length) (h : ∀ f ∈ fs, Still s v length f) :
    Ends (originAgainst v length fs) p (fun _ q => q.store = s) fun _ _ => False := by
  subst hp
  induction fs with
  | nil => exact rfl
  | cons f fs ih =>
    obtain ⟨⟨regions, hok, hraise, hlower⟩, hfs⟩ := List.forall_mem_cons.1 h
    refine ends_originAgainst_cons (fun regions' hok' => ?_) fun c hc => ?_
    · rw [hok] at hok'
      cases hok'
      refine ends_origin hv (fun _ _ => ih hfs) (fun _ hmoves => ?_) fun _ hmoves => ?_
      · omega
      · omega
    · rw [hok] at hc
      cases hc

/-- A rectangle that stands still is left alone. -/
theorem dimensions_of_still (hknown : r.Known s) {is : List Nat} (his : ∀ i ∈ is, i < r.dim)
    (h : ∀ i ∈ is, StillAlong s rectangles k r found mode i) {p : Pass w} (hp : p.store = s) :
    Ends (dimensions rectangles k r found mode is) p (fun _ q => q.store = s) fun _ _ => False := by
  induction is generalizing p with
  | nil => exact hp
  | cons i is ih =>
    obtain ⟨hi, his⟩ := List.forall_mem_cons.1 his
    obtain ⟨hstill, hrest⟩ := List.forall_mem_cons.1 h
    have hx : r.sides[i]? = some (r.sides.get ⟨i, hi⟩) := List.getElem?_eq_getElem hi
    subst hp
    refine ends_dimensions_cons hknown hx (fun _ => ih his hrest rfl) fun hpos => ?_
    exact (originAgainst_of_still rfl (hknown.origin (List.mem_of_getElem? hx)) (hstill _ hx hpos)).mono
      (fun _ q hq => ih his hrest hq) fun _ _ he => he

end Tighten

/-- **A rectangle that stands still is left alone.** -/
theorem Disjoint.tighten_of_still {d : Disjoint} {k : Nat} {r : Rectangle} (hr : d.rectangles[k]? = some r)
    {found : Neighborhood} {p : Pass w} (hknown : r.Known p.store)
    (h : ∀ i < r.dim, Tighten.StillAlong p.store d.rectangles k r found d.mode i) :
    Ends (d.tighten k found) p (fun _ q => q.store = p.store) fun _ _ => False := by
  refine ends_tighten hr ((Tighten.dimensions_of_still hknown (fun i hi => List.mem_range.1 hi)
    (fun i hi => h i (List.mem_range.1 hi)) rfl).mono (fun _ q hq q' hq' => hq'.trans hq) fun _ _ he => he.elim)

/-! ## Rectangles that were left alone stand still -/

/-- Narrowing that moves a bound leaves the variable pending. -/
theorem Store.pending_of_setBounds {s t : Store w} {v : Var} {lo hi : Int} {b : Bool}
    (h : s.setBounds v lo hi = .ok (b, t)) (hmoves : (s.dom v).lo < lo ∨ hi < (s.dom v).hi) :
    t.Pending v := by
  obtain ⟨c, d, hc, hd, ⟨hsame, -, -⟩ | ⟨-, -, rfl⟩⟩ := setBounds_eq_ok h
  · rw [dom_of_cell hc] at hmoves
    have hmem : ∀ x, x ∈ c.domain → lo ≤ x ∧ x ≤ hi := fun x hx =>
      ((Domain.mem_restrict? hd x).1 (hsame ▸ hx)).2
    have hlo := hmem c.domain.lo ⟨Int.le_refl _, c.domain.lo_le_hi⟩
    have hhi := hmem c.domain.hi ⟨c.domain.lo_le_hi, Int.le_refl _⟩
    omega
  · obtain ⟨hv, -⟩ := List.getElem?_eq_some_iff.1 hc
    exact ⟨_, List.getElem?_set_self hv, rfl⟩

namespace Tighten

variable {s t : Store w} {rectangles : List Rectangle} {k : Nat} {r : Rectangle}
  {found : Neighborhood} {mode : Mode}

/-- Any number of drifts is a drift. -/
theorem drifts_of_moves {s t : Store w} (h : Relation.ReflTransGen Store.Drifts s t) : s.Drifts t := by
  induction h with
  | refl => exact .refl _
  | tail _ hst ih => exact ih.trans hst

/-- A computation that drifts keeps what is pending. -/
theorem ends_pending {α : Type} {m : Narrowing w α} (hm : Narrowing.Moves Store.Drifts m) {v : Var}
    {p : Pass w} (hv : p.store.Pending v) :
    Ends m p (fun _ q => q.store.Pending v) fun _ _ => True :=
  (hm p).mono (fun _ _ h => (drifts_of_moves h).pending hv) fun _ _ _ => trivial

/-- Tightening an origin leaves it pending, unless it stands still. -/
theorem still_of_originAgainst {v : Var} {length : Int} (hpos : 0 < length)
    {fs : List (Store w → Except Fault (List Span))} {p : Pass w} (hp : p.store = s)
    (hv : v.val < s.cells.length) :
    Ends (originAgainst v length fs) p
      (fun _ q => q.store = s ∧ (∀ f ∈ fs, Still s v length f) ∨ q.store.Pending v) fun _ _ => True := by
  subst hp
  induction fs with
  | nil => exact .inl ⟨rfl, nofun⟩
  | cons f fs ih =>
    refine ends_originAgainst_cons (fun regions hok => ?_) fun _ _ => trivial
    refine ends_origin hv (fun hstill n => ?_) (fun _ hmoves n b t events hset => ?_) fun _ _ _ _ _ => trivial
    · refine ih.mono (fun _ q hq => hq.imp_left fun ⟨hq, hrest⟩ => ⟨hq, ?_⟩) fun _ _ he => he
      have hstill := hstill.resolve_left (by omega)
      exact List.forall_mem_cons.2 ⟨⟨regions, hok, hstill.1, hstill.2⟩, hrest⟩
    · have hpending := Store.pending_of_setBounds hset hmoves
      have hmoves : Narrowing.Moves Store.Drifts (originAgainst v length fs) :=
        moves_originAgainst length fs fun _ _ _ _ _ => Store.drifts_setBounds
      exact (ends_pending hmoves (p := ⟨t, events⟩) hpending).mono (fun _ _ h => .inr h) fun _ _ he => he

/-- Tightening a rectangle leaves one of its origins pending, unless it stands still. -/
theorem still_of_dimensions (hknown : r.Known s) {is : List Nat} (his : ∀ i ∈ is, i < r.dim) {p : Pass w}
    (hp : p.store = s) :
    Ends (dimensions rectangles k r found mode is) p
      (fun _ q => q.store = s ∧ (∀ i ∈ is, StillAlong s rectangles k r found mode i) ∨
        ∃ v ∈ r.origins, q.store.Pending v) fun _ _ => True := by
  induction is generalizing p with
  | nil => exact .inl ⟨hp, nofun⟩
  | cons i is ih =>
    obtain ⟨hi, his⟩ := List.forall_mem_cons.1 his
    have hx : r.sides[i]? = some (r.sides.get ⟨i, hi⟩) := List.getElem?_eq_getElem hi
    have hmem := List.mem_of_getElem? hx
    have hside : ∀ x, r.sides[i]? = some x → x = r.sides.get ⟨i, hi⟩ := fun x hx' =>
      Option.some.inj (hx'.symm.trans hx)
    subst hp
    refine ends_dimensions_cons hknown hx (fun hle => ?_) fun hpos => ?_
    · refine (ih his rfl).mono (fun _ q hq => hq.imp_left fun ⟨hq, hrest⟩ => ⟨hq, ?_⟩) fun _ _ he => he
      refine List.forall_mem_cons.2 ⟨fun x hx' hpos => ?_, hrest⟩
      rw [hside x hx'] at hpos
      omega
    · refine (still_of_originAgainst hpos rfl (hknown.origin hmem)).mono (fun m q hq => ?_) fun _ _ he => he
      rcases hq with ⟨hq, hstill⟩ | hpending
      · refine (ih his hq).mono (fun _ q' hq' => hq'.imp_left fun ⟨hq', hrest⟩ => ⟨hq', ?_⟩) fun _ _ he => he
        refine List.forall_mem_cons.2 ⟨fun x hx' _ => ?_, hrest⟩
        rw [hside x hx']
        exact hstill
      · have horigin : (r.sides.get ⟨i, hi⟩).origin ∈ r.origins := List.mem_map.2 ⟨_, hmem, rfl⟩
        have hmoves : Narrowing.Moves Store.Drifts (dimensions rectangles k r found mode is : Narrowing w Nat) :=
          moves_dimensions rectangles k found mode is fun _ _ _ _ _ _ _ => Store.drifts_setBounds
        exact (ends_pending hmoves hpending).mono (fun _ _ h => .inr ⟨_, horigin, h⟩) fun _ _ he => he

end Tighten

/-- **Tightening that ends well has found the rectangle standing still, or has left one of its
origins pending.** -/
theorem Disjoint.still_of_tighten {d : Disjoint} {k : Nat} {r : Rectangle} (hr : d.rectangles[k]? = some r)
    {found : Neighborhood} {p : Pass w} (hknown : r.Known p.store) :
    Ends (d.tighten k found) p
      (fun _ q => q.store = p.store ∧
          (∀ i < r.dim, Tighten.StillAlong p.store d.rectangles k r found d.mode i) ∨
        ¬ r.Untouched q.store) fun _ _ => True := by
  refine ends_tighten hr ((Tighten.still_of_dimensions hknown (fun i hi => List.mem_range.1 hi) rfl).mono
    (fun _ q hq q' hq' => ?_) fun _ _ _ _ _ => trivial)
  rcases hq with ⟨hq, hstill⟩ | ⟨v, hv, hpending⟩
  · exact .inl ⟨hq'.trans hq, fun i hi => hstill i (List.mem_range.2 hi)⟩
  · rw [hq']
    exact .inr fun h => h v (List.mem_append_left _ hv) hpending

end Placement
