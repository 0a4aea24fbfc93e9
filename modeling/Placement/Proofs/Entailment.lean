/-
# Entailment is decided exactly

A constraint takes itself to hold when no rectangle may overlap one of its cached candidates.
For solid rectangles (`Rectangle.Solid`: every least length is positive, and no end leaves the
width) this is exact: the answer is `true` if and only if no assignment within the domains makes
two rectangles overlap (`Session.satisfied_iff_never_overlaps`).

Whether two rectangles of positive least lengths may overlap is whether their reaches meet
(`Rectangle.Known.mayOverlap_eq`).

* A placed rectangle lies in its reach, so rectangles that overlap have reaches that meet
  (`Rectangle.Overlaps.meet`), and then each is a cached candidate of the other.
* If the reaches meet, both rectangles can be put over a common point of each dimension: the origin at
  the point, or at its greatest value if that lies before the point, and the length at its greatest
  value (`Store.exists_cover`). No variable occurs twice, so all of this can be done at once.
-/

import Placement.Proofs.Barriers

namespace Placement

open Neighborhood

variable {w : Width}

/-! ## What a constraint reads -/

namespace Rectangle

variable {a b r : Rectangle} {s : Store w} {α : Var → Int}

/-- All variables of the rectangle exist, every length is positive, and every side ends within the
width, wherever it is placed. -/
def Solid (r : Rectangle) (s : Store w) : Prop :=
  ∀ x ∈ r.sides, ∃ o l, s.domain x.origin = .ok o ∧ s.domain x.length = .ok l ∧ 1 ≤ l.lo ∧
    w.Holds (o.hi + l.hi)

instance decidableSolid (r : Rectangle) (s : Store w) : Decidable (r.Solid s) :=
  decidable_of_iff
    (∀ x ∈ r.sides, (s.cells[x.origin.val]?).any fun o => (s.cells[x.length.val]?).any fun l =>
      1 ≤ l.domain.lo ∧ w.Holds (o.domain.hi + l.domain.hi)) <| by
    refine forall₂_congr fun x _ => ?_
    simp only [Option.any_eq_true, decide_eq_true_eq, Store.domain_eq_ok]
    constructor
    · rintro ⟨o, ho, l, hl, h⟩
      exact ⟨_, _, ⟨o, ho, rfl⟩, ⟨l, hl, rfl⟩, h⟩
    · rintro ⟨_, _, ⟨o, ho, rfl⟩, ⟨l, hl, rfl⟩, h⟩
      exact ⟨o, ho, l, hl, h⟩

/-- The domains of a side of a solid rectangle. -/
theorem Solid.look (h : r.Solid s) {x : Side} (hx : x ∈ r.sides) :
    1 ≤ (s.look x).length.lo ∧ w.Holds ((s.look x).origin.hi + (s.look x).length.hi) := by
  obtain ⟨o, l, ho, hl, hpos, hstop⟩ := h x hx
  obtain ⟨c, hc, rfl⟩ := Store.domain_eq_ok.1 ho
  obtain ⟨c', hc', rfl⟩ := Store.domain_eq_ok.1 hl
  rw [Store.look, Store.dom_of_cell hc, Store.dom_of_cell hc']
  exact ⟨hpos, hstop⟩

/-- The variables of a solid rectangle exist. -/
theorem Solid.known (h : r.Solid s) : r.Known s := by
  have hlt : ∀ {v : Var} {d : Domain w}, s.domain v = .ok d → v.val < s.cells.length := fun hd => by
    obtain ⟨c, hc, -⟩ := Store.domain_eq_ok.1 hd
    exact (List.getElem?_eq_some_iff.1 hc).1
  intro v hv
  rcases List.mem_append.1 hv with hv | hv
  · obtain ⟨x, hx, rfl⟩ := List.mem_map.1 hv
    obtain ⟨o, -, ho, -⟩ := h x hx
    exact hlt ho
  · obtain ⟨x, hx, rfl⟩ := List.mem_map.1 hv
    obtain ⟨-, l, -, hl, -⟩ := h x hx
    exact hlt hl

/-- The reach of a side of a solid rectangle. -/
theorem Solid.mem_span (h : r.Solid s) {x : Side} (hx : x ∈ r.sides) {p : Int} :
    p ∈ (s.look x).span ↔
      (s.look x).origin.lo ≤ p ∧ p < (s.look x).origin.hi + (s.look x).length.hi := by
  obtain ⟨hpos, hstop⟩ := h.look hx
  have := (s.look x).length.lo_le_hi
  have hspan : (s.look x).span.stop = (s.look x).origin.hi + (s.look x).length.hi :=
    (if_neg (by omega)).trans (Width.clamp_of_holds hstop)
  rw [Span.mem_iff, hspan]
  rfl

/-- Comparing the reaches of two rectangles side by side. -/
theorem reachesMeet_eq (ha : a.Known s) (hb : b.Known s) {xs ys : List Side}
    (hxs : ∀ x ∈ xs, x ∈ a.sides) (hys : ∀ y ∈ ys, y ∈ b.sides) (hlen : xs.length = ys.length) :
    reachesMeet s xs ys = .ok (meet (xs.map s.look) (ys.map s.look)) := by
  induction xs generalizing ys with
  | nil =>
    obtain rfl := List.length_eq_zero_iff.1 hlen.symm
    rfl
  | cons x xs ih =>
    obtain _ | ⟨y, ys⟩ := ys
    · simp at hlen
    · obtain ⟨hx, hxs⟩ := List.forall_mem_cons.1 hxs
      obtain ⟨hy, hys⟩ := List.forall_mem_cons.1 hys
      rw [reachesMeet, ha.extent_eq_look hx, ok_bind, Extent.reach_eq, ok_bind, hb.extent_eq_look hy,
        ok_bind, Extent.reach_eq, ok_bind, ih hxs hys (by simpa using hlen)]
      by_cases hm : (s.look x).span.Meets (s.look y).span
      · simp [meet, hm]
      · simp [meet, hm, pure, Except.pure]

/-- All least lengths are positive. -/
def isThick (r : Rectangle) (s : Store w) : Bool := (r.view s).all fun e => 0 < e.length.lo

/-- The test for positive least lengths looks at all sides. -/
theorem isThick_iff : r.isThick s = true ↔ ∀ x ∈ r.sides, 0 < (s.look x).length.lo := by
  simp [isThick, view]

/-- A known rectangle has no zero extent exactly if all its least lengths are positive. -/
theorem Known.hasZeroExtent_eq_not (h : r.Known s) : r.hasZeroExtent s = .ok !r.isThick s := by
  have hnot : ∀ e : Extent w, decide (e.length.lo ≤ 0) = !decide (0 < e.length.lo) := fun e => by
    rw [← decide_not, decide_eq_decide]
    omega
  simp only [h.hasZeroExtent_eq, isThick, List.not_all_eq_any_not, hnot]

/-- A solid rectangle has positive least lengths. -/
theorem Solid.isThick (h : r.Solid s) : r.isThick s = true := isThick_iff.2 fun _ hx => (h.look hx).1

/-- **Rectangles may overlap exactly if their least lengths are positive and their reaches meet.** -/
theorem Known.mayOverlap_eq (ha : a.Known s) (hb : b.Known s) (hdim : a.dim = b.dim) :
    a.mayOverlap b s = .ok (a.isThick s && b.isThick s && meet (a.view s) (b.view s)) := by
  rw [mayOverlap, if_neg (fun h => h hdim)]
  show (do if ← a.hasZeroExtent s then return false
           if ← b.hasZeroExtent s then return false
           reachesMeet s a.sides b.sides : Except Fault Bool) = _
  rw [ha.hasZeroExtent_eq_not, hb.hasZeroExtent_eq_not,
    reachesMeet_eq ha hb (fun _ h => h) (fun _ h => h) hdim]
  cases a.isThick s with
  | false => rfl
  | true =>
    cases b.isThick s with
    | false => rfl
    | true => rfl

/-! ## Overlaps and reaches -/

/-- **Rectangles that overlap have reaches that meet.** -/
theorem Overlaps.meet (h : a.Overlaps b α) (hα : s.Admits α) (ha : a.Solid s) (hb : b.Solid s) :
    meet (a.view s) (b.view s) = true := by
  have inside : ∀ {r : Rectangle}, r.Solid s → ∀ {x : Side}, x ∈ r.sides → ∀ {p : Int},
      α x.origin ≤ p ∧ p < α x.origin + α x.length → p ∈ (s.look x).span := fun hr x hx p hp => by
    have ho : α x.origin ∈ (s.look x).origin := hα _ (hr.known.origin hx)
    have hl : α x.length ∈ (s.look x).length := hα _ (hr.known.length hx)
    rw [Domain.mem_iff] at ho hl
    rw [hr.mem_span hx]
    omega
  rw [meet_iff (by simpa [dim] using h.shared.length_eq), view, view, List.forall₂_map_left_iff,
    List.forall₂_map_right_iff, List.forall₂_iff_get]
  refine ⟨h.shared.length_eq, fun i hi hi' => ?_⟩
  obtain ⟨p, hpa, hpb⟩ := (List.forall₂_iff_get.1 h.shared).2 i hi hi'
  exact Span.meets_iff.2 ⟨p, inside ha (List.get_mem _ _) hpa, inside hb (List.get_mem _ _) hpb⟩

end Rectangle

/-- Where two reaches meet, the later of the two earliest origins lies in both. -/
theorem Extent.mem_span_of_meets {d e : Extent w} (h : d.span.Meets e.span) :
    max d.origin.lo e.origin.lo ∈ d.span ∧ max d.origin.lo e.origin.lo ∈ e.span := by
  have hstart : ∀ f : Extent w, f.span.start = f.origin.lo := fun _ => rfl
  simp only [Span.Meets, Span.mem_iff, hstart] at h ⊢
  omega

/-- The side can be placed over the point `p`: at its greatest length, some origin does it. -/
def Store.CanCover (s : Store w) (x : Side) (p : Int) : Prop :=
  (s.look x).origin.lo ≤ p ∧ p < (s.look x).origin.hi + (s.look x).length.hi ∧ 1 ≤ (s.look x).length.hi

/-- **Sides without a common variable can all be placed over their points at once.** -/
theorem Store.exists_cover (s : Store w) {targets : List (Side × Int)}
    (hnd : (targets.flatMap fun t => [t.1.origin, t.1.length]).Nodup)
    (hcan : ∀ t ∈ targets, s.CanCover t.1 t.2) :
    ∃ α, s.Admits α ∧ ∀ t ∈ targets, α t.1.origin ≤ t.2 ∧ t.2 < α t.1.origin + α t.1.length := by
  induction targets with
  | nil => exact ⟨fun v => (s.dom v).lo, fun v _ => ⟨Int.le_refl _, (s.dom v).lo_le_hi⟩, nofun⟩
  | cons t ts ih =>
    obtain ⟨x, p⟩ := t
    obtain ⟨⟨hlo, hhi, hpos⟩, hcan⟩ := List.forall_mem_cons.1 hcan
    simp only [Store.look] at hlo hhi hpos
    simp only [List.flatMap_cons, List.cons_append, List.nil_append, List.nodup_cons, List.mem_cons,
      not_or] at hnd
    obtain ⟨⟨hne, ho⟩, hl, hnd⟩ := hnd
    obtain ⟨α, hα, hcover⟩ := ih hnd hcan
    refine ⟨Function.update (Function.update α x.origin (min p (s.dom x.origin).hi)) x.length
      (s.dom x.length).hi, fun v hv => ?_, List.forall_mem_cons.2 ⟨?_, fun t ht => ?_⟩⟩
    · by_cases hvl : v = x.length
      · subst hvl
        rw [Function.update_self]
        exact ⟨(s.dom _).lo_le_hi, Int.le_refl _⟩
      · rw [Function.update_of_ne hvl]
        by_cases hvo : v = x.origin
        · subst hvo
          rw [Function.update_self]
          have := (s.dom x.origin).lo_le_hi
          exact ⟨by omega, by omega⟩
        · rw [Function.update_of_ne hvo]
          exact hα v hv
    · rw [Function.update_self, Function.update_of_ne hne, Function.update_self]
      show min p _ ≤ p ∧ p < min p _ + _
      omega
    · -- the other sides have other variables
      have other : ∀ v ∈ [t.1.origin, t.1.length], v ≠ x.origin ∧ v ≠ x.length := fun v hv => by
        have hmem : v ∈ ts.flatMap fun t => [t.1.origin, t.1.length] := List.mem_flatMap.2 ⟨t, ht, hv⟩
        exact ⟨fun he => ho (he ▸ hmem), fun he => hl (he ▸ hmem)⟩
      obtain ⟨hoo, hol⟩ := other t.1.origin (by simp)
      obtain ⟨hlo', hll⟩ := other t.1.length (by simp)
      rw [Function.update_of_ne hol, Function.update_of_ne hoo, Function.update_of_ne hll,
        Function.update_of_ne hlo']
      exact hcover t ht

namespace Rectangle

variable {a b r : Rectangle} {s : Store w}

/-- The variables of a rectangle, side by side. -/
theorem vars_perm (r : Rectangle) : r.vars.Perm (r.sides.flatMap fun x => [x.origin, x.length]) := by
  have := List.flatMap_append_perm r.sides (fun x => [x.origin]) fun x => [x.length]
  rwa [← List.map_eq_flatMap, ← List.map_eq_flatMap] at this

/-- Each side of a solid rectangle can be placed over any point of its reach. -/
theorem Solid.canCover (h : r.Solid s) {x : Side} (hx : x ∈ r.sides) {p : Int} (hp : p ∈ (s.look x).span) :
    s.CanCover x p := by
  have hin := (h.mem_span hx).1 hp
  have hpos := (h.look hx).1
  have := (s.look x).length.lo_le_hi
  exact ⟨hin.1, hin.2, by omega⟩

/-- **Solid rectangles whose reaches meet can be made to overlap**, if no variable occurs twice. -/
theorem Solid.exists_overlaps (ha : a.Solid s) (hb : b.Solid s) (hdim : a.dim = b.dim)
    (hnd : (a.vars ++ b.vars).Nodup) (h : meet (a.view s) (b.view s) = true) :
    ∃ α, s.Admits α ∧ a.Overlaps b α := by
  let point : Side × Side → Int := fun z => max (s.look z.1).origin.lo (s.look z.2).origin.lo
  let pairs := a.sides.zip b.sides
  let targets := pairs.map (fun z => (z.1, point z)) ++ pairs.map fun z => (z.2, point z)
  have hlen : a.sides.length = b.sides.length := hdim
  have hkeys : (targets.flatMap fun t => [t.1.origin, t.1.length]).Nodup := by
    have hsides : targets.map Prod.fst = a.sides ++ b.sides := by
      simp only [targets, pairs, List.map_append, List.map_map, Function.comp_def]
      rw [List.map_fst_zip (by omega), List.map_snd_zip (by omega)]
    have hflat : targets.flatMap (fun t => [t.1.origin, t.1.length]) =
        (a.sides ++ b.sides).flatMap fun x => [x.origin, x.length] := by
      rw [← hsides, List.flatMap_map]
    rw [hflat, List.flatMap_append]
    exact (a.vars_perm.append b.vars_perm).nodup_iff.1 hnd
  have hpoint : ∀ z ∈ pairs, s.CanCover z.1 (point z) ∧ s.CanCover z.2 (point z) := fun z hz => by
    rw [meet_iff (by simpa using hdim), view, view, List.forall₂_map_left_iff,
      List.forall₂_map_right_iff] at h
    obtain ⟨hz₁, hz₂⟩ := List.of_mem_zip hz
    obtain ⟨hp₁, hp₂⟩ := Extent.mem_span_of_meets ((List.forall₂_iff_zip.1 h).2 hz)
    exact ⟨ha.canCover hz₁ hp₁, hb.canCover hz₂ hp₂⟩
  obtain ⟨α, hα, hcover⟩ := s.exists_cover hkeys fun t ht => by
    rcases List.mem_append.1 ht with ht | ht
    · obtain ⟨z, hz, rfl⟩ := List.mem_map.1 ht
      exact (hpoint z hz).1
    · obtain ⟨z, hz, rfl⟩ := List.mem_map.1 ht
      exact (hpoint z hz).2
  have hshared : List.Forall₂ (fun x y => ∃ p, (α x.origin ≤ p ∧ p < α x.origin + α x.length) ∧
      α y.origin ≤ p ∧ p < α y.origin + α y.length) a.sides b.sides :=
    List.forall₂_iff_zip.2 ⟨hlen, fun {x y} hz => ⟨point (x, y),
      hcover (x, point (x, y)) (List.mem_append_left _ (List.mem_map.2 ⟨(x, y), hz, rfl⟩)),
      hcover (y, point (x, y)) (List.mem_append_right _ (List.mem_map.2 ⟨(x, y), hz, rfl⟩))⟩⟩
  obtain ⟨p, hpa, hpb⟩ : ∃ p, p ∈ Box.cells (a.box α) ∧ p ∈ Box.cells (b.box α) := by
    simpa [Box.Clear] using not_clear_of_shared hshared
  exact ⟨α, hα, pos_of_mem_cells hpa, pos_of_mem_cells hpb, hshared⟩

end Rectangle

/-! ## Exact answers -/

namespace Disjoint

variable {d : Disjoint} {s : Store w}

/-- The candidates that a constraint looks at are the cached ones. -/
theorem overlapCandidates_eq {k : Nat} {cs : List Nat} (h : d.candidates.get s k = .ok cs) :
    d.overlapCandidates s k = .ok cs := by
  obtain ⟨x, hx, -⟩ := Candidates.get_eq_ok.1 h
  have hne : d.candidates.slots ≠ [] := by
    rintro he
    rw [he] at hx
    cases hx
  rw [overlapCandidates, if_pos (by simpa [Candidates.isAllocated] using hne), h]

/-- A constraint with sound candidates takes itself to hold exactly if no two rectangles of positive
least lengths have reaches that meet. -/
theorem satisfied_iff (hsound : d.Sound s) (hknown : ∀ r ∈ d.rectangles, r.Known s) :
    ∃ b, d.satisfied s = .ok b ∧ (b = true ↔ ∀ (i j : Nat) (p q : Rectangle), i ≠ j →
      d.rectangles[i]? = some p → d.rectangles[j]? = some q → p.isThick s = true →
        q.isThick s = true → meet (p.view s) (q.view s) = false) := by
  have inner : ∀ k ∈ List.range d.rectangles.length, ∃ b, (do
      let r ← entry d.rectangles k
      (← d.overlapCandidates s k).allM fun j => do
        return !(← r.mayOverlap (← entry d.rectangles j) s) : Except Fault Bool) = .ok b ∧
      (b = true ↔ ∀ (j : Nat) (p q : Rectangle), k ≠ j → d.rectangles[k]? = some p →
        d.rectangles[j]? = some q → p.isThick s = true → q.isThick s = true →
          meet (p.view s) (q.view s) = false) := fun k hk => by
    have hk := List.mem_range.1 hk
    obtain ⟨cs, hcs, hat⟩ := hsound k hk
    have hr := List.getElem?_eq_getElem hk
    have hread : ∀ j ∈ cs, ∀ q, d.rectangles[j]? = some q → (do
        return !(← d.rectangles[k].mayOverlap (← entry d.rectangles j) s) : Except Fault Bool) =
          .ok !(d.rectangles[k].isThick s && q.isThick s && meet (d.rectangles[k].view s) (q.view s)) :=
      fun j _ q hq => by
        have hp := List.getElem_mem hk
        have hq' := List.mem_of_getElem? hq
        rw [entry_eq_ok.2 hq, ok_bind, (hknown _ hp).mayOverlap_eq (hknown q hq') (d.uniform _ hp q hq')]
        rfl
    have hlt : ∀ j ∈ cs, j < d.rectangles.length ∧ j ≠ k := fun j hj =>
      Candidates.mem_others.1 (hat.sublist.subset hj)
    obtain ⟨b, hb, hiff⟩ := allM_ok fun j (hj : j ∈ cs) =>
      ⟨_, hread j hj _ (List.getElem?_eq_getElem (hlt j hj).1)⟩
    refine ⟨b, ?_, hiff.trans ⟨fun hall j p q hkj hp hq hpt hqt => ?_, fun hall j hj => ?_⟩⟩
    · rw [entry_eq_ok.2 hr, ok_bind, overlapCandidates_eq hcs, ok_bind]
      exact hb
    · obtain rfl := Option.some.inj (hr.symm.trans hp)
      -- a rectangle that is not a candidate lies apart
      by_contra hmeet
      have hmeet : meet (d.rectangles[k].view s) (q.view s) = true := by simpa using hmeet
      have hj := hsound.mem_of_meet hr hq hkj.symm hcs hmeet
      have := hall j hj
      rw [hread j hj q hq, hpt, hqt, hmeet] at this
      cases this
    · have hq := List.getElem?_eq_getElem (hlt j hj).1
      rw [hread j hj _ hq, Except.ok.injEq, Bool.not_eq_true', Bool.and_eq_false_imp, Bool.and_eq_true,
        and_imp]
      exact hall j _ _ (hlt j hj).2.symm hr hq
  obtain ⟨b, hb, hiff⟩ := allM_iff inner
  refine ⟨b, hb, hiff.trans ⟨fun hall i j p q hij hp hq => ?_, fun hall k _ => hall k⟩⟩
  exact hall i (List.mem_range.2 (List.getElem?_eq_some_iff.1 hp).1) j p q hij hp hq

/-- Over solid rectangles it takes itself to hold exactly if no two reaches meet. -/
theorem satisfied_iff_not_meet (hsound : d.Sound s) (hsolid : ∀ r ∈ d.rectangles, r.Solid s) :
    ∃ b, d.satisfied s = .ok b ∧ (b = true ↔ ∀ (i j : Nat) (p q : Rectangle), i ≠ j →
      d.rectangles[i]? = some p → d.rectangles[j]? = some q → meet (p.view s) (q.view s) = false) := by
  obtain ⟨b, hb, hiff⟩ := satisfied_iff hsound fun r hr => (hsolid r hr).known
  have thick : ∀ {i : Nat} {p : Rectangle}, d.rectangles[i]? = some p → p.isThick s = true := fun hp =>
    (hsolid _ (List.mem_of_getElem? hp)).isThick
  refine ⟨b, hb, hiff.trans ⟨?_, ?_⟩⟩
  · intro hall i j p q hij hp hq
    exact hall i j p q hij hp hq (thick hp) (thick hq)
  · intro hall i j p q hij hp hq _ _
    exact hall i j p q hij hp hq

/-- Two rectangles of a constraint in which no variable occurs twice have no common variable. -/
theorem nodup_vars (h : d.scope.Nodup) {i j : Nat} {p q : Rectangle} (hij : i ≠ j)
    (hp : d.rectangles[i]? = some p) (hq : d.rectangles[j]? = some q) : (p.vars ++ q.vars).Nodup := by
  obtain ⟨hone, htwo⟩ := List.nodup_flatMap.1 h
  obtain ⟨hi, rfl⟩ := List.getElem?_eq_some_iff.1 hp
  obtain ⟨hj, rfl⟩ := List.getElem?_eq_some_iff.1 hq
  refine (hone _ (List.getElem_mem hi)).append (hone _ (List.getElem_mem hj)) ?_
  rcases Nat.lt_or_gt_of_ne hij with hlt | hgt
  · exact List.pairwise_iff_getElem.1 htwo i j hi hj hlt
  · exact (List.pairwise_iff_getElem.1 htwo j i hj hi hgt).symm

end Disjoint

namespace Session

variable {s : Session w}

/-- **Entailment is decided exactly for solid rectangles.** In every session where all is created at the
root and slots of candidates are written by their constraints only, whatever else was done and
however it ended: a constraint whose rectangles are solid and share no variable, within one
rectangle or between two, answers, and it answers `true` if and only if no assignment within the
current domains makes two of its rectangles overlap. -/
theorem satisfied_iff_never_overlaps (hs : s.Reached fun s op => RootCreation s op ∧ OwnSlots s op)
    {d : Disjoint} (hd : d ∈ s.constraints) (hsolid : ∀ r ∈ d.rectangles, r.Solid s.store)
    (hdistinct : d.scope.Nodup) :
    ∃ answer, d.satisfied s.store = .ok answer ∧
      (answer = true ↔ ∀ α, s.store.Admits α → ∀ (i j : Nat) (p q : Rectangle), i ≠ j →
        d.rectangles[i]? = some p → d.rectangles[j]? = some q → ¬ p.Overlaps q α) := by
  obtain ⟨answer, hanswer, hiff⟩ := Disjoint.satisfied_iff_not_meet ((always_sound hs).now d hd) hsolid
  have solid : ∀ {i : Nat} {p : Rectangle}, d.rectangles[i]? = some p → p.Solid s.store := fun hp =>
    hsolid _ (List.mem_of_getElem? hp)
  refine ⟨answer, hanswer, hiff.trans ?_⟩
  constructor
  · intro hnone α hα i j p q hij hp hq hover
    have := hover.meet hα (solid hp) (solid hq)
    rw [hnone i j p q hij hp hq] at this
    cases this
  · intro hnever i j p q hij hp hq
    by_contra hmeet
    obtain ⟨α, hα, hover⟩ := (solid hp).exists_overlaps (solid hq)
      (d.uniform p (List.mem_of_getElem? hp) q (List.mem_of_getElem? hq))
      (Disjoint.nodup_vars hdistinct hij hp hq) (by simpa using hmeet)
    exact hnever α hα i j p q hij hp hq hover

/-- Two tiles of side 3 with variables of their own. At the root they may overlap, and the constraint
says so; at a level at which one was moved to the left of the other they cannot, and it says so too. -/
theorem satisfied_iff_never_overlaps_tiles :
    let edge : Domain .w8 := ⟨0, 4, by decide, by decide, by decide⟩
    let three : Domain .w8 := .single 3 (by decide)
    let tile := fun v : Nat => (⟨[⟨⟨v⟩, ⟨v + 1⟩⟩, ⟨⟨v + 2⟩, ⟨v + 3⟩⟩], List.cons_ne_nil _ _⟩ : Rectangle)
    let s := empty.run [.newVar edge, .newVar three, .newVar edge, .newVar three, .newVar edge,
      .newVar three, .newVar edge, .newVar three,
      .post ⟨none, [tile 0, tile 4], .profile (.stable _), .empty, .zero, by decide⟩, .propagate]
    let t := s.run [.pushLevel, .fix ⟨0⟩ 0, .setMin ⟨4⟩ 3, .propagate]
    s.constraints.length = 1 ∧ t.constraints.length = 1 ∧
      (∀ d ∈ s.constraints, d.satisfied s.store = .ok false ∧ ∃ α, s.store.Admits α ∧
        ∃ (i j : Nat) (p q : Rectangle), i ≠ j ∧ d.rectangles[i]? = some p ∧ d.rectangles[j]? = some q ∧
          p.Overlaps q α) ∧
      ∀ d ∈ t.constraints, d.satisfied t.store = .ok true ∧
        ∀ α, t.store.Admits α → ¬ (tile 0).Overlaps (tile 4) α := by
  intro edge three tile s t
  have hs : s.Reached fun s op => RootCreation s op ∧ OwnSlots s op := Reached.start.run (by decide +kernel)
  have ht : t.Reached fun s op => RootCreation s op ∧ OwnSlots s op := hs.run (by decide +kernel)
  have hnow : ∀ d ∈ s.constraints, (∀ r ∈ d.rectangles, r.Solid s.store) ∧ d.scope.Nodup ∧
      d.satisfied s.store = .ok false := by decide +kernel
  have hthen : ∀ d ∈ t.constraints, (∀ r ∈ d.rectangles, r.Solid t.store) ∧ d.scope.Nodup ∧
      d.rectangles = [tile 0, tile 4] ∧ d.satisfied t.store = .ok true := by decide +kernel
  refine ⟨by decide +kernel, by decide +kernel, ?_, ?_⟩
  · intro d hd
    obtain ⟨hsolid, hdistinct, hfalse⟩ := hnow d hd
    obtain ⟨answer, hanswer, hiff⟩ := satisfied_iff_never_overlaps hs hd hsolid hdistinct
    obtain rfl : false = answer := Except.ok.inj (hfalse.symm.trans hanswer)
    refine ⟨hfalse, ?_⟩
    by_contra hnone
    exact Bool.false_ne_true <| hiff.2 fun α hα i j p q hij hp hq hover =>
      hnone ⟨α, hα, i, j, p, q, hij, hp, hq, hover⟩
  · intro d hd
    obtain ⟨hsolid, hdistinct, hrects, htrue⟩ := hthen d hd
    obtain ⟨answer, hanswer, hiff⟩ := satisfied_iff_never_overlaps ht hd hsolid hdistinct
    obtain rfl : true = answer := Except.ok.inj (htrue.symm.trans hanswer)
    exact ⟨htrue, fun α hα => hiff.1 rfl α hα 0 1 _ _ Nat.zero_ne_one (by rw [hrects]; rfl)
      (by rw [hrects]; rfl)⟩

end Session
end Placement
