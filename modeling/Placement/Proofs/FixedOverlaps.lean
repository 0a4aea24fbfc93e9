/-
# Overlaps of placed rectangles

Two placed rectangles that overlap bar each other, and tightening one of them fails: its origin
would have to move and cannot (`Disjoint.ends_tighten_barred`). So a pass that is told of all
variables does not end well, provided that it gets to one of the two.

It gets there if one of the two is not settled. Nothing that the pass writes before takes that
away: a variable that is fixed is never written again (`Store.KeepsFixed`), and the candidates of a
rectangle are its own (`Disjoint.Visited`), so it is still compared with all others.

If both rectangles were fixed before the current level, both are passed over, also by a constraint
that was imposed at this level and has never compared them (`Disjoint.narrow_passes_settled_overlap`).
-/

import Placement.Proofs.Leaves

namespace Placement

open Neighborhood

variable {w : Width}

/-! ## Fixed variables -/

/-- A fixed domain has no other part than itself. -/
theorem Domain.IsFixed.eq_of_restrict? {d e : Domain w} (hd : d.IsFixed) {lo hi : Int}
    (h : d.restrict? lo hi = some e) : e = d := by
  by_contra hne
  have hlt := slack_lt_of_restrict? h hne
  unfold IsFixed at hd
  unfold slack at hlt
  omega

namespace Store

variable {s t u : Store w}

/-- The level is the same, and every variable that was fixed is as it was, stamp and all. -/
structure KeepsFixed (s t : Store w) : Prop where
  level_eq : t.level = s.level
  cells : ∀ (i : Nat) (c : Cell w), s.cells[i]? = some c → c.domain.IsFixed → t.cells[i]? = some c

/-- A store keeps its own fixed variables. -/
theorem KeepsFixed.refl (s : Store w) : KeepsFixed s s := ⟨rfl, fun _ _ hc _ => hc⟩

/-- What is kept fixed twice is kept fixed. -/
theorem KeepsFixed.trans (h : KeepsFixed s t) (h' : KeepsFixed t u) : KeepsFixed s u :=
  ⟨h'.level_eq.trans h.level_eq, fun i c hc hf => h'.cells i c (h.cells i c hc hf) hf⟩

/-- Any number of steps that keep fixed variables keep them. -/
theorem KeepsFixed.of_moves (h : Relation.ReflTransGen KeepsFixed s t) : KeepsFixed s t := by
  induction h with
  | refl => exact .refl _
  | tail _ hst ih => exact ih.trans hst

/-- Narrowing a domain keeps fixed variables: they have no value to lose. -/
theorem keepsFixed_setBounds {v : Var} {lo hi : Int} {b : Bool} (h : s.setBounds v lo hi = .ok (b, t)) :
    KeepsFixed s t := by
  obtain ⟨c, d, hc, hd, ⟨-, -, rfl⟩ | ⟨hne, -, rfl⟩⟩ := setBounds_eq_ok h
  · exact .refl _
  · refine ⟨level_of_note rfl, fun i e he hf => ?_⟩
    by_cases hi : v.val = i
    · subst hi
      obtain rfl := Option.some.inj (hc.symm.trans he)
      exact absurd (hf.eq_of_restrict? hd) hne
    · exact (List.getElem?_set_ne hi).trans he

/-- Writing a slot keeps fixed variables. -/
theorem keepsFixed_setSnapshot {x : Slot} {value : List Nat} (h : s.setSnapshot x value = .ok t) :
    KeepsFixed s t := by
  obtain ⟨a, -, rfl⟩ := setSnapshot_eq_ok.1 h
  exact ⟨level_of_note rfl, fun _ _ hc _ => hc⟩

end Store

/-- **A visit leaves fixed variables alone**, however it ends. -/
theorem Disjoint.ends_keepsFixed (d : Disjoint) (changed : List Var) (k : Nat) (p : Pass w) :
    Ends (d.narrowRectangle changed k) p (fun _ q => p.store.KeepsFixed q.store)
      fun _ q => p.store.KeepsFixed q.store := by
  refine (d.moves_narrowRectangle changed k (R := Store.KeepsFixed)
    (fun _ _ _ _ _ _ _ _ _ h => Store.keepsFixed_setBounds h) (fun s t current found _ _ h => ?_) p).mono
    (fun _ _ h => .of_moves h) fun _ _ h => .of_moves h
  obtain ⟨_, x, -, -, -, h⟩ := Candidates.replace_eq_ok h
  exact Store.keepsFixed_setSnapshot h

namespace Rectangle

variable {a b r : Rectangle} {s t : Store w} {α : Var → Int}

namespace Placed

/-- The cell of a variable of a placed rectangle. -/
theorem cell (h : r.Placed s α) {v : Var} (hv : v ∈ r.vars) :
    ∃ c, s.cells[v.val]? = some c ∧ c.domain.lo = α v ∧ c.domain.hi = α v := by
  obtain ⟨d, hd, hvalue⟩ := h.fixed v hv
  obtain ⟨c, hc, rfl⟩ := Store.domain_eq_ok.1 hd
  exact ⟨c, hc, hvalue⟩

/-- A placed rectangle stays where it is. -/
theorem keepsFixed (h : r.Placed s α) (hst : s.KeepsFixed t) : r.Placed t α := by
  refine ⟨fun v hv => ?_, h.pos, h.holds_stop⟩
  obtain ⟨c, hc, hlo, hhi⟩ := h.cell hv
  exact ⟨c.domain, Store.domain_eq_ok.2 ⟨c, hst.cells _ c hc (hlo.trans hhi.symm), rfl⟩, hlo, hhi⟩

/-- A placed rectangle does not become settled. -/
theorem not_settled (h : r.Placed s α) (hst : s.KeepsFixed t) (hset : ¬ r.Settled s) : ¬ r.Settled t := by
  intro hset'
  refine hset fun v hv c hc => ?_
  obtain ⟨c', hc', hlo, hhi⟩ := h.cell hv
  obtain rfl := Option.some.inj (hc'.symm.trans hc)
  rw [← hst.level_eq]
  exact hset' v hv c' (hst.cells _ c' hc' (hlo.trans hhi.symm))

/-- A placed rectangle has no negative length. -/
theorem nonneg (h : r.Placed s α) : r.Nonneg s := fun x hx => by
  rw [h.length_eq hx]
  exact (h.pos x hx).le

end Placed

/-- Rectangles that overlap are not separated. -/
theorem Overlaps.not_separated (h : a.Overlaps b α) : ¬ a.Separated b α := by
  rintro ⟨i, x, y, hx, hy, hxy⟩
  obtain ⟨hi, rfl⟩ := List.getElem?_eq_some_iff.1 hx
  obtain ⟨hi', rfl⟩ := List.getElem?_eq_some_iff.1 hy
  obtain ⟨p, hpa, hpb⟩ := (List.forall₂_iff_get.1 h.shared).2 i hi hi'
  simp only [List.get_eq_getElem] at hpa hpb
  omega

/-- Overlapping is mutual. -/
theorem Overlaps.symm (h : a.Overlaps b α) : b.Overlaps a α :=
  ⟨h.pos_right, h.pos_left, h.shared.flip.imp fun _ _ ⟨p, hpa, hpb⟩ => ⟨p, hpb, hpa⟩⟩

/-- Placed rectangles that overlap: the second bars the first from a point of its place, and their
reaches meet. -/
theorem Placed.barred (ha : a.Placed s α) (hb : b.Placed s α) (hdim : a.dim = b.dim) (h : a.Overlaps b α) :
    ∃ x c, a.sides[0]? = some x ∧ Bars (b.view s) (a.view s) 0 c ∧ meet (a.view s) (b.view s) = true ∧
      α x.origin ≤ c ∧ c < α x.origin + α x.length := by
  have h0 : 0 < a.sides.length := List.length_pos_iff.2 a.sides_ne_nil
  obtain ⟨x, hx⟩ : ∃ x, a.sides[0]? = some x := ⟨_, List.getElem?_eq_getElem h0⟩
  obtain ⟨y, hy⟩ : ∃ y, b.sides[0]? = some y := ⟨_, List.getElem?_eq_getElem (show 0 < b.dim by rwa [← hdim])⟩
  have hmem := List.mem_of_getElem? hx
  have hpos := ha.pos x hmem
  have hbars := ha.bars hb hdim h.not_separated hx hy
  have hc : α x.origin ≤ max (α x.origin) (α y.origin) ∧
      max (α x.origin) (α y.origin) < α x.origin + α x.length := by
    by_contra hout
    exact h.not_separated ⟨0, x, y, hx, hy, by omega⟩
  obtain ⟨m, hm, hstart, hstop⟩ := ha.mandatory?_eq hmem
  refine ⟨x, _, hx, hbars, ?_, hc⟩
  refine meet_of_bars hbars (by simpa using hdim) (by rw [a.view_getElem?, hx]; rfl)
    (Extent.mem_span_of_mandatory hm (Span.mem_iff.2 ?_))
  rw [hstart, hstop]
  exact hc

end Rectangle

/-! ## Tightening a placed rectangle that is barred -/

/-- An origin that is fixed cannot leave a region that it covers. -/
theorem Tighten.ends_origin_covered {v : Var} {length : Int} {regions : List Span} {p : Pass w}
    (hv : v.val < p.store.cells.length) (hfixed : (p.store.dom v).IsFixed) (hpos : 0 < length)
    (hsep : regions.Pairwise fun a b => a.stop < b.start) {c : Int} (hc : Covered regions c)
    (hw : w.Holds (c + 1)) (hin : (p.store.dom v).lo ≤ c ∧ c < (p.store.dom v).lo + length) :
    Ends (origin v length regions) p (fun _ _ => False) fun _ _ => True := by
  refine ends_origin hv (fun hstill _ => ?_) (fun _ hmoves _ b t _ hset => ?_) fun _ _ _ _ _ => trivial
  · have hstill := hstill.resolve_left (by omega)
    exact (not_covered_of_still hpos hsep hstill.1 hstill.2 hc hw).1 hin
  · obtain ⟨c, d, hcell, hd, -⟩ := Store.setBounds_eq_ok hset
    rw [Store.dom_of_cell hcell] at hfixed hmoves hd
    have hmem := (Domain.mem_restrict? hd d.lo).1 ⟨Int.le_refl _, d.lo_le_hi⟩
    have hsame := hfixed.eq_of_restrict? hd
    unfold Domain.IsFixed at hfixed
    rw [hsame, Domain.mem_iff] at hmem
    omega

namespace Disjoint

variable {d : Disjoint} {s : Store w} {i j : Nat} {a b : Rectangle} {α : Var → Int}

/-- **Tightening a placed rectangle fails if a neighbour that was seen bars it from its place.** -/
theorem ends_tighten_barred (ha : d.rectangles[i]? = some a) {p : Pass w} (hpa : a.Placed p.store α)
    {changed : List Var} {es : List (Extent w)} {cs : List Nat} {n : Neighbor w}
    (hn : n ∈ seen s d.rectangles changed es cs) {x : Side} (hx : a.sides[0]? = some x) {c : Int}
    (hbars : Bars n.extents (a.view p.store) 0 c) (hc : α x.origin ≤ c ∧ c < α x.origin + α x.length) :
    Ends (d.tighten i (ofNeighbors (seen s d.rectangles changed es cs))) p (fun _ _ => False)
      fun _ _ => True := by
  have hmem := List.mem_of_getElem? hx
  have hdim : 0 < a.dim := (List.getElem?_eq_some_iff.1 hx).1
  have hlength := hpa.length_eq hmem
  have hpos := hpa.pos x hmem
  obtain ⟨hlo, hhi⟩ := hpa.origin_eq hmem
  obtain ⟨is, his⟩ : ∃ is, List.range a.dim = 0 :: is := by
    obtain ⟨m, hm⟩ : ∃ m, a.dim = m + 1 := ⟨a.dim - 1, by omega⟩
    exact ⟨_, hm ▸ List.range_succ_eq_map⟩
  refine ends_tighten ha ?_
  rw [his]
  refine Tighten.ends_dimensions_cons hpa.known hx (fun hle => absurd hle (by omega)) fun hpos' => ?_
  refine Tighten.ends_originAgainst_cons (fun regions hregions => ?_) fun _ _ _ _ => trivial
  obtain ⟨regions', hok, hsep, -, hcovered⟩ := Region.ofUsed_seen (s := s) d.uniform
    (List.mem_of_getElem? ha) hpa.known hdim changed es cs
  obtain rfl := Except.ok.inj (hok.symm.trans hregions)
  refine (Tighten.ends_origin_covered (hpa.known.origin hmem) (hlo.trans hhi.symm) hpos' hsep
    ((hcovered c).2 ⟨n, hn, hbars⟩) hbars.holds_succ (by omega)).mono (fun _ _ h => h.elim)
    fun _ _ _ _ _ => trivial

/-- Visiting a placed rectangle that is not settled and overlaps another one that it is compared with
fails, if it is told of the change. -/
theorem ends_narrowRectangle_overlap (ha : d.rectangles[i]? = some a) (hb : d.rectangles[j]? = some b)
    (hij : i ≠ j) {p : Pass w} (hk : ∀ r ∈ d.rectangles, r.Known p.store)
    (hcs : d.candidates.get p.store i = .ok (Candidates.others d.rectangles.length i))
    (hpa : a.Placed p.store α) (hpb : b.Placed p.store α) (hover : a.Overlaps b α)
    (hset : ¬ a.Settled p.store) {changed : List Var} (htouched : a.touches changed = true) :
    Ends (d.narrowRectangle changed i) p (fun _ _ => False) fun _ _ => True := by
  obtain ⟨x, c, hx, hbars, hmeet, hc⟩ := hpa.barred hpb
    (d.uniform a (List.mem_of_getElem? ha) b (List.mem_of_getElem? hb)) hover
  have hseen : Neighbor.of j (b.view p.store) (b.touches changed) ∈ seen p.store d.rectangles changed
      (a.view p.store) (Candidates.others d.rectangles.length i) := by
    refine List.mem_filterMap.2 ⟨j, Candidates.mem_others.2 ⟨(List.getElem?_eq_some_iff.1 hb).1, hij.symm⟩, ?_⟩
    unfold sight
    rw [hb]
    exact if_pos hmeet
  refine ends_narrowRectangle ha hpa.known (fun hpassed => ?_) fun _ _ => ?_
  · exact absurd hpassed (not_or.2 ⟨not_not.2 hpa.nonneg, hset⟩)
  · refine ends_revise hcs (fun found hfound => ⟨fun hidle => ?_, fun _ q hq => ?_⟩) fun _ _ _ _ _ _ => trivial
    · exact absurd (.inr (.inr htouched)) hidle
    · obtain rfl := analyze_ok ⟨hk, d.uniform⟩ ha (fun n hn => Candidates.mem_others.1 hn) hfound
      -- the new candidates are all that was written
      obtain ⟨hcells, hkeeps⟩ : q.store.cells = p.store.cells ∧ p.store.KeepsFixed q.store := by
        rcases hq with ⟨-, hq⟩ | ⟨-, hq⟩
        · rw [hq]
          exact ⟨rfl, .refl _⟩
        · obtain ⟨_, _, -, -, -, hq⟩ := Candidates.replace_eq_ok hq
          obtain ⟨_, -, hstore⟩ := Store.setSnapshot_eq_ok.1 hq
          exact ⟨by rw [hstore], Store.keepsFixed_setSnapshot hq⟩
      refine ends_tighten_barred ha (hpa.keepsFixed hkeeps) hseen hx ?_ hc
      rw [a.view_of_cells hcells]
      exact hbars

/-- A pass of a constraint that was just imposed does not end well if a rectangle that is not settled
overlaps another one, and all variables are said to have changed. -/
theorem ends_pass_overlap (d : Disjoint) (id : ConstraintId) (s : Store w)
    (hk : ∀ r ∈ d.rectangles, r.Known s) {changed : List Var} (hchanged : ∀ v ∈ d.scope, v ∈ changed)
    (ha : d.rectangles[i]? = some a) (hb : d.rectangles[j]? = some b) (hij : i ≠ j)
    (hpa : a.Placed s α) (hpb : b.Placed s α) (hover : a.Overlaps b α) (hset : ¬ a.Settled s) :
    Ends ((d.imposed id s).pass changed) ⟨s.allot d.rectangles.length, []⟩ (fun _ _ => False)
      fun _ _ => True := by
  have hi := (List.getElem?_eq_some_iff.1 ha).1
  have htouched : a.touches changed = true := by
    obtain ⟨x, hx⟩ := List.exists_mem_of_ne_nil _ a.sides_ne_nil
    have hv : x.origin ∈ a.vars := List.mem_append_left _ (List.mem_map.2 ⟨x, hx, rfl⟩)
    exact List.any_eq_true.2 ⟨x.origin, hv, by
      simpa using hchanged _ (d.mem_scope (List.mem_of_getElem? ha) hv)⟩
  have hready : (d.imposed id s).Ready (s.allot d.rectangles.length) := fun k hk =>
    ⟨_, d.get_imposed id s hk, .refl _⟩
  -- up to its turn, the rectangle is as it was, and so are its candidates
  refine (ends_pass (E := fun _ _ => True) (I := fun k q => k ≤ i ∧ s.Drifts q.store ∧ s.KeepsFixed q.store ∧
      (d.imposed id s).candidates.get q.store i = .ok (Candidates.others d.rectangles.length i)) hready
    (fun q hq => ?_) fun k hk' q hI => ?_).mono (fun _ q hI => ?_) fun _ _ _ => trivial
  · rw [hq]
    exact ⟨Nat.zero_le _, .of_cells rfl rfl, ⟨rfl, fun _ _ hc _ => hc⟩, d.get_imposed id s hi⟩
  · obtain ⟨hki, hdrifts, hkeeps, hget⟩ := hI
    rcases Nat.lt_or_eq_of_le hki with hlt | rfl
    · refine (((d.imposed id s).ends_visited changed k q).and
        ((d.imposed id s).ends_keepsFixed changed k q)).mono (fun _ q' hq' => ?_) fun _ _ _ => trivial
      refine ⟨hlt, hdrifts.trans hq'.1.drifts, hkeeps.trans hq'.2, ?_⟩
      -- the visit at position `k` writes another slot
      exact (hq'.1.get_eq (d.nodup_imposed id s) (Nat.ne_of_gt hlt)).trans hget
    · have hknown : ∀ r ∈ d.rectangles, r.Known q.store := fun r hr => hdrifts.shrinks.known (hk r hr)
      exact (ends_narrowRectangle_overlap (d := d.imposed id s) ha hb hij hknown hget
        (hpa.keepsFixed hkeeps) (hpb.keepsFixed hkeeps) hover (hpa.not_settled hkeeps hset) htouched).mono
        (fun _ _ h => h.elim) fun _ _ h => h
  · exact absurd hI.1 (Nat.not_le.2 hi)

/-- **A pass rejects overlaps of placed rectangles that are not both settled.** At every level and in
either mode, in whatever order it sorts the steps of one place, a constraint that was just imposed and
is told of all variables of its scope does not narrow the store well if two of its rectangles are
placed and overlap, and one of them was placed at the current level, or the level is the root. -/
theorem narrow_rejects_overlap (d : Disjoint) (id : ConstraintId) (s : Store w)
    (hk : ∀ r ∈ d.rectangles, r.Known s) {changed : List Var} (hchanged : ∀ v ∈ d.scope, v ∈ changed)
    (ha : d.rectangles[i]? = some a) (hb : d.rectangles[j]? = some b) (hij : i ≠ j)
    (hpa : a.Placed s α) (hpb : b.Placed s α) (hover : a.Overlaps b α)
    (hset : ¬ (a.Settled s ∧ b.Settled s)) :
    ((d.impose id s).1.narrow changed (d.impose id s).2.1).outcome ≠ .ok () := by
  rw [impose_eq]
  intro hok
  by_cases hsa : a.Settled s
  · have hsb : ¬ b.Settled s := fun hsb => hset ⟨hsa, hsb⟩
    exact (narrow_of_ends (Q := fun _ => False) (E := fun _ _ => True)
      (d.ends_pass_overlap id s hk hchanged hb ha hij.symm hpb hpa hover.symm hsb)).1 hok
  · exact (narrow_of_ends (Q := fun _ => False) (E := fun _ _ => True)
      (d.ends_pass_overlap id s hk hchanged ha hb hij hpa hpb hover hsa)).1 hok

/-- Two squares, whose four sides have one length. -/
def squarePair : Disjoint where
  id := none
  rectangles := [⟨[⟨⟨1⟩, ⟨0⟩⟩, ⟨⟨2⟩, ⟨0⟩⟩], List.cons_ne_nil _ _⟩, ⟨[⟨⟨3⟩, ⟨0⟩⟩, ⟨⟨4⟩, ⟨0⟩⟩], List.cons_ne_nil _ _⟩]
  mode := .profile (.stable _)
  candidates := .empty
  statistics := .zero
  uniform := by decide

/-- The side 2 of the squares and their places: one at the origin, one at (1, 1). -/
def pairPlaces : Var → Int := fun v => [2, 0, 0, 1, 1].getD v.val 0

/-- The store at the root in which the first `count` of the variables have their values. -/
def pairStore (count : Nat) : Store .w8 :=
  .ofBounds ([(2, 2), (0, 0), (0, 0), (1, 1), (1, 1)].take count)

/-- The two squares share the point (1, 1). -/
theorem squarePair_overlaps {a b : Rectangle} (ha : squarePair.rectangles[0]? = some a)
    (hb : squarePair.rectangles[1]? = some b) : a.Overlaps b pairPlaces := by
  cases ha
  cases hb
  exact ⟨by decide, by decide, .cons ⟨1, by decide, by decide⟩ (.cons ⟨1, by decide, by decide⟩ .nil)⟩

/-- The last origin of the second square gets its value at level 1, all others at the root: the overlap
is rejected. -/
theorem narrow_rejects_overlap_squares :
    let s := ((pairStore 4).pushLevel.newVar (.single 1 (by decide))).2
    s.level = 1 ∧ (∀ r ∈ squarePair.rectangles, r.Placed s pairPlaces) ∧
      ((squarePair.impose ⟨0⟩ s).1.narrow squarePair.scope (squarePair.impose ⟨0⟩ s).2.1).outcome ≠ .ok () := by
  intro s
  have hplaced : ∀ r ∈ squarePair.rectangles, r.Placed s pairPlaces := by decide +kernel
  refine ⟨rfl, hplaced, ?_⟩
  refine narrow_rejects_overlap (i := 0) (j := 1) squarePair ⟨0⟩ s (by decide +kernel) (fun _ h => h) rfl rfl
    (by decide) (hplaced _ (by decide)) (hplaced _ (by decide)) (squarePair_overlaps rfl rfl) ?_
  rintro ⟨-, hset⟩
  have hstamp := (hset ⟨4⟩ (by decide) _ rfl).2
  exact absurd hstamp (by decide +kernel)

/-- **An overlap of settled rectangles is passed over**, also by a constraint that was imposed after both
were placed: at level 1, with all variables said to have changed, the narrowing ends well. At the
root it does not. -/
theorem narrow_passes_settled_overlap :
    let s := pairStore 5
    (∀ r ∈ squarePair.rectangles, r.Placed s.pushLevel pairPlaces) ∧
      (∀ a b, squarePair.rectangles[0]? = some a → squarePair.rectangles[1]? = some b →
        a.Overlaps b pairPlaces) ∧
      ((squarePair.impose ⟨0⟩ s.pushLevel).1.narrow squarePair.scope
        (squarePair.impose ⟨0⟩ s.pushLevel).2.1).outcome = .ok () ∧
      ((squarePair.impose ⟨0⟩ s).1.narrow squarePair.scope (squarePair.impose ⟨0⟩ s).2.1).outcome =
        .error (.refuted (.violated .commonArea)) := by
  intro s
  exact ⟨by decide +kernel, fun _ _ ha hb => squarePair_overlaps ha hb, by decide +kernel, by decide +kernel⟩

end Disjoint
end Placement
