/-
# How a propagation can fail

A propagation of properly posted constraints (`Engine.Proper`) reads only variables, slots and
positions that exist, so it is never misused: if it does not end well, the store was refuted, or the
height of a profile, summed in the order of its constraint's sorter, has left the width
(`Failure.Expected`). No solution is needed for this, and no
frame: it holds of every store.
-/

import Placement.Proofs.Barriers

namespace Placement

open Neighborhood

variable {w : Width}

/-- The store was refuted, or the height of a profile left the width. -/
def Failure.Expected (e : Failure Inconsistency) : Prop := (∃ c, e = .refuted c) ∨ e = .fault .addOverflow

/-! ## What can be refuted -/

/-- An analysis that does not end well refutes. -/
theorem Neighborhood.analyze_refutes {s : Store w} {rectangles : List Rectangle} {k : Nat} {r : Rectangle}
    (hu : Uniform rectangles s) (hr : rectangles[k]? = some r) {cs : List Nat}
    (hcs : ∀ j ∈ cs, j < rectangles.length ∧ j ≠ k) {changed : List Var} {e : Failure Violation}
    (h : analyze s rectangles k cs changed = .error e) : ∃ v, e = .refuted v := by
  rcases analyze_error hu hr hcs h with ⟨ms, -, he⟩ | ⟨-, he⟩
  · unfold Tally.checkCommonArea at he
    split at he
    · exact ⟨_, (Except.error.inj he).symm⟩
    · cases he
  · exact Tally.checkEnvelope_refutes he

/-- Narrowing a variable that exists refutes if it does not end well. -/
theorem Store.setBounds_refutes {s : Store w} {v : Var} (hv : v.val < s.cells.length) {lo hi : Int}
    {e : Failure Inconsistency} (h : s.setBounds v lo hi = .error e) : ∃ c, e = .refuted c := by
  unfold setBounds at h
  rw [cell_eq_ok.2 (List.getElem?_eq_getElem hv), liftM_ok_bind] at h
  split at h
  · exact ⟨_, (Except.error.inj h).symm⟩
  · split at h <;> cases h

/-! ## What can be computed -/

namespace Region

variable {s : Store w} {r q : Rectangle}

/-- The points that the focus covers for certain along other dimensions can be computed. -/
theorem sharedPoints_ok (hk : r.Known s) {dims : List Nat} (hdims : ∀ d ∈ dims, d < r.dim) :
    ∃ points?, sharedPoints s r dims = .ok points? ∧
      ∀ points, points? = some points → ∀ kp ∈ points, kp.1 < r.dim := by
  induction dims with
  | nil =>
    refine ⟨some [], rfl, fun points he => ?_⟩
    cases he
    exact List.forall_mem_nil _
  | cons d dims ih =>
    obtain ⟨hd, hdims⟩ := List.forall_mem_cons.1 hdims
    obtain ⟨rest?, hrest, hlt⟩ := ih hdims
    obtain ⟨e, he⟩ : ∃ e, (r.view s)[d]? = some e := ⟨_, List.getElem?_eq_getElem (by rwa [r.length_view])⟩
    unfold sharedPoints
    rw [hk.extent_eq he, ok_bind]
    cases e.mandatory? with
    | none => exact ⟨none, rfl, fun points he => by cases he⟩
    | some part =>
      dsimp only
      split
      · rw [hrest, ok_bind]
        refine ⟨_, rfl, fun points hpoints => ?_⟩
        obtain ⟨rest, rfl, rfl⟩ := Option.map_eq_some_iff.1 hpoints
        exact List.forall_mem_cons.2 ⟨hd, hlt rest rfl⟩
      · exact ⟨none, rfl, fun points he => by cases he⟩

/-- Whether a rectangle covers points of its dimensions can be computed. -/
theorem covers_ok (hk : q.Known s) {points : List (Nat × Int)} (hpoints : ∀ kp ∈ points, kp.1 < q.dim) :
    ∃ b, covers s q points = .ok b := by
  refine (allM_ok fun kp hkp => ?_).imp fun _ h => h.1
  have hlt : kp.1 < (q.view s).length := by
    rw [q.length_view]
    exact hpoints kp hkp
  obtain ⟨k, p⟩ := kp
  dsimp only
  rw [hk.mandatory?_eq (List.getElem?_eq_getElem hlt), ok_bind]
  split
  · exact ⟨_, rfl⟩
  · exact ⟨_, rfl⟩

/-- The length of a common part is a value of the width. -/
theorem holds_overlap (a b : Span) : w.Holds (a.overlap w b) := by
  unfold Span.overlap
  split
  · exact w.holds_clamp _
  · exact w.holds_zero

/-- What a neighbour adds to a profile can be computed, and is positive. -/
theorem contribution?_ok (hk : q.Known s) {i j : Nat} (hi : i < q.dim) (hj : j < q.dim) (sweep reach : Span)
    {points : List (Nat × Int)} (hpoints : ∀ kp ∈ points, kp.1 < q.dim) :
    ∃ c?, contribution? s q i j sweep reach points = .ok c? ∧
      ∀ c ∈ c?, 0 < c.height ∧ w.Holds c.height := by
  obtain ⟨b, hb⟩ := covers_ok hk hpoints
  unfold contribution?
  rw [hk.mandatory?_eq (List.getElem?_eq_getElem (by rwa [q.length_view])), ok_bind]
  split
  · exact ⟨none, rfl, nofun⟩
  · rw [hk.mandatory?_eq (List.getElem?_eq_getElem (by rwa [q.length_view])), ok_bind]
    split
    · exact ⟨none, rfl, nofun⟩
    · rw [hb, ok_bind]
      split
      · next hpos =>
        refine ⟨_, rfl, fun c hc => ?_⟩
        cases hc
        exact ⟨hpos.1, holds_overlap _ _⟩
      · exact ⟨none, rfl, nofun⟩

/-- What the candidates add to a profile can be computed, and is positive. -/
theorem contributions_ok {rectangles : List Rectangle} {i j : Nat} (hi : i < r.dim) (hj : j < r.dim)
    (sweep reach : Span) {points : List (Nat × Int)} (hpoints : ∀ kp ∈ points, kp.1 < r.dim) {ks : List Nat}
    (hks : Readable s rectangles r ks) :
    ∃ cs, contributions s rectangles i j sweep reach points ks = .ok cs ∧
      ∀ c ∈ cs, 0 < c.height ∧ w.Holds c.height := by
  induction ks with
  | nil => exact ⟨[], rfl, nofun⟩
  | cons n ks ih =>
    obtain ⟨⟨q, hq, hk, hdim⟩, hks⟩ := List.forall_mem_cons.1 hks
    obtain ⟨cs, hcs, hheights⟩ := ih hks
    rw [← hdim] at hi hj hpoints
    obtain ⟨c?, hc, hheight⟩ := contribution?_ok hk hi hj sweep reach hpoints
    unfold contributions
    rw [entry_eq_ok.2 hq, ok_bind, hc, ok_bind, hcs, ok_bind]
    refine ⟨_, rfl, fun c hmem => ?_⟩
    rcases List.mem_append.1 hmem with hmem | hmem
    · exact hheight c (Option.mem_toList.1 hmem)
    · exact hheights c hmem

/-- **A region of full profiles can be computed**, unless the height of the contributions leaves the
width. -/
theorem ofProfile_ok {rectangles : List Rectangle} {k : Nat} (hr : rectangles[k]? = some r) (hknown : r.Known s)
    {i j : Nat} (hi : i < r.dim) (hj : j < r.dim) (hij : i ≠ j) {ks : List Nat}
    (hks : Readable s rectangles r ks) (sorter : Sorter Step.place) :
    (ofProfile s rectangles k i j ks sorter = .error .addOverflow ∧
        ∃ sweep reach points cs, contributions s rectangles i j sweep reach points ks = .ok cs ∧
          (∀ c ∈ cs, 0 < c.height ∧ w.Holds c.height) ∧ Profile.build w cs sorter = .error .addOverflow) ∨
      ∃ regions, ofProfile s rectangles k i j ks sorter = .ok regions := by
  obtain ⟨d, hd⟩ : ∃ d, (r.view s)[i]? = some d := ⟨_, List.getElem?_eq_getElem (by rwa [r.length_view])⟩
  obtain ⟨e, he⟩ : ∃ e, (r.view s)[j]? = some e := ⟨_, List.getElem?_eq_getElem (by rwa [r.length_view])⟩
  obtain ⟨points?, hshared, hlt⟩ := sharedPoints_ok hknown
    fun d (hd : d ∈ otherDims r [i, j]) => (mem_otherDims.1 hd).1
  unfold ofProfile
  rw [if_neg hij, entry_eq_ok.2 hr, ok_bind, hknown.extent_eq hd, ok_bind]
  cases Span.make? d.origin.lo d.latestStop with
  | none => exact .inr ⟨[], rfl⟩
  | some sweep =>
    dsimp only
    rw [hknown.extent_eq he, ok_bind, e.reach_eq, ok_bind, hshared, ok_bind]
    cases points? with
    | none => exact .inr ⟨[], rfl⟩
    | some points =>
      obtain ⟨cs, hcs, hheights⟩ := contributions_ok hi hj sweep e.span (hlt points rfl) hks
      dsimp only
      rw [hcs, ok_bind]
      rcases Profile.build_spec (Profile.holds_falls hheights) sorter with ⟨hb, -⟩ | ⟨profile, hb, -⟩
      · exact .inl ⟨by rw [hb]; rfl, sweep, e.span, points, cs, hcs, hheights, hb⟩
      · exact .inr ⟨_, by rw [hb]; rfl⟩

end Region

/-! ## Tightening -/

namespace Tighten

variable {s : Store w} {rectangles : List Rectangle} {k : Nat} {r : Rectangle}

/-- The region can be computed in the store, unless a height leaves the width. -/
def Computes (f : Store w → Except Fault (List Span)) (t : Store w) : Prop :=
  f t = .error .addOverflow ∨ ∃ regions, f t = .ok regions

/-- The candidates for profiles are some of the candidates. -/
theorem profiled_sublist (s : Store w) (rectangles : List Rectangle) (changed : List Var) (es : List (Extent w))
    (cs : List Nat) : (ofNeighbors (seen s rectangles changed es cs)).profiled.Sublist cs :=
  (List.filter_sublist.map _).trans (index_seen_sublist ..)

section Regions

variable (hk : r.Known s) {found : Neighborhood} (hused : ∀ u ∈ found.used, u.boxes.length = r.dim)

include hk hused

/-- A region that a rectangle is tightened against is computed without fail in every later store, or it
is one of full profiles. -/
theorem computed_or_profiled {mode : Mode} {i : Nat} (hi : i < r.dim) {f : Store w → Except Fault (List Span)}
    (hf : f ∈ regions rectangles k r found mode i) :
    (∀ t, s.Shrinks t → ∃ regions, f t = .ok regions) ∨ ∃ sorter, mode = .profile sorter ∧
      ∃ j < r.dim, i ≠ j ∧ f = fun t => Region.ofProfile t rectangles k i j found.profiled sorter := by
  rcases mem_regions.1 hf with rfl | ⟨sorter, hmode, -, j, hj, rfl⟩
  · refine .inl fun t ht => ?_
    obtain ⟨regions, hok, -⟩ := Region.ofUsed_iff (ht.known hk) hi hused
    exact ⟨regions, hok⟩
  · obtain ⟨hj, hji⟩ := mem_otherDims.1 hj
    exact .inr ⟨sorter, hmode, j, hj, by rintro rfl; simp at hji, rfl⟩

/-- Every region that a rectangle is tightened against can be computed, in every later store. -/
theorem computes_regions (hr : rectangles[k]? = some r) (hprofiled : Readable s rectangles r found.profiled)
    (mode : Mode) {i : Nat} (hi : i < r.dim) :
    ∀ f ∈ regions rectangles k r found mode i, ∀ t : Store w, s.Shrinks t → Computes f t := by
  intro f hf t ht
  rcases computed_or_profiled hk hused hi hf with hok | ⟨sorter, -, j, hj, hij, rfl⟩
  · exact .inr (hok t ht)
  · exact (Region.ofProfile_ok hr (ht.known hk) hi hj hij (hprofiled.shrinks ht) sorter).imp_left And.left

end Regions

/-- Tightening an origin can fail only by refuting the store, and as the computation of a region does. -/
theorem ends_originAgainst {E : Failure Inconsistency → Prop} (hE : ∀ c, E (.refuted c)) {v : Var}
    (hv : v.val < s.cells.length) (length : Int) {fs : List (Store w → Except Fault (List Span))}
    (hfs : ∀ f ∈ fs, ∀ t, s.Shrinks t → ∀ c, f t = .error c → E (.fault c)) {p : Pass w} (hp : s.Shrinks p.store) :
    Ends (originAgainst v length fs) p (fun _ q => s.Shrinks q.store) fun e _ => E e := by
  induction fs generalizing p with
  | nil => exact hp
  | cons f fs ih =>
    obtain ⟨hf, hfs⟩ := List.forall_mem_cons.1 hfs
    have hv' : v.val < p.store.cells.length := Nat.lt_of_lt_of_le hv hp.length_le
    refine ends_originAgainst_cons (fun regions hok => ?_) fun c hc => hf p.store hp c hc
    refine ends_origin hv' (fun _ _ => ih hfs hp) (fun _ _ n b t events hset => ?_) fun _ _ e events he => ?_
    · exact ih hfs (p := ⟨t, events⟩) (hp.trans (Store.shrinks_setBounds hset))
    · obtain ⟨c, rfl⟩ := Store.setBounds_refutes hv' he
      exact hE c

/-- Tightening a rectangle can fail only by refuting the store, and as the computation of a region
does. -/
theorem ends_dimensions {E : Failure Inconsistency → Prop} (hE : ∀ c, E (.refuted c)) (hk : r.Known s)
    {found : Neighborhood} {mode : Mode} {is : List Nat}
    (his : ∀ i ∈ is, i < r.dim ∧ ∀ f ∈ regions rectangles k r found mode i, ∀ t : Store w, s.Shrinks t →
      ∀ c, f t = .error c → E (.fault c)) {p : Pass w} (hp : s.Shrinks p.store) :
    Ends (dimensions rectangles k r found mode is) p (fun _ q => s.Shrinks q.store) fun e _ => E e := by
  induction is generalizing p with
  | nil => exact hp
  | cons i is ih =>
    obtain ⟨⟨hi, hfs⟩, his⟩ := List.forall_mem_cons.1 his
    have hx : r.sides[i]? = some (r.sides.get ⟨i, hi⟩) := List.getElem?_eq_getElem hi
    refine ends_dimensions_cons (hp.known hk) hx (fun _ => ih his hp) fun _ => ?_
    exact (ends_originAgainst hE (hk.origin (List.mem_of_getElem? hx)) _ hfs hp).mono
      (fun _ q hq => ih his hq) fun _ _ he => he

end Tighten

/-! ## Passes and rounds -/

/-- **A pass can fail only by refuting the store, and as the computation of a region does** that a
rectangle is tightened against: one of the regions of some later store, computed from candidates
that are some of the other rectangles. -/
theorem Disjoint.narrow_fails {d : Disjoint} {s : Store w} (hk : ∀ q ∈ d.rectangles, q.Known s)
    (hready : ∀ t, d.Steps s t → d.Ready t) (changed : List Var) {E : Failure Inconsistency → Prop}
    (hE : ∀ c, E (.refuted c))
    (hregions : ∀ k r u cs, d.rectangles[k]? = some r → s.Shrinks u →
      cs.Sublist (Candidates.others d.rectangles.length k) → ∀ i < r.dim,
      ∀ f ∈ Tighten.regions d.rectangles k r (ofNeighbors (seen u d.rectangles changed (r.view u) cs)) d.mode i,
      ∀ t, u.Shrinks t → ∀ c, f t = .error c → E (.fault c)) {e : Failure Inconsistency}
    (he : (d.narrow changed s).outcome = .error e) : E e := by
  refine (narrow_of_ends (Q := fun _ => True) (E := fun e _ => E e) ?_).2 e he
  refine (ends_pass (I := fun _ q => s.Shrinks q.store ∧ d.Steps s q.store) (hready s .refl)
    (fun q hq => ?_) fun k hlt q hq => ?_).mono (fun _ _ _ => trivial) fun _ _ he => he
  · rw [hq]
    exact ⟨.refl _, .refl⟩
  · obtain ⟨hshrinks, hsteps⟩ := hq
    have hr := List.getElem?_eq_getElem hlt
    have hu : Uniform d.rectangles q.store := ⟨fun x hx => hshrinks.known (hk x hx), d.uniform⟩
    have hknown := hu.known _ (List.getElem_mem hlt)
    obtain ⟨cs, hget, hsub⟩ := hready _ hsteps k hlt
    have hcs : ∀ j ∈ cs, j < d.rectangles.length ∧ j ≠ k := fun j hj => Candidates.mem_others.1 (hsub.subset hj)
    have visit : Ends (d.narrowRectangle changed k) q (fun _ q' => s.Shrinks q'.store) fun e _ => E e := by
      refine ends_narrowRectangle hr hknown (fun _ q' hq' => hq' ▸ hshrinks) fun _ _ => ?_
      refine ends_revise hget (fun found ha => ⟨fun _ q' hq' => hq' ▸ hshrinks, fun _ q' hq' => ?_⟩)
        fun e ha e' q' he' _ => ?_
      · obtain rfl := analyze_ok hu hr hcs ha
        have hwrite : q.store.Shrinks q'.store := by
          rcases hq' with ⟨-, hq'⟩ | ⟨-, hq'⟩
          · rw [hq']
            exact .refl _
          · obtain ⟨_, x, -, -, -, hset⟩ := Candidates.replace_eq_ok hq'
            exact (Store.Write.slot hset).shrinks
        refine ends_tighten hr ((Tighten.ends_dimensions hE hknown (fun i hi => ⟨List.mem_range.1 hi, ?_⟩) hwrite).mono
          (fun _ q₁ hq₁ q₂ hq₂ => ?_) fun _ _ he _ _ => he)
        · exact hregions k _ q.store cs hr hshrinks hsub i (List.mem_range.1 hi)
        · rw [hq₂]
          exact hshrinks.trans hq₁
      · obtain ⟨v, rfl⟩ := analyze_refutes hu hr hcs ha
        rcases he' with ⟨c, hc, -⟩ | ⟨v', -, rfl⟩
        · cases hc
        · exact hE _
    exact (visit.and (d.steps_narrowRectangle changed k q)).mono (fun _ _ h => ⟨h.1, hsteps.trans h.2⟩)
      fun _ _ h => h.1

/-- **A pass that does not end well has refuted the store**, or the height of a profile left the width. -/
theorem Disjoint.narrow_expected {d : Disjoint} {s : Store w} (hk : ∀ q ∈ d.rectangles, q.Known s)
    (hready : ∀ t, d.Steps s t → d.Ready t) (changed : List Var) {e : Failure Inconsistency}
    (he : (d.narrow changed s).outcome = .error e) : e.Expected := by
  refine narrow_fails hk hready changed (fun c => .inl ⟨c, rfl⟩) (fun k r u cs hr hu hsub i hi f hf t ht c hc => ?_) he
  have hcs : ∀ j ∈ cs, j < d.rectangles.length := fun j hj => (Candidates.mem_others.1 (hsub.subset hj)).1
  have huniform : Uniform d.rectangles u := ⟨fun x hx => hu.known (hk x hx), d.uniform⟩
  have hmem := List.mem_of_getElem? hr
  have hprofiled := huniform.readable hmem fun j hj =>
    hcs j ((Tighten.profiled_sublist u d.rectangles changed (r.view u) cs).subset hj)
  rcases Tighten.computes_regions (huniform.known r hmem) (length_boxes_seen d.uniform hmem) hr hprofiled d.mode hi
    f hf t ht with hover | ⟨regions, hok⟩
  · cases hc.symm.trans hover
    exact .inr rfl
  · cases hc.symm.trans hok

end Placement
