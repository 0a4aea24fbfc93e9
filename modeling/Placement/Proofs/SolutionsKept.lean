/-
# Propagation never loses a solution

A solution is an assignment of the variables, within their domains, under which no two rectangles
of a posted constraint overlap (`Session.Solves`). If along every dimension all positions that a
constraint's rectangles can take lie in a frame of the width (`Disjoint.Framed`), every deduction
of a pass is sound for it: no analysis refutes (`Scene.analyze`), and tightening leaves the
solution in the domains (`Disjoint.tighten_keeps`). So a whole pass, a round and a propagation
keep it. The rounds end by themselves, since a variable that is pending has lost a value.

What may still happen is that the height of a profile leaves the width, which is a fault and
no refutation.
-/

import Placement.Proofs.Envelope
import Placement.Proofs.Progress
import Placement.Proofs.Tightening
import Placement.Proofs.Visits

namespace Placement

open Neighborhood

variable {w : Width} {α : Var → Int}

/-! ## One pass -/

/-- What an analysis finds among candidates that are a choice of the others holds of the placed
rectangles. -/
theorem Scene.found_true {s : Store w} {rectangles : List Rectangle} {frames : Box}
    (h : Scene α s rectangles frames) {k : Nat} {cs : List Nat}
    (hcs : cs.Sublist (Candidates.others rectangles.length k)) (changed : List Var) (es : List (Extent w)) :
    (ofNeighbors (seen s rectangles changed es cs)).True α rectangles k := by
  have hsub : (ofNeighbors (seen s rectangles changed es cs)).profiled.Sublist
      (Candidates.others rectangles.length k) :=
    ((List.filter_sublist.map _).trans (index_seen_sublist ..)).trans hcs
  refine ⟨h.taken_of_seen fun hk => ?_, ?_, fun n hn => Candidates.mem_others.1 (hsub.subset hn)⟩
  · exact (Candidates.mem_others.1 (hcs.subset hk)).2 rfl
  · exact ((Candidates.pairwise_others _ _).sublist hsub).imp Nat.ne_of_lt

namespace Disjoint

variable {d : Disjoint} {s : Store w} {frames : Box} {changed : List Var} {k : Nat} {r : Rectangle}

/-- Analysing a rectangle, replacing its candidates and tightening it keeps the solution. -/
theorem revise_keeps (h : Scene α s d.rectangles frames) (hready : d.Ready s)
    (hr : d.rectangles[k]? = some r) (hnn : r.Nonneg s) {p : Pass w} (hp : p.store = s) :
    Ends (d.revise changed k r) p (fun _ q => s.Tightens α q.store) fun e _ => e = .fault .addOverflow := by
  subst hp
  obtain ⟨cs, hget, hcs⟩ := hready k (List.getElem?_eq_some_iff.1 hr).1
  have hothers : ∀ j ∈ cs, j < d.rectangles.length ∧ j ≠ k := fun j hj =>
    Candidates.mem_others.1 (hcs.subset hj)
  have hnodup : cs.Nodup := ((Candidates.pairwise_others _ _).sublist hcs).imp Nat.ne_of_lt
  have ha := h.analyze hr hnn hnodup hothers changed
  refine ends_revise hget (fun found hfound => ⟨fun _ q hq => ?_, fun _ q hq => ?_⟩) fun e he => ?_
  · rw [hq]
    exact .refl h.admits
  · rw [ha] at hfound
    cases hfound
    refine tighten_keeps h hr (h.found_true hcs changed _) ?_
    rcases hq with ⟨-, hq⟩ | ⟨-, hq⟩
    · rw [hq]
      exact .refl h.admits
    · obtain ⟨_, x, -, -, -, hset⟩ := Candidates.replace_eq_ok hq
      refine ⟨(Store.Write.slot hset).shrinks, ?_⟩
      obtain ⟨a, -, hstore⟩ := Store.setSnapshot_eq_ok.1 hset
      rw [hstore]
      exact h.admits
  · rw [ha] at he
    cases he

/-- **A pass keeps the solution**, unless the height of a profile leaves the width. -/
theorem narrow_keeps (h : Scene α s d.rectangles frames) (hready : ∀ t, d.Steps s t → d.Ready t)
    (changed : List Var) :
    ((d.narrow changed s).outcome = .ok () → s.Tightens α (d.narrow changed s).store) ∧
      ∀ e, (d.narrow changed s).outcome = .error e → e = .fault .addOverflow := by
  refine narrow_of_ends (Q := s.Tightens α) (E := fun e _ => e = .fault .addOverflow) ?_
  refine (ends_pass (I := fun _ q => s.Tightens α q.store ∧ d.Steps s q.store) (hready s .refl)
    (fun q hq => ?_) fun k hk q hq => ?_).mono (fun _ _ hq => hq.1) fun _ _ he => he
  · rw [hq]
    exact ⟨.refl h.admits, .refl⟩
  · obtain ⟨htight, hsteps⟩ := hq
    have hr := List.getElem?_eq_getElem hk
    have hscene := h.shrinks htight.shrinks htight.admits
    have visit : Ends (d.narrowRectangle changed k) q (fun _ q' => s.Tightens α q'.store)
        fun e _ => e = .fault .addOverflow := by
      refine ends_narrowRectangle hr (hscene.uniform.known _ (List.getElem_mem hk))
        (fun _ q' hq' => hq' ▸ htight) fun hnn _ => ?_
      exact (revise_keeps hscene (hready _ hsteps) hr hnn rfl).mono (fun _ _ h => htight.trans h)
        fun _ _ he => he
    exact (visit.and (d.steps_narrowRectangle changed k q)).mono
      (fun _ _ h => ⟨h.1, hsteps.trans h.2⟩) fun _ _ h => h.1

end Disjoint

/-! ## A propagation -/

namespace Engine

/-- Every posted constraint looks at a scene. -/
structure Solvable (α : Var → Int) (g : Engine w Disjoint) : Prop where
  proper : g.Proper
  scene : ∀ p ∈ g.posted, ∃ frames, Scene α g.store p.propagator.rectangles frames

variable {g g' : Engine w Disjoint}

/-- An engine that tightens stays solvable. -/
theorem Solvable.evolves (h : g.Solvable α) (hg : g.Evolves g') (ht : g.store.Tightens α g'.store) :
    g'.Solvable α := by
  refine ⟨h.proper.evolves hg, fun p hp => ?_⟩
  obtain ⟨i, hi⟩ := List.getElem?_of_mem hp
  obtain ⟨q, hq, he⟩ := posted_of_bare hg.posted_eq hi
  obtain ⟨frames, hf⟩ := h.scene q (List.mem_of_getElem? hq)
  have hrect : p.bare.propagator.rectangles = q.bare.propagator.rectangles := by rw [he]
  refine ⟨frames, ?_⟩
  rw [show p.propagator.rectangles = q.propagator.rectangles from hrect]
  exact hf.shrinks ht.shrinks ht.admits

/-- Narrowing a posted constraint keeps the solution. -/
theorem Solvable.narrow (h : g.Solvable α) {p : Posted Disjoint} (hp : p ∈ g.posted) (changed : List Var) :
    ((p.propagator.narrow changed g.store).outcome = .ok () →
      g.store.Tightens α (p.propagator.narrow changed g.store).store) ∧
      ∀ e, (p.propagator.narrow changed g.store).outcome = .error e → e = .fault .addOverflow := by
  obtain ⟨frames, hf⟩ := h.scene p hp
  exact Disjoint.narrow_keeps hf (fun t ht => h.proper.ready hp ht) changed

/-- **A propagation keeps the solution**, unless the height of a profile leaves the width. -/
theorem Solvable.propagate (h : g.Solvable α) (hadmits : g.store.Admits α) :
    Ends propagate g (fun _ g' => g.store.Tightens α g'.store) fun e _ => e = .fault .addOverflow := by
  -- a round is only entered while there is a value to lose for every round that is left
  let I := fun (n : Nat) (g' : Engine w Disjoint) => (g.Evolves g' ∧ g.store.Tightens α g'.store) ∧
    (g'.store.hasChanges = true → g'.store.slack + 1 ≤ n)
  refine ends_propagate fun g₁ hs hp => ?_
  have h₁ : I (g.store.slack + 1) g₁ := by
    refine ⟨⟨.refl hs hp, ?_⟩, fun _ => ?_⟩
    · rw [hs]
      exact .refl hadmits
    · rw [hs]
  refine (ends_rounds (I := I) (fun n g₂ h₂ hc => ?_) (fun g₂ h₂ hc => ?_) h₁).mono
    (fun _ _ hg => hg.1.choose_spec.1.2) fun _ _ he => he
  · obtain ⟨⟨hev, ht⟩, hslack⟩ := h₂
    refine ends_round fun g₃ hs hp => ?_
    have hstart : (g.Evolves g₃ ∧ g.store.Tightens α g₃.store) ∧ g₃.store.Progress g₃.store := by
      refine ⟨⟨hev.trans ⟨hs ▸ .single (.clear _), by rw [hp]⟩, ?_⟩, .refl _⟩
      have hclear := (Store.Write.clear g₂.store).shrinks
      rw [hs]
      exact ht.trans ⟨hclear, ht.admits.clearPending⟩
    refine (Ends.forM_range (I := fun _ g' => (g.Evolves g' ∧ g.store.Tightens α g'.store) ∧
      g₃.store.Progress g'.store) hstart fun k _ g₄ h₄ => ?_).mono (fun _ g₄ h₄ => ⟨h₄.1, fun hc₄ => ?_⟩)
      fun _ _ he => he
    · obtain ⟨⟨hev₄, ht₄⟩, hpr⟩ := h₄
      refine ends_wake (fun _ => ⟨⟨hev₄, ht₄⟩, hpr⟩) fun p hp₄ _ g₅ hs₅ hg₅ => ?_
      obtain ⟨ok, error⟩ := (h.evolves hev₄ ht₄).narrow (List.mem_of_getElem? hp₄) g₂.store.changed
      refine ⟨fun ho => ⟨⟨hev₄.trans (.narrow hp₄ hs₅ hg₅), ?_⟩, ?_⟩, error⟩
      · rw [hs₅]
        exact ht₄.trans (ok ho)
      · rw [hs₅]
        exact hpr.trans (Disjoint.narrow_steps _ _ _).progress
    · have hlt := h₄.2.pending hc₄
      have hsl := hslack hc
      rw [hs, Store.hasChanges_clearPending, Store.slack_clearPending] at hlt
      rcases hlt with hlt | hlt
      · cases hlt
      · omega
  · have := h₂.2 hc
    omega

end Engine

/-! ## Solutions of a session -/

/-- Along every dimension there are two values of the width, whose difference is one too, between
which every rectangle of the constraint lies wherever its domains place it. -/
def Disjoint.Framed (d : Disjoint) (s : Store w) : Prop :=
  ∀ i : Nat, ∃ a b : Int, w.Holds a ∧ w.Holds b ∧ w.Holds (b - a) ∧
    ∀ r ∈ d.rectangles, ∀ x, r.sides[i]? = some x → ∀ origin length,
      s.domain x.origin = .ok origin → s.domain x.length = .ok length →
        a ≤ origin.lo ∧ origin.hi + max 0 length.hi ≤ b

namespace Session

variable {s : Session w}

/-- Every variable has a value of its domain, and no two rectangles of a posted constraint overlap. -/
structure Solves (α : Var → Int) (s : Session w) : Prop where
  mem_domain : ∀ v d, s.store.domain v = .ok d → α v ∈ d
  not_overlaps : ∀ p ∈ s.engine.posted, ∀ (i j : Nat) (a b : Rectangle), i ≠ j →
    p.propagator.rectangles[i]? = some a → p.propagator.rectangles[j]? = some b → ¬ a.Overlaps b α

/-- The store of a session admits its solutions. -/
theorem Solves.admits (h : Solves α s) : s.store.Admits α := fun v hv =>
  h.mem_domain v _ (Store.domain_eq hv)

/-- A posted constraint whose rectangles lie in frames looks at a scene. -/
theorem Solves.scene (hs : s.Reached OwnSlots) (h : Solves α s)
    {p : Posted Disjoint} (hp : p ∈ s.engine.posted) (hframed : p.propagator.Framed s.store) :
    ∃ frames, Scene α s.store p.propagator.rectangles frames := by
  obtain ⟨n, hn⟩ := List.getElem?_of_mem hp
  have hknown := ((proper hs).posted n p hn).known
  choose a b ha hb hab hin using hframed
  have clear : ∀ (i j : Nat) (x y : Rectangle), i ≠ j → p.propagator.rectangles[i]? = some x →
      p.propagator.rectangles[j]? = some y → Box.Clear (x.box α) (y.box α) := fun i j x y hij hx hy =>
    Rectangle.clear_of_not_overlaps (h.not_overlaps p hp i j x y hij hx hy)
  -- all rectangles have the dimensions of the first
  refine ⟨(List.range ((p.propagator.rectangles.head?.map Rectangle.dim).getD 0)).map fun i => (a i, b i),
    ⟨hknown, p.propagator.uniform⟩, h.admits, ?_, fun r hr => ?_, clear⟩
  · intro f hf
    obtain ⟨i, -, rfl⟩ := List.mem_map.1 hf
    exact ⟨ha i, hb i, hab i⟩
  · have hdim : (p.propagator.rectangles.head?.map Rectangle.dim).getD 0 = r.dim := by
      cases hrects : p.propagator.rectangles with
      | nil => rw [hrects] at hr; cases hr
      | cons first rest =>
        exact p.propagator.uniform first (hrects ▸ List.mem_cons_self) r hr
    rw [hdim]
    refine List.forall₂_iff_get.2 ⟨by simp [Rectangle.dim], fun i hi hi' => ?_⟩
    have hx := List.getElem_mem hi
    obtain ⟨hlo, hhi⟩ := hin i r hr _ (List.getElem?_eq_getElem hi) _ _
      (Store.domain_eq ((hknown r hr).origin hx)) (Store.domain_eq ((hknown r hr).length hx))
    simp only [List.get_eq_getElem, List.getElem_map, List.getElem_range]
    exact ⟨hlo, hhi⟩

/-- **Propagation never loses a solution.** In every session in which slots of candidates are written
by their constraints only, at whatever level and whatever is pending: if the rectangles of every
posted constraint lie in frames, then for every solution, a propagation does not refute; it ends
well and every variable's domain still holds its value, unless the height of a profile leaves
the width. Each constraint may sort the steps of one place in any order; the exception is for the
sums in that very order. -/
theorem propagate_keeps_solutions (hs : s.Reached OwnSlots)
    (hframed : ∀ p ∈ s.engine.posted, p.propagator.Framed s.store) (hα : Solves α s) :
    (s.step .propagate).1 = .done ∧
        (∀ v d, s.store.domain v = .ok d →
          ∃ d', (s.step .propagate).2.store.domain v = .ok d' ∧ α v ∈ d') ∨
      (s.step .propagate).1 = .failed (.fault .addOverflow) := by
  have hsolvable : s.engine.Solvable α := ⟨proper hs, fun p hp => hα.scene hs hp (hframed p hp)⟩
  have hends := hsolvable.propagate hα.admits
  unfold Ends at hends
  unfold step acted
  dsimp only
  split at hends <;> rename_i hm <;> rw [hm]
  · refine .inl ⟨rfl, fun v d hd => ?_⟩
    obtain ⟨c, hc, -⟩ := Store.domain_eq_ok.1 hd
    have hv := Nat.lt_of_lt_of_le (List.getElem?_eq_some_iff.1 hc).1 hends.shrinks.length_le
    exact ⟨_, Store.domain_eq hv, hends.admits v hv⟩
  · exact .inr (by rw [hends])

/-- Two squares, the first of them put at the left edge at a level of its own: the solution that
puts the second next to it is kept. -/
theorem propagate_keeps_solutions_squares :
    let s := empty.run (squares ++ [.pushLevel, .fix ⟨0⟩ 0])
    (s.step .propagate).1 = .done ∧ ∃ d, (s.step .propagate).2.store.domain ⟨1⟩ = .ok d ∧ 3 ∈ d := by
  intro s
  let α : Var → Int := fun v => if v = ⟨0⟩ ∨ v = ⟨2⟩ then 0 else 3
  have hs : s.Reached OwnSlots := Reached.start.run (by decide +kernel)
  have hsides : ∀ p ∈ s.engine.posted, p.propagator.rectangles.map Rectangle.sides =
      [[⟨⟨0⟩, ⟨3⟩⟩, ⟨⟨2⟩, ⟨3⟩⟩], [⟨⟨1⟩, ⟨3⟩⟩, ⟨⟨2⟩, ⟨3⟩⟩]] := by decide +kernel
  have hcells : s.store.cells.map (fun c => (c.domain.lo, c.domain.hi)) =
      [(0, 0), (0, 4), (0, 0), (3, 3)] := by decide +kernel
  have hdom : ∀ v d, s.store.domain v = .ok d →
      v = ⟨0⟩ ∧ d.lo = 0 ∧ d.hi = 0 ∨ v = ⟨1⟩ ∧ d.lo = 0 ∧ d.hi = 4 ∨ v = ⟨2⟩ ∧ d.lo = 0 ∧ d.hi = 0 ∨
        v = ⟨3⟩ ∧ d.lo = 3 ∧ d.hi = 3 := by
    rintro ⟨n⟩ d hd
    obtain ⟨c, hc, rfl⟩ := Store.domain_eq_ok.1 hd
    have hget := congrArg (·[n]?) hcells
    simp only [List.getElem?_map, hc, Option.map_some] at hget
    match n, hget with
    | 0, h | 1, h | 2, h | 3, h => simpa using h
    | n + 4, h => cases h
  have hframed : ∀ p ∈ s.engine.posted, p.propagator.Framed s.store := by
    have hlength : ∀ p ∈ s.engine.posted, ∀ r ∈ p.propagator.rectangles, ∀ x ∈ r.sides,
      x.length = ⟨3⟩ := by decide +kernel
    intro p hp i
    refine ⟨0, 7, by decide, by decide, by decide, fun r hr x hx o l ho hl => ?_⟩
    rw [hlength p hp r hr x (List.mem_of_getElem? hx)] at hl
    have := hdom _ _ ho
    have := hdom _ _ hl
    simp only [Index.mk.injEq] at this
    omega
  have hα : Solves α s := by
    refine ⟨fun v d hd => ?_, fun p hp i j a b hij ha hb hab => ?_⟩
    · have : d.lo ≤ α v ∧ α v ≤ d.hi := by
        rcases hdom v d hd with ⟨rfl, hlo, hhi⟩ | ⟨rfl, hlo, hhi⟩ | ⟨rfl, hlo, hhi⟩ | ⟨rfl, hlo, hhi⟩ <;>
          simp [α, hlo, hhi]
      exact this
    · have hi := congrArg (·[i]?) (hsides p hp)
      have hj := congrArg (·[j]?) (hsides p hp)
      simp only [List.getElem?_map, ha, hb, Option.map_some] at hi hj
      have hshared := hab.shared
      match i, j, hi, hj with
      | 0, 0, _, _ | 1, 1, _, _ => exact hij rfl
      | 0, 1, hi, hj | 1, 0, hi, hj =>
        rw [Option.some.inj hi, Option.some.inj hj] at hshared
        obtain ⟨⟨x, hx, hy⟩, -⟩ := List.forall₂_cons.1 hshared
        simp [α] at hx hy
        omega
      | n + 2, _, hi, _ | 0, n + 2, _, hi | 1, n + 2, _, hi => cases hi
  have hdone : (s.step .propagate).1 = .done := by decide +kernel
  refine ⟨hdone, ?_⟩
  rcases propagate_keeps_solutions hs hframed hα with ⟨-, hkept⟩ | hfailed
  · obtain ⟨c, hc⟩ : ∃ c, s.store.cells[1]? = some c := by
      have := congrArg (·[1]?) hcells
      rw [List.getElem?_map] at this
      exact ⟨_, (Option.map_eq_some_iff.1 this).choose_spec.1⟩
    exact hkept ⟨1⟩ c.domain (Store.domain_eq_ok.2 ⟨c, hc, rfl⟩)
  · rw [hdone] at hfailed
    cases hfailed

end Session
end Placement
