/-
# Tightening keeps a solution

Moving a bound past a region that the placed rectangle does not cover leaves its origin inside
the bounds (`Tighten.raise_le`, `Tighten.le_lower`), so narrowing an origin to them cannot empty
its domain. Every region is computed from the store at that moment, which still admits the
solution; so tightening a rectangle ends well and keeps the solution, unless the height of a
profile leaves the width (`Disjoint.tighten_keeps`).
-/

import Placement.Proofs.FullProfiles
import Placement.Proofs.Visits

namespace Placement

variable {w : Width}

/-! ## Moving bounds -/

/-- Clamping does not raise what lies above some value of the width. -/
theorem Width.clamp_le_of_le {x y : Int} (hy : w.Holds y) (h : y ≤ x) : w.clamp x ≤ x := by
  cases w with
  | word top _ =>
    simp only [Width.Holds] at hy
    simp only [Width.clamp]
    split
    · omega
    · split <;> omega
  | unbounded => exact Int.le_refl x

namespace Tighten

variable {o l length : Int} {regions : List Span}

/-- The rectangle lies on one side of a region that it does not cover. -/
theorem beside {g : Span} (hne : ¬ g.IsEmpty) (hl : 0 < l)
    (hfree : ∀ p ∈ g, ¬ (o ≤ p ∧ p < o + l)) : g.stop ≤ o ∨ o + l ≤ g.start := by
  have hlt : g.start < g.stop := by
    have := g.start_le_stop
    have : g.start ≠ g.stop := hne
    omega
  by_contra hcon
  rw [not_or, Int.not_le, Int.not_le] at hcon
  refine hfree (max o g.start) ⟨Int.le_max_right .., by omega⟩ ⟨Int.le_max_left .., by omega⟩

/-- **The raised bound does not pass the origin.** -/
theorem raise_le (hne : ∀ g ∈ regions, ¬ g.IsEmpty)
    (hfree : ∀ p, Covered regions p → ¬ (o ≤ p ∧ p < o + l)) (hpos : 0 < length) (hl : length ≤ l)
    {lo first : Int} (hfirst : w.Holds first) (hlo₀ : first ≤ lo) (hlo : lo ≤ o) :
    raise w length lo regions ≤ o := by
  induction regions generalizing lo with
  | nil => exact hlo
  | cons g rest ih =>
    obtain ⟨hg, hrest⟩ := List.forall_mem_cons.1 hne
    have hfree' : ∀ p, Covered rest p → ¬ (o ≤ p ∧ p < o + l) :=
      fun p ⟨x, hx, hp⟩ => hfree p ⟨x, List.mem_cons_of_mem _ hx, hp⟩
    unfold raise
    split
    · exact ih hrest hfree' hlo₀ hlo
    · next hstop =>
      split
      · next hstart =>
        have hadd : w.add lo length ≤ lo + length := Width.clamp_le_of_le hfirst (by omega)
        rcases beside hg (by omega) fun p hp => hfree p ⟨g, List.mem_cons_self, hp⟩ with h | h
        · exact ih hrest hfree' (by omega) h
        · omega
      · exact hlo

/-- **The lowered bound does not pass the origin.** -/
theorem le_lower (hne : ∀ g ∈ regions, ¬ g.IsEmpty)
    (hfree : ∀ p, Covered regions p → ¬ (o ≤ p ∧ p < o + l)) (hpos : 0 < length) (hl : length ≤ l)
    (ho : w.Holds o) {hi : Int} (hhi : o ≤ hi) : o ≤ lower w length hi regions := by
  induction regions generalizing hi with
  | nil => exact hhi
  | cons g rest ih =>
    obtain ⟨hg, hrest⟩ := List.forall_mem_cons.1 hne
    have hfree' : ∀ p, Covered rest p → ¬ (o ≤ p ∧ p < o + l) :=
      fun p ⟨x, hx, hp⟩ => hfree p ⟨x, List.mem_cons_of_mem _ hx, hp⟩
    unfold lower
    split
    · exact ih hrest hfree' hhi
    · split
      · next hstop =>
        rcases beside hg (by omega) fun p hp => hfree p ⟨g, List.mem_cons_self, hp⟩ with h | h
        · omega
        · refine ih hrest hfree' ?_
          rw [← Width.clamp_of_holds ho]
          exact w.clamp_mono (by omega)
      · exact hhi

end Tighten

/-! ## Narrowing around a solution -/

/-- The store `t` came from `s` by narrowing, and admits the solution. -/
structure Store.Tightens (α : Var → Int) (s t : Store w) : Prop where
  shrinks : s.Shrinks t
  admits : t.Admits α

namespace Store.Tightens

variable {α : Var → Int} {s t u : Store w}

/-- A store that admits the solution tightens to itself. -/
theorem refl (h : s.Admits α) : Tightens α s s := ⟨.refl _, h⟩

/-- Tightening twice is tightening. -/
theorem trans (h : Tightens α s t) (h' : Tightens α t u) : Tightens α s u :=
  ⟨h.shrinks.trans h'.shrinks, h'.admits⟩

/-- Narrowing a domain around the solution succeeds and keeps the solution. -/
theorem setBounds (h : s.Admits α) {v : Var} (hv : v.val < s.cells.length) {lo hi : Int} (hlo : lo ≤ α v)
    (hhi : α v ≤ hi) : ∃ b t, s.setBounds v lo hi = .ok (b, t) ∧ Tightens α s t := by
  have hc := List.getElem?_eq_getElem hv
  have hmem := h v hv
  rw [dom_of_cell hc] at hmem
  obtain ⟨d, hd⟩ : ∃ d, s.cells[v.val].domain.restrict? lo hi = some d := by
    unfold Domain.restrict?
    have h₁ := hmem.1
    have h₂ := hmem.2
    rw [dif_pos (by omega)]
    exact ⟨_, rfl⟩
  have hd' := (Domain.mem_restrict? hd (α v)).2 ⟨hmem, hlo, hhi⟩
  obtain ⟨b, t, hset⟩ : ∃ b t, s.setBounds v lo hi = .ok (b, t) := by
    unfold Store.setBounds
    rw [cell_eq_ok.2 hc, liftM_ok_bind, hd]
    dsimp only
    split
    · exact ⟨_, _, rfl⟩
    · exact ⟨_, _, rfl⟩
  refine ⟨b, t, hset, shrinks_setBounds hset, ?_⟩
  obtain ⟨c, e, hce, hde, ⟨-, -, rfl⟩ | ⟨-, -, rfl⟩⟩ := setBounds_eq_ok hset
  · exact h
  · rw [hc] at hce
    cases hce
    rw [hd] at hde
    cases hde
    intro x hx
    rw [dom_set hv]
    split
    · next he => exact he ▸ hd'
    · exact h x (by simpa using hx)

end Store.Tightens

namespace Tighten

variable {α : Var → Int}

/-- What a region computation must give: regions that the placed side does not cover. -/
def Avoids (o l : Int) (regions : List Span) : Prop :=
  (∀ g ∈ regions, ¬ g.IsEmpty) ∧ ∀ p, Covered regions p → ¬ (o ≤ p ∧ p < o + l)

/-- Moving an origin off regions that the placed rectangle does not cover. -/
theorem origin_keeps {v : Var} {length l : Int} {regions : List Span} {p : Pass w}
    (h : p.store.Admits α) (hv : v.val < p.store.cells.length) (hl : length ≤ l)
    (hregions : Avoids (α v) l regions) (E : Failure Inconsistency → Pass w → Prop) :
    Ends (origin v length regions) p (fun _ q => p.store.Tightens α q.store) E := by
  obtain ⟨hlo, hhi⟩ := h v hv
  have around : 0 < length → raise w length (p.store.dom v).lo regions ≤ α v ∧
      α v ≤ lower w length (p.store.dom v).hi regions.reverse := fun hpos => by
    refine ⟨raise_le hregions.1 hregions.2 hpos hl (p.store.dom v).holds_lo (Int.le_refl _) hlo, ?_⟩
    refine le_lower (fun g hg => hregions.1 g (List.mem_reverse.1 hg)) (fun x hx => ?_) hpos hl
      (w.holds_between (p.store.dom v).holds_lo (p.store.dom v).holds_hi hlo hhi) hhi
    obtain ⟨g, hg, hxg⟩ := hx
    exact hregions.2 x ⟨g, List.mem_reverse.1 hg, hxg⟩
  refine ends_origin hv (fun _ _ => .refl h) (fun hpos _ n b t events hset => ?_) fun hpos _ e events he => ?_
  · obtain ⟨b', t', hset', ht'⟩ := Store.Tightens.setBounds h hv (around hpos).1 (around hpos).2
    rw [hset] at hset'
    cases hset'
    exact ht'
  · obtain ⟨b', t', hset', -⟩ := Store.Tightens.setBounds h hv (around hpos).1 (around hpos).2
    rw [he] at hset'
    cases hset'

/-- Tightening one origin against computed regions, each of which avoids the placed rectangle in every
store that the narrowing can have led to. -/
theorem originAgainst_keeps {v : Var} {length l : Int} {s : Store w} (hv : v.val < s.cells.length)
    (hl : length ≤ l) {fs : List (Store w → Except Fault (List Span))}
    (hfs : ∀ f ∈ fs, ∀ t, s.Tightens α t → f t = .error .addOverflow ∨
      ∃ regions, f t = .ok regions ∧ Avoids (α v) l regions) {p : Pass w} (hp : s.Tightens α p.store) :
    Ends (originAgainst v length fs) p (fun _ q => s.Tightens α q.store)
      fun e _ => e = .fault .addOverflow := by
  induction fs generalizing p with
  | nil => exact hp
  | cons f fs ih =>
    obtain ⟨hf, hfs⟩ := List.forall_mem_cons.1 hfs
    refine ends_originAgainst_cons (fun regions hok => ?_) fun c hc => ?_
    · rcases hf p.store hp with he | ⟨regions', he, havoids⟩
      · rw [he] at hok
        cases hok
      · rw [he] at hok
        cases hok
        exact (origin_keeps hp.admits (Nat.lt_of_lt_of_le hv hp.shrinks.length_le) hl havoids _).mono
          (fun _ q hq => ih hfs (hp.trans hq)) fun _ _ h => h
    · rcases hf p.store hp with he | ⟨regions', he, -⟩
      · rw [he] at hc
        cases hc
        rfl
      · rw [he] at hc
        cases hc

end Tighten

/-! ## Tightening a rectangle -/

/-- What an analysis has found holds of the placed rectangles. -/
structure Neighborhood.True (found : Neighborhood) (α : Var → Int) (rectangles : List Rectangle)
    (k : Nat) : Prop where
  taken : ∀ u ∈ found.used, u.Taken α rectangles k
  nodup : found.profiled.Nodup
  profiled : ∀ n ∈ found.profiled, n < rectangles.length ∧ n ≠ k

namespace Scene

variable {α : Var → Int} {s : Store w} {rectangles : List Rectangle} {frames : Box}
  (h : Scene α s rectangles frames) {r : Rectangle} {k : Nat} {found : Neighborhood} {mode : Mode}

include h

/-- Every region that a rectangle is tightened against avoids it, as long as the store admits the
solution. -/
theorem avoids_regions (hr : rectangles[k]? = some r) (hfound : found.True α rectangles k) {i : Nat}
    {x : Side} (hx : r.sides[i]? = some x) :
    ∀ f ∈ Tighten.regions rectangles k r found mode i, ∀ t : Store w, s.Tightens α t →
      f t = .error .addOverflow ∨
        ∃ regions, f t = .ok regions ∧ Tighten.Avoids (α x.origin) (α x.length) regions := by
  intro f hf t ht
  have hscene := h.shrinks ht.shrinks ht.admits
  have hi : i < r.dim := (List.getElem?_eq_some_iff.1 hx).1
  have havoids : ∀ regions : List Span, (∀ p, Covered regions p → ¬ r.Along α i p) →
      ∀ p, Covered regions p → ¬ (α x.origin ≤ p ∧ p < α x.origin + α x.length) :=
    fun regions hfree p hp hin => hfree p hp ⟨x, hx, hin⟩
  rcases Tighten.mem_regions.1 hf with rfl | ⟨sorter, -, -, j, hj, rfl⟩
  · obtain ⟨regions, he, hne, hfree⟩ := hscene.ofUsed_spec hr hi hfound.taken
    exact .inr ⟨regions, he, hne, havoids regions hfree⟩
  · obtain ⟨hj, hji⟩ := mem_otherDims.1 hj
    have hij : i ≠ j := by rintro rfl; simp at hji
    exact (hscene.ofProfile_spec hr hi hj hij hfound.nodup hfound.profiled sorter).imp_right
      fun ⟨regions, he, hne, hfree⟩ => ⟨regions, he, hne, havoids regions hfree⟩

/-- **Tightening a rectangle keeps a solution**, unless a height leaves the width. -/
theorem dimensions_keeps (hr : rectangles[k]? = some r) (hfound : found.True α rectangles k)
    {is : List Nat} (his : ∀ i ∈ is, i < r.dim) {p : Pass w} (hp : s.Tightens α p.store) :
    Ends (Tighten.dimensions rectangles k r found mode is) p (fun _ q => s.Tightens α q.store)
      fun e _ => e = .fault .addOverflow := by
  have hmem := List.mem_of_getElem? hr
  have hknown := h.uniform.known r hmem
  induction is generalizing p with
  | nil => exact hp
  | cons i is ih =>
    have ih := fun {q : Pass w} => ih (p := q) fun j hj => his j (List.mem_cons_of_mem _ hj)
    obtain ⟨x, hx⟩ : ∃ x, r.sides[i]? = some x := ⟨_, List.getElem?_eq_getElem (his i List.mem_cons_self)⟩
    have hxmem := List.mem_of_getElem? hx
    refine Tighten.ends_dimensions_cons (hp.shrinks.known hknown) hx (fun _ => ih hp) fun _ => ?_
    have hl : (p.store.look x).length.lo ≤ α x.length :=
      (hp.admits _ ((hp.shrinks.known hknown).length hxmem)).1
    exact (Tighten.originAgainst_keeps (hknown.origin hxmem) hl (h.avoids_regions hr hfound hx) hp).mono
      (fun _ q hq => ih hq) fun _ _ h => h

end Scene

/-- **Tightening a rectangle keeps the solution**, unless the height of a profile leaves the width. -/
theorem Disjoint.tighten_keeps {α : Var → Int} {s : Store w} {d : Disjoint} {frames : Box}
    (h : Scene α s d.rectangles frames) {r : Rectangle} {k : Nat} (hr : d.rectangles[k]? = some r)
    {found : Neighborhood} (hfound : found.True α d.rectangles k) {p : Pass w}
    (hp : s.Tightens α p.store) :
    Ends (d.tighten k found) p (fun _ q => s.Tightens α q.store) fun e _ => e = .fault .addOverflow := by
  refine ends_tighten hr ((h.dimensions_keeps hr hfound (fun i hi => List.mem_range.1 hi) hp).mono
    (fun _ q hq q' hq' => ?_) fun e q he q' hq' => he)
  rw [hq']
  exact hq

end Placement
