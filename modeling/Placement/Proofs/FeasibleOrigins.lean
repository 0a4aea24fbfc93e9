/-
# The origins that tightening leaves

An origin is feasible (`Tighten.Feasible`) if it is in the domain and a rectangle of the given length
covers no point of a region from it. The position of the rectangle is an exact integer interval here,
so its end may lie outside the width.

Tightening an origin leaves the least and the greatest feasible origin as its bounds, and refutes the
store exactly if there is none (`Tighten.origin_exact`). The two scans are not alike. The scan from the
left only ever takes ends of regions, so it stops at the least origin that avoids all regions
whether or not this is in the domain (`Tighten.free_raise`). The scan from the right subtracts, and
the difference may saturate at the least value of the width, where it says nothing; but then no
origin was feasible, and the scan from the left has passed the domain (`Tighten.free_lower`).
-/

import Placement.Proofs.Barriers
import Mathlib.Order.Bounds.Defs

namespace Placement

variable {w : Width}

/-! ## Feasible origins -/

namespace Span

/-- Both ends are values of the width. -/
def Fits (w : Width) (g : Span) : Prop := w.Holds g.start ∧ w.Holds g.stop

instance (w : Width) (g : Span) : Decidable (g.Fits w) := inferInstanceAs (Decidable (_ ∧ _))

end Span

namespace Tighten

/-- Intervals of the width that are not empty, in ascending order and without a common point. -/
structure Ascending (w : Width) (regions : List Span) : Prop where
  fits : ∀ g ∈ regions, g.Fits w
  nonempty : ∀ g ∈ regions, ¬ g.IsEmpty
  apart : regions.Pairwise fun a b => a.stop ≤ b.start

/-- From the origin `o`, a rectangle of the given length covers no point of a region. -/
def Free (length : Int) (regions : List Span) (o : Int) : Prop :=
  ∀ p, Covered regions p → ¬ (o ≤ p ∧ p < o + length)

/-- The origin is in the domain, and a rectangle of the given length covers no point of a region from
it. -/
def Feasible (d : Domain w) (length : Int) (regions : List Span) (o : Int) : Prop :=
  o ∈ d ∧ Free length regions o

variable {length lo hi o : Int} {g : Span} {regions rest : List Span}

/-- The first of ascending regions comes before the others. -/
theorem Ascending.cons (h : Ascending w (g :: rest)) :
    g.Fits w ∧ ¬ g.IsEmpty ∧ (∀ x ∈ rest, g.stop ≤ x.start) ∧ Ascending w rest := by
  obtain ⟨hfits, hrest⟩ := List.forall_mem_cons.1 h.fits
  obtain ⟨hne, hrest'⟩ := List.forall_mem_cons.1 h.nonempty
  obtain ⟨hafter, hapart⟩ := List.pairwise_cons.1 h.apart
  exact ⟨hfits, hne, hafter, hrest, hrest', hapart⟩

/-- A rectangle covers no point of regions if it lies on one side of each. -/
theorem free_of_beside (h : ∀ g ∈ regions, g.stop ≤ o ∨ o + length ≤ g.start) : Free length regions o := by
  rintro p ⟨g, hg, hp⟩ ⟨hle, hlt⟩
  obtain ⟨hstart, hstop⟩ := Span.mem_iff.1 hp
  have := h g hg
  omega

/-- An origin is free of one more region if it stays clear of it. -/
theorem Free.cons (hg : g.stop ≤ o ∨ o + length ≤ g.start) (h : Free length rest o) :
    Free length (g :: rest) o := by
  rintro p ⟨x, hx, hp⟩
  rcases List.mem_cons.1 hx with rfl | hx
  · have hfree : Free length [x] o := free_of_beside (by simpa using hg)
    exact hfree p ⟨x, List.mem_singleton_self _, hp⟩
  · exact h p ⟨x, hx, hp⟩

/-- What is free of regions is free of all but the first. -/
theorem Free.tail (h : Free length (g :: rest) o) : Free length rest o :=
  fun p ⟨x, hx, hp⟩ => h p ⟨x, List.mem_cons_of_mem _ hx, hp⟩

/-- A clamped stop that lies before a region is not clamped from above. -/
theorem add_le_of_clamp_le (hfits : g.Fits w) (hne : ¬ g.IsEmpty) (h : w.add o length ≤ g.start) :
    o + length ≤ g.start := by
  have hlt : g.start < g.stop := lt_of_le_of_ne g.start_le_stop hne
  by_contra hcon
  have hsucc : w.Holds (g.start + 1) := w.holds_between hfits.1 hfits.2 (by omega) hlt
  have := Width.lt_add_of_lt hsucc (Int.not_le.1 hcon)
  omega

/-- **The scan from the left stops where no region is covered.** -/
theorem free_raise (h : Ascending w regions) (lo : Int) :
    Free length regions (raise w length lo regions) := by
  induction regions generalizing lo with
  | nil => exact free_of_beside nofun
  | cons g rest ih =>
    obtain ⟨hfits, hne, hafter, hrest⟩ := h.cons
    unfold raise
    split
    · next hstop => exact .cons (.inl (hstop.trans (le_raise lo rest))) (ih hrest lo)
    · split
      · exact .cons (.inl (le_raise g.stop rest)) (ih hrest g.stop)
      · next hstart =>
        have hle := add_le_of_clamp_le hfits hne (Int.not_lt.1 hstart)
        refine .cons (.inr hle) (free_of_beside fun x hx => .inr ?_)
        have := hafter x hx
        have := g.start_le_stop
        omega

/-- **The scan from the right stops where no region is covered**, if there is such an origin at all at
or before the bound. -/
theorem free_lower (hfits : ∀ g ∈ regions, g.Fits w) (hne : ∀ g ∈ regions, ¬ g.IsEmpty)
    (hapart : regions.Pairwise fun a b => b.stop ≤ a.start) (hpos : 0 < length) (hhi : w.Holds hi)
    (ho : w.Holds o) (hle : o ≤ hi) (hfree : Free length regions o) :
    Free length regions (lower w length hi regions) := by
  induction regions generalizing hi with
  | nil => exact free_of_beside nofun
  | cons g rest ih =>
    obtain ⟨hg, hfits⟩ := List.forall_mem_cons.1 hfits
    obtain ⟨hgne, hne⟩ := List.forall_mem_cons.1 hne
    obtain ⟨hbefore, hapart⟩ := List.pairwise_cons.1 hapart
    unfold lower
    split
    · next hstart =>
      have hstop := add_le_of_clamp_le hg hgne hstart
      have := lower_le hhi hpos rest
      exact .cons (.inr (by omega)) (ih hfits hne hapart hhi hle hfree.tail)
    · next hstart =>
      split
      · next hstop =>
        -- the feasible origin lies before the region, so the difference does not saturate
        have hadd : w.add hi length ≤ hi + length := Width.clamp_le_of_le hhi (by omega)
        have hbeside := beside hgne hpos fun p hp => hfree p ⟨g, List.mem_cons_self, hp⟩
        have hplace : w.Holds (g.start - length) := w.holds_between ho hhi (by omega) (by omega)
        have hsub : w.sub g.start length = g.start - length := Width.clamp_of_holds hplace
        rw [hsub]
        have := lower_le hplace hpos rest
        exact .cons (.inr (by omega)) (ih hfits hne hapart hplace (by omega) hfree.tail)
      · next hstop =>
        refine .cons (.inl (Int.not_lt.1 hstop)) (free_of_beside fun x hx => .inl ?_)
        have := hbefore x hx
        have := g.start_le_stop
        omega

/-! ## Both scans -/

section Bounds

variable {d : Domain w} (h : Ascending w regions) (hpos : 0 < length)

include h hpos

/-- The raised bound is the least of the feasible origins, if there is one. -/
theorem isLeast_raise (ho : Feasible d length regions o) :
    IsLeast {o | Feasible d length regions o} (raise w length d.lo regions) := by
  have least : ∀ x, Feasible d length regions x → raise w length d.lo regions ≤ x := fun x hx =>
    raise_le h.nonempty hx.2 hpos (Int.le_refl _) d.holds_lo (Int.le_refl _) hx.1.1
  exact ⟨⟨⟨le_raise .., (least o ho).trans ho.1.2⟩, free_raise h d.lo⟩, least⟩

/-- The lowered bound is the greatest of the feasible origins, if there is one. -/
theorem isGreatest_lower (ho : Feasible d length regions o) :
    IsGreatest {o | Feasible d length regions o} (lower w length d.hi regions.reverse) := by
  have reversed : ∀ {x}, Free length regions x → Free length regions.reverse x :=
    fun hx p ⟨g, hg, hp⟩ => hx p ⟨g, List.mem_reverse.1 hg, hp⟩
  have holds : ∀ x, Feasible d length regions x → w.Holds x := fun x hx =>
    w.holds_between d.holds_lo d.holds_hi hx.1.1 hx.1.2
  have hne : ∀ g ∈ regions.reverse, ¬ g.IsEmpty := fun g hg => h.nonempty g (List.mem_reverse.1 hg)
  have greatest : ∀ x, Feasible d length regions x → x ≤ lower w length d.hi regions.reverse := fun x hx =>
    le_lower hne (reversed hx.2) hpos (Int.le_refl _) (holds x hx) hx.1.2
  have hfree : Free length regions.reverse (lower w length d.hi regions.reverse) :=
    free_lower (fun g hg => h.fits g (List.mem_reverse.1 hg)) hne (List.pairwise_reverse.2 h.apart) hpos
      d.holds_hi (holds o ho) ho.1.2 (reversed ho.2)
  refine ⟨⟨⟨ho.1.1.trans (greatest o ho), lower_le d.holds_hi hpos _⟩, fun p ⟨g, hg, hp⟩ => ?_⟩, greatest⟩
  exact hfree p ⟨g, List.mem_reverse.2 hg, hp⟩

end Bounds

end Tighten

/-! ## Tightening an origin -/

/-- A restricted domain has the tighter of the bounds. -/
theorem Domain.bounds_of_restrict? {d e : Domain w} {lo hi : Int} (h : d.restrict? lo hi = some e) :
    e.lo = max d.lo lo ∧ e.hi = min d.hi hi := by
  unfold restrict? at h
  split at h
  · cases h
    exact ⟨rfl, rfl⟩
  · cases h

/-- Narrowing that fails leaves no value to a variable that exists. -/
theorem Store.setBounds_eq_error {s : Store w} {v : Var} {c : Cell w} (hc : s.cells[v.val]? = some c)
    {lo hi : Int} {e : Failure Inconsistency} (h : s.setBounds v lo hi = .error e) :
    e = .refuted (.emptyDomain v) ∧ ∀ x ∈ c.domain, ¬ (lo ≤ x ∧ x ≤ hi) := by
  unfold setBounds at h
  rw [cell_eq_ok.2 hc, liftM_ok_bind] at h
  split at h
  · next hnone =>
    refine ⟨(Except.error.inj h).symm, fun x ⟨hlo, hhi⟩ ⟨hle, hge⟩ => ?_⟩
    unfold Domain.restrict? at hnone
    rw [dif_pos (by omega)] at hnone
    cases hnone
  · split at h <;> cases h

namespace Tighten

variable {length : Int} {regions : List Span} {v : Var} {c : Cell w}

/-- Where tightening an origin ends: at the bounds of the feasible origins, or refuted. -/
theorem ends_origin_feasible {p : Pass w} (hc : p.store.cells[v.val]? = some c) (hpos : 0 < length)
    (h : Ascending w regions) :
    Ends (origin v length regions) p
      (fun n q => ∃ d : Domain w, IsLeast {o | Feasible c.domain length regions o} d.lo ∧
        IsGreatest {o | Feasible c.domain length regions o} d.hi ∧
        n = (if d.lo = c.domain.lo then 0 else 1) + (if d.hi = c.domain.hi then 0 else 1) ∧
        q.store = if n = 0 then p.store else
          { p.store with
            cells := p.store.cells.set v.val ⟨d, p.store.level, true⟩
            trail := p.store.note c.stamp (.domain v c.domain c.stamp) })
      fun e q => (∀ o, ¬ Feasible c.domain length regions o) ∧ e = .refuted (.emptyDomain v) ∧
        q.store = p.store := by
  have hdom : p.store.dom v = c.domain := Store.dom_of_cell hc
  have hlo : c.domain.lo ≤ raise w length c.domain.lo regions := le_raise ..
  have hhi : lower w length c.domain.hi regions.reverse ≤ c.domain.hi := lower_le c.domain.holds_hi hpos _
  have hle := c.domain.lo_le_hi
  refine ends_origin_count (List.getElem?_eq_some_iff.1 hc).1 (fun hstill => ?_) (fun _ hmoves b t events hset => ?_)
    fun _ _ e events he => ?_
  · rw [hdom] at hstill
    obtain ⟨hlo', hhi'⟩ := hstill.resolve_left (Int.not_le.2 hpos)
    have hlo := le_antisymm hlo' hlo
    have hhi := le_antisymm hhi hhi'
    have hfree : Free length regions (raise w length c.domain.lo regions) := free_raise h _
    rw [hlo] at hfree
    have ho : Feasible c.domain length regions c.domain.lo := ⟨⟨Int.le_refl _, hle⟩, hfree⟩
    have hleast := isLeast_raise h hpos ho
    have hgreatest := isGreatest_lower h hpos ho
    rw [hlo] at hleast
    rw [hhi] at hgreatest
    exact ⟨c.domain, hleast, hgreatest, by simp, rfl⟩
  · rw [hdom] at hmoves hset ⊢
    obtain ⟨c', d, hc', hd, hwrite⟩ := Store.setBounds_eq_ok hset
    obtain rfl := Option.some.inj (hc.symm.trans hc')
    obtain ⟨hdlo, hdhi⟩ := Domain.bounds_of_restrict? hd
    have hd := d.lo_le_hi
    have ho : Feasible c.domain length regions (raise w length c.domain.lo regions) :=
      ⟨⟨hlo, by omega⟩, free_raise h _⟩
    have hleast := isLeast_raise h hpos ho
    have hgreatest := isGreatest_lower h hpos ho
    rw [Int.max_eq_right hlo] at hdlo
    rw [Int.min_eq_right hhi] at hdhi
    rw [← hdlo] at hleast hmoves hlo ⊢
    rw [← hdhi] at hgreatest hmoves hhi ⊢
    refine ⟨d, hleast, hgreatest, ?_, ?_⟩
    · congr 1 <;> split <;> split <;> omega
    · rw [if_neg (by split <;> split <;> omega)]
      obtain ⟨he, -⟩ | ⟨-, -, rfl⟩ := hwrite
      · rw [he] at hmoves
        omega
      · rfl
  · rw [hdom] at he
    obtain ⟨rfl, hnone⟩ := Store.setBounds_eq_error hc he
    exact ⟨fun o ho => hnone o ho.1
      ⟨(isLeast_raise h hpos ho).2 ho, (isGreatest_lower h hpos ho).2 ho⟩, rfl, rfl⟩

/-- What is left of the domains: no other variable loses a value. -/
theorem ends_origin_dom {p : Pass w} (hv : v.val < p.store.cells.length) (hpos : 0 < length)
    (h : Ascending w regions) :
    Ends (origin v length regions) p
      (fun _ q => q.store.cells.length = p.store.cells.length ∧ (∀ x ≠ v, q.store.dom x = p.store.dom x) ∧
        IsLeast {o | Feasible (p.store.dom v) length regions o} (q.store.dom v).lo ∧
        IsGreatest {o | Feasible (p.store.dom v) length regions o} (q.store.dom v).hi)
      fun _ _ => ∀ o, ¬ Feasible (p.store.dom v) length regions o := by
  have hc := List.getElem?_eq_getElem hv
  rw [Store.dom_of_cell hc]
  refine (ends_origin_feasible hc hpos h).mono ?_ fun _ _ he => he.1
  rintro n q ⟨d, hleast, hgreatest, hn, hstore⟩
  by_cases hzero : n = 0
  · rw [if_pos hzero] at hstore
    have hlo : d.lo = p.store.cells[v.val].domain.lo := by
      by_contra hne
      rw [if_neg hne] at hn
      omega
    have hhi : d.hi = p.store.cells[v.val].domain.hi := by
      by_contra hne
      rw [if_neg hne] at hn
      omega
    rw [hstore, Store.dom_of_cell hc, ← hlo, ← hhi]
    exact ⟨rfl, fun _ _ => rfl, hleast, hgreatest⟩
  · rw [if_neg hzero] at hstore
    have hdom := Store.dom_set hv ⟨d, p.store.level, true⟩
      (p.store.note p.store.cells[v.val].stamp (.domain v p.store.cells[v.val].domain p.store.cells[v.val].stamp))
    rw [hstore]
    refine ⟨List.length_set .., fun x hx => (hdom x).trans (if_neg hx), ?_⟩
    rw [(hdom v).trans (if_pos rfl)]
    exact ⟨hleast, hgreatest⟩

/-- **Tightening an origin is exact.** It refutes the store, and leaves it as it is, if and only if no
origin is feasible. Otherwise the least and the greatest feasible origin are the new bounds, the
number of bounds that changed is the result, and the one write to the store is that of the new
domain, if it is new. -/
theorem origin_exact {s : Store w} (hc : s.cells[v.val]? = some c) (hpos : 0 < length)
    (h : Ascending w regions) :
    let run := (origin v length regions).runOn s
    ((run.2.2 = .error (.refuted (.emptyDomain v)) ∧ run.1 = s) ↔ ∀ o, ¬ Feasible c.domain length regions o) ∧
      ((∃ o, Feasible c.domain length regions o) → ∃ (d : Domain w) (n : Nat),
        IsLeast {o | Feasible c.domain length regions o} d.lo ∧
        IsGreatest {o | Feasible c.domain length regions o} d.hi ∧
        run.2.2 = .ok n ∧
        n = (if d.lo = c.domain.lo then 0 else 1) + (if d.hi = c.domain.hi then 0 else 1) ∧
        run.1 = if n = 0 then s else
          { s with
            cells := s.cells.set v.val ⟨d, s.level, true⟩
            trail := s.note c.stamp (.domain v c.domain c.stamp) }) := by
  have hends := ends_origin_feasible (p := ⟨s, []⟩) hc hpos h
  intro run
  unfold Ends at hends
  simp only [run, Narrowing.runOn]
  split at hends
  · next n q hq =>
    obtain ⟨d, hleast, hgreatest, hn, hstore⟩ := hends
    rw [hq]
    exact ⟨⟨fun he => (by cases he.1), fun hnone => absurd hleast.1 (hnone _)⟩,
      fun _ => ⟨d, n, hleast, hgreatest, rfl, hn, hstore⟩⟩
  · next e q hq =>
    obtain ⟨hnone, rfl, hstore⟩ := hends
    rw [hq]
    exact ⟨⟨fun _ => hnone, fun _ => ⟨rfl, hstore⟩⟩, fun ⟨o, ho⟩ => absurd ho (hnone o)⟩

/-- Two regions at the ends of the bytes and a rectangle of length 30. From the greatest origin the end
of the rectangle is no byte, and of the origins up to -101 none is feasible. -/
theorem origin_exact_bytes :
    let regions : List Span := [⟨-120, -100, by decide⟩, ⟨110, 127, by decide⟩]
    let wide : Domain .w8 := ⟨-128, 126, by decide, by decide, by decide⟩
    let narrow : Domain .w8 := ⟨-128, -101, by decide, by decide, by decide⟩
    let run := fun d : Domain .w8 => (origin ⟨0⟩ 30 regions).runOn (.ofDomains [d])
    Ascending .w8 regions ∧
      IsLeast {o | Feasible wide 30 regions o} (-100) ∧ IsGreatest {o | Feasible wide 30 regions o} 80 ∧
      (run wide).2.2 = .ok 2 ∧
      (run wide).1 = ⟨[⟨⟨-100, 80, by decide, by decide, by decide⟩, 0, true⟩], [], .empty⟩ ∧
      (run narrow).2.2 = .error (.refuted (.emptyDomain ⟨0⟩)) ∧ ∀ o, ¬ Feasible narrow 30 regions o := by
  intro regions wide narrow run
  have hregions : Ascending .w8 regions := ⟨by decide, by decide, by decide⟩
  have hwide : (run wide).2.2 = .ok 2 ∧
      (run wide).1 = ⟨[⟨⟨-100, 80, by decide, by decide, by decide⟩, 0, true⟩], [], .empty⟩ := by decide +kernel
  have hnarrow : (run narrow).2.2 = .error (.refuted (.emptyDomain ⟨0⟩)) ∧ (run narrow).1 = .ofDomains [narrow] := by
    decide +kernel
  obtain ⟨d, n, hleast, hgreatest, hn, -, hstore⟩ :=
    (origin_exact (s := .ofDomains [wide]) (v := ⟨0⟩) rfl (by decide : (0 : Int) < 30) hregions).2
      ⟨0, by decide, free_of_beside (by decide)⟩
  obtain rfl := Except.ok.inj (hwide.1.symm.trans hn)
  have hd : d = ⟨-100, 80, by decide, by decide, by decide⟩ :=
    (congrArg (Store.dom · ⟨0⟩) (hstore.symm.trans hwide.2) :)
  refine ⟨hregions, ?_, ?_, hwide.1, hwide.2, hnarrow.1, ?_⟩
  · rwa [hd] at hleast
  · rwa [hd] at hgreatest
  · exact (origin_exact (s := .ofDomains [narrow]) (v := ⟨0⟩) rfl (by decide) hregions).1.1 hnarrow

end Tighten
end Placement
