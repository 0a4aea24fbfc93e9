/-
# A profile is the step function of its contributions

Of all lists of stretches, only one outlines a given function (`Profile.Outlines.unique`): the first
stretch starts at the first point where the function is not zero, has the height there, and ends
where the function changes, since a stretch that touches the next one has another height. So a
profile depends on the height at each point alone, and not on the order of the contributions, nor on
the order in which the steps of one place are sorted.

The running sum stays within the absolute heights: all steps sum to nothing, so the steps taken
sum to what the others take back, and both together vary by twice the absolute heights
(`Profile.two_mul_abs_taken_le`).
-/

import Placement.Proofs.Heights
import Placement.Proofs.UsedSpace
import Mathlib.Algebra.Order.BigOperators.Group.Multiset
import Mathlib.Algebra.Order.Group.Int

namespace Placement

variable {w : Width}

namespace Profile

/-! ## One outline only -/

namespace Outlines

variable {F : Int → Int} {g h : Segment} {gs hs : List Segment}

/-- Where the height is zero everywhere, there is no stretch. -/
theorem nil_of_zero (hz : ∀ y, F y = 0) (hg : Outlines F gs) : gs = [] := by
  cases gs with
  | nil => rfl
  | cons g gs =>
    have hlt := hg.nonempty g List.mem_cons_self
    refine absurd (hz g.span.start) ?_
    rw [hg.height g List.mem_cons_self _ ⟨Int.le_refl _, hlt⟩]
    exact hg.ne_zero g List.mem_cons_self

/-- Nothing starts before the first stretch. -/
theorem start_le (hg : Outlines F (g :: gs)) {k : Segment} (hk : k ∈ g :: gs) :
    g.span.start ≤ k.span.start := by
  rcases List.mem_cons.1 hk with rfl | hk
  · exact Int.le_refl _
  · have := ((List.pairwise_cons.1 hg.ascending).1 k hk).1
    have := g.span.start_le_stop
    omega

/-- The first stretch of one outline starts no later than that of another one. -/
theorem start_le_start (hg : Outlines F (g :: gs)) (hh : Outlines F hs) (hmem : h ∈ hs) :
    g.span.start ≤ h.span.start := by
  have hlt := hh.nonempty h hmem
  have hF : F h.span.start ≠ 0 := by
    rw [hh.height h hmem _ ⟨Int.le_refl _, hlt⟩]
    exact hh.ne_zero h hmem
  obtain ⟨k, hk, hin⟩ := hg.complete _ hF
  exact Int.le_trans (hg.start_le hk) hin.1

/-- A stretch of one outline that starts with the first one of another does not outlast it. -/
theorem stop_le_stop (hg : Outlines F (g :: gs)) (hh : Outlines F hs) (hmem : h ∈ hs)
    (hstart : g.span.start = h.span.start) : h.span.stop ≤ g.span.stop := by
  by_contra hlt
  have hshort := hg.nonempty g List.mem_cons_self
  have hin : ∀ y, g.span.start ≤ y → y ≤ g.span.stop → F y = h.height := fun y h₁ h₂ =>
    hh.height h hmem y ⟨by omega, by omega⟩
  have hsame : g.height = h.height := by
    rw [← hin g.span.start (Int.le_refl _) (by omega)]
    exact (hg.height g List.mem_cons_self _ ⟨Int.le_refl _, hshort⟩).symm
  -- the function goes on at the same height, so the next stretch would touch the first one
  have hF := hin g.span.stop (by omega) (Int.le_refl _)
  obtain ⟨k, hk, hkin⟩ := hg.complete g.span.stop (by rw [hF]; exact hh.ne_zero h hmem)
  rcases List.mem_cons.1 hk with rfl | hk'
  · exact absurd hkin.2 (Int.lt_irrefl _)
  · obtain ⟨hle, hne⟩ := (List.pairwise_cons.1 hg.ascending).1 k hk'
    refine hne (Int.le_antisymm hle hkin.1) ?_
    rw [hsame, ← hF]
    exact hg.height k hk _ hkin

/-- Two outlines of one height begin with the same stretch. -/
theorem first_eq (hg : Outlines F (g :: gs)) (hh : Outlines F (h :: hs)) : g = h := by
  have hstart : g.span.start = h.span.start :=
    Int.le_antisymm (hg.start_le_start hh List.mem_cons_self) (hh.start_le_start hg List.mem_cons_self)
  have hstop : g.span.stop = h.span.stop :=
    Int.le_antisymm (hh.stop_le_stop hg List.mem_cons_self hstart.symm)
      (hg.stop_le_stop hh List.mem_cons_self hstart)
  have hlt := hg.nonempty g List.mem_cons_self
  have hheight : g.height = h.height := by
    rw [← hg.height g List.mem_cons_self g.span.start ⟨Int.le_refl _, hlt⟩]
    exact hh.height h List.mem_cons_self _ ⟨by omega, by omega⟩
  cases g
  cases h
  exact congrArg₂ Segment.mk (Span.ext hstart hstop) hheight

/-- The stretches after the first one outline the function from where the first one ends. -/
theorem tail (hg : Outlines F (g :: gs)) :
    Outlines (fun y => if g.span.stop ≤ y then F y else 0) gs where
  nonempty k hk := hg.nonempty k (List.mem_cons_of_mem _ hk)
  ne_zero k hk := hg.ne_zero k (List.mem_cons_of_mem _ hk)
  ascending := (List.pairwise_cons.1 hg.ascending).2
  height k hk y hy := by
    have := ((List.pairwise_cons.1 hg.ascending).1 k hk).1
    rw [if_pos (Int.le_trans this hy.1)]
    exact hg.height k (List.mem_cons_of_mem _ hk) y hy
  complete y hne := by
    simp only [ne_eq, ite_eq_right_iff, Classical.not_imp] at hne
    obtain ⟨k, hk, hy⟩ := hg.complete y hne.2
    rcases List.mem_cons.1 hk with rfl | hk
    · exact absurd hy.2 (by omega)
    · exact ⟨k, hk, hy⟩

/-- **A function has one outline.** -/
theorem unique (hg : Outlines F gs) (hh : Outlines F hs) : gs = hs := by
  induction gs generalizing F hs with
  | nil =>
    refine (hh.nil_of_zero fun y => ?_).symm
    by_contra hne
    obtain ⟨k, hk, -⟩ := hg.complete y hne
    cases hk
  | cons g gs ih =>
    cases hs with
    | nil =>
      refine hg.nil_of_zero fun y => ?_
      by_contra hne
      obtain ⟨k, hk, -⟩ := hh.complete y hne
      cases hk
    | cons h hs =>
      obtain rfl := hg.first_eq hh
      rw [ih hg.tail hh.tail]

/-- A point lies in a stretch of some height if that is the function's value there, and not zero. -/
theorem exists_iff (hg : Outlines F gs) (x y : Int) :
    (∃ g ∈ gs, x ∈ g.span ∧ g.height = y) ↔ F x = y ∧ y ≠ 0 := by
  constructor
  · rintro ⟨g, hmem, hx, rfl⟩
    exact ⟨hg.height g hmem x hx, hg.ne_zero g hmem⟩
  · rintro ⟨rfl, hne⟩
    obtain ⟨g, hmem, hx⟩ := hg.complete x hne
    exact ⟨g, hmem, hx, (hg.height g hmem x hx).symm⟩

end Outlines

/-- **The stretches above a limit** cover the points where the function is not zero and exceeds it. -/
theorem covered_above {F : Int → Int} {p : Profile} (hp : Outlines F p.segments) (limit x : Int) :
    Covered (p.above limit) x ↔ F x ≠ 0 ∧ limit < F x := by
  rw [above, Span.covered_merge]
  constructor
  · rintro ⟨_, hs, hx⟩
    obtain ⟨g, hg, rfl⟩ := List.mem_map.1 hs
    obtain ⟨hmem, hhigh⟩ := List.mem_filter.1 hg
    rw [hp.height g hmem x hx]
    exact ⟨hp.ne_zero g hmem, by simpa using hhigh⟩
  · rintro ⟨hne, hhigh⟩
    obtain ⟨g, hmem, hx⟩ := hp.complete x hne
    rw [hp.height g hmem x hx] at hhigh
    exact ⟨g.span, List.mem_map_of_mem (List.mem_filter.2 ⟨hmem, by simpa using hhigh⟩), hx⟩

/-! ## The running sum -/

/-- The absolute heights in all. -/
def bulk (cs : List Contribution) : Int := (cs.map fun c => |c.height|).sum

/-- A sum does not exceed the sum of the absolute values. -/
theorem abs_sum_le (xs : List Int) : |xs.sum| ≤ (xs.map abs).sum := by
  simpa using Multiset.abs_sum_le_sum_abs (s := (xs : Multiset Int))

/-- The steps vary by twice the absolute heights. -/
theorem variation_le {cs : List Contribution} {ts : List Step} (hts : steps w cs = .ok ts) :
    ((ts.map Step.delta).map abs).sum ≤ 2 * bulk cs := by
  induction cs generalizing ts with
  | nil =>
    cases hts
    exact Int.le_refl 0
  | cons c cs ih =>
    have hbulk : bulk (c :: cs) = |c.height| + bulk cs := by
      rw [bulk, List.map_cons, List.sum_cons]
      rfl
    have hnonneg := abs_nonneg c.height
    rcases steps_cons.1 hts with ⟨-, hts⟩ | ⟨-, -, rest, hrest, rfl⟩
    · have := ih hts
      omega
    · have := ih hrest
      simp only [List.map_cons, List.sum_cons, abs_neg]
      omega

/-- **The running sum stays within the absolute heights**: what has been taken is what the rest takes
back. -/
theorem two_mul_abs_taken_le {cs : List Contribution} {ts sorted taken : List Step}
    (hts : steps w cs = .ok ts) (hperm : sorted.Perm ts) (htaken : taken <+: sorted) :
    2 * |(taken.map Step.delta).sum| ≤ 2 * bulk cs := by
  obtain ⟨left, rfl⟩ := htaken
  have hzero : (taken.map Step.delta).sum + (left.map Step.delta).sum = 0 := by
    rw [← List.sum_append, ← List.map_append, (hperm.map _).sum_eq]
    exact (rise_steps hts).2
  have hback : |(left.map Step.delta).sum| = |(taken.map Step.delta).sum| := by
    rw [← abs_neg, show -(left.map Step.delta).sum = (taken.map Step.delta).sum by omega]
  have hvariation : (((taken ++ left).map Step.delta).map abs).sum ≤ 2 * bulk cs := by
    rw [((hperm.map _).map _).sum_eq]
    exact variation_le hts
  rw [List.map_append, List.map_append, List.sum_append] at hvariation
  have h₁ := abs_sum_le (taken.map Step.delta)
  have h₂ := abs_sum_le (left.map Step.delta)
  omega

/-- What does not exceed a value of the width in absolute terms is one. -/
theorem holds_of_abs_le {x b : Int} (hb : w.Holds b) (hx : |x| ≤ b) : w.Holds x := by
  obtain ⟨hl, hu⟩ := abs_le.1 hx
  exact w.holds_between (Width.holds_neg hb (by omega)) hb hl hu

/-- Sweeping the steps in any sorted order gives the same outline of the height. -/
theorem sweep_outlines {cs : List Contribution} (hbulk : w.Holds (bulk cs)) {ts sorted : List Step}
    (hts : steps w cs = .ok ts) (hperm : sorted.Perm ts)
    (hsorted : sorted.Pairwise fun a b => a.place ≤ b.place) :
    ∃ p, sweep w sorted = .ok p ∧ Outlines (heightAt cs) p.segments := by
  refine (sweep_spec hts hperm hsorted).resolve_left ?_
  rintro ⟨-, taken, htaken, hout⟩
  have := two_mul_abs_taken_le hts hperm htaken
  exact hout (holds_of_abs_le hbulk (by omega))

/-- With small absolute heights, the steps can be computed. -/
theorem steps_of_bulk {cs : List Contribution} (hbulk : w.Holds (bulk cs)) :
    ∃ ts, steps w cs = .ok ts := by
  refine steps_ok fun c hc => holds_of_abs_le hbulk ?_
  rw [abs_neg]
  refine List.single_le_sum (fun x hx => ?_) _ (List.mem_map_of_mem (f := fun c => |c.height|) hc)
  obtain ⟨c, -, rfl⟩ := List.mem_map.1 hx
  exact abs_nonneg _

/-- With small absolute heights every sorter gives an outline of the height. -/
theorem build_outlines {cs : List Contribution} (hbulk : w.Holds (bulk cs)) (sorter : Sorter Step.place) :
    ∃ p, build w cs sorter = .ok p ∧ Outlines (heightAt cs) p.segments := by
  obtain ⟨ts, hts⟩ := steps_of_bulk hbulk
  unfold build
  rw [hts, ok_bind]
  exact sweep_outlines hbulk hts (sorter.perm ts) (sorter.sorted ts)

/-- **A profile is the step function of its contributions.** If the absolute heights, of whichever
signs, sum to a value of the width, then the profile is computed, whatever order the steps of one
place are sorted in. Its stretches are not empty, ascending and disjoint, have heights other than
zero, and other heights than the stretches that they touch; a point lies in a stretch of a height if
and only if that is the sum of the heights of the contributions at the point, and not zero. So
contributions with the same sums, in any order and number, have the same profile. The stretches
above a limit are ascending, do not touch, and cover the points where the sum is not zero and
exceeds the limit. -/
theorem build_step_function {cs : List Contribution} (hbulk : w.Holds (cs.map fun c => |c.height|).sum) :
    ∃ p, (∀ sorter, build w cs sorter = .ok p) ∧
      (∃ ts, steps w cs = .ok ts ∧ ∀ sorted : List Step, sorted.Perm ts →
        sorted.Pairwise (fun a b => a.place ≤ b.place) → sweep w sorted = .ok p) ∧
      (∀ g ∈ p.segments, ¬ g.span.IsEmpty ∧ g.height ≠ 0) ∧
      p.segments.Pairwise (fun g h =>
        g.span.stop ≤ h.span.start ∧ (g.span.stop = h.span.start → g.height ≠ h.height)) ∧
      (∀ x y, (∃ g ∈ p.segments, x ∈ g.span ∧ g.height = y) ↔ heightAt cs x = y ∧ y ≠ 0) ∧
      (∀ cs' : List Contribution, w.Holds (cs'.map fun c => |c.height|).sum →
        (∀ x, heightAt cs' x = heightAt cs x) → ∀ sorter, build w cs' sorter = .ok p) ∧
      ∀ limit, (∀ s ∈ p.above limit, ¬ s.IsEmpty) ∧
        (p.above limit).Pairwise (fun s t => s.stop < t.start) ∧
        ∀ x, Covered (p.above limit) x ↔ heightAt cs x ≠ 0 ∧ limit < heightAt cs x := by
  obtain ⟨p, -, houtline⟩ := build_outlines hbulk (.stable Step.place)
  -- whatever outlines the same heights is the same profile
  have same : ∀ {q : Profile}, Outlines (heightAt cs) q.segments → q = p := fun hq =>
    congrArg Profile.mk (hq.unique houtline)
  refine ⟨p, fun sorter => ?_, ?_, fun g hg => ⟨?_, houtline.ne_zero g hg⟩, houtline.ascending,
    houtline.exists_iff, fun cs' hbulk' hsame sorter => ?_, fun limit => ?_⟩
  · obtain ⟨q, hq, hq'⟩ := build_outlines hbulk sorter
    rw [hq, same hq']
  · obtain ⟨ts, hts⟩ := steps_of_bulk hbulk
    refine ⟨ts, hts, fun sorted hperm hsorted => ?_⟩
    obtain ⟨q, hq, hq'⟩ := sweep_outlines hbulk hts hperm hsorted
    rw [hq, same hq']
  · exact Int.ne_of_lt (houtline.nonempty g hg)
  · obtain ⟨q, hq, hq'⟩ := build_outlines hbulk' sorter
    rw [show heightAt cs' = heightAt cs from funext hsame] at hq'
    rw [hq, same hq']
  · exact ⟨Span.not_isEmpty_merge _, Span.pairwise_merge _, covered_above houtline limit⟩

/-- Two columns that abut, a dip that takes the first one down to zero, and a contribution without
points: their absolute heights sum to the greatest byte, and any order gives the same two stretches. -/
theorem build_step_function_dip :
    let cs : List Contribution := [⟨⟨3, 5, by decide⟩, 40⟩, ⟨⟨0, 3, by decide⟩, 40⟩,
      ⟨⟨1, 2, by decide⟩, -40⟩, ⟨⟨7, 7, by decide⟩, 7⟩]
    Width.w8.Holds (cs.map fun c => |c.height|).sum ∧
      ∃ p, (∀ sorter, build .w8 cs sorter = .ok p ∧ build .w8 cs.reverse sorter = .ok p) ∧
        (∃ g ∈ p.segments, (4 : Int) ∈ g.span ∧ g.height = 40) ∧ ¬ Covered (p.above (-1)) 1 ∧
        Covered (p.above 10) 4 := by
  intro cs
  have hbulk : Width.w8.Holds (cs.map fun c => |c.height|).sum := by decide
  obtain ⟨p, hp, -, -, -, hexists, hsame, habove⟩ := build_step_function hbulk
  refine ⟨hbulk, p, fun sorter => ⟨hp sorter, hsame _ (by decide) (fun x => ?_) sorter⟩,
    (hexists 4 40).2 (by decide), fun hc => ?_, ?_⟩
  · exact (cs.reverse_perm.map _).sum_eq
  · exact absurd (((habove (-1)).2.2 1).1 hc).1 (by decide)
  · exact ((habove 10).2.2 4).2 (by decide)

end Profile
end Placement
