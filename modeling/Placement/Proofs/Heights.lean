/-
# What a profile says

The height of a list of contributions at a point is the sum of the heights of those that cover
it (`heightAt`). The steps of the contributions up to a point sum to the height there
(`Profile.rise_steps`), and the running sum of the sweep is that sum at every point up to the next
step. So a sweep that ends well has found the stretches on which the height is constant and not
zero, each as long as it can be (`Profile.Outlines`).

The sweep keeps the stretches that it has found before the place where it stands
(`Profile.Sketch`). A sweep can fail only because the running sum leaves the width on the way. When
it does depends on the order of the steps at one place, so what is said of a profile is said for
every sorter of its steps, with the sums of the steps in its order (`Profile.build_spec`).
-/

import Placement.Profile
import Placement.Proofs.Writing
import Mathlib.Algebra.BigOperators.Group.List.Basic
import Mathlib.Tactic.Linarith

namespace Placement

variable {w : Width}

/-- The height of the contributions at a point. -/
def heightAt (cs : List Contribution) (x : Int) : Int :=
  (cs.map fun c => if x ∈ c.span then c.height else 0).sum

/-- A negation is computed exactly if it is a value of the width. -/
theorem Width.negChecked_eq_ok {x y : Int} : w.negChecked x = .ok y ↔ w.Holds (-x) ∧ y = -x := by
  unfold negChecked
  split <;> simp_all [eq_comm]

/-- A value that is not negative can be negated. -/
theorem Width.holds_neg {x : Int} (h : w.Holds x) (hpos : 0 ≤ x) : w.Holds (-x) := by
  cases w with
  | word top _ => simp only [Holds] at h ⊢; omega
  | unbounded => trivial

namespace Profile

/-- The sum of the steps up to a point. -/
def rise (steps : List Step) (x : Int) : Int :=
  (steps.map fun t => if t.place ≤ x then t.delta else 0).sum

/-- The first step counts from its place on. -/
theorem rise_cons (t : Step) (ts : List Step) (x : Int) :
    rise (t :: ts) x = (if t.place ≤ x then t.delta else 0) + rise ts x := by
  rw [rise, List.map_cons, List.sum_cons]
  rfl

/-- Before the first step there is no height. -/
theorem rise_of_lt {ts : List Step} {x : Int} (h : ∀ t ∈ ts, x < t.place) : rise ts x = 0 := by
  induction ts with
  | nil => rfl
  | cons t ts ih =>
    have := h t List.mem_cons_self
    rw [rise_cons, ih fun u hu => h u (List.mem_cons_of_mem _ hu), if_neg (by omega), Int.add_zero]

/-! ## The sweep -/

/-- The stretches, newest first, are the maximal ones before `x` on which the function is constant and
not zero. -/
structure Sketch (F : Int → Int) (x : Int) (done : List Segment) : Prop where
  nonempty : ∀ g ∈ done, g.span.start < g.span.stop
  ne_zero : ∀ g ∈ done, g.height ≠ 0
  stop_le : ∀ g ∈ done, g.span.stop ≤ x
  descending : done.Pairwise fun h g =>
    g.span.stop ≤ h.span.start ∧ (g.span.stop = h.span.start → g.height ≠ h.height)
  height : ∀ g ∈ done, ∀ y ∈ g.span, F y = g.height
  complete : ∀ y < x, F y ≠ 0 → ∃ g ∈ done, y ∈ g.span

/-- The stretches, ascending, are the maximal ones on which the function is constant and not zero. -/
structure Outlines (F : Int → Int) (segments : List Segment) : Prop where
  nonempty : ∀ g ∈ segments, g.span.start < g.span.stop
  ne_zero : ∀ g ∈ segments, g.height ≠ 0
  ascending : segments.Pairwise fun g h =>
    g.span.stop ≤ h.span.start ∧ (g.span.stop = h.span.start → g.height ≠ h.height)
  height : ∀ g ∈ segments, ∀ y ∈ g.span, F y = g.height
  complete : ∀ y, F y ≠ 0 → ∃ g ∈ segments, y ∈ g.span

namespace Sketch

variable {F : Int → Int} {done older : List Segment} {last : Segment} {start stop height : Int}

/-- A stretch on which the function is zero. -/
theorem skip (h : Sketch F start done) (hle : start ≤ stop)
    (hF : ∀ y, start ≤ y → y < stop → F y = 0) : Sketch F stop done where
  nonempty := h.nonempty
  ne_zero := h.ne_zero
  stop_le g hg := Int.le_trans (h.stop_le g hg) hle
  descending := h.descending
  height := h.height
  complete y hy hne := h.complete y (Int.not_le.1 fun hge => hne (hF y hge hy)) hne

/-- A new stretch, which does not continue the last one at its height. -/
theorem cons (h : Sketch F start done) (hlt : start < stop) (hne : height ≠ 0)
    (hF : ∀ y, start ≤ y → y < stop → F y = height)
    (hlast : ∀ last ∈ done.head?, ¬ (last.span.stop = start ∧ last.height = height)) :
    Sketch F stop (⟨⟨start, stop, Int.le_of_lt hlt⟩, height⟩ :: done) := by
  refine ⟨List.forall_mem_cons.2 ⟨hlt, h.nonempty⟩, List.forall_mem_cons.2 ⟨hne, h.ne_zero⟩,
    List.forall_mem_cons.2 ⟨Int.le_refl _, fun g hg => ?_⟩,
    List.pairwise_cons.2 ⟨fun g hg => ⟨h.stop_le g hg, fun htouch => ?_⟩, h.descending⟩,
    List.forall_mem_cons.2 ⟨fun y hy => hF y hy.1 hy.2, h.height⟩, fun y hy hFy => ?_⟩
  · have := h.stop_le g hg
    omega
  · -- only the last stretch can touch the new one
    cases done with
    | nil => simp at hg
    | cons last older =>
      rcases List.mem_cons.1 hg with rfl | hg'
      · exact fun heq => hlast g rfl ⟨htouch, heq⟩
      · have hbelow := ((List.pairwise_cons.1 h.descending).1 g hg').1
        have hshort := h.nonempty last List.mem_cons_self
        have hstop := h.stop_le last List.mem_cons_self
        simp only at htouch
        omega
  · rcases Int.lt_or_le y start with hlt' | hge
    · obtain ⟨g, hg, hyg⟩ := h.complete y hlt' hFy
      exact ⟨g, List.mem_cons_of_mem _ hg, hyg⟩
    · exact ⟨_, List.mem_cons_self, hge, hy⟩

/-- The last stretch, continued at its height. -/
theorem prolong (h : Sketch F start (last :: older)) (hlt : start < stop)
    (hF : ∀ y, start ≤ y → y < stop → F y = last.height) (hstop : last.span.stop = start)
    (hle : last.span.start ≤ stop) :
    Sketch F stop (⟨⟨last.span.start, stop, hle⟩, last.height⟩ :: older) := by
  obtain ⟨hshort, hnonempty⟩ := List.forall_mem_cons.1 h.nonempty
  obtain ⟨hne, hne_zero⟩ := List.forall_mem_cons.1 h.ne_zero
  obtain ⟨-, hstop_le⟩ := List.forall_mem_cons.1 h.stop_le
  obtain ⟨hbelow, hdescending⟩ := List.pairwise_cons.1 h.descending
  obtain ⟨hheight, hheights⟩ := List.forall_mem_cons.1 h.height
  refine ⟨List.forall_mem_cons.2 ⟨by dsimp only; omega, hnonempty⟩,
    List.forall_mem_cons.2 ⟨hne, hne_zero⟩,
    List.forall_mem_cons.2 ⟨Int.le_refl _, fun g hg => ?_⟩,
    List.pairwise_cons.2 ⟨hbelow, hdescending⟩,
    List.forall_mem_cons.2 ⟨fun y hy => ?_, hheights⟩, fun y hy hFy => ?_⟩
  · have := hstop_le g hg
    omega
  · rcases Int.lt_or_le y start with hlt' | hge
    · exact hheight y ⟨hy.1, by omega⟩
    · exact hF y hge hy.2
  · rcases Int.lt_or_le y start with hlt' | hge
    · obtain ⟨g, hg, hyg⟩ := h.complete y hlt' hFy
      rcases List.mem_cons.1 hg with rfl | hg
      · exact ⟨_, List.mem_cons_self, hyg.1, hy⟩
      · exact ⟨g, List.mem_cons_of_mem _ hg, hyg⟩
    · exact ⟨_, List.mem_cons_self, by dsimp only [Span.mem_iff]; omega, hy⟩

/-- Where the function is zero from the sweep's place on, nothing is missing. -/
theorem outlines {x : Int} (h : Sketch F x done) (hF : ∀ y, x ≤ y → F y = 0) :
    Outlines F done.reverse where
  nonempty g hg := h.nonempty g (List.mem_reverse.1 hg)
  ne_zero g hg := h.ne_zero g (List.mem_reverse.1 hg)
  ascending := List.pairwise_reverse.2 h.descending
  height g hg := h.height g (List.mem_reverse.1 hg)
  complete y hne := by
    obtain ⟨g, hg, hyg⟩ := h.complete y (Int.not_le.1 fun hge => hne (hF y hge)) hne
    exact ⟨g, List.mem_reverse.2 hg, hyg⟩

end Sketch

/-- One stretch more. -/
theorem extend_spec {F : Int → Int} {done : List Segment} {start stop height : Int}
    (hd : Sketch F start done) (hlt : start < stop) (hF : ∀ x, start ≤ x → x < stop → F x = height) :
    ∃ done', extend done start stop height = .ok done' ∧ Sketch F stop done' := by
  unfold extend
  split
  · next hzero => exact ⟨done, rfl, hd.skip (Int.le_of_lt hlt) fun y h₁ h₂ => (hF y h₁ h₂).trans hzero⟩
  · next hne =>
    cases done with
    | nil => exact ⟨_, by rw [Span.make_of_le (Int.le_of_lt hlt)]; rfl, hd.cons hlt hne hF nofun⟩
    | cons last older =>
      dsimp only
      split
      · next hjoin =>
        obtain ⟨hstop, rfl⟩ := hjoin
        have hle : last.span.start ≤ stop := by
          have := last.span.start_le_stop
          omega
        exact ⟨_, by rw [Span.make_of_le hle]; rfl, hd.prolong hlt hF hstop hle⟩
      · next hjoin =>
        refine ⟨_, by rw [Span.make_of_le (Int.le_of_lt hlt)]; rfl, hd.cons hlt hne hF ?_⟩
        rintro _ ⟨⟩
        exact hjoin

/-- **The running sum is the height up to the next step.** If `F` is the running height plus the
steps that are left, from the next step on, then the sweep ends with the height of all steps and
the stretches of `F` before the last step, or its sum leaves the width after some of the steps. -/
theorem sweepFrom_spec (w : Width) (F : Int → Int) (height : Int) (done : List Segment) {steps : List Step}
    {x : Int} (hs : steps.Pairwise fun a b => a.place ≤ b.place) (hd : Sketch F x done)
    (hx : ∀ t ∈ steps.head?, t.place = x) (hF : ∀ y, x ≤ y → F y = height + rise steps y) :
    (sweepFrom w height done steps = .error .addOverflow ∧
        ∃ taken, taken <+: steps ∧ ¬ w.Holds (height + (taken.map Step.delta).sum)) ∨
      ∃ done' x', sweepFrom w height done steps = .ok (height + (steps.map Step.delta).sum, done') ∧
        Sketch F x' done' ∧ ∀ y, x' ≤ y → F y = height + (steps.map Step.delta).sum := by
  induction steps generalizing height done x with
  | nil => exact .inr ⟨done, x, by simp [sweepFrom, pure, Except.pure], hd, hF⟩
  | cons t ts ih =>
    obtain ⟨ht, hts⟩ := List.pairwise_cons.1 hs
    obtain rfl := hx t rfl
    have hnext : ∀ y, t.place ≤ y → F y = height + t.delta + rise ts y := fun y hy => by
      rw [hF y hy, rise_cons, if_pos hy, Int.add_assoc]
    have hadd : (w.addChecked height t.delta = .error .addOverflow ∧ ¬ w.Holds (height + t.delta)) ∨
        w.addChecked height t.delta = .ok (height + t.delta) := by
      unfold Width.addChecked
      split
      · exact .inr rfl
      · next hout => exact .inl ⟨rfl, hout⟩
    rcases hadd with ⟨hadd, hout⟩ | hadd
    · refine .inl ⟨?_, [t], ⟨ts, rfl⟩, by simpa using hout⟩
      cases ts with
      | nil => rw [sweepFrom, hadd]; rfl
      | cons u us => rw [sweepFrom, hadd]; rfl
    · cases ts with
      | nil =>
        right
        refine ⟨done, t.place, ?_, hd, fun y hy => ?_⟩
        · rw [sweepFrom, hadd]
          simp [bind, Except.bind, pure, Except.pure]
        · simpa [rise] using hnext y hy
      | cons u us =>
        have htu := ht u List.mem_cons_self
        -- up to the next step no further step has been taken
        have hstretch : ∀ y, t.place ≤ y → y < u.place → F y = height + t.delta := fun y hy hyu => by
          rw [hnext y hy, rise_of_lt, Int.add_zero]
          intro v hv
          rcases List.mem_cons.1 hv with rfl | hv
          · exact hyu
          · exact Int.lt_of_lt_of_le hyu ((List.pairwise_cons.1 hts).1 v hv)
        obtain ⟨done', hstep, hd'⟩ : ∃ done', sweepFrom w height done (t :: u :: us) =
            sweepFrom w (height + t.delta) done' (u :: us) ∧ Sketch F u.place done' := by
          rw [sweepFrom, hadd, ok_bind]
          dsimp only
          split
          · next heq => exact ⟨done, rfl, heq ▸ hd⟩
          · next hne =>
            obtain ⟨done', he, hd'⟩ := extend_spec hd (lt_of_le_of_ne htu hne) hstretch
            exact ⟨done', by rw [he, ok_bind], hd'⟩
        rw [hstep, List.map_cons, List.sum_cons, ← Int.add_assoc]
        refine (ih _ _ hts hd' (by rintro _ ⟨⟩; rfl) fun y hy => hnext y (by omega)).imp_left ?_
        rintro ⟨he, taken, htaken, hout⟩
        refine ⟨he, t :: taken, List.cons_prefix_cons.2 ⟨rfl, htaken⟩, ?_⟩
        rwa [List.map_cons, List.sum_cons, ← Int.add_assoc]

/-! ## The steps of contributions -/

/-- The first contribution counts where it lies. -/
theorem heightAt_cons (c : Contribution) (cs : List Contribution) (x : Int) :
    heightAt (c :: cs) x = (if x ∈ c.span then c.height else 0) + heightAt cs x := by
  rw [heightAt, List.map_cons, List.sum_cons]
  rfl

/-- The steps of contributions: a contribution gives none, or one up at its start and one down at its
end. -/
theorem steps_cons {c : Contribution} {cs : List Contribution} {ts : List Step} :
    steps w (c :: cs) = .ok ts ↔
      (c.span.IsEmpty ∨ c.height = 0) ∧ steps w cs = .ok ts ∨
        ¬ (c.span.IsEmpty ∨ c.height = 0) ∧ w.Holds (-c.height) ∧
          ∃ rest, steps w cs = .ok rest ∧ ts = ⟨c.span.start, c.height⟩ :: ⟨c.span.stop, -c.height⟩ :: rest := by
  rw [steps]
  split
  · next hskip => simp [hskip]
  · next hskip =>
    simp only [bind_eq_ok, Width.negChecked_eq_ok, pure_eq_ok, hskip, false_and, false_or, not_false_eq_true,
      true_and]
    constructor
    · rintro ⟨_, ⟨hholds, rfl⟩, rest, hrest, rfl⟩
      exact ⟨hholds, rest, hrest, rfl⟩
    · rintro ⟨hholds, rest, hrest, rfl⟩
      exact ⟨_, ⟨hholds, rfl⟩, rest, hrest, rfl⟩

/-- Positive heights can be taken back. -/
theorem holds_falls {cs : List Contribution} (hcs : ∀ c ∈ cs, 0 < c.height ∧ w.Holds c.height) :
    ∀ c ∈ cs, w.Holds (-c.height) := fun c hc =>
  Width.holds_neg (hcs c hc).2 (Int.le_of_lt (hcs c hc).1)

/-- Contributions whose heights can be taken back have steps. -/
theorem steps_ok {cs : List Contribution} (hcs : ∀ c ∈ cs, w.Holds (-c.height)) :
    ∃ ts, steps w cs = .ok ts := by
  induction cs with
  | nil => exact ⟨[], rfl⟩
  | cons c cs ih =>
    obtain ⟨hc, hcs⟩ := List.forall_mem_cons.1 hcs
    obtain ⟨ts, hts⟩ := ih hcs
    by_cases hskip : c.span.IsEmpty ∨ c.height = 0
    · exact ⟨ts, steps_cons.2 (.inl ⟨hskip, hts⟩)⟩
    · exact ⟨_, steps_cons.2 (.inr ⟨hskip, hc, ts, hts, rfl⟩)⟩

/-- **The steps sum to the height** at every point, and to nothing in all. -/
theorem rise_steps {cs : List Contribution} {ts : List Step} (hts : steps w cs = .ok ts) :
    (∀ x, rise ts x = heightAt cs x) ∧ (ts.map Step.delta).sum = 0 := by
  induction cs generalizing ts with
  | nil =>
    cases hts
    exact ⟨fun _ => rfl, rfl⟩
  | cons c cs ih =>
    rcases steps_cons.1 hts with ⟨hskip, hts⟩ | ⟨-, -, rest, hrest, rfl⟩
    · obtain ⟨hrise, hsum⟩ := ih hts
      refine ⟨fun x => ?_, hsum⟩
      rw [heightAt_cons, hrise]
      rcases hskip with hempty | hzero
      · rw [if_neg (Span.isEmpty_iff.1 hempty x), Int.zero_add]
      · simp [hzero]
    · obtain ⟨hrise, hsum⟩ := ih hrest
      refine ⟨fun x => ?_, ?_⟩
      · rw [rise_cons, rise_cons, heightAt_cons, hrise]
        have := c.span.start_le_stop
        simp only [Span.mem_iff]
        split <;> split <;> split <;> omega
      · simp only [List.map_cons, List.sum_cons, hsum]
        omega

/-- **A sweep tells the height of the contributions**, in whichever order the steps of one place come,
unless the sum of the first steps leaves the width. -/
theorem sweep_spec {cs : List Contribution} {ts sorted : List Step} (hts : steps w cs = .ok ts)
    (hperm : sorted.Perm ts) (hsorted : sorted.Pairwise fun a b => a.place ≤ b.place) :
    (sweep w sorted = .error .addOverflow ∧
        ∃ taken, taken <+: sorted ∧ ¬ w.Holds (taken.map Step.delta).sum) ∨
      ∃ p, sweep w sorted = .ok p ∧ Outlines (heightAt cs) p.segments := by
  obtain ⟨hrise, hsum⟩ := rise_steps hts
  have hheight : ∀ x, heightAt cs x = 0 + rise sorted x := fun x => by
    rw [← hrise x, Int.zero_add]
    exact ((hperm.map _).sum_eq).symm
  have hall : 0 + (sorted.map Step.delta).sum = 0 := by rw [(hperm.map _).sum_eq, hsum, Int.zero_add]
  -- nothing rises before the first step
  obtain ⟨x, hx, hbefore⟩ : ∃ x, (∀ t ∈ sorted.head?, t.place = x) ∧ ∀ t ∈ sorted, x ≤ t.place := by
    cases sorted with
    | nil => exact ⟨0, nofun, nofun⟩
    | cons t ts => exact ⟨t.place, by rintro _ ⟨⟩; rfl, List.forall_mem_cons.2
        ⟨Int.le_refl _, (List.pairwise_cons.1 hsorted).1⟩⟩
  have hstart : Sketch (heightAt cs) x [] := by
    refine ⟨nofun, nofun, nofun, .nil, nofun, fun y hy hne => absurd ?_ hne⟩
    rw [hheight, rise_of_lt fun t ht => Int.lt_of_lt_of_le hy (hbefore t ht), Int.zero_add]
  unfold sweep
  rcases sweepFrom_spec w (heightAt cs) 0 [] hsorted hstart hx fun y _ => hheight y with
    ⟨he, taken, htaken, hout⟩ | ⟨done, x', he, hd, hend⟩
  · rw [Int.zero_add] at hout
    exact .inl ⟨by rw [he]; rfl, taken, htaken, hout⟩
  · rw [hall] at he hend
    exact .inr ⟨⟨done.reverse⟩, by rw [he]; rfl, hd.outlines hend⟩

/-- **A profile tells the height of its contributions**, however its steps are sorted, unless the sum
of the first of the sorted steps leaves the width. -/
theorem build_spec {cs : List Contribution} (hcs : ∀ c ∈ cs, w.Holds (-c.height))
    (sorter : Sorter Step.place) :
    (build w cs sorter = .error .addOverflow ∧ ∃ ts taken, steps w cs = .ok ts ∧ taken <+: sorter.sort ts ∧
        ¬ w.Holds (taken.map Step.delta).sum) ∨
      ∃ p, build w cs sorter = .ok p ∧ Outlines (heightAt cs) p.segments := by
  obtain ⟨ts, hts⟩ := steps_ok hcs
  unfold build
  rw [hts, ok_bind]
  refine (sweep_spec hts (sorter.perm ts) (sorter.sorted ts)).imp_left ?_
  rintro ⟨he, taken, htaken, hout⟩
  exact ⟨he, ts, taken, rfl, htaken, hout⟩

/-- The order of the steps of one place decides whether a sum leaves the width: of two contributions that
abut, the one on the right is listed first. Where its rise comes before the fall of the other, the sum
passes through 220; where falls come first, it stays at 110. -/
example :
    let cs : List Contribution := [⟨⟨2, 4, by decide⟩, 110⟩, ⟨⟨0, 2, by decide⟩, 110⟩]
    let fallsFirst : Sorter Step.place := ⟨fun ts => sortOn Step.place (sortOn Step.delta ts),
      fun ts => (sortOn_perm _ _).trans (sortOn_perm _ ts), fun _ => pairwise_sortOn _ _⟩
    build .w8 cs (.stable _) = .error .addOverflow ∧
      build .w8 cs fallsFirst = .ok ⟨[⟨⟨0, 4, by decide⟩, 110⟩]⟩ := by
  decide

end Profile
end Placement
