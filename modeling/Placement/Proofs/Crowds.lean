/-
# When the height of a profile stays in its width

All arithmetic is clamped but that of the sweep: there the running height must stay in the width,
and a narrowing that sees it leave is at fault, even if the store has a solution
(`Session.narrow_overflows`).

The running height is bounded by what is crowded at one place. While the sweep takes the steps at a
place, in whatever order, it has at most the height of all contributions that touch the place, those
that end or start there included (`Profile.holds_taken`). A contribution is a part of a mandatory
part, so it touches no more places than its rectangle can, and is no higher than its rectangle can be
(`Region.contributions_crest`). So if the greatest lengths along any dimension of the rectangles that
can touch one place along another add up to a value of the width (`Disjoint.Uncrowded`), no
narrowing is at fault (`Session.narrow_never_overflows`). Shrinking domains keep this
(`crowdAt_shrinks`).
-/

import Placement.Proofs.Failures
import Mathlib.Algebra.Order.BigOperators.Group.List

namespace Placement

open Neighborhood

variable {w : Width}

/-- The height of the contributions that touch a place, with those that end there. -/
def crestAt (cs : List Contribution) (p : Int) : Int :=
  (cs.map fun c => if c.span.start ≤ p ∧ p ≤ c.span.stop then c.height else 0).sum

namespace Profile

/-! ## The running height of a sweep -/

/-- The sum of the steps before a place, and of what `f` makes of those at the place. -/
def riseTo (f : Int → Int) (ts : List Step) (p : Int) : Int :=
  (ts.map fun t => if t.place < p then t.delta else if t.place = p then f t.delta else 0).sum

/-- The first step counts before its place, and as `f` says at it. -/
theorem riseTo_cons (f : Int → Int) (t : Step) (ts : List Step) (p : Int) :
    riseTo f (t :: ts) p =
      (if t.place < p then t.delta else if t.place = p then f t.delta else 0) + riseTo f ts p := by
  rw [riseTo, List.map_cons, List.sum_cons]
  rfl

/-- The sum up to a place does not depend on the order of the steps. -/
theorem riseTo_perm (f : Int → Int) {ts us : List Step} (h : ts.Perm us) (p : Int) :
    riseTo f ts p = riseTo f us p := (h.map _).sum_eq

/-- Steps from a place on that are not taken yet: at the place some rise and some fall. -/
theorem riseTo_left {left : List Step} {p : Int} (h : ∀ t ∈ left, p ≤ t.place) :
    riseTo (min 0) left p ≤ 0 ∧ 0 ≤ riseTo (max 0) left p := by
  induction left with
  | nil => exact ⟨Int.le_refl 0, Int.le_refl 0⟩
  | cons t ts ih =>
    obtain ⟨ht, hts⟩ := List.forall_mem_cons.1 h
    have := ih hts
    simp only [riseTo_cons]
    grind

/-- Of the steps at a place, those that rise give the most and those that fall the least that the steps
taken so far can sum to. -/
theorem sum_between {taken left : List Step} {p : Int} (htaken : ∀ t ∈ taken, t.place ≤ p)
    (hleft : ∀ t ∈ left, p ≤ t.place) :
    riseTo (min 0) (taken ++ left) p ≤ (taken.map Step.delta).sum ∧
      (taken.map Step.delta).sum ≤ riseTo (max 0) (taken ++ left) p := by
  induction taken with
  | nil => exact riseTo_left hleft
  | cons t ts ih =>
    obtain ⟨ht, hts⟩ := List.forall_mem_cons.1 htaken
    have := ih hts
    simp only [List.cons_append, riseTo_cons, List.map_cons, List.sum_cons]
    grind

/-- The steps of contributions: a contribution has fallen wherever it ends, so what is left is between
nothing and the height of those that touch the place. -/
theorem riseTo_steps {cs : List Contribution} (hcs : ∀ c ∈ cs, 0 < c.height) {ts : List Step}
    (hts : steps w cs = .ok ts) (p : Int) : 0 ≤ riseTo (min 0) ts p ∧ riseTo (max 0) ts p ≤ crestAt cs p := by
  induction cs generalizing ts with
  | nil =>
    cases hts
    exact ⟨Int.le_refl 0, Int.le_refl 0⟩
  | cons c cs ih =>
    obtain ⟨hc, hcs⟩ := List.forall_mem_cons.1 hcs
    have hle := c.span.start_le_stop
    have hcrest : crestAt (c :: cs) p =
        (if c.span.start ≤ p ∧ p ≤ c.span.stop then c.height else 0) + crestAt cs p := by
      rw [crestAt, List.map_cons, List.sum_cons]
      rfl
    rcases steps_cons.1 hts with ⟨-, hts⟩ | ⟨hnot, -, rest, hrest, rfl⟩
    · obtain ⟨hleast, hmost⟩ := ih hcs hts
      refine ⟨hleast, ?_⟩
      rw [hcrest]
      split <;> omega
    · obtain ⟨hleast, hmost⟩ := ih hcs hrest
      have hlt : c.span.start < c.span.stop := lt_of_le_of_ne hle fun h => hnot (.inl h)
      simp only [riseTo_cons, hcrest]
      grind

/-- **The running height is bounded by what touches one place.** Of the steps of contributions, sorted by
place in any way, take the first ones: they sum to a value of the width, if all that touches one
place does. -/
theorem holds_taken {cs : List Contribution} (hcs : ∀ c ∈ cs, 0 < c.height) {ts sorted : List Step}
    (hts : steps w cs = .ok ts) (hperm : sorted.Perm ts)
    (hsorted : sorted.Pairwise fun a b => a.place ≤ b.place) (hcrest : ∀ p, w.Holds (crestAt cs p))
    {taken : List Step} (htaken : taken <+: sorted) : w.Holds (taken.map Step.delta).sum := by
  obtain ⟨left, rfl⟩ := htaken
  obtain ⟨hbefore, -, hacross⟩ := List.pairwise_append.1 hsorted
  rcases taken.eq_nil_or_concat with rfl | ⟨first, last, rfl⟩
  · exact w.holds_zero
  · rw [List.concat_eq_append] at *
    have hfirst : ∀ t ∈ first ++ [last], t.place ≤ last.place := fun t ht => by
      rcases List.mem_append.1 ht with ht | ht
      · exact (List.pairwise_append.1 hbefore).2.2 t ht last List.mem_cons_self
      · rw [List.mem_singleton.1 ht]
    have hlast : ∀ t ∈ left, last.place ≤ t.place := fun t ht => hacross last (by simp) t ht
    obtain ⟨hleast, hmost⟩ := sum_between hfirst hlast
    rw [riseTo_perm _ hperm] at hleast hmost
    obtain ⟨hnonneg, hle⟩ := riseTo_steps hcs hts last.place
    exact w.holds_between w.holds_zero (hcrest last.place) (by omega) (by omega)

/-- Where no crest leaves the width, no sum of steps does, however they are sorted. -/
theorem build_of_crest {cs : List Contribution} (hcs : ∀ c ∈ cs, 0 < c.height ∧ w.Holds c.height)
    (hcrest : ∀ p, w.Holds (crestAt cs p)) (sorter : Sorter Step.place) :
    build w cs sorter ≠ .error .addOverflow := by
  intro hover
  rcases build_spec (holds_falls hcs) sorter with ⟨-, ts, taken, hts, htaken, hout⟩ | ⟨p, hp, -⟩
  · exact hout (holds_taken (fun c hc => (hcs c hc).1) hts (sorter.perm ts) (sorter.sorted ts) hcrest htaken)
  · cases hover.symm.trans hp

end Profile

/-! ## Crowds -/

/-- The place lies between the earliest start and the latest stop. -/
def Extent.Touches (e : Extent w) (p : Int) : Prop := e.origin.lo ≤ p ∧ p ≤ w.add e.origin.hi e.length.hi

instance (e : Extent w) (p : Int) : Decidable (e.Touches p) := inferInstanceAs (Decidable (_ ∧ _))

/-- The greatest length along `j` of a rectangle that can touch the place `p` along `i`, if it can be
positive. -/
def Rectangle.loadAt (r : Rectangle) (s : Store w) (i j : Nat) (p : Int) : Int :=
  match (r.view s)[i]?, (r.view s)[j]? with
  | some d, some e => if d.Touches p then max 0 e.length.hi else 0
  | _, _ => 0

/-- The greatest length along `j`, if it can be positive. -/
def Rectangle.longest (r : Rectangle) (s : Store w) (j : Nat) : Int :=
  ((r.view s)[j]?).elim 0 fun e => max 0 e.length.hi

/-- What the rectangles at the given positions can have along `j` at the place `p` along `i`. -/
def crowdAt (s : Store w) (rectangles : List Rectangle) (i j : Nat) (p : Int) (ks : List Nat) : Int :=
  (ks.map fun n => (rectangles[n]?).elim 0 fun q => q.loadAt s i j p).sum

/-- For every rectangle, what the others can have along one dimension at a place along another is a value
of the width. -/
def Disjoint.Uncrowded (d : Disjoint) (s : Store w) : Prop :=
  ∀ (k : Nat) (r : Rectangle), d.rectangles[k]? = some r → ∀ i < r.dim, ∀ j < r.dim, i ≠ j → ∀ p,
    w.Holds (crowdAt s d.rectangles i j p (Candidates.others d.rectangles.length k))

namespace Rectangle

variable {r : Rectangle} {s t : Store w} {i j : Nat} {p : Int}

/-- A load is not negative. -/
theorem loadAt_nonneg (r : Rectangle) (s : Store w) (i j : Nat) (p : Int) : 0 ≤ r.loadAt s i j p := by
  rw [loadAt]
  split
  · split <;> omega
  · exact Int.le_refl 0

/-- No load exceeds the greatest length. -/
theorem loadAt_le_longest : r.loadAt s i j p ≤ r.longest s j := by
  rw [loadAt, longest]
  cases (r.view s)[j]? with
  | none =>
    split
    · contradiction
    · exact Int.le_refl 0
  | some e =>
    simp only [Option.elim_some]
    grind

/-- **A load only shrinks.** -/
theorem loadAt_shrinks (h : s.Shrinks t) (hk : r.Known s) : r.loadAt t i j p ≤ r.loadAt s i j p := by
  simp only [loadAt, view_getElem?]
  cases hx : r.sides[i]? with
  | none => exact Int.le_refl 0
  | some x =>
    cases hy : r.sides[j]? with
    | none => exact Int.le_refl 0
    | some y =>
      obtain ⟨⟨hlo, hhi⟩, ⟨-, hlength⟩⟩ := h.look hk (List.mem_of_getElem? hx)
      obtain ⟨-, ⟨-, hheight⟩⟩ := h.look hk (List.mem_of_getElem? hy)
      have hstop := w.clamp_mono (Int.add_le_add hhi hlength)
      simp only [Option.map_some, Extent.Touches, Width.add]
      grind

end Rectangle

section Crowd

variable {rectangles : List Rectangle} {s t : Store w} {i j : Nat} {p : Int} {ks ls : List Nat}

/-- The load at a position is not negative, also where there is no rectangle. -/
theorem load_nonneg (n : Nat) : 0 ≤ (rectangles[n]?).elim 0 fun q => q.loadAt s i j p := by
  cases rectangles[n]? with
  | none => exact Int.le_refl 0
  | some q => exact q.loadAt_nonneg s i j p

/-- The sum of loads is not negative. -/
theorem crowdAt_nonneg : 0 ≤ crowdAt s rectangles i j p ks :=
  List.sum_nonneg (List.forall_mem_map.2 fun n _ => load_nonneg n)

/-- Fewer rectangles are less of a crowd. -/
theorem crowdAt_sublist (h : ks.Sublist ls) :
    crowdAt s rectangles i j p ks ≤ crowdAt s rectangles i j p ls := by
  refine (h.map _).sum_le_sum fun a ha => ?_
  obtain ⟨n, -, rfl⟩ := List.mem_map.1 ha
  exact load_nonneg n

/-- **A crowd only shrinks.** -/
theorem crowdAt_shrinks (h : s.Shrinks t) (hk : ∀ q ∈ rectangles, q.Known s) :
    crowdAt t rectangles i j p ks ≤ crowdAt s rectangles i j p ks := by
  refine List.sum_le_sum fun n _ => ?_
  cases hn : rectangles[n]? with
  | none => exact Int.le_refl 0
  | some q => exact Rectangle.loadAt_shrinks h (hk q (List.mem_of_getElem? hn))

/-- A crowd is no more than the greatest lengths of its rectangles. -/
theorem crowdAt_le : crowdAt s rectangles i j p ks ≤
    (ks.map fun n => (rectangles[n]?).elim 0 fun q => q.longest s j).sum := by
  refine List.sum_le_sum fun n _ => ?_
  cases rectangles[n]? with
  | none => exact Int.le_refl 0
  | some q => exact q.loadAt_le_longest

/-- What some of the rectangles of a crowd have along `j` is a value of the width if what all have is, also
in a later store. -/
theorem holds_crowdAt (h : s.Shrinks t) (hk : ∀ q ∈ rectangles, q.Known s) (hsub : ks.Sublist ls)
    (hholds : w.Holds (crowdAt s rectangles i j p ls)) : w.Holds (crowdAt t rectangles i j p ks) :=
  w.holds_between w.holds_zero hholds crowdAt_nonneg ((crowdAt_shrinks h hk).trans (crowdAt_sublist hsub))

/-- Rectangles are not crowded if the greatest lengths along each dimension add up to a value of the
width. -/
theorem Disjoint.uncrowded_of_longest {d : Disjoint}
    (h : ∀ (k : Fin d.rectangles.length), ∀ j < d.rectangles[k].dim,
      w.Holds ((Candidates.others d.rectangles.length k).map fun n =>
        (d.rectangles[n]?).elim 0 fun q => q.longest s j).sum) : d.Uncrowded s := by
  intro k r hr i _ j hj _ p
  obtain ⟨hk, rfl⟩ := List.getElem?_eq_some_iff.1 hr
  exact w.holds_between w.holds_zero (h ⟨k, hk⟩ j hj) crowdAt_nonneg crowdAt_le

end Crowd

/-! ## Contributions -/

namespace Extent

variable {e : Extent w} {m : Span}

/-- A mandatory part with a point touches only places that the extent touches. -/
theorem touches_of_mandatory (hm : e.mandatory? = some m) {p : Int} (hle : m.start ≤ p)
    (hge : p ≤ m.stop) : e.Touches p := by
  obtain ⟨hstart, hstop⟩ := mandatory?_eq_some hm
  have horigin := e.origin.lo_le_hi
  have hmono : w.add e.origin.lo e.length.lo ≤ w.add e.origin.hi e.length.hi :=
    w.clamp_mono (Int.add_le_add horigin e.length.lo_le_hi)
  constructor <;> omega

/-- A mandatory part is no longer than the greatest length. -/
theorem length_mandatory_le (hm : e.mandatory? = some m) : m.stop - m.start ≤ max 0 e.length.hi := by
  obtain ⟨hstart, hstop⟩ := mandatory?_eq_some hm
  have horigin := e.origin.lo_le_hi
  have hlength := e.length.lo_le_hi
  have hadd : w.add e.origin.lo e.length.lo ≤ e.origin.lo + max 0 e.length.lo :=
    calc w.add e.origin.lo e.length.lo
      _ ≤ w.add e.origin.lo (max 0 e.length.lo) := w.clamp_mono (by omega)
      _ ≤ e.origin.lo + max 0 e.length.lo := Width.clamp_le_of_le e.origin.holds_lo (by omega)
  omega

end Extent

namespace Region

variable {s : Store w} {i j : Nat}

/-- The common part of two intervals is no longer than the first. -/
theorem overlap_le_length {a : Span} (b : Span) {n : Int} (hn : 0 ≤ n) (h : a.stop - a.start ≤ n) :
    a.overlap w b ≤ n := by
  rw [Span.overlap]
  split
  · next u hu =>
    obtain ⟨hlt, hstart, hstop⟩ := Span.inter?_eq_some hu
    have hle : u.length w ≤ u.stop - u.start := Width.clamp_le_self (by omega)
    omega
  · exact hn

/-- A contribution lies over a mandatory part along `i`, and is as high as one along `j`. -/
theorem contribution?_eq_some {q : Rectangle} (hk : q.Known s) {d e : Extent w} (hd : (q.view s)[i]? = some d)
    (he : (q.view s)[j]? = some e) {sweep reach : Span} {points : List (Nat × Int)} {c : Contribution}
    (hc : contribution? s q i j sweep reach points = .ok (some c)) :
    ∃ m part, d.mandatory? = some m ∧ m.inter? sweep = some c.span ∧ e.mandatory? = some part ∧
      c.height = part.overlap w reach := by
  rw [contribution?, hk.mandatory?_eq hd, ok_bind] at hc
  split at hc
  · cases hc
  · next along halong =>
    obtain ⟨m, hm, hinter⟩ := Option.bind_eq_some_iff.1 halong
    rw [hk.mandatory?_eq he, ok_bind] at hc
    split at hc
    · cases hc
    · next part hpart =>
      simp only [bind_eq_ok] at hc
      obtain ⟨shared, -, hc⟩ := hc
      split at hc
      · cases hc
        exact ⟨m, part, hm, hinter, hpart, rfl⟩
      · cases hc

/-- A contribution touches no more places than its rectangle can, and is no higher than it can be. -/
theorem contribution?_load {q : Rectangle} (hk : q.Known s) {sweep reach : Span} {points : List (Nat × Int)}
    (hi : i < q.dim) (hj : j < q.dim) {c : Contribution}
    (hc : contribution? s q i j sweep reach points = .ok (some c)) {p : Int} (hle : c.span.start ≤ p)
    (hge : p ≤ c.span.stop) : c.height ≤ q.loadAt s i j p := by
  have hd := List.getElem?_eq_getElem (show i < (q.view s).length by rwa [q.length_view])
  have he := List.getElem?_eq_getElem (show j < (q.view s).length by rwa [q.length_view])
  obtain ⟨m, part, hm, hinter, hpart, hheight⟩ := contribution?_eq_some hk hd he hc
  obtain ⟨-, hstart, hstop⟩ := Span.inter?_eq_some hinter
  have htouches := Extent.touches_of_mandatory hm (p := p) (by omega) (by omega)
  simp only [Rectangle.loadAt, hd, he, if_pos htouches, hheight]
  exact overlap_le_length reach (by omega) (Extent.length_mandatory_le hpart)

/-- **Contributions that touch a place are no higher than the crowd there.** -/
theorem contributions_crest {rectangles : List Rectangle} (hk : ∀ q ∈ rectangles, q.Known s)
    (hi : ∀ q ∈ rectangles, i < q.dim) (hj : ∀ q ∈ rectangles, j < q.dim) {sweep reach : Span}
    {points : List (Nat × Int)} {ks : List Nat} {cs : List Contribution}
    (hcs : contributions s rectangles i j sweep reach points ks = .ok cs) (p : Int) :
    crestAt cs p ≤ crowdAt s rectangles i j p ks := by
  induction ks generalizing cs with
  | nil =>
    cases hcs
    exact Int.le_refl 0
  | cons n ks ih =>
    simp only [contributions, bind_eq_ok, entry_eq_ok, pure_eq_ok] at hcs
    obtain ⟨q, hq, c?, hc, rest, hrest, rfl⟩ := hcs
    have hmem := List.mem_of_getElem? hq
    have hload : crestAt c?.toList p ≤ q.loadAt s i j p := by
      cases c? with
      | none => exact q.loadAt_nonneg s i j p
      | some c =>
        simp only [crestAt, Option.toList_some, List.map_cons, List.map_nil, List.sum_cons, List.sum_nil,
          Int.add_zero]
        split
        · next htouch => exact contribution?_load (hk q hmem) (hi q hmem) (hj q hmem) hc htouch.1 htouch.2
        · exact q.loadAt_nonneg s i j p
    have := ih hrest
    simp only [crestAt, List.map_append, List.sum_append] at hload this ⊢
    rw [crowdAt, List.map_cons, List.sum_cons, hq]
    exact Int.add_le_add hload this

/-- **Where nothing is crowded, every region of full profiles can be computed.** -/
theorem ofProfile_of_crowd {rectangles : List Rectangle} {r : Rectangle} (hu : Uniform rectangles s) {k : Nat}
    (hr : rectangles[k]? = some r) (hi : i < r.dim) (hj : j < r.dim) (hij : i ≠ j) {ks : List Nat}
    (hks : ∀ n ∈ ks, n < rectangles.length) (hcrowd : ∀ p, w.Holds (crowdAt s rectangles i j p ks))
    (sorter : Sorter Step.place) : ∃ regions, ofProfile s rectangles k i j ks sorter = .ok regions := by
  have hmem := List.mem_of_getElem? hr
  rcases ofProfile_ok hr (hu.known r hmem) hi hj hij (hu.readable hmem hks) sorter with
    ⟨-, sweep, reach, points, cs, hcs, hheights, hover⟩ | hok
  · have hdim : ∀ q ∈ rectangles, r.dim = q.dim := fun q hq => hu.dim_eq r hmem q hq
    refine absurd hover (Profile.build_of_crest hheights (fun p => ?_) sorter)
    have hnonneg : 0 ≤ crestAt cs p := List.sum_nonneg (List.forall_mem_map.2 fun c hc => by
      have := (hheights c hc).1
      split <;> omega)
    exact w.holds_between w.holds_zero (hcrowd p) hnonneg
      (contributions_crest hu.known (fun q hq => hdim q hq ▸ hi) (fun q hq => hdim q hq ▸ hj) hcs p)
  · exact hok

end Region

/-! ## Narrowing -/

/-- **A pass over rectangles that are not crowded is never at fault.** -/
theorem Disjoint.narrow_of_uncrowded {d : Disjoint} {s : Store w} (hk : ∀ q ∈ d.rectangles, q.Known s)
    (hready : ∀ t, d.Steps s t → d.Ready t) (hcrowd : d.mode ≠ .pairwise → d.Uncrowded s)
    (changed : List Var) :
    (d.narrow changed s).outcome = .ok () ∨ ∃ c, (d.narrow changed s).outcome = .error (.refuted c) := by
  cases ho : (d.narrow changed s).outcome with
  | ok u => exact .inl rfl
  | error e =>
    have he : ∃ c, e = .refuted c := by
      refine narrow_fails (E := fun e => ∃ c, e = .refuted c) hk hready changed (fun c => ⟨c, rfl⟩)
        (fun k r u cs hr hu hsub i hi f hf t ht c hc => ?_) ho
      have huniform : Uniform d.rectangles u := ⟨fun x hx => hu.known (hk x hx), d.uniform⟩
      have hmem := List.mem_of_getElem? hr
      have hok : ∃ regions, f t = .ok regions := by
        rcases Tighten.computed_or_profiled (huniform.known r hmem) (length_boxes_seen d.uniform hmem) hi hf
          with hok | ⟨sorter, hmode, j, hj, hij, rfl⟩
        · exact hok t ht
        · have hut : Uniform d.rectangles t := ⟨fun x hx => (hu.trans ht).known (hk x hx), d.uniform⟩
          have hprofiled := (Tighten.profiled_sublist u d.rectangles changed (r.view u) cs).trans hsub
          have hprofiles : d.mode ≠ .pairwise := hmode ▸ nofun
          refine Region.ofProfile_of_crowd hut hr hi hj hij (fun n hn => ?_) (fun p => ?_) sorter
          · exact (Candidates.mem_others.1 (hprofiled.subset hn)).1
          · exact holds_crowdAt (hu.trans ht) hk hprofiled (hcrowd hprofiles k r hr i hi j hj hij p)
      obtain ⟨regions, hok⟩ := hok
      cases hc.symm.trans hok
    obtain ⟨c, rfl⟩ := he
    exact .inr ⟨c, rfl⟩

namespace Session

/-- **No narrowing of rectangles that are not crowded is at fault.** In every session that leaves the
slots of candidates to their constraints, whatever the domains and at whatever level, take a
constraint that was posted or imposed by hand and whose variables exist. If it does not use
profiles, or if what its rectangles can have along one dimension at a place along another adds up
to a value of the width, then narrowing it, for any changed variables and in whatever order it sorts
the steps of one place, ends well or refutes the store: no sum and no negation leaves the width. -/
theorem narrow_never_overflows {s : Session w} (hs : s.Reached OwnSlots) {d : Disjoint}
    (hd : d ∈ s.constraints) (hk : ∀ r ∈ d.rectangles, r.Known s.store)
    (hcrowd : d.mode ≠ .pairwise → d.Uncrowded s.store) (changed : List Var) :
    (d.narrow changed s.store).outcome = .ok () ∨
      ∃ c, (d.narrow changed s.store).outcome = .error (.refuted c) := by
  refine Disjoint.narrow_of_uncrowded hk (fun t ht => ?_) hcrowd changed
  have hbare : d.bare = d := by
    simp only [constraints, Engine.constraints, List.mem_append, List.mem_map] at hd
    rcases hd with ⟨p, -, rfl⟩ | ⟨q, -, rfl⟩ <;> rfl
  have hchanges : Store.Changes s.constraints (fun _ => False) s.store t :=
    changes_of_acts (ht.acts (hbare.symm ▸ hd))
  have howned : Owned s.constraints t.slots.length := by
    rw [hchanges.writes.length_slots]
    exact owned hs
  exact ((stash hs).changes (owned hs) (fun _ h => h.elim) hchanges).ready howned hd

/-- Two boxes 60 high stand one above the other, so the profile is 120 high where the third may begin. -/
theorem narrow_never_overflows_boxes :
    let at0 : Domain .w8 := .single 0 (by decide)
    let three : Domain .w8 := .single 3 (by decide)
    let tall : Domain .w8 := .single 60 (by decide)
    let wide : Domain .w8 := ⟨0, 9, by decide, by decide, by decide⟩
    let box := fun x y : Nat => (⟨[⟨⟨x⟩, ⟨1⟩⟩, ⟨⟨y⟩, ⟨2⟩⟩], List.cons_ne_nil _ _⟩ : Rectangle)
    let s := empty.run [.newVar at0, .newVar three, .newVar tall, .newVar tall, .newVar wide,
      .post ⟨none, [box 4 0, box 0 0, box 0 3], .profile (.stable _), .empty, .zero, by decide⟩]
    s.constraints.length = 1 ∧ ∀ d ∈ s.constraints, ∀ changed,
      (d.narrow changed s.store).outcome = .ok () ∨
        ∃ c, (d.narrow changed s.store).outcome = .error (.refuted c) := by
  intro at0 three tall wide box s
  have hs : s.Reached OwnSlots := Reached.start.run (by decide +kernel)
  have hd : ∀ d ∈ s.constraints, (∀ r ∈ d.rectangles, r.Known s.store) ∧
      ∀ (k : Fin d.rectangles.length), ∀ j < d.rectangles[k].dim,
        Width.w8.Holds ((Candidates.others d.rectangles.length k).map fun n =>
          (d.rectangles[n]?).elim 0 fun q => q.longest s.store j).sum := by decide +kernel
  exact ⟨by decide +kernel, fun d hmem changed => narrow_never_overflows hs hmem (hd d hmem).1
    (fun _ => Disjoint.uncrowded_of_longest (hd d hmem).2) changed⟩

/-- **The height of a profile leaves the width.** Two boxes 110 high stand one above the other, and a
third of side 1 may be anywhere: narrowing adds the two heights, and no value of the width is their
sum, although the three do not overlap where the third is at the left edge. -/
theorem narrow_overflows :
    let one : Domain .w8 := .single 1 (by decide)
    let two : Domain .w8 := .single 2 (by decide)
    let tall : Domain .w8 := .single 110 (by decide)
    let ten : Domain .w8 := .single 10 (by decide)
    let bottom : Domain .w8 := .single (-128) (by decide)
    let middle : Domain .w8 := .single 0 (by decide)
    let left : Domain .w8 := ⟨0, 20, by decide, by decide, by decide⟩
    let low : Domain .w8 := ⟨-128, 126, by decide, by decide, by decide⟩
    let small : Rectangle := ⟨[⟨⟨6⟩, ⟨0⟩⟩, ⟨⟨7⟩, ⟨0⟩⟩], List.cons_ne_nil _ _⟩
    let pillar := fun y : Nat => (⟨[⟨⟨3⟩, ⟨1⟩⟩, ⟨⟨y⟩, ⟨2⟩⟩], List.cons_ne_nil _ _⟩ : Rectangle)
    let s := empty.run [.newVar one, .newVar two, .newVar tall, .newVar ten, .newVar bottom,
      .newVar middle, .newVar left, .newVar low,
      .post ⟨none, [small, pillar 4, pillar 5], .profile (.stable _), .empty, .zero, by decide⟩]
    s.Reached OwnSlots ∧ s.constraints.length = 1 ∧
      ∀ d ∈ s.constraints, (∀ r ∈ d.rectangles, r.Known s.store) ∧
        (d.narrow d.scope s.store).outcome = .error (.fault .addOverflow) ∧
        d.satisfied (s.run [.fix ⟨6⟩ 0]).store = .ok true := by
  intro one two tall ten bottom middle left low small pillar s
  exact ⟨Reached.start.run (by decide +kernel), by decide +kernel, by decide +kernel⟩

end Session
end Placement
