/-
# Rectangles at rest

A rectangle is at rest (`Disjoint.Rests`) if it would be passed over, or one of its variables is
pending, or it was found standing still at an earlier store that differs from the present one in
pending variables only (`Disjoint.Earlier`, `Disjoint.Tight`), and the present store passes its
analysis unless a variable of the constraint is pending. So a rectangle at rest needs another visit
only after the pending variables are taken, and that is when it is visited.

A visit puts the rectangle to rest whether it is tightened or found unchanged
(`Disjoint.ends_rests`). In the second case the earlier store becomes the one at which the pending
variables were taken: no neighbour that gives a region has changed since the last tightening, and
those that give none now gave none before, when their domains were larger. Where all rectangles
are at rest and nothing is pending, a pass leaves the store as it is
(`Disjoint.narrow_of_rests`).
-/

import Placement.Proofs.Sights
import Placement.Proofs.Standstill

namespace Placement

open Neighborhood

variable {w : Width}

/-- A part of a part of an extent is a part of it. -/
theorem Extent.Within.trans {c d e : Extent w} (h : c.Within d) (h' : d.Within e) : c.Within e :=
  ⟨h.origin.trans h'.origin, h.length.trans h'.length⟩

namespace Disjoint

variable {d : Disjoint} {s t u σ : Store w} {k : Nat} {r : Rectangle} {cs : List Nat}

/-! ## Definitions -/

/-- The store `σ` is an earlier state of `s`, as far as the constraint can see: domains have shrunk,
and a rectangle without a pending variable looks as it did. -/
structure Earlier (d : Disjoint) (σ s : Store w) : Prop where
  known : ∀ q ∈ d.rectangles, q.Known σ
  within : ∀ q ∈ d.rectangles, ∀ x ∈ q.sides, (s.look x).Within (σ.look x)
  view_eq : ∀ q ∈ d.rectangles, q.Untouched s → q.view s = q.view σ

/-- The rectangle `r` at position `k` meets all of its candidates, and stands still among them. -/
structure Tight (d : Disjoint) (k : Nat) (r : Rectangle) (cs : List Nat) (s : Store w) : Prop where
  meets : ∀ j ∈ cs, j ≠ k ∧ ∃ q, d.rectangles[j]? = some q ∧ meet (r.view s) (q.view s) = true
  still : ∀ i < r.dim, Tighten.StillAlong s d.rectangles k r
    (ofNeighbors (seen s d.rectangles [] (r.view s) cs)) d.mode i

/-- The rectangle at position `k` would be passed over, or has a pending variable, or has been found
standing still. -/
def Rests (d : Disjoint) (s : Store w) (k : Nat) : Prop :=
  ∀ r, d.rectangles[k]? = some r → r.Nonneg s → ¬ r.Settled s → r.Untouched s →
    ∃ cs σ, d.candidates.get s k = .ok cs ∧ d.Earlier σ s ∧ d.Tight k r cs σ ∧
      (d.Quiet s → ∃ found, analyze s d.rectangles k cs [] = .ok found)

/-- Rest does not depend on the counters. -/
theorem rests_bare : d.bare.Rests s k ↔ d.Rests s k := by
  constructor
  · intro h r hr hnn hset hu
    obtain ⟨cs, σ, hcs, hσ, htight, hok⟩ := h r hr hnn hset hu
    exact ⟨cs, σ, hcs, ⟨hσ.known, hσ.within, hσ.view_eq⟩, ⟨htight.meets, htight.still⟩, hok⟩
  · intro h r hr hnn hset hu
    obtain ⟨cs, σ, hcs, hσ, htight, hok⟩ := h r hr hnn hset hu
    exact ⟨cs, σ, hcs, ⟨hσ.known, hσ.within, hσ.view_eq⟩, ⟨htight.meets, htight.still⟩, hok⟩

/-- The candidates of a tight rectangle are positions of others. -/
theorem Tight.lt_length (h : d.Tight k r cs s) : ∀ j ∈ cs, j < d.rectangles.length ∧ j ≠ k := fun j hj => by
  obtain ⟨hne, q, hq, -⟩ := h.meets j hj
  exact ⟨(List.getElem?_eq_some_iff.1 hq).1, hne⟩

/-! ## What follows a store -/

/-- As far as the constraint can see, `t` follows `s`: it is as `s`, but for pending variables. -/
structure Follows (d : Disjoint) (s t : Store w) : Prop where
  known : ∀ q ∈ d.rectangles, q.Known s ∧ q.Known t
  untouched : ∀ q ∈ d.rectangles, q.Untouched t → q.Untouched s
  view_eq : ∀ q ∈ d.rectangles, q.Untouched t → q.view t = q.view s
  settled : ∀ q ∈ d.rectangles, q.Untouched t → q.Settled s → q.Settled t
  within : ∀ q ∈ d.rectangles, ∀ x ∈ q.sides, (t.look x).Within (s.look x)

/-- A store that has drifted follows. -/
theorem follows_of_drifts (hk : ∀ q ∈ d.rectangles, q.Known s) (h : s.Drifts t) : d.Follows s t where
  known q hq := ⟨hk q hq, h.shrinks.known (hk q hq)⟩
  untouched _ _ hu := hu.of_drifts h
  view_eq q hq hu := hu.view_eq h (hk q hq)
  settled q hq hu := (hu.settled_iff h (hk q hq)).2
  within q hq _ hx := h.shrinks.look (hk q hq) hx

/-- Taking the pending variables, if none of them is watched. -/
theorem follows_clearPending (hk : ∀ q ∈ d.rectangles, q.Known s) (h : d.Quiet s) :
    d.Follows s s.clearPending where
  known q hq := ⟨hk q hq, (Store.Write.clear s).shrinks.known (hk q hq)⟩
  untouched _ hq _ := h.untouched hq
  view_eq q _ _ := q.view_clearPending s
  settled q _ _ := (q.settled_clearPending s).2
  within q hq _ hx := (Store.Write.clear s).shrinks.look (hk q hq) hx

/-- A store with one more level follows. -/
theorem follows_pushLevel (hk : ∀ q ∈ d.rectangles, q.Known s) : d.Follows s s.pushLevel where
  known q hq := ⟨hk q hq, hk q hq⟩
  untouched _ _ hu := hu
  view_eq _ _ _ := rfl
  settled _ _ _ hset v hv c hc := ⟨(hset v hv c hc).1, Nat.lt_succ_of_lt (hset v hv c hc).2⟩
  within _ _ _ _ := ⟨.refl _, .refl _⟩

/-- A constraint that is quiet in a store that follows was quiet before. -/
theorem Follows.quiet (h : d.Follows s t) (hq : d.Quiet t) : d.Quiet s := fun v hv => by
  obtain ⟨q, hmem, hvq⟩ := List.mem_flatMap.1 hv
  exact h.untouched q hmem (hq.untouched hmem) v hvq

/-- **A rectangle at rest stays at rest** in every store that follows, as long as its candidates are
not replaced. -/
theorem Rests.follows (h : d.Rests s k) (hst : d.Follows s t)
    (hget : d.candidates.get t k = d.candidates.get s k) : d.Rests t k := by
  intro r hr hnn hset hu
  have hmem := List.mem_of_getElem? hr
  obtain ⟨cs, σ, hcs, hearlier, htight, hok⟩ := h r hr
    ((Rectangle.nonneg_congr (hst.view_eq r hmem hu)).1 hnn) (fun hs => hset (hst.settled r hmem hu hs))
    (hst.untouched r hmem hu)
  refine ⟨cs, σ, hget.trans hcs, ⟨hearlier.known, fun q hq x hx => ?_, fun q hq hu => ?_⟩, htight, fun hquiet => ?_⟩
  · exact (hst.within q hq x hx).trans (hearlier.within q hq x hx)
  · exact (hst.view_eq q hq hu).trans (hearlier.view_eq q hq (hst.untouched q hq hu))
  · obtain ⟨found, hfound⟩ := hok (hst.quiet hquiet)
    refine ⟨found, ?_⟩
    rw [analyze_congr ⟨fun q hq => (hst.known q hq).1, d.uniform⟩ ⟨fun q hq => (hst.known q hq).2, d.uniform⟩
      (fun q hq => hst.view_eq q hq (hquiet.untouched hq)) hr htight.lt_length]
    exact hfound

/-! ## A visit puts a rectangle to rest -/

/-- A rectangle that was tightened and found standing still. The store may have got new candidates
since the analysis. -/
theorem rests_of_still (hk : ∀ q ∈ d.rectangles, q.Known s) (hr : d.rectangles[k]? = some r)
    (hcs : ∀ j ∈ cs, j < d.rectangles.length ∧ j ≠ k) {changed : List Var} {found : Neighborhood}
    (ha : analyze s d.rectangles k cs changed = .ok found) (hcells : t.cells = s.cells)
    (hget : d.candidates.get t k = .ok found.overlapping)
    (hstill : ∀ i < r.dim, Tighten.StillAlong t d.rectangles k r found d.mode i) : d.Rests t k := by
  intro r' hr' _ _ _
  rw [hr] at hr'
  cases hr'
  have hk' : ∀ q ∈ d.rectangles, q.Known t := fun q hq v hv => by
    rw [hcells]
    exact hk q hq v hv
  have hview : ∀ q ∈ d.rectangles, q.view t = q.view s := fun q _ => q.view_of_cells hcells
  have hrview := hview r (List.mem_of_getElem? hr)
  have hu : Uniform d.rectangles s := ⟨hk, d.uniform⟩
  have hfound := analyze_ok hu hr hcs ha
  have hover : found.overlapping = (seen s d.rectangles changed (r.view s) cs).map Neighbor.index := by
    rw [hfound]
    rfl
  have hmeets : ∀ j ∈ found.overlapping, j ≠ k ∧
      ∃ q, d.rectangles[j]? = some q ∧ meet (r.view t) (q.view t) = true := by
    intro j hj
    rw [hover] at hj
    obtain ⟨n, hn, rfl⟩ := List.mem_map.1 hj
    obtain ⟨j, hjcs, hsight⟩ := List.mem_filterMap.1 hn
    obtain ⟨q, hq, hm, rfl⟩ := sight_eq_some hsight
    refine ⟨(hcs j hjcs).2, q, hq, ?_⟩
    rw [hrview, hview q (List.mem_of_getElem? hq)]
    exact hm
  have hseen : seen t d.rectangles [] (r.view t) found.overlapping =
      seen s d.rectangles [] (r.view s) cs := by
    rw [hover, hrview, ← seen_overlapping s d.rectangles changed [] (r.view s) cs]
    unfold seen
    rw [sight_congr hview]
  obtain ⟨hused, hprofiled⟩ := used_eq_of_alike
    ((seen_same s d.rectangles changed [] (r.view s) cs).imp fun _ _ h => h.alike)
  rw [← hfound] at hused hprofiled
  refine ⟨found.overlapping, t, hget, ⟨hk', fun _ _ _ _ => ⟨.refl _, .refl _⟩, fun _ _ _ => rfl⟩,
    ⟨hmeets, fun i hi => ?_⟩, fun _ => ?_⟩
  · rw [hseen]
    exact (hstill i hi).congr hr hk' hk' rfl hused hprofiled fun _ _ _ _ => rfl
  · refine ⟨_, (analyze_congr hu ⟨hk', d.uniform⟩ hview hr fun j hj => ?_).trans
      (analyze_overlapping hu hr hcs ha [])⟩
    obtain ⟨hne, q, hq, -⟩ := hmeets j hj
    exact ⟨(List.getElem?_eq_some_iff.1 hq).1, hne⟩

/-- What a rectangle that was found unchanged has for neighbours: those that give a region have not
been touched. -/
theorem untouched_of_counts {changed : List Var} {found : Neighborhood} {es : List (Extent w)}
    (hfound : found = ofNeighbors (seen t d.rectangles changed es cs)) (hsame : found.changed = false)
    {j : Nat} {n : Neighbor w} (hj : j ∈ cs) (hn : sight t d.rectangles changed es j = some n)
    (hcounts : n.counts = true) : n.changed = false := by
  have hmem : n ∈ seen t d.rectangles changed es cs := List.mem_filterMap.2 ⟨j, hj, hn⟩
  rw [hfound] at hsame
  have := List.any_eq_false.1 hsame n hmem
  unfold Neighbor.counts at hcounts
  rw [hcounts, Bool.and_true] at this
  simpa using this

/-- A rectangle that was at rest when the pending variables were taken, and is found unchanged. -/
theorem rests_of_unchanged (hk : ∀ q ∈ d.rectangles, q.Known s) (hrests : d.Rests s k)
    (hst : s.clearPending.Drifts t) (hget : d.candidates.get t k = d.candidates.get s k)
    (hr : d.rectangles[k]? = some r) (hcs : d.candidates.get t k = .ok cs)
    (hothers : ∀ j ∈ cs, j < d.rectangles.length ∧ j ≠ k) {found : Neighborhood}
    (ha : analyze t d.rectangles k cs s.changed = .ok found)
    (hmatters : ¬ found.Matters r s.changed cs) : d.Rests t k := by
  intro r' hr' hnn hset hut
  rw [hr] at hr'
  cases hr'
  have hmem := List.mem_of_getElem? hr
  have hkc : ∀ q ∈ d.rectangles, q.Known s.clearPending := fun q hq =>
    (Store.Write.clear s).shrinks.known (hk q hq)
  have hkt : ∀ q ∈ d.rectangles, q.Known t := fun q hq => hst.shrinks.known (hkc q hq)
  unfold Neighborhood.Matters at hmatters
  rw [not_or, not_or, Classical.not_not, Bool.not_eq_true, Bool.not_eq_true,
    Rectangle.touches_changed] at hmatters
  obtain ⟨hlen, hsame, hus⟩ := hmatters
  -- the rectangle looks as it did when the pending variables were taken
  have hview : r.view t = r.view s := (hut.view_eq hst (hkc r hmem)).trans (r.view_clearPending s)
  have hearlier : d.Earlier s t := by
    refine ⟨hk, fun q hq x hx => ?_, fun q hq hu => ?_⟩
    · exact (hst.shrinks.look (hkc q hq) hx).trans ((Store.Write.clear s).shrinks.look (hk q hq) hx)
    · exact (hu.view_eq hst (hkc q hq)).trans (q.view_clearPending s)
  obtain ⟨cs', σ, hcs', hσ, htight, -⟩ := hrests r hr ((Rectangle.nonneg_congr hview).1 hnn)
    (fun hs => hset ((hut.settled_iff hst (hkc r hmem)).2 ((r.settled_clearPending s).2 hs))) hus
  obtain rfl : cs' = cs := by
    rw [← hget, hcs] at hcs'
    exact (Except.ok.inj hcs').symm
  have hviewσ : r.view s = r.view σ := hσ.view_eq r hmem hus
  have hut' : Uniform d.rectangles t := ⟨hkt, d.uniform⟩
  have hfound := analyze_ok hut' hr hothers ha
  obtain ⟨hover, hsees⟩ := sees_of_length_eq hut' hr hothers ha hlen
  have hmeet : ∀ j ∈ cs', ∀ q, d.rectangles[j]? = some q → meet (r.view s) (q.view s) = true := by
    intro j hj q hq
    obtain ⟨q', hq', hm, -⟩ := hsees j hj
    obtain rfl : q' = q := Option.some.inj (hq'.symm.trans hq)
    have hqmem := List.mem_of_getElem? hq
    refine meet_of_within (Rectangle.view_within (hearlier.within r hmem))
      (Rectangle.view_within (hearlier.within q' hqmem)) ?_ hm
    rw [r.length_view, q'.length_view, d.uniform r hmem q' hqmem]
  -- a candidate that counted when the pending variables were taken counts now, so it is untouched
  have hlook : ∀ j ∈ cs', ∀ q, d.rectangles[j]? = some q → ∀ b,
      (Neighbor.of j (q.view σ) b).counts = true ∨ (Neighbor.of j (q.view s) b).counts = true →
      q.view s = q.view σ := by
    intro j hj q hq b hcounts
    obtain ⟨q', hq', -, hn⟩ := hsees j hj
    obtain rfl : q' = q := Option.some.inj (hq'.symm.trans hq)
    have hqmem := List.mem_of_getElem? hq
    have hs : (Neighbor.of j (q'.view s) b).counts = true := by
      rcases hcounts with hc | hc
      · exact Neighbor.counts_of_within (Rectangle.view_within (hσ.within q' hqmem)) hc
      · exact hc
    have ht : (Neighbor.of j (q'.view t) (q'.touches s.changed)).counts = true :=
      Neighbor.counts_of_within (Rectangle.view_within (hearlier.within q' hqmem)) hs
    exact hσ.view_eq q' hqmem (Rectangle.touches_changed.1 (untouched_of_counts hfound hsame hj hn ht))
  have halike : List.Forall₂ Neighbor.Alike (seen σ d.rectangles [] (r.view σ) cs')
      (seen s d.rectangles [] (r.view s) cs') := by
    refine seen_alike fun j hj => ?_
    obtain ⟨-, q, hq, hm⟩ := htight.meets j hj
    exact ⟨q, hq, hm, hmeet j hj q hq, hlook j hj q hq⟩
  obtain ⟨hused, hprofiled⟩ := used_eq_of_alike halike
  refine ⟨cs', s, hcs, hearlier, ⟨fun j hj => ?_, fun i hi => ?_⟩, fun _ => ?_⟩
  · obtain ⟨q, hq, -, -⟩ := hsees j hj
    exact ⟨(hothers j hj).2, q, hq, hmeet j hj q hq⟩
  · refine (htight.still i hi).congr hr hσ.known hk hviewσ hused hprofiled fun n hn q hq => ?_
    obtain ⟨m, hm, rfl⟩ := List.mem_map.1 hn
    obtain ⟨hm, hprof⟩ := List.mem_filter.1 hm
    obtain ⟨j, hj, hm⟩ := List.mem_filterMap.1 hm
    obtain ⟨q', hq', -, rfl⟩ := sight_eq_some hm
    obtain rfl : q' = q := Option.some.inj (hq'.symm.trans hq)
    refine hlook j hj q' hq (q'.touches []) (.inl ?_)
    unfold Neighbor.counts
    rw [hprof, Bool.or_true]
  · have := analyze_overlapping hut' hr hothers ha []
    rw [hover] at this
    exact ⟨_, this⟩

/-- **A visit puts the rectangle to rest**, if it was at rest when the pending variables were taken. -/
theorem ends_rests (hk : ∀ q ∈ d.rectangles, q.Known s) (hrests : d.Rests s k) {p : Pass w}
    (hst : s.clearPending.Drifts p.store) (hget : d.candidates.get p.store k = d.candidates.get s k)
    (hready : d.Ready p.store) (hr : d.rectangles[k]? = some r) :
    Ends (d.narrowRectangle s.changed k) p (fun _ q => d.Rests q.store k) fun _ _ => True := by
  obtain ⟨cs, hcs, hsub⟩ := hready k (List.getElem?_eq_some_iff.1 hr).1
  have hothers : ∀ j ∈ cs, j < d.rectangles.length ∧ j ≠ k := fun j hj =>
    Candidates.mem_others.1 (hsub.subset hj)
  have hkp : ∀ q ∈ d.rectangles, q.Known p.store := fun q hq =>
    hst.shrinks.known ((Store.Write.clear s).shrinks.known (hk q hq))
  refine ends_narrowRectangle hr (hkp r (List.mem_of_getElem? hr)) (fun hpassed q hq r' hr' hnn hset _ => ?_)
    fun _ _ => ?_
  · rw [hr] at hr'
    cases hr'
    rw [hq] at hnn hset
    exact (hpassed.elim (fun h => h hnn) hset).elim
  · refine ends_revise hcs (fun found ha => ⟨fun hm q hq => ?_, fun _ q hq => ?_⟩) fun _ _ _ _ _ _ => trivial
    · rw [hq]
      exact rests_of_unchanged hk hrests hst hget hr hcs hothers ha hm
    · obtain ⟨hcells, hnew⟩ : q.store.cells = p.store.cells ∧
          d.candidates.get q.store k = .ok found.overlapping := by
        rcases hq with ⟨hlen, hq⟩ | ⟨-, hreplace⟩
        · rw [hq, (overlapping_of_analyze ha).1.eq_of_length hlen]
          exact ⟨rfl, hcs⟩
        · obtain ⟨_, x, -, -, hx, hset⟩ := Candidates.replace_eq_ok hreplace
          refine ⟨?_, by rw [Candidates.get_of_setSnapshot hset, if_pos hx]⟩
          obtain ⟨a, -, hstore⟩ := Store.setSnapshot_eq_ok.1 hset
          rw [hstore]
      have hkq : r.Known q.store := fun v hv => by
        rw [hcells]
        exact hkp r (List.mem_of_getElem? hr) v hv
      refine (still_of_tighten hr hkq).mono (fun _ q' hq' => ?_) fun _ _ h => h
      rcases hq' with ⟨hq', hstill⟩ | htouched
      · rw [hq']
        exact rests_of_still hkp hr hothers ha hcells hnew hstill
      · intro r' hr' _ _ hu
        rw [hr] at hr'
        cases hr'
        exact absurd hu htouched

/-! ## Passes -/

/-- **A pass that ends well puts all rectangles to rest**, if they were at rest when the pending
variables were taken; the slots of other constraints are left alone. -/
theorem narrow_rests (hk : ∀ q ∈ d.rectangles, q.Known s) (hrests : ∀ k, d.Rests s k)
    (hst : s.clearPending.Drifts t) (hget : ∀ k, d.candidates.get t k = d.candidates.get s k)
    (hready : ∀ u, d.Steps t u → d.Ready u)
    (hown : ∀ (j k : Nat) (x : Slot), d.candidates.slots[j]? = some x → d.candidates.slots[k]? = some x → j = k)
    (hok : (d.narrow s.changed t).outcome = .ok ()) :
    t.Drifts (d.narrow s.changed t).store ∧ (∀ k, d.Rests (d.narrow s.changed t).store k) ∧
      ∀ x : Slot, x ∉ d.candidates.slots → (d.narrow s.changed t).store.slots[x.val]? = t.slots[x.val]? := by
  -- the first `k` rectangles are at rest, and the candidates of the others are not replaced yet
  let I := fun (k : Nat) (q : Pass w) => (t.Drifts q.store ∧ d.Steps t q.store) ∧
    (∀ j < k, d.Rests q.store j) ∧ (∀ j, k ≤ j → d.candidates.get q.store j = d.candidates.get t j) ∧
    ∀ x : Slot, x ∉ d.candidates.slots → q.store.slots[x.val]? = t.slots[x.val]?
  have hpass : Ends (d.pass s.changed) ⟨t, []⟩ (fun _ q => I d.rectangles.length q) fun _ _ => True := by
    refine ends_pass (hready t .refl) (fun q hq => ?_) fun k hlt q hq => ?_
    · refine ⟨⟨?_, ?_⟩, nofun, fun j _ => ?_, fun x _ => ?_⟩
      · rw [hq]
        exact .refl _
      · rw [hq]
      · rw [hq]
      · rw [hq]
    · obtain ⟨⟨hdrift, hsteps⟩, hdone, hleft, hothers⟩ := hq
      have hkq : ∀ x ∈ d.rectangles, x.Known q.store := fun x hx =>
        (hst.trans hdrift).shrinks.known ((Store.Write.clear s).shrinks.known (hk x hx))
      have hvisit := ends_rests hk (hrests k) (hst.trans hdrift) ((hleft k (Nat.le_refl _)).trans (hget k))
        (hready _ hsteps) (List.getElem?_eq_getElem hlt)
      refine ((hvisit.and (d.ends_visited s.changed k q)).and (d.steps_narrowRectangle s.changed k q)).mono
        (fun _ q' hq' => ?_) fun _ _ _ => trivial
      obtain ⟨⟨hk', hvisited⟩, hsteps'⟩ := hq'
      have hother : ∀ j, j ≠ k → d.candidates.get q'.store j = d.candidates.get q.store j := fun j hj =>
        Candidates.get_of_slots fun x hx => hvisited.slots_eq x fun hx' => hj (hown j k x hx hx')
      refine ⟨⟨hdrift.trans hvisited.drifts, hsteps.trans hsteps'⟩, fun j hj => ?_, fun j hj => ?_, fun x hx => ?_⟩
      · rcases Nat.lt_succ_iff_lt_or_eq.1 hj with hj | rfl
        · exact (hdone j hj).follows (follows_of_drifts hkq hvisited.drifts) (hother j (by omega))
        · exact hk'
      · exact (hother j (by omega)).trans (hleft j (by omega))
      · exact (hvisited.slots_eq x fun hx' => hx (List.mem_of_getElem? hx')).trans (hothers x hx)
  have hnarrow := narrow_of_ends (Q := fun u => t.Drifts u ∧ (∀ k, d.Rests u k) ∧
    ∀ x : Slot, x ∉ d.candidates.slots → u.slots[x.val]? = t.slots[x.val]?)
    (E := fun _ _ => True) (hpass.mono (fun _ q hq => ⟨hq.1.1, fun k => ?_, hq.2.2.2⟩) fun _ _ h => h)
  · exact hnarrow.1 hok
  · intro r hr
    exact hq.2.1 k (List.getElem?_eq_some_iff.1 hr).1 r hr

/-- **Where all rectangles are at rest and nothing is pending, a pass ends well and leaves the store
as it is**, whatever is said to have changed. -/
theorem narrow_of_rests (hk : ∀ q ∈ d.rectangles, q.Known s) (hready : d.Ready s)
    (hrests : ∀ k, d.Rests s k) (hquiet : d.Quiet s) (changed : List Var) :
    (d.narrow changed s).outcome = .ok () ∧ (d.narrow changed s).store = s := by
  have hpass : Ends (d.pass changed) ⟨s, []⟩ (fun _ q => q.store = s) fun _ _ => False := by
    refine ends_pass (I := fun _ q => q.store = s) hready (fun q hq => hq) fun k hlt q hq => ?_
    subst hq
    have hr := List.getElem?_eq_getElem hlt
    have hmem := List.getElem_mem hlt
    refine ends_narrowRectangle hr (hk _ hmem) (fun _ q' hq' => hq') fun hnn hset => ?_
    obtain ⟨cs, σ, hcs, hσ, htight, hok⟩ := hrests k _ hr hnn hset (hquiet.untouched hmem)
    obtain ⟨found₀, ha₀⟩ := hok hquiet
    have hview : ∀ x ∈ d.rectangles, x.view q.store = x.view σ := fun x hx =>
      hσ.view_eq x hx (hquiet.untouched hx)
    have hu : Uniform d.rectangles q.store := ⟨hk, d.uniform⟩
    have hmeets : ∀ j ∈ cs, ∃ x, d.rectangles[j]? = some x ∧
        meet (d.rectangles[k].view q.store) (x.view q.store) = true := fun j hj => by
      obtain ⟨-, x, hx, hm⟩ := htight.meets j hj
      refine ⟨x, hx, ?_⟩
      rw [hview _ hmem, hview x (List.mem_of_getElem? hx)]
      exact hm
    have hover₀ : found₀.overlapping = cs := by
      rw [analyze_ok hu hr htight.lt_length ha₀]
      exact index_seen_of_meet hmeets
    have ha := analyze_overlapping hu hr htight.lt_length ha₀ changed
    rw [hover₀] at ha
    refine ends_revise hcs (fun found hfound => ⟨fun _ q' hq' => hq', fun _ q' hq' => ?_⟩) fun e he => ?_
    · rw [ha] at hfound
      cases hfound
      have hover : (ofNeighbors (seen q.store d.rectangles changed (d.rectangles[k].view q.store) cs)).overlapping =
          cs := index_seen_of_meet hmeets
      rcases hq' with ⟨-, hq'⟩ | ⟨hlen, -⟩
      · obtain ⟨hused, hprofiled⟩ := used_eq_of_alike
          ((seen_same q.store d.rectangles [] changed (d.rectangles[k].view q.store) cs).imp fun _ _ h => h.alike)
        have hseen : seen q.store d.rectangles [] (d.rectangles[k].view q.store) cs =
            seen σ d.rectangles [] (d.rectangles[k].view σ) cs := by
          rw [hview _ hmem]
          unfold seen
          rw [sight_congr hview]
        rw [hseen] at hused hprofiled
        have hstill := tighten_of_still hr (p := q') (by rw [hq']; exact hk _ hmem) fun i hi => by
          rw [hq']
          exact (htight.still i hi).congr hr hσ.known hk (hview _ hmem) hused hprofiled
            fun n _ x hx => hview x (List.mem_of_getElem? hx)
        exact hstill.mono (fun _ _ h => h.trans hq') fun _ _ h => h
      · exact absurd (congrArg List.length hover) hlen
    · rw [ha] at he
      cases he
  have hnarrow := narrow_of_ends (Q := fun u => u = s) (E := fun _ _ => False) hpass
  cases houtcome : (d.narrow changed s).outcome with
  | ok _ => exact ⟨rfl, hnarrow.1 houtcome⟩
  | error e => exact (hnarrow.2 e houtcome).elim

end Disjoint
end Placement
