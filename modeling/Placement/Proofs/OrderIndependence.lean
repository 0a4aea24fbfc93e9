/-
# Pairwise narrowing does not depend on the order of the rectangles

A constraint that is narrowed alone until nothing is pending (`Disjoint.alone`) leaves a store in
which no rectangle is barred by another from where it would lie at a bound of its origin
(`Rectangle.Compatible`, `Disjoint.compatible_of_alone`). That says nothing of positions, so it
holds of any order of the rectangles.

Conversely, as long as all domains include those of such a store, every step of a pass keeps them so
(`Disjoint.ends_includes`): what bars a rectangle from a point, seen from larger domains, does so in
the smaller ones, so no bound moves past a bound of the store. Of two runs over the same rectangles,
each therefore includes where the other ends.
-/

import Placement.Proofs.Barriers

namespace Placement

open Neighborhood

variable {w : Width}

/-! ## Narrowing that keeps what it includes -/

/-- Narrowing a domain keeps it larger than one that lies within the new bounds. -/
theorem Store.Shrinks.setBounds {s t u : Store w} (h : s.Shrinks u) {v : Var} {lo hi : Int} {b : Bool}
    (hset : s.setBounds v lo hi = .ok (b, t)) (hlo : lo ≤ (u.dom v).lo) (hhi : (u.dom v).hi ≤ hi) :
    t.Shrinks u := by
  obtain ⟨c, d, hc, hd, ⟨-, -, rfl⟩ | ⟨-, -, rfl⟩⟩ := setBounds_eq_ok hset
  · exact h
  obtain ⟨hv, -⟩ := List.getElem?_eq_some_iff.1 hc
  refine ⟨by simpa using h.length_le, fun x hx => ?_⟩
  rw [List.length_set] at hx
  rw [dom_set hv]
  split
  · next hxv =>
    subst hxv
    obtain ⟨hlo', hhi'⟩ := h.within x hv
    rw [dom_of_cell hc] at hlo' hhi'
    unfold Domain.restrict? at hd
    split at hd
    · cases hd
      exact ⟨by dsimp only; omega, by dsimp only; omega⟩
    · cases hd
  · exact h.within x hx

/-- Moving an origin off regions that leave the bounds of a smaller store free. -/
theorem Tighten.origin_includes {u : Store w} {v : Var} {length l : Int} {regions : List Span} {p : Pass w}
    (hv : v.val < p.store.cells.length) (h : p.store.Shrinks u) (hl : length ≤ l)
    (hlo : Avoids (u.dom v).lo l regions) (hhi : Avoids (u.dom v).hi l regions) :
    Ends (origin v length regions) p
      (fun _ q => p.store.Shrinks q.store ∧ q.store.Shrinks u) fun _ _ => True := by
  obtain ⟨hle, hge⟩ := h.within v hv
  refine ends_origin hv (fun _ _ => ⟨.refl _, h⟩) (fun hpos _ _ b t _ hset => ?_) fun _ _ _ _ _ => trivial
  refine ⟨Store.shrinks_setBounds hset, h.setBounds hset ?_ ?_⟩
  · exact raise_le hlo.1 hlo.2 hpos hl (p.store.dom v).holds_lo (Int.le_refl _) hle
  · refine le_lower (fun g hg => hhi.1 g (List.mem_reverse.1 hg)) (fun x hx => ?_) hpos hl
      (u.dom v).holds_hi hge
    obtain ⟨g, hg, hxg⟩ := hx
    exact hhi.2 x ⟨g, List.mem_reverse.1 hg, hxg⟩

/-- Stores whose domains include each other have the same domains. -/
theorem Store.Shrinks.domain_eq {s t : Store w} (h : s.Shrinks t) (h' : t.Shrinks s) (v : Var) :
    s.domain v = t.domain v := by
  have hlen := Nat.le_antisymm h.length_le h'.length_le
  by_cases hv : v.val < s.cells.length
  · have hv' : v.val < t.cells.length := by omega
    rw [Store.domain_eq hv, Store.domain_eq hv', Domain.Within.antisymm (h'.within v hv') (h.within v hv)]
  · unfold Store.domain Store.cell entry
    rw [List.getElem?_eq_none (by omega), List.getElem?_eq_none (by omega)]

namespace Rectangle

/-- From no point that `r` would cover at a bound of its origin does `q` bar it. -/
def Unbarred (s : Store w) (r q : Rectangle) : Prop :=
  r.Nonneg s → ∀ (i : Nat) (x : Side), r.sides[i]? = some x → 0 < (s.look x).length.lo →
    ∀ p, Bars (q.view s) (r.view s) i p →
      ¬ ((s.dom x.origin).lo ≤ p ∧ p < (s.dom x.origin).lo + (s.look x).length.lo) ∧
      ¬ ((s.dom x.origin).hi ≤ p ∧ p < (s.dom x.origin).hi + (s.look x).length.lo)

/-- Neither of two rectangles is barred by the other. -/
def Compatible (s : Store w) (r q : Rectangle) : Prop := Unbarred s r q ∧ Unbarred s q r

/-- Compatibility is mutual. -/
theorem Compatible.symm {s : Store w} {r q : Rectangle} (h : Compatible s r q) : Compatible s q r := ⟨h.2, h.1⟩

end Rectangle

namespace Disjoint

variable {d : Disjoint} {s t u : Store w} {k : Nat} {r : Rectangle} {cs : List Nat} {changed : List Var}

/-- In a list of compatible rectangles, none is barred by one at another position. -/
theorem unbarred_of_pairwise (h : d.rectangles.Pairwise (Rectangle.Compatible u)) {j : Nat} {q : Rectangle}
    (hr : d.rectangles[k]? = some r) (hq : d.rectangles[j]? = some q) (hjk : j ≠ k) :
    Rectangle.Unbarred u r q := by
  obtain ⟨hk, rfl⟩ := List.getElem?_eq_some_iff.1 hr
  obtain ⟨hj, rfl⟩ := List.getElem?_eq_some_iff.1 hq
  rcases Nat.lt_or_gt_of_ne hjk with hlt | hlt
  · exact (List.pairwise_iff_getElem.1 h j k hj hk hlt).2
  · exact (List.pairwise_iff_getElem.1 h k j hk hj hlt).1

/-- **Regions of used space leave the bounds of a smaller store free**, if there the rectangles are
compatible. The used space was found in `s`, and the regions are computed in `t`. -/
theorem avoids_ofUsed (changed : List Var) (hu : d.rectangles.Pairwise (Rectangle.Compatible u))
    (hk : ∀ q ∈ d.rectangles, q.Known s) (hr : d.rectangles[k]? = some r) (hcs : ∀ j ∈ cs, j ≠ k)
    (hst : s.Shrinks t) (htu : t.Shrinks u) (hnn : r.Nonneg u) {i : Nat} {x : Side}
    (hx : r.sides[i]? = some x) (hpos : 0 < (u.look x).length.lo) :
    ∃ regions, Region.ofUsed t r i (ofNeighbors (seen s d.rectangles changed (r.view s) cs)).used = .ok regions ∧
      Tighten.Avoids (u.dom x.origin).lo (u.look x).length.lo regions ∧
      Tighten.Avoids (u.dom x.origin).hi (u.look x).length.lo regions := by
  have hmem := List.mem_of_getElem? hr
  have hkt : r.Known t := hst.known (hk r hmem)
  obtain ⟨regions, hok, -, hne, hcovered⟩ := Region.ofUsed_seen (s := s) d.uniform hmem hkt
    (List.getElem?_eq_some_iff.1 hx).1 changed (r.view s) cs
  have hfree : ∀ p, Covered regions p →
      ¬ ((u.dom x.origin).lo ≤ p ∧ p < (u.dom x.origin).lo + (u.look x).length.lo) ∧
      ¬ ((u.dom x.origin).hi ≤ p ∧ p < (u.dom x.origin).hi + (u.look x).length.lo) := by
    intro p hp
    obtain ⟨n, hn, hbars⟩ := (hcovered p).1 hp
    obtain ⟨j, hj, hsight⟩ := List.mem_filterMap.1 hn
    obtain ⟨q, hq, -, rfl⟩ := sight_eq_some hsight
    -- the neighbour bars the rectangle in the smaller store too
    have hq_within := Rectangle.view_within fun y hy => (hst.trans htu).look (hk q (List.mem_of_getElem? hq)) hy
    have hr_within := Rectangle.view_within fun y hy => htu.look hkt hy
    exact unbarred_of_pairwise hu hr hq (hcs j hj) hnn i x hx hpos p (hbars.shrinks hq_within hr_within)
  exact ⟨regions, hok, ⟨hne, fun p hp => (hfree p hp).1⟩, ⟨hne, fun p hp => (hfree p hp).2⟩⟩

/-- Tightening along dimensions, against the used space that an analysis of the store `s` found. -/
theorem dimensions_includes (hu : d.rectangles.Pairwise (Rectangle.Compatible u))
    (hk : ∀ q ∈ d.rectangles, q.Known s) (hr : d.rectangles[k]? = some r) (hcs : ∀ j ∈ cs, j ≠ k)
    (hnn : r.Nonneg u) {is : List Nat} (his : ∀ i ∈ is, i < r.dim) {p : Pass w}
    (hp : s.Shrinks p.store ∧ p.store.Shrinks u) :
    Ends (Tighten.dimensions d.rectangles k r (ofNeighbors (seen s d.rectangles changed (r.view s) cs)) .pairwise is)
      p (fun _ q => s.Shrinks q.store ∧ q.store.Shrinks u) fun _ _ => True := by
  have hmem := List.mem_of_getElem? hr
  induction is generalizing p with
  | nil => exact hp
  | cons i is ih =>
    have ih := fun {q : Pass w} => ih (p := q) fun j hj => his j (List.mem_cons_of_mem _ hj)
    obtain ⟨x, hx⟩ : ∃ x, r.sides[i]? = some x := ⟨_, List.getElem?_eq_getElem (his i List.mem_cons_self)⟩
    have hxmem := List.mem_of_getElem? hx
    have hkp : r.Known p.store := hp.1.known (hk r hmem)
    refine Tighten.ends_dimensions_cons hkp hx (fun _ => ih hp) fun hpos => ?_
    have hl : (p.store.look x).length.lo ≤ (u.look x).length.lo := (hp.2.look hkp hxmem).length.1
    obtain ⟨regions, hok, hlo, hhi⟩ := avoids_ofUsed changed hu hk hr hcs hp.1 hp.2 hnn hx (by omega)
    -- without profiles there is one list of regions
    refine Tighten.ends_originAgainst_cons (fun regions' hok' => ?_) fun _ _ => trivial
    obtain rfl : regions' = regions := Except.ok.inj (hok'.symm.trans hok)
    refine (Tighten.origin_includes (hkp.origin hxmem) hp.2 hl hlo hhi).mono (fun _ q hq => ?_) fun _ _ h => h
    exact ih ⟨hp.1.trans hq.1, hq.2⟩

/-- **A visit keeps all domains larger than those of a store in which the rectangles are compatible.** -/
theorem ends_includes (hmode : d.mode = .pairwise) (hu : d.rectangles.Pairwise (Rectangle.Compatible u))
    {p : Pass w} (hk : ∀ q ∈ d.rectangles, q.Known p.store) (hready : d.Ready p.store)
    (hr : d.rectangles[k]? = some r) (hp : p.store.Shrinks u) :
    Ends (d.narrowRectangle changed k) p (fun _ q => q.store.Shrinks u) fun _ _ => True := by
  have hmem := List.mem_of_getElem? hr
  obtain ⟨cs, hcs, hsub⟩ := hready k (List.getElem?_eq_some_iff.1 hr).1
  have hothers : ∀ j ∈ cs, j < d.rectangles.length ∧ j ≠ k := fun j hj =>
    Candidates.mem_others.1 (hsub.subset hj)
  refine ends_narrowRectangle hr (hk r hmem) (fun _ q hq => by rw [hq]; exact hp) fun hnn _ => ?_
  refine ends_revise hcs (fun found ha => ⟨fun _ q hq => by rw [hq]; exact hp, fun _ q hq => ?_⟩)
    fun _ _ _ _ _ _ => trivial
  have hcells : q.store.cells = p.store.cells := by
    rcases hq with ⟨-, hq⟩ | ⟨-, hreplace⟩
    · rw [hq]
    · obtain ⟨_, x, -, -, -, hset⟩ := Candidates.replace_eq_ok hreplace
      obtain ⟨a, -, hstore⟩ := Store.setSnapshot_eq_ok.1 hset
      rw [hstore]
  have hsame : p.store.Shrinks q.store := .of_domains [] (by rw [hcells, List.append_nil])
  have hq' : q.store.Shrinks u :=
    (Store.Shrinks.of_domains [] (by rw [hcells, List.append_nil])).trans hp
  rw [analyze_ok ⟨hk, d.uniform⟩ hr hothers ha]
  refine ends_tighten hr ?_
  rw [hmode]
  refine (dimensions_includes hu hk hr (fun j hj => (hothers j hj).2) (hnn.shrinks (hk r hmem) hp)
    (fun i hi => List.mem_range.1 hi) ⟨hsame, hq'⟩).mono (fun _ q₁ h₁ q₂ h₂ => ?_) fun _ _ _ _ _ => trivial
  rw [h₂]
  exact h₁.2

/-- A pass that ends well keeps all domains larger than those of a store in which the rectangles are
compatible. -/
theorem narrow_includes (hmode : d.mode = .pairwise) (hu : d.rectangles.Pairwise (Rectangle.Compatible u))
    (hk : ∀ q ∈ d.rectangles, q.Known s) (hready : ∀ t, d.Steps s t → d.Ready t) (hs : s.Shrinks u)
    (hok : (d.narrow changed s).outcome = .ok ()) : (d.narrow changed s).store.Shrinks u := by
  have hpass : Ends (d.pass changed) ⟨s, []⟩ (fun _ q => d.Steps s q.store ∧ q.store.Shrinks u) fun _ _ => True := by
    refine ends_pass (I := fun _ q => d.Steps s q.store ∧ q.store.Shrinks u) (hready s .refl) (fun q hq => ?_)
      fun k hlt q hq => ?_
    · rw [hq]
      exact ⟨.refl, hs⟩
    · have hchanges : Store.Changes [d.bare] (fun _ => False) s q.store :=
        Session.changes_of_acts (hq.1.acts (List.mem_singleton_self _))
      have hkq : ∀ x ∈ d.rectangles, x.Known q.store := fun x hx => hchanges.writes.shrinks.known (hk x hx)
      refine ((ends_includes hmode hu hkq (hready _ hq.1) (List.getElem?_eq_getElem hlt) hq.2).and
        (d.steps_narrowRectangle changed k q)).mono (fun _ q' hq' => ?_) fun _ _ _ => trivial
      exact ⟨hq.1.trans hq'.2, hq'.1⟩
  have hnarrow := narrow_of_ends (Q := fun t => d.Steps s t ∧ t.Shrinks u) (E := fun _ _ => True) hpass
  exact (hnarrow.1 hok).2

end Disjoint

/-- Marking variables as pending leaves all domains as they are. -/
theorem Store.domains_touchAll {s t : Store w} {vs : List Var} (h : s.touchAll vs = .ok t) :
    t.cells.map Cell.domain = s.cells.map Cell.domain := by
  rw [(touchAll_eq_ok h).2]
  refine List.ext_getElem? fun i => ?_
  simp only [List.getElem?_map, List.getElem?_mapIdx, Option.map_map]
  refine congrFun (congrArg Option.map (funext fun c => ?_)) _
  simp only [Function.comp_apply]
  split <;> rfl

/-! ## A constraint narrowed alone -/

namespace Disjoint

variable {d : Disjoint} {s t u : Store w}

/-- What is known, at the root, of a constraint that is narrowed alone and has no counters yet: it has
sound candidates in slots of its own, its variables exist, and its rectangles are at rest. -/
structure Lone (e : Disjoint) (s : Store w) : Prop where
  root : s.level = 0
  owned : Owned [e] s.slots.length
  stash : Stash [e] s
  known : ∀ q ∈ e.rectangles, q.Known s
  sound : e.Sound s
  rests : ∀ k, e.Rests s k

namespace Lone

/-- A constraint that was just imposed has its whole scope pending. -/
theorem start (h0 : s.level = 0) (id : ConstraintId)
    (ht : (s.allot d.rectangles.length).touchAll d.scope = .ok t) : (d.imposed id s).bare.Lone t := by
  obtain ⟨hknown, ht'⟩ := Store.touchAll_eq_ok ht
  have hslots : t.slots = (s.allot d.rectangles.length).slots := by rw [ht']
  have hlevels : s.trail.levels = [] := List.length_eq_zero_iff.1 h0
  have hnone : Owned [] s.slots.length := ⟨nofun, nofun, nofun⟩
  have hstash : Stash [] s := ⟨nofun, by rw [hlevels]; exact nofun⟩
  have hone : ∀ e, e ∈ [(d.imposed id s).bare] ↔ e ∈ [] ∨ e = (d.imposed id s).bare := fun e => by simp
  have hdrifts := Store.drifts_touchAll ht
  refine ⟨hdrifts.level_eq.trans h0, ?_, ?_, fun q hq v hv => ?_, ?_, fun k r hr _ _ hun => ?_⟩
  · rw [hslots, Store.length_slots_allot]
    exact hnone.impose hone
  · refine (hstash.impose hnone hone).of_eq hslots ?_
    rw [ht']
  · exact Nat.lt_of_lt_of_le (hknown v (d.mem_scope hq hv)) hdrifts.shrinks.length_le
  · exact (sound_imposed d id s).of_slots hdrifts.shrinks hslots
  · obtain ⟨x, hx⟩ := List.exists_mem_of_ne_nil _ r.sides_ne_nil
    have hv : x.origin ∈ r.vars := List.mem_append_left _ (List.mem_map.2 ⟨x, hx, rfl⟩)
    exact absurd (Store.pending_touchAll ht (d.mem_scope (List.mem_of_getElem? hr) hv)) (hun _ hv)

/-- Every store of a pass has candidates to read. -/
theorem ready (h : d.bare.Lone s) (hst : d.Steps s.clearPending t) : d.Ready t := by
  have hchanges : Store.Changes [d.bare] (fun _ => False) s t :=
    .head (.act (.clear _)) (Session.changes_of_acts (hst.acts (List.mem_singleton_self _)))
  have howned : Owned [d.bare] t.slots.length := by
    rw [hchanges.writes.length_slots]
    exact h.owned
  have hready : d.bare.Ready t :=
    (h.stash.changes h.owned nofun hchanges).ready howned (List.mem_singleton_self _)
  exact hready

/-- **A pass over what is pending, if it ends well, leaves the constraint as it found it.** -/
theorem narrow (h : d.bare.Lone s) (hok : (d.narrow s.changed s.clearPending).outcome = .ok ()) :
    d.bare.Lone (d.narrow s.changed s.clearPending).store := by
  have hmem : d.bare ∈ [d.bare] := List.mem_singleton_self _
  have hchanges : Store.Changes [d.bare] (fun _ => False) s (d.narrow s.changed s.clearPending).store :=
    .head (.act (.clear _)) (Session.changes_of_acts ((d.narrow_steps s.changed s.clearPending).acts hmem))
  obtain ⟨hdrifts, hrests, -⟩ := narrow_rests (d := d) h.known (fun k => rests_bare.1 (h.rests k)) (.refl _)
    (fun _ => Candidates.get_congr rfl) (fun u hu => h.ready hu)
    (fun j k x hj hk => (h.owned.unique _ hmem _ hmem j k x hj hk).2) hok
  refine ⟨hdrifts.level_eq.trans h.root, ?_, h.stash.changes h.owned nofun hchanges, fun q hq => ?_,
    h.sound.changes h.owned nofun hmem hchanges, fun k => rests_bare.2 (hrests k)⟩
  · rw [hchanges.writes.length_slots]
    exact h.owned
  · exact hchanges.writes.shrinks.known (h.known q hq)

/-- Where nothing is pending any more, all rectangles are compatible. -/
theorem compatible {e : Disjoint} (h : e.Lone s) (hquiet : s.hasChanges = false) :
    e.rectangles.Pairwise (Rectangle.Compatible s) := by
  have hunbarred : ∀ (j k : Nat) (q r : Rectangle), e.rectangles[j]? = some q → e.rectangles[k]? = some r →
      j ≠ k → Rectangle.Unbarred s r q := by
    intro j k q r hq hr hjk hnn i x hx hpos p hbars
    refine (h.rests k).not_barred (fun v _ => Store.not_pending_of_not_hasChanges hquiet v) h.sound hr hnn
      (fun hset => ?_) hq hjk hx hpos hbars
    have := hset.level_pos (h.known r (List.mem_of_getElem? hr))
    have := h.root
    omega
  refine List.pairwise_iff_getElem.2 fun j k hj hk hlt => ?_
  have hgetj := List.getElem?_eq_getElem hj
  have hgetk := List.getElem?_eq_getElem hk
  exact ⟨hunbarred k j _ _ hgetk hgetj (by omega), hunbarred j k _ _ hgetj hgetk (by omega)⟩

end Lone

/-- **What a pass over the pending variables keeps holds when nothing is pending any more.** -/
theorem rounds_keeps {I : Disjoint → Store w → Prop}
    (step : ∀ d s, I d s → (d.narrow s.changed s.clearPending).outcome = .ok () →
      I (d.narrow s.changed s.clearPending).propagator (d.narrow s.changed s.clearPending).store)
    {limit : Nat} (h : I d s) (hok : (Propagator.rounds limit d s).outcome = .ok ()) :
    (∃ d', I d' (Propagator.rounds limit d s).store) ∧ (Propagator.rounds limit d s).store.hasChanges = false := by
  induction limit generalizing d s with
  | zero =>
    unfold Propagator.rounds at hok ⊢
    split at hok
    · cases hok
    · next hc =>
      rw [if_neg hc]
      exact ⟨⟨d, h⟩, by simpa using hc⟩
  | succ limit ih =>
    unfold Propagator.rounds at hok ⊢
    split at hok
    · next hc =>
      rw [if_pos hc]
      dsimp only [Store.takeChanged] at hok ⊢
      cases hfirst : (Propagator.narrow d s.changed s.clearPending).outcome with
      | error e =>
        rw [hfirst] at hok
        exact absurd (hfirst.symm.trans hok) nofun
      | ok _ =>
        rw [hfirst] at hok
        exact ih (step d s h hfirst) hok
    · next hc =>
      rw [if_neg hc]
      exact ⟨⟨d, h⟩, by simpa using hc⟩

/-- Imposes the constraint on a store, marks its whole scope as pending and narrows it alone until
nothing is pending, for at most the given number of rounds: the store at the end, if nothing
fails. -/
def alone (d : Disjoint) (id : ConstraintId) (limit : Nat) (s : Store w) :
    Except (Failure Inconsistency) (Store w) := do
  let (d, s, _) := d.impose id s
  let s ← s.touchAll d.scope
  let run := Propagator.rounds limit d s
  run.outcome
  return run.store

section Alone

variable {id : ConstraintId} {limit : Nat}

/-- A constraint alone ends well if marking its variables does and its rounds do from there. -/
theorem alone_eq_ok (h : d.alone id limit s = .ok u) :
    ∃ t, (s.allot d.rectangles.length).touchAll d.scope = .ok t ∧
      (Propagator.rounds limit (d.imposed id s) t).outcome = .ok () ∧
      (Propagator.rounds limit (d.imposed id s) t).store = u := by
  unfold alone at h
  rw [d.impose_eq] at h
  obtain ⟨t, ht, h⟩ := bind_eq_ok.1 h
  obtain ⟨_, hok, h⟩ := bind_eq_ok.1 h
  exact ⟨t, liftM_eq_ok.1 ht, hok, Except.ok.inj h⟩

/-- At the end, all rectangles are compatible. -/
theorem compatible_of_alone (h : d.alone id limit s = .ok u) (h0 : s.level = 0) :
    d.rectangles.Pairwise (Rectangle.Compatible u) := by
  obtain ⟨t, ht, hok, rfl⟩ := alone_eq_ok h
  obtain ⟨⟨e, hbare, hlone⟩, hquiet⟩ := rounds_keeps
    (I := fun e t => e.bare = (d.imposed id s).bare ∧ e.bare.Lone t)
    (fun e t he hok => ⟨he.1, he.2.narrow hok⟩) ⟨rfl, Lone.start h0 id ht⟩ hok
  have hrect : e.bare.rectangles = (d.imposed id s).bare.rectangles := congrArg rectangles hbare
  have := hlone.compatible hquiet
  rwa [hrect] at this

/-- At the end, no domain has gained a value. -/
theorem shrinks_of_alone (h : d.alone id limit s = .ok u) : s.Shrinks u := by
  obtain ⟨t, ht, hok, rfl⟩ := alone_eq_ok h
  have hallot : s.Shrinks (s.allot d.rectangles.length) := .of_domains [] (List.append_nil _).symm
  have hstep : ∀ (e : Disjoint) (t : Store w), s.Shrinks t →
      s.Shrinks (e.narrow t.changed t.clearPending).store := fun e t ht => by
    have hchanges : Store.Changes [e.bare] (fun _ => False) t.clearPending _ :=
      Session.changes_of_acts ((e.narrow_steps t.changed t.clearPending).acts (List.mem_singleton_self _))
    exact (ht.trans (Store.Write.clear t).shrinks).trans hchanges.writes.shrinks
  exact (rounds_keeps (I := fun _ t => s.Shrinks t) (fun e t ht _ => hstep e t ht)
    (hallot.trans (Store.drifts_touchAll ht).shrinks) hok).1.choose_spec

/-- **A run stays above every store in which its rectangles are compatible.** -/
theorem alone_includes {v : Store w} (h : d.alone id limit s = .ok u) (h0 : s.level = 0)
    (hmode : d.mode = .pairwise) (hv : d.rectangles.Pairwise (Rectangle.Compatible v)) (hs : s.Shrinks v) :
    u.Shrinks v := by
  obtain ⟨t, ht, hok, rfl⟩ := alone_eq_ok h
  have hlone := Lone.start h0 id ht
  have hsame : t.Shrinks s :=
    .of_domains [] ((Store.domains_touchAll ht).symm.trans (List.append_nil _).symm)
  have hstep : ∀ (e : Disjoint) (t : Store w),
      e.bare = (d.imposed id s).bare ∧ e.bare.Lone t ∧ t.Shrinks v →
      (e.narrow t.changed t.clearPending).outcome = .ok () →
      e.bare = (d.imposed id s).bare ∧ e.bare.Lone (e.narrow t.changed t.clearPending).store ∧
        (e.narrow t.changed t.clearPending).store.Shrinks v := by
    rintro e t ⟨hbare, hlone, ht⟩ hok
    have hrect : e.bare.rectangles = (d.imposed id s).bare.rectangles := congrArg rectangles hbare
    have hemode : e.bare.mode = (d.imposed id s).bare.mode := congrArg mode hbare
    have hcompatible : e.rectangles.Pairwise (Rectangle.Compatible v) := hrect ▸ hv
    have hclear : t.clearPending.Shrinks t := .of_domains [] (by simp [Store.clearPending])
    refine ⟨hbare, hlone.narrow hok, narrow_includes (hemode.trans hmode) hcompatible ?_ (fun u hu => hlone.ready hu)
      (hclear.trans ht) hok⟩
    exact fun q hq => (Store.Write.clear t).shrinks.known (hlone.known q hq)
  exact (rounds_keeps hstep ⟨rfl, hlone, hsame.trans hs⟩ hok).1.choose_spec.2.2

end Alone

/-- **Pairwise narrowing does not depend on the order of the rectangles.** Of two constraints over the
same rectangles in different orders, without profiles, let each be imposed on the same store at the
root and narrowed alone until nothing is pending, however many rounds that takes. If neither fails,
all variables have the same domains at the end. -/
theorem pairwise_order_independent {s u₁ u₂ : Store w} (h0 : s.level = 0) {d₁ d₂ : Disjoint}
    (hmode₁ : d₁.mode = .pairwise) (hmode₂ : d₂.mode = .pairwise)
    (hperm : d₁.rectangles.Perm d₂.rectangles) {id₁ id₂ : ConstraintId} {limit₁ limit₂ : Nat}
    (h₁ : d₁.alone id₁ limit₁ s = .ok u₁) (h₂ : d₂.alone id₂ limit₂ s = .ok u₂) (v : Var) :
    u₁.domain v = u₂.domain v := by
  have hsymm : ∀ {u : Store w} {r q : Rectangle}, Rectangle.Compatible u r q → Rectangle.Compatible u q r :=
    Rectangle.Compatible.symm
  have h₁₂ : u₁.Shrinks u₂ :=
    alone_includes h₁ h0 hmode₁ ((hperm.pairwise_iff hsymm).2 (compatible_of_alone h₂ h0)) (shrinks_of_alone h₂)
  have h₂₁ : u₂.Shrinks u₁ :=
    alone_includes h₂ h0 hmode₂ ((hperm.pairwise_iff hsymm).1 (compatible_of_alone h₁ h0)) (shrinks_of_alone h₁)
  exact h₁₂.domain_eq h₂₁ v

/-- Rods of length 3 on a line, in the given order. -/
def rods (order : List Nat) : Disjoint where
  id := none
  rectangles := order.map fun v => ⟨[⟨⟨v⟩, ⟨3⟩⟩], List.cons_ne_nil _ _⟩
  mode := .pairwise
  candidates := .empty
  statistics := .zero
  uniform := by simp [Rectangle.dim]

/-- Three rods, named in two orders: the first stands at the left edge and pushes the second, which
pushes the third. -/
theorem pairwise_order_independent_rods :
    let range := fun (hi : Int) (h : 0 ≤ hi ∧ Width.w8.Holds hi) =>
      (.newVar ⟨0, hi, h.1, by decide, h.2⟩ : Op .w8)
    let s := (Session.empty.run [range 0 (by decide), range 5 (by decide), range 8 (by decide),
      .newVar (.single 3 (by decide))]).store
    ∃ u₁ u₂, (rods [0, 1, 2]).alone ⟨0⟩ 5 s = .ok u₁ ∧ (rods [2, 1, 0]).alone ⟨0⟩ 5 s = .ok u₂ ∧
      (u₁.dom ⟨2⟩).lo = 6 ∧ ∀ v, u₁.domain v = u₂.domain v := by
  intro range s
  have h₁ : ((rods [0, 1, 2]).alone ⟨0⟩ 5 s).toOption.any fun u => (u.dom ⟨2⟩).lo = 6 := by decide +kernel
  have h₂ : ((rods [2, 1, 0]).alone ⟨0⟩ 5 s).toOption.isSome := by decide +kernel
  have h0 : s.level = 0 := rfl
  clear_value s
  cases hu₁ : (rods [0, 1, 2]).alone ⟨0⟩ 5 s with
  | error e =>
    rw [hu₁] at h₁
    cases h₁
  | ok u₁ =>
    cases hu₂ : (rods [2, 1, 0]).alone ⟨0⟩ 5 s with
    | error e =>
      rw [hu₂] at h₂
      cases h₂
    | ok u₂ =>
      rw [hu₁] at h₁
      have hperm : (rods [0, 1, 2]).rectangles.Perm (rods [2, 1, 0]).rectangles := by decide +kernel
      exact ⟨u₁, u₂, rfl, rfl, by simpa [Except.toOption] using h₁,
        pairwise_order_independent h0 rfl rfl hperm hu₁ hu₂⟩

end Disjoint
end Placement
