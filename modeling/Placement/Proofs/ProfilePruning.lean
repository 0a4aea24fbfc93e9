/-
# Profiles only prune more

In profile mode a rectangle is tightened against more regions than in pairwise mode, so after the first
of these the two modes work on different domains: along every later dimension they see different
lengths, mandatory parts and regions. Yet profile mode stays ahead (`Tighten.Outdoes`). Where it has
the smaller domains, it has the greater length, and more of the used space blocks it, so what is
feasible for it is feasible in pairwise mode too (`Tighten.Feasible.weaken`). Since tightening is
exact, its bounds are no looser (`Tighten.outdoes_origin`), and the regions of profiles only take
more. This carries over from one dimension to the next (`Tighten.outdoes_dimensions`).

The argument needs nothing of the rectangle but that its variables exist; they may be the same along
several dimensions, and an origin may be a length.
-/

import Placement.Proofs.Failures
import Placement.Proofs.FeasibleOrigins
import Placement.Proofs.Lockstep

namespace Placement

open Neighborhood

variable {w : Width}

/-! ## Regions of used space -/

namespace Region

variable {s t : Store w} {r : Rectangle} {us : List Used}

/-- Regions of used space within the width are ascending intervals of the width. -/
theorem ofUsed_ascending (hk : r.Known s) {i : Nat} (hi : i < r.dim)
    (hus : ∀ u ∈ us, u.boxes.length = r.dim ∧ ∀ g ∈ u.boxes, g.Fits w) :
    ∃ regions, ofUsed s r i us = .ok regions ∧ Tighten.Ascending w regions ∧
      ∀ p, Covered regions p ↔ ∃ u ∈ us, u.BlocksAt (r.view s) i p := by
  obtain ⟨regions, hok, hsep, hne, hcovered⟩ := ofUsed_iff hk hi fun u hu => (hus u hu).1
  have inside : ∀ p, Covered regions p → w.Holds p ∧ w.Holds (p + 1) := by
    intro p hp
    obtain ⟨u, hu, hblocks⟩ := (hcovered p).1 hp
    obtain ⟨box, hbox, hstart, hstop⟩ := hblocks.along
    obtain ⟨hholds, hholds'⟩ := (hus u hu).2 box (List.mem_of_getElem? hbox)
    exact ⟨w.holds_between hholds hholds' hstart (by omega), w.holds_between hholds hholds' (by omega) hstop⟩
  refine ⟨regions, hok, ⟨fun g hg => ?_, hne, hsep.imp Int.le_of_lt⟩, hcovered⟩
  have hlt : g.start < g.stop := lt_of_le_of_ne g.start_le_stop (hne g hg)
  have hfirst := inside g.start ⟨g, hg, Int.le_refl _, hlt⟩
  have hlast := inside (g.stop - 1) ⟨g, hg, by omega, by omega⟩
  rw [Int.sub_add_cancel] at hlast
  exact ⟨hfirst.1, hlast.2⟩

/-- **More of the used space blocks a rectangle in a smaller store.** -/
theorem ofUsed_grows (hk : r.Known s) (h : s.Shrinks t) {i : Nat} (hi : i < r.dim)
    (hus : ∀ u ∈ us, u.boxes.length = r.dim ∧ ∀ g ∈ u.boxes, g.Fits w) :
    ∃ regions regions', ofUsed s r i us = .ok regions ∧ ofUsed t r i us = .ok regions' ∧
      Tighten.Ascending w regions ∧ Tighten.Ascending w regions' ∧
      ∀ p, Covered regions p → Covered regions' p := by
  obtain ⟨regions, hok, hasc, hcovered⟩ := ofUsed_ascending hk hi hus
  obtain ⟨regions', hok', hasc', hcovered'⟩ := ofUsed_ascending (h.known hk) hi hus
  refine ⟨regions, regions', hok, hok', hasc, hasc', fun p hp => ?_⟩
  obtain ⟨u, hu, hblocks⟩ := (hcovered p).1 hp
  exact (hcovered' p).2 ⟨u, hu, hblocks.shrinks (Rectangle.view_within fun x hx => h.look hk hx)⟩

end Region

namespace Tighten

/-! ## One origin -/

/-- What is feasible for a smaller domain, a greater length and more regions is feasible. -/
theorem Feasible.weaken {d d' : Domain w} {length length' o : Int} {regions regions' : List Span}
    (h : Feasible d' length' regions' o) (hd : d'.Within d) (hlength : length ≤ length')
    (hregions : ∀ p, Covered regions p → Covered regions' p) : Feasible d length regions o := by
  obtain ⟨⟨hlo, hhi⟩, hfree⟩ := h
  refine ⟨⟨hd.1.trans hlo, hhi.trans hd.2⟩, fun p hp ⟨hle, hlt⟩ => ?_⟩
  exact hfree p (hregions p hp) ⟨hle, by omega⟩

/-- Tightening an origin only shrinks the store. -/
theorem ends_origin_shrinks {v : Var} {p : Pass w} (hv : v.val < p.store.cells.length) (length : Int)
    (regions : List Span) :
    Ends (origin v length regions) p (fun _ q => p.store.Shrinks q.store) fun _ _ => True :=
  ends_origin hv (fun _ _ => .refl _) (fun _ _ _ _ _ _ hset => Store.shrinks_setBounds hset)
    fun _ _ _ _ _ => trivial

/-- Tightening an origin against several regions only shrinks the store. -/
theorem ends_originAgainst_shrinks {v : Var} {p : Pass w} (hv : v.val < p.store.cells.length) (length : Int)
    (fs : List (Store w → Except Fault (List Span))) :
    Ends (originAgainst v length fs) p (fun _ q => p.store.Shrinks q.store) fun _ _ => True :=
  ends_originAgainst (E := fun _ => True) (fun _ => trivial) hv length (fun _ _ _ _ _ _ => trivial) (.refl _)

/-- Where `m` ends well from `q`, so does `m'` from `p`, and the domains that it leaves hold those that
`m` leaves. -/
def Outdoes {α β : Type} (m : Narrowing w α) (q : Pass w) (m' : Narrowing w β) (p : Pass w) : Prop :=
  Ends m q (fun _ q' => Ends m' p (fun _ p' => p'.store.Shrinks q'.store) fun _ _ => False) fun _ _ => True

/-- **One origin**, tightened from smaller domains, with a greater length and against more regions. -/
theorem outdoes_origin {v : Var} {length length' : Int} {regions regions' : List Span} {p q : Pass w}
    (hv : v.val < p.store.cells.length) (h : p.store.Shrinks q.store) (hpos : 0 < length)
    (hlength : length ≤ length') (hp : Ascending w regions) (hq : Ascending w regions')
    (hregions : ∀ x, Covered regions x → Covered regions' x) :
    Outdoes (origin v length' regions') q (origin v length regions) p := by
  have hv' : v.val < q.store.cells.length := Nat.lt_of_lt_of_le hv h.length_le
  have weaken : ∀ o, Feasible (q.store.dom v) length' regions' o → Feasible (p.store.dom v) length regions o :=
    fun o ho => ho.weaken (h.within v hv) hlength hregions
  refine (ends_origin_dom hv' (by omega) hq).mono ?_ fun _ _ _ => trivial
  rintro - q' ⟨hlen', hother', hleast', hgreatest'⟩
  refine (ends_origin_dom hv hpos hp).mono ?_ fun _ _ hnone => hnone _ (weaken _ hleast'.1)
  rintro - p' ⟨hlen, hother, hleast, hgreatest⟩
  refine ⟨by rw [hlen, hlen']; exact h.length_le, fun x hx => ?_⟩
  by_cases hxv : x = v
  · subst hxv
    exact ⟨hleast.2 (weaken _ hleast'.1), hgreatest.2 (weaken _ hgreatest'.1)⟩
  · rw [hother x hxv, hother' x hxv]
    exact h.within x (by rwa [hlen] at hx)

/-! ## All origins of a rectangle -/

section Rectangle

variable {s : Store w} {rectangles : List Rectangle} {k : Nat} {r : Rectangle} {found : Neighborhood}
  {sorter : Sorter Step.place}

/-- **One dimension**: the regions of used space, and then whatever else, against those of used space
alone. -/
theorem outdoes_originAgainst {us : List Used}
    (hus : ∀ u ∈ us, u.boxes.length = r.dim ∧ ∀ g ∈ u.boxes, g.Fits w) {i : Nat} (hi : i < r.dim) {v : Var}
    {length length' : Int} {p q : Pass w} (hk : r.Known p.store) (h : p.store.Shrinks q.store)
    (hv : v.val < p.store.cells.length) (hpos : 0 < length) (hlength : length ≤ length')
    (fs : List (Store w → Except Fault (List Span))) :
    Outdoes (originAgainst v length' ((fun s => Region.ofUsed s r i us) :: fs)) q
      (originAgainst v length [fun s => Region.ofUsed s r i us]) p := by
  obtain ⟨regions, regions', hok, hok', hasc, hasc', hregions⟩ := Region.ofUsed_grows hk h hi hus
  have hv' : v.val < q.store.cells.length := Nat.lt_of_lt_of_le hv h.length_le
  refine ends_originAgainst_cons (fun _ hread => ?_) fun _ _ => trivial
  obtain rfl := Except.ok.inj (hok'.symm.trans hread)
  refine ((outdoes_origin hv h hpos hlength hasc hasc' hregions).and (ends_origin_shrinks hv' _ _)).mono ?_
    fun _ _ _ => trivial
  rintro - q₁ ⟨hahead, hshrinks⟩
  have hv₁ : v.val < q₁.store.cells.length := Nat.lt_of_lt_of_le hv' hshrinks.length_le
  refine (ends_originAgainst_shrinks hv₁ length' fs).mono (fun _ q₂ hq₂ => ?_) fun _ _ _ => trivial
  refine ends_originAgainst_cons (fun _ hread => ?_) fun c hc => ?_
  · obtain rfl := Except.ok.inj (hok.symm.trans hread)
    exact hahead.mono (fun _ p₁ hp₁ => hp₁.trans hq₂) fun _ _ hfalse => hfalse
  · cases hok.symm.trans hc

/-- **One dimension after the other**: profile mode stays ahead. -/
theorem outdoes_dimensions (hused : ∀ u ∈ found.used, u.boxes.length = r.dim ∧ ∀ g ∈ u.boxes, g.Fits w)
    {is : List Nat} (his : ∀ i ∈ is, i < r.dim) {p q : Pass w} (hk : r.Known p.store)
    (h : p.store.Shrinks q.store) :
    Outdoes (dimensions rectangles k r found (.profile sorter) is) q (dimensions rectangles k r found .pairwise is) p := by
  induction is generalizing p q with
  | nil => exact h
  | cons i is ih =>
    obtain ⟨hi, his⟩ := List.forall_mem_cons.1 his
    obtain ⟨x, hx⟩ : ∃ x, r.sides[i]? = some x := ⟨_, List.getElem?_eq_getElem hi⟩
    have hmem := List.mem_of_getElem? hx
    have hv := hk.origin hmem
    have hv' : x.origin.val < q.store.cells.length := (h.known hk).origin hmem
    have hlength : (p.store.look x).length.lo ≤ (q.store.look x).length.lo := (h.look hk hmem).length.1
    -- the two modes skip the dimension, only pairwise mode does, or both tighten the origin
    refine ends_dimensions_cons (h.known hk) hx (fun hskip => ?_) fun hpos' => ?_
    · refine (ih his hk h).mono (fun _ q' hq' => ?_) fun _ _ _ => trivial
      exact ends_dimensions_cons hk hx (fun _ => hq') fun hpos => by omega
    · by_cases hpos : 0 < (p.store.look x).length.lo
      · refine (outdoes_originAgainst hused hi hk h hv hpos hlength _).mono (fun _ q₁ hq₁ => ?_) fun _ _ _ => trivial
        obtain ⟨m, p₁, hp₁, hahead⟩ := hq₁.exists_ok
        have hshrinks := (ends_iff_of_ok hp₁).1 (ends_originAgainst_shrinks hv _ _)
        refine (ih his (hshrinks.known hk) hahead).mono (fun _ q' hq' => ?_) fun _ _ _ => trivial
        exact ends_dimensions_cons hk hx (fun hskip => by omega) fun _ => (ends_iff_of_ok hp₁).2 hq'
      · refine (ends_originAgainst_shrinks hv' _ _).mono (fun _ q₁ hq₁ => ?_) fun _ _ _ => trivial
        refine (ih his hk (h.trans hq₁)).mono (fun _ q' hq' => ?_) fun _ _ _ => trivial
        exact ends_dimensions_cons hk hx (fun _ => hq') fun hpos' => absurd hpos' hpos

/-- **Profile mode prunes at least what pairwise mode prunes.** Take any used space with a box of the
width along every dimension, any candidates for profiles, and any order in which the steps of one
place are sorted. Unless the height of a profile leaves the width in that order, profile mode refutes
the store if pairwise mode fails; and if both end well, all domains that profile mode leaves are parts
of those that pairwise mode leaves. -/
theorem profile_prunes_more (hr : rectangles[k]? = some r) (hk : r.Known s)
    (hused : ∀ u ∈ found.used, u.boxes.length = r.dim ∧ ∀ g ∈ u.boxes, g.Fits w)
    (hprofiled : Readable s rectangles r found.profiled)
    (hover : ((rectangle rectangles k found (.profile sorter)).runOn s).2.2 ≠ .error (.fault .addOverflow)) :
    let pairwise := (rectangle rectangles k found .pairwise).runOn s
    let profile := (rectangle rectangles k found (.profile sorter)).runOn s
    (∀ e, pairwise.2.2 = .error e → ∃ c, profile.2.2 = .error (.refuted c)) ∧
      ∀ m n, pairwise.2.2 = .ok m → profile.2.2 = .ok n → pairwise.1.Shrinks profile.1 := by
  have hrun : ∀ mode, (rectangle rectangles k found mode).runOn s =
      (dimensions rectangles k r found mode (List.range r.dim)).runOn s := fun mode => by
    unfold Narrowing.runOn rectangle
    rw [Narrowing.read_bind (entry_eq_ok.2 hr)]
  have hlt : ∀ i ∈ List.range r.dim, i < r.dim := fun i hi => List.mem_range.1 hi
  have hout : Outdoes (dimensions rectangles k r found (.profile sorter) (List.range r.dim)) ⟨s, []⟩
      (dimensions rectangles k r found .pairwise (List.range r.dim)) ⟨s, []⟩ :=
    outdoes_dimensions hused hlt hk (.refl _)
  have hends : Ends (dimensions rectangles k r found (.profile sorter) (List.range r.dim)) ⟨s, []⟩
      (fun _ q => s.Shrinks q.store) fun e _ => e.Expected := by
    refine ends_dimensions (E := Failure.Expected) (fun c => .inl ⟨c, rfl⟩) hk
      (fun i hi => ⟨hlt i hi, fun f hf t ht c hc => ?_⟩) (.refl _)
    rcases computes_regions hk (fun u hu => (hused u hu).1) hr hprofiled (.profile sorter) (hlt i hi) f hf t ht
      with hover | ⟨_, hok⟩
    · cases hover.symm.trans hc
      exact .inr rfl
    · cases hok.symm.trans hc
  simp only [hrun] at hover ⊢
  unfold Narrowing.runOn at hover ⊢
  unfold Ends at hends
  cases hprofile : dimensions rectangles k r found (.profile sorter) (List.range r.dim) ⟨s, []⟩ with
  | ok n q =>
    obtain ⟨m, p, hpairwise, hshrinks⟩ := ((ends_iff_of_ok hprofile).1 hout).exists_ok
    simp only [hpairwise]
    exact ⟨fun _ he => (nomatch he), fun _ _ _ _ => hshrinks⟩
  | error e q =>
    simp only [hprofile] at hends hover ⊢
    obtain ⟨c, rfl⟩ | rfl := hends
    · exact ⟨fun _ _ => ⟨c, rfl⟩, fun _ _ _ hok => (nomatch hok)⟩
    · exact absurd rfl hover

/-- A box of width 2 whose first origin is also its second length, and three fixed blocks. The profile of
the first two moves the origin from 2 to 5. The box is then 5 high and covers column 6 for certain, so
the third block raises it; pairwise mode does nothing. Against one block that fills all its room, the
box is refuted in both modes. -/
theorem profile_prunes_more_columns :
    let s : Store .w8 := .ofBounds [(2, 6), (2, 2), (0, 1), (0, 0), (5, 5), (1, 1), (6, 6)]
    let box := fun x width y height : Nat =>
      (⟨[⟨⟨x⟩, ⟨width⟩⟩, ⟨⟨y⟩, ⟨height⟩⟩], List.cons_ne_nil _ _⟩ : Rectangle)
    let rectangles := [box 0 1 2 0, box 3 4 3 5, box 3 4 1 4, box 6 5 3 5]
    let used : List Used := [⟨1, [⟨0, 5, by decide⟩, ⟨0, 1, by decide⟩]⟩, ⟨2, [⟨0, 5, by decide⟩, ⟨2, 7, by decide⟩]⟩,
      ⟨3, [⟨6, 7, by decide⟩, ⟨0, 1, by decide⟩]⟩]
    let full : Used := ⟨1, [⟨0, 8, by decide⟩, ⟨0, 8, by decide⟩]⟩
    let run := fun used mode => (rectangle rectangles 0 ⟨[1, 2, 3], used, [1, 2], false⟩ mode).runOn s
    (run used .pairwise).2.2 = .ok 0 ∧ (run used (.profile (.stable _))).2.2 = .ok 2 ∧
      (run used .pairwise).1.Shrinks (run used (.profile (.stable _))).1 ∧
      [0, 2].map (fun n => ((run used .pairwise).1.dom ⟨n⟩).lo) = [2, 0] ∧
      [0, 2].map (fun n => ((run used (.profile (.stable _))).1.dom ⟨n⟩).lo) = [5, 1] ∧
      (run [full] .pairwise).2.2 = .error (.refuted (.emptyDomain ⟨0⟩)) ∧
      ∃ c, (run [full] (.profile (.stable _))).2.2 = .error (.refuted c) := by
  intro s box rectangles used full run
  have hknown : ∀ q ∈ rectangles, q.Known s ∧ q.dim = 2 := by decide +kernel
  have hprofiled : Readable s rectangles (box 0 1 2 0) [1, 2] := fun j hj => by
    have hget : rectangles[j]? = some (rectangles.get ⟨j, by revert j; decide⟩) := List.getElem?_eq_getElem _
    exact ⟨_, hget, hknown _ (List.mem_of_getElem? hget)⟩
  have hfocus : rectangles[0]? = some (box 0 1 2 0) := rfl
  have hpairwise : (run used .pairwise).2.2 = .ok 0 := by decide +kernel
  have hprofile : (run used (.profile (.stable _))).2.2 = .ok 2 := by decide +kernel
  have hfull : (run [full] .pairwise).2.2 = .error (.refuted (.emptyDomain ⟨0⟩)) := by decide +kernel
  have hmore : ∀ us : List Used, (∀ u ∈ us, u.boxes.length = (box 0 1 2 0).dim ∧ ∀ g ∈ u.boxes, g.Fits .w8) →
      (run us (.profile (.stable _))).2.2 ≠ .error (.fault .addOverflow) →
      (∀ e, (run us .pairwise).2.2 = .error e → ∃ c, (run us (.profile (.stable _))).2.2 = .error (.refuted c)) ∧
        ∀ m n, (run us .pairwise).2.2 = .ok m → (run us (.profile (.stable _))).2.2 = .ok n →
          (run us .pairwise).1.Shrinks (run us (.profile (.stable _))).1 := fun us hus hover =>
    profile_prunes_more hfocus (hknown _ List.mem_cons_self).1 hus hprofiled hover
  refine ⟨hpairwise, hprofile, ?_, by decide +kernel, by decide +kernel, hfull, ?_⟩
  · exact (hmore used (by decide +kernel) (by decide +kernel)).2 0 2 hpairwise hprofile
  · exact (hmore [full] (by decide +kernel) (by decide +kernel)).1 _ hfull

end Rectangle

end Tighten
end Placement
