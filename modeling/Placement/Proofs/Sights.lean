/-
# Comparing two analyses

Two analyses of a rectangle, at different stores or for different changed variables, see the same
candidates in different ways. `Neighbor.Same` relates neighbours that differ at most in whether
they changed: they give the same sums, so an analysis that ends well does so for any changed
variables, and for the candidates it kept alone (`analyze_overlapping`). `Neighbor.Alike` relates
neighbours that give the same used space and the same profiles.

While domains shrink, reaches that meet have met before (`meet_of_within`), and a neighbour that
gives used space or a place in a profile keeps doing so (`Neighbor.counts_of_within`).
-/

import Placement.Proofs.Analysis

namespace Placement

variable {w : Width}

/-- What a rectangle shows shrinks with the extents of its sides. -/
theorem Rectangle.view_within {r : Rectangle} {s t : Store w}
    (h : ∀ x ∈ r.sides, (t.look x).Within (s.look x)) : List.Forall₂ Extent.Within (r.view t) (r.view s) := by
  unfold view
  rw [List.forall₂_map_left_iff, List.forall₂_map_right_iff, List.forall₂_same]
  exact h

namespace Neighborhood

/-- Two filters that give related results give related lists. -/
theorem forall₂_filterMap {α β : Type} {P : β → β → Prop} {f g : α → Option β} {as : List α}
    (h : ∀ a ∈ as, Option.Rel P (f a) (g a)) : List.Forall₂ P (as.filterMap f) (as.filterMap g) := by
  induction as with
  | nil => exact .nil
  | cons a as ih =>
    obtain ⟨ha, has⟩ := List.forall_mem_cons.1 h
    generalize hf : f a = x at ha
    generalize hg : g a = y at ha
    cases ha with
    | some hP =>
      rw [List.filterMap_cons_some hf, List.filterMap_cons_some hg]
      exact .cons hP (ih has)
    | none =>
      rw [List.filterMap_cons_none hf, List.filterMap_cons_none hg]
      exact ih has

/-! ## Neighbours that give the same sums -/

/-- The neighbours differ at most in whether they changed. -/
structure Neighbor.Same (m n : Neighbor w) : Prop where
  index_eq : n.index = m.index
  extents_eq : n.extents = m.extents
  solid_eq : n.solid = m.solid
  area_eq : n.area = m.area

/-- The tallies differ at most in what was found. -/
structure Tally.Same (t u : Tally) : Prop where
  envelope_eq : u.envelope = t.envelope
  solids_eq : u.solids = t.solids
  area_eq : u.area = t.area
  forced_eq : u.forced = t.forced

/-- The same sums stay the same when the same neighbour is added. -/
theorem Tally.Same.add {t u : Tally} (h : t.Same u) (f : Focus) {m n : Neighbor w} (hn : m.Same n) :
    (t.add f m).Same (u.add f n) := by
  have hforced : forcedVolume f n = forcedVolume f m := by
    unfold forcedVolume
    rw [hn.extents_eq]
  unfold Tally.add
  dsimp only
  rw [hforced, hn.solid_eq, hn.extents_eq, hn.area_eq, h.envelope_eq, h.solids_eq, h.area_eq, h.forced_eq]
  split
  · exact ⟨rfl, rfl, rfl, rfl⟩
  · exact ⟨rfl, rfl, rfl, rfl⟩

/-- The common area bound does not look at what has changed. -/
theorem Tally.Same.checkCommonArea {t u : Tally} (h : t.Same u) (f : Focus) :
    u.checkCommonArea w f = t.checkCommonArea w f := by
  unfold Tally.checkCommonArea
  rw [h.forced_eq]

/-- The bounds on the envelope do not look at what has changed. -/
theorem Tally.Same.checkEnvelope {t u : Tally} (h : t.Same u) (f : Focus) :
    u.checkEnvelope w f = t.checkEnvelope w f := by
  unfold Tally.checkEnvelope
  rw [h.envelope_eq, h.solids_eq, h.area_eq]

/-- From the same sums, analyses end in the same way, each with what it has found. -/
theorem Tally.Same.close {t u : Tally} (h : t.Same u) (f : Focus) {found : Neighborhood}
    (hc : t.close w f = .ok found) : u.close w f = .ok u.found := by
  unfold Tally.close at hc ⊢
  rw [h.solids_eq, h.checkEnvelope]
  split at hc
  · next hpos =>
    rw [if_pos hpos]
    split at hc
    · rfl
    · cases hc
  · next hpos => rw [if_neg hpos]

/-- Turns that end well do so without those that see nothing, and whatever changed. -/
theorem turns_same {f : Focus} {sights : List (Option (Neighbor w))} {ns : List (Neighbor w)}
    (hns : List.Forall₂ Neighbor.Same sights.reduceOption ns) {t t' u : Tally} (ht : t.Same t')
    (h : sights.foldlM (Tally.turn f) t = .ok u) :
    ∃ u', (ns.map some).foldlM (Tally.turn f) t' = .ok u' ∧ u.Same u' := by
  induction sights generalizing ns t t' with
  | nil =>
    cases hns
    cases h
    exact ⟨t', rfl, ht⟩
  | cons n? sights ih =>
    rw [List.foldlM_cons] at h
    obtain ⟨v, hv, h⟩ := bind_eq_ok.1 h
    unfold Tally.turn at hv
    dsimp only at hv
    cases n? with
    | none =>
      split at hv
      · cases hv
        exact ih (by rwa [List.reduceOption_cons_of_none] at hns) ht h
      · cases hv
    | some m =>
      rw [List.reduceOption_cons_of_some] at hns
      obtain _ | ⟨hmn, hrest⟩ := hns
      rename_i n ns
      split at hv
      · next hcheck =>
        cases hv
        have hadd := ht.add f hmn
        obtain ⟨u', hu', hsame⟩ := ih hrest hadd h
        refine ⟨u', ?_, hsame⟩
        rw [List.map_cons, List.foldlM_cons]
        refine bind_eq_ok.2 ⟨t'.add f n, ?_, hu'⟩
        unfold Tally.turn
        dsimp only
        rw [hadd.checkCommonArea, hcheck]
      · cases hv

variable {s t : Store w} {rectangles : List Rectangle} {changed : List Var} {k : Nat} {r : Rectangle}
  {es : List (Extent w)} {cs : List Nat}

/-- What is seen of a candidate depends on the changed variables in whether it changed only. -/
theorem sight_same (s : Store w) (rectangles : List Rectangle) (changed changed' : List Var)
    (es : List (Extent w)) (j : Nat) :
    Option.Rel Neighbor.Same (sight s rectangles changed es j) (sight s rectangles changed' es j) := by
  unfold sight
  split
  · exact .none
  · split
    · exact .some ⟨rfl, rfl, rfl, rfl⟩
    · exact .none

/-- The focus sees the same neighbours, whatever has changed. -/
theorem seen_same (s : Store w) (rectangles : List Rectangle) (changed changed' : List Var)
    (es : List (Extent w)) (cs : List Nat) :
    List.Forall₂ Neighbor.Same (seen s rectangles changed es cs) (seen s rectangles changed' es cs) :=
  forall₂_filterMap fun j _ => sight_same s rectangles changed changed' es j

/-- The candidates that are kept are seen as all of them are. -/
theorem sight_overlapping (s : Store w) (rectangles : List Rectangle) (changed changed' : List Var)
    (es : List (Extent w)) (cs : List Nat) :
    ((seen s rectangles changed es cs).map Neighbor.index).map (sight s rectangles changed' es) =
      (seen s rectangles changed' es cs).map some := by
  induction cs with
  | nil => rfl
  | cons j cs ih =>
    unfold seen at ih ⊢
    have hsame := sight_same s rectangles changed changed' es j
    generalize hx : sight s rectangles changed es j = x at hsame
    generalize hy : sight s rectangles changed' es j = y at hsame
    cases hsame with
    | some hP =>
      obtain ⟨q, -, -, rfl⟩ := sight_eq_some hx
      rw [List.filterMap_cons_some hx, List.filterMap_cons_some hy, List.map_cons, List.map_cons,
        List.map_cons, ih]
      exact congrArg (· :: _) hy
    | none => rw [List.filterMap_cons_none hx, List.filterMap_cons_none hy, ih]

/-- Looking again at the neighbours seen shows the same neighbours. -/
theorem seen_overlapping (s : Store w) (rectangles : List Rectangle) (changed changed' : List Var)
    (es : List (Extent w)) (cs : List Nat) :
    seen s rectangles changed' es ((seen s rectangles changed es cs).map Neighbor.index) =
      seen s rectangles changed' es cs := by
  have h := congrArg List.reduceOption (sight_overlapping s rectangles changed changed' es cs)
  rw [reduceOption_map_sight] at h
  rw [h]
  unfold List.reduceOption
  rw [List.filterMap_map]
  exact List.filterMap_some ..

/-- Candidates that all meet the focus are all kept. -/
theorem index_seen_of_meet (h : ∀ j ∈ cs, ∃ q, rectangles[j]? = some q ∧ meet es (q.view s) = true) :
    (seen s rectangles changed es cs).map Neighbor.index = cs := by
  induction cs with
  | nil => rfl
  | cons j cs ih =>
    obtain ⟨⟨q, hq, hm⟩, hcs⟩ := List.forall_mem_cons.1 h
    have hsight : sight s rectangles changed es j =
        some (Neighbor.of j (q.view s) (q.touches changed)) := by
      unfold sight
      rw [hq]
      exact if_pos hm
    have ih := ih hcs
    unfold seen at ih ⊢
    rw [List.filterMap_cons_some hsight, List.map_cons, ih]
    rfl

/-- **An analysis that ends well does so for the candidates it kept**, whatever changed. -/
theorem analyze_overlapping (hu : Uniform rectangles s) (hr : rectangles[k]? = some r)
    (hcs : ∀ j ∈ cs, j < rectangles.length ∧ j ≠ k) {found : Neighborhood}
    (h : analyze s rectangles k cs changed = .ok found) (changed' : List Var) :
    analyze s rectangles k found.overlapping changed' =
      .ok (ofNeighbors (seen s rectangles changed' (r.view s) cs)) := by
  have hfound := analyze_ok hu hr hcs h
  have hsub : ∀ j ∈ found.overlapping, j < rectangles.length ∧ j ≠ k := fun j hj =>
    hcs j ((index_seen_sublist ..).subset (hfound ▸ hj))
  have hok : ∃ found', analyze s rectangles k found.overlapping changed' = .ok found' := by
    rw [analyze_eq hu hr hcs] at h
    obtain ⟨u, hturns, hclose⟩ := bind_eq_ok.1 h
    have hns : List.Forall₂ Neighbor.Same (cs.map (sight s rectangles changed (r.view s))).reduceOption
        (seen s rectangles changed' (r.view s) cs) := by
      rw [reduceOption_map_sight]
      exact seen_same ..
    obtain ⟨u', hu', hsame⟩ := turns_same hns ⟨rfl, rfl, rfl, rfl⟩ hturns
    refine ⟨u'.found, ?_⟩
    rw [analyze_eq hu hr hsub, hfound]
    change (((seen s rectangles changed (r.view s) cs).map Neighbor.index).map _).foldlM _ _ >>= _ = _
    rw [sight_overlapping]
    exact bind_eq_ok.2 ⟨u', hu', hsame.close _ hclose⟩
  obtain ⟨found', hfound'⟩ := hok
  rw [hfound', analyze_ok hu hr hsub hfound', hfound]
  exact congrArg (fun ns => Except.ok (ofNeighbors ns)) (seen_overlapping ..)

/-- If no candidate is lost, each is seen. -/
theorem sees_of_length_eq (hu : Uniform rectangles s) (hr : rectangles[k]? = some r)
    (hcs : ∀ j ∈ cs, j < rectangles.length ∧ j ≠ k) {found : Neighborhood}
    (h : analyze s rectangles k cs changed = .ok found) (hlen : found.overlapping.length = cs.length) :
    found.overlapping = cs ∧ ∀ j ∈ cs, ∃ q, rectangles[j]? = some q ∧ meet (r.view s) (q.view s) = true ∧
      sight s rectangles changed (r.view s) j = some (Neighbor.of j (q.view s) (q.touches changed)) := by
  have hfound := analyze_ok hu hr hcs h
  have hover : found.overlapping = cs := by
    rw [hfound] at hlen ⊢
    exact (index_seen_sublist ..).eq_of_length hlen
  refine ⟨hover, fun j hj => ?_⟩
  rw [← hover, hfound] at hj
  obtain ⟨n, hn, rfl⟩ := List.mem_map.1 hj
  obtain ⟨j, -, hn⟩ := List.mem_filterMap.1 hn
  obtain ⟨q, hq, hm, rfl⟩ := sight_eq_some hn
  exact ⟨q, hq, hm, hn⟩

/-- What is seen depends on the views of the rectangles only. -/
theorem sight_congr (hview : ∀ q ∈ rectangles, q.view t = q.view s) :
    sight t rectangles changed es = sight s rectangles changed es := by
  funext j
  unfold sight
  cases hq : rectangles[j]? with
  | none => rfl
  | some q =>
    dsimp only
    rw [hview q (List.mem_of_getElem? hq)]

/-- **An analysis depends on what the rectangles show only.** -/
theorem analyze_congr (hu : Uniform rectangles s) (hu' : Uniform rectangles t)
    (hview : ∀ q ∈ rectangles, q.view t = q.view s) (hr : rectangles[k]? = some r)
    (hcs : ∀ j ∈ cs, j < rectangles.length ∧ j ≠ k) :
    analyze t rectangles k cs changed = analyze s rectangles k cs changed := by
  rw [analyze_eq hu hr hcs, analyze_eq hu' hr hcs, hview r (List.mem_of_getElem? hr), sight_congr hview]

/-! ## Neighbours that give the same regions -/

/-- The neighbours give the same used space and the same place in profiles. -/
structure Neighbor.Alike (m n : Neighbor w) : Prop where
  index_eq : n.index = m.index
  isUsed_eq : n.isUsed = m.isUsed
  isProfiled_eq : n.isProfiled = m.isProfiled
  boxes_eq : m.isUsed = true → n.boxes = m.boxes

/-- The same neighbours are alike. -/
theorem Neighbor.Same.alike {m n : Neighbor w} (h : m.Same n) : m.Alike n := by
  have hboxes : n.boxes = m.boxes := by
    unfold Neighbor.boxes
    rw [h.extents_eq]
  refine ⟨h.index_eq, ?_, ?_, fun _ => hboxes⟩
  · unfold Neighbor.isUsed
    rw [hboxes, h.extents_eq]
  · unfold Neighbor.isProfiled
    rw [hboxes, h.solid_eq]

/-- Alike neighbours use the same space, and the same ones may be in profiles. -/
theorem used_eq_of_alike {ms ns : List (Neighbor w)} (h : List.Forall₂ Neighbor.Alike ms ns) :
    (ofNeighbors ns).used = (ofNeighbors ms).used ∧ (ofNeighbors ns).profiled = (ofNeighbors ms).profiled := by
  induction h with
  | nil => exact ⟨rfl, rfl⟩
  | @cons m n ms ns hmn _ ih =>
    obtain ⟨hused, hprofiled⟩ := ih
    unfold ofNeighbors at hused hprofiled ⊢
    dsimp only at hused hprofiled ⊢
    rw [List.filter_cons, List.filter_cons, List.filter_cons, List.filter_cons, hmn.isUsed_eq,
      hmn.isProfiled_eq]
    refine ⟨?_, ?_⟩
    · split
      · next hu => rw [List.map_cons, List.map_cons, hused, hmn.index_eq, hmn.boxes_eq hu]
      · exact hused
    · split
      · rw [List.map_cons, List.map_cons, hprofiled, hmn.index_eq]
      · exact hprofiled

/-- The neighbour gives used space or a place in a profile. -/
def Neighbor.counts (n : Neighbor w) : Bool := n.isUsed || n.isProfiled

/-- Two stores at which all candidates are seen give the same regions if those candidates that count
at one of them look the same at both. -/
theorem seen_alike {es' : List (Extent w)} (h : ∀ j ∈ cs, ∃ q, rectangles[j]? = some q ∧
      meet es (q.view s) = true ∧ meet es' (q.view t) = true ∧ ∀ b,
        (Neighbor.of j (q.view s) b).counts = true ∨ (Neighbor.of j (q.view t) b).counts = true →
          q.view t = q.view s) :
    List.Forall₂ Neighbor.Alike (seen s rectangles changed es cs) (seen t rectangles changed es' cs) := by
  refine forall₂_filterMap fun j hj => ?_
  obtain ⟨q, hq, hm, hm', hview⟩ := h j hj
  unfold sight
  rw [hq]
  dsimp only
  rw [if_pos hm, if_pos hm']
  refine .some ?_
  by_cases hc : (Neighbor.of j (q.view s) (q.touches changed)).counts = true ∨
      (Neighbor.of j (q.view t) (q.touches changed)).counts = true
  · rw [hview _ hc]
    exact ⟨rfl, rfl, rfl, fun _ => rfl⟩
  · -- neither gives anything
    rw [not_or, Bool.not_eq_true, Bool.not_eq_true] at hc
    unfold Neighbor.counts at hc
    rw [Bool.or_eq_false_iff, Bool.or_eq_false_iff] at hc
    obtain ⟨⟨hu, hp⟩, hu', hp'⟩ := hc
    refine ⟨rfl, hu'.trans hu.symm, hp'.trans hp.symm, fun h => ?_⟩
    rw [hu] at h
    cases h

/-! ## Shrinking domains -/

/-- Every extent has a part in a list of their parts. -/
theorem exists_of_within {ds es : List (Extent w)} (h : List.Forall₂ Extent.Within ds es) {e : Extent w}
    (he : e ∈ es) : ∃ d ∈ ds, d.Within e := by
  induction h with
  | nil => cases he
  | cons hde _ ih =>
    rcases List.mem_cons.1 he with rfl | he
    · exact ⟨_, List.mem_cons_self, hde⟩
    · obtain ⟨d, hd, hw⟩ := ih he
      exact ⟨d, List.mem_cons_of_mem _ hd, hw⟩

/-- Every part of an extent is a part of one in the list. -/
theorem forall_of_within {ds es : List (Extent w)} (h : List.Forall₂ Extent.Within ds es) {d : Extent w}
    (hd : d ∈ ds) : ∃ e ∈ es, d.Within e := by
  induction h with
  | nil => cases hd
  | cons hde _ ih =>
    rcases List.mem_cons.1 hd with rfl | hd
    · exact ⟨_, List.mem_cons_self, hde⟩
    · obtain ⟨e, he, hw⟩ := ih hd
      exact ⟨e, List.mem_cons_of_mem _ he, hw⟩

/-- **A neighbour that counts keeps counting while its domains shrink.** -/
theorem Neighbor.counts_of_within {ds es : List (Extent w)} (h : List.Forall₂ Extent.Within ds es)
    {j : Nat} {b b' : Bool} (hc : (Neighbor.of j es b).counts = true) :
    (Neighbor.of j ds b').counts = true := by
  unfold Neighbor.counts at hc ⊢
  rw [Bool.or_eq_true] at hc ⊢
  rcases hc with hc | hc
  · left
    unfold Neighbor.isUsed Neighbor.boxes at hc ⊢
    rw [beq_iff_eq] at hc ⊢
    change (es.filterMap Extent.mandatory?).length = es.length at hc
    change (ds.filterMap Extent.mandatory?).length = ds.length
    rw [List.filterMap_length_eq_length] at hc ⊢
    intro d hd
    obtain ⟨e, he, hw⟩ := forall_of_within h hd
    obtain ⟨m, hm⟩ := Option.isSome_iff_exists.1 (hc e he)
    obtain ⟨n, hn, -⟩ := hw.mandatory? hm
    rw [hn]
    rfl
  · right
    unfold Neighbor.isProfiled Neighbor.boxes at hc ⊢
    rw [Bool.and_eq_true] at hc ⊢
    obtain ⟨hsolid, hboxes⟩ := hc
    refine ⟨?_, ?_⟩
    · simp only [Neighbor.of, Bool.not_eq_true', List.any_eq_false, decide_eq_true_eq] at hsolid ⊢
      intro d hd
      obtain ⟨e, he, hw⟩ := forall_of_within h hd
      have := hsolid e he
      have := hw.length.1
      omega
    · simp only [Neighbor.of, Bool.not_eq_true', List.isEmpty_eq_false_iff_exists_mem,
        List.mem_filterMap] at hboxes ⊢
      obtain ⟨m, e, he, hm⟩ := hboxes
      obtain ⟨d, hd, hw⟩ := exists_of_within h he
      obtain ⟨n, hn, -⟩ := hw.mandatory? hm
      exact ⟨n, d, hd, hn⟩

/-- Reaches that meet have met before the domains shrank. -/
theorem meet_of_within {ds ds' es es' : List (Extent w)} (hd : List.Forall₂ Extent.Within ds ds')
    (he : List.Forall₂ Extent.Within es es') (hlen : ds.length = es.length) (h : meet ds es = true) :
    meet ds' es' = true := by
  rw [meet_iff hlen] at h
  rw [meet_iff (by rw [← hd.length_eq, ← he.length_eq, hlen])]
  induction h generalizing ds' es' with
  | nil =>
    cases hd
    cases he
    exact .nil
  | cons hm _ ih =>
    obtain _ | ⟨hd₁, hds⟩ := hd
    obtain _ | ⟨he₁, hes⟩ := he
    obtain ⟨p, hp, hp'⟩ := Span.meets_iff.1 hm
    exact .cons (Span.meets_iff.2 ⟨p, hd₁.mem_span hp, he₁.mem_span hp'⟩)
      (ih hds hes (by simpa using hlen))

end Neighborhood
end Placement
