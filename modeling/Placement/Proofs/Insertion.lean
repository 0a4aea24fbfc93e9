/-
# A hollow rectangle is invisible

Take a constraint, and the same constraint with a hollow rectangle inserted somewhere. Imposed on
the same store at the root and narrowed alone until nothing is pending, the two do the same
(`Disjoint.hollow_invisible`): they end in the same way, and with the same domains.

Both runs are followed in lockstep (`Disjoint.Shadow`): their stores have the same variables, and
corresponding rectangles have the same candidates under new numbers, except that the inserted
rectangle may be among the candidates of the second run. Such a candidate is dropped when its
rectangle is next visited, and that it was dropped makes the rectangle be tightened where
the first run might leave it alone. This does no harm, because it happens in the first pass
only, when every variable is pending and all rectangles are tightened anyway. So it is kept track of
which rectangles are known not to have the inserted one as a candidate (`sharp`): after the first
pass, these are all.
-/

import Placement.Proofs.Failures
import Placement.Proofs.HollowRectangles
import Placement.Proofs.Lockstep
import Placement.Proofs.OrderIndependence
import Placement.Proofs.Progress

namespace Placement

open Neighborhood

variable {w : Width}

/-! ## Positions after an insertion -/

/-- Where the entry at position `j` stands after another one was inserted at position `n`. -/
def shifted (n j : Nat) : Nat := if j < n then j else j + 1

section Positions

variable {n i j count : Nat} {cs cs' : List Nat}

/-- No position is shifted to the inserted one. -/
theorem shifted_ne (n j : Nat) : shifted n j ≠ n := by
  unfold shifted
  split <;> omega

/-- Different positions are shifted to different ones. -/
theorem shifted_inj : shifted n i = shifted n j ↔ i = j := by
  unfold shifted
  split <;> split <;> omega

/-- Positions are shifted within the longer list. -/
theorem shifted_lt (n : Nat) (hj : j < count) : shifted n j < count + 1 := by
  unfold shifted
  split <;> omega

/-- At a shifted position stands the entry of the original one. -/
theorem getElem?_shifted {α : Type} (as : List α) (a : α) (n j : Nat) :
    (as.insertIdx n a)[shifted n j]? = as[j]? := by
  unfold shifted
  split
  · next h => exact List.getElem?_insertIdx_of_lt h
  · rw [List.getElem?_insertIdx_of_gt (by omega), Nat.add_sub_cancel]

/-- The positions below `count`, cut at `n`. -/
theorem range_cut (hn : n ≤ count) : List.range count = List.range' 0 n ++ List.range' n (count - n) := by
  have happend := List.range'_append_1 (s := 0) (m := n) (n := count - n)
  rw [Nat.zero_add, Nat.add_sub_cancel' hn] at happend
  rw [List.range_eq_range', happend]

/-- The positions after an insertion at `n`: the inserted one stands between the shifted ones. -/
theorem range_shifted (hn : n ≤ count) : List.range (count + 1) =
    (List.range' 0 n).map (shifted n) ++ n :: (List.range' n (count - n)).map (shifted n) := by
  have hbefore : (List.range' 0 n).map (shifted n) = List.range' 0 n := by
    refine (List.map_congr_left fun j hj => ?_).trans (List.map_id _)
    rw [List.mem_range'_1] at hj
    exact if_pos (by omega)
  have hafter : (List.range' n (count - n)).map (shifted n) = List.range' (n + 1) (count - n) := by
    rw [Nat.add_comm n 1, ← List.map_add_range']
    refine List.map_congr_left fun j hj => ?_
    rw [List.mem_range'_1] at hj
    rw [Nat.add_comm 1 j]
    exact if_neg (by omega)
  rw [hbefore, hafter, ← List.range'_succ, range_cut (Nat.le_succ_of_le hn), Nat.succ_sub hn]

/-- The positions `cs'` are the shifted positions `cs`, and possibly the inserted one. -/
def Mirrors (n : Nat) (cs cs' : List Nat) : Prop := cs'.filter (· ≠ n) = cs.map (shifted n)

/-- Shifted positions are all different from the inserted one. -/
theorem filter_map_shifted (n : Nat) (cs : List Nat) :
    (cs.map (shifted n)).filter (· ≠ n) = cs.map (shifted n) := by
  refine List.filter_eq_self.2 (List.forall_mem_map.2 fun j _ => ?_)
  simpa using shifted_ne n j

/-- The shifted positions themselves do not hold the inserted one. -/
theorem Mirrors.of_map (n : Nat) (cs : List Nat) :
    Mirrors n cs (cs.map (shifted n)) ∧ n ∉ cs.map (shifted n) := by
  refine ⟨filter_map_shifted n cs, fun hn => ?_⟩
  obtain ⟨j, -, hj⟩ := List.mem_map.1 hn
  exact shifted_ne n j hj

/-- Without the inserted position, what mirrors positions are the shifted ones. -/
theorem Mirrors.eq_map (h : Mirrors n cs cs') (hn : n ∉ cs') : cs' = cs.map (shifted n) := by
  refine (List.filter_eq_self.2 fun j hj => ?_).symm.trans h
  simpa using fun he : j = n => hn (he ▸ hj)

/-- The mirrored positions are in range if the positions are. -/
theorem Mirrors.lt_and_ne (h : Mirrors n cs cs') (hn : n ≤ count) (hcs : ∀ i ∈ cs, i < count ∧ i ≠ j) :
    ∀ i ∈ cs', i < count + 1 ∧ i ≠ shifted n j := by
  intro i hi
  by_cases he : i = n
  · exact ⟨by omega, fun h => shifted_ne n j (h.symm.trans he)⟩
  · have hmem : i ∈ cs'.filter (· ≠ n) := List.mem_filter.2 ⟨hi, by simpa using he⟩
    rw [h] at hmem
    obtain ⟨m, hm, rfl⟩ := List.mem_map.1 hmem
    obtain ⟨hlt, hne⟩ := hcs m hm
    exact ⟨shifted_lt n hlt, fun h => hne (shifted_inj.1 h)⟩

/-- All other positions mirror all other positions. -/
theorem mirrors_others (hn : n ≤ count) (j : Nat) :
    Mirrors n (Candidates.others count j) (Candidates.others (count + 1) (shifted n j)) := by
  have hrange : (List.range (count + 1)).filter (· ≠ n) = (List.range count).map (shifted n) := by
    rw [range_shifted hn, List.filter_append, List.filter_cons_of_neg (by simp), filter_map_shifted,
      filter_map_shifted, ← List.map_append, ← range_cut hn]
  unfold Mirrors Candidates.others
  rw [List.filter_comm, hrange, List.filter_map]
  refine congrArg _ (List.filter_congr fun i _ => ?_)
  simp [shifted_inj]

end Positions

namespace Disjoint

/-! ## Two constraints side by side -/

/-- The second constraint has the rectangles of the first and one more, at position `n`. -/
structure Inserted (d d' : Disjoint) (n : Nat) (z : Rectangle) : Prop where
  mode_eq : d'.mode = d.mode
  le_length : n ≤ d.rectangles.length
  rectangles_eq : d'.rectangles = d.rectangles.insertIdx n z

namespace Inserted

variable {d d' : Disjoint} {n : Nat} {z : Rectangle} (h : d.Inserted d' n z)

include h

/-- At a shifted position stands the rectangle of the original one. -/
theorem getElem?_shifted (j : Nat) : d'.rectangles[shifted n j]? = d.rectangles[j]? := by
  rw [h.rectangles_eq, Placement.getElem?_shifted]

/-- At the inserted position stands the inserted rectangle. -/
theorem getElem?_self : d'.rectangles[n]? = some z := by
  rw [h.rectangles_eq, List.getElem?_insertIdx_self, if_pos h.le_length]

/-- There is one rectangle more. -/
theorem length_eq : d'.rectangles.length = d.rectangles.length + 1 := by
  rw [h.rectangles_eq, List.length_insertIdx_of_le_length h.le_length]

/-- The rectangles are the inserted one and those of the first constraint. -/
theorem mem_iff {q : Rectangle} : q ∈ d'.rectangles ↔ q = z ∨ q ∈ d.rectangles := by
  rw [h.rectangles_eq, List.mem_insertIdx h.le_length]

end Inserted

/-- The stores of two constraints, the second of which has one rectangle more, a hollow one at position
`n`: they have the same variables, and corresponding rectangles have the same candidates, except
that the inserted rectangle may be one for those that are not `sharp`. -/
structure Shadow (d d' : Disjoint) (n : Nat) (z : Rectangle) (sharp : Nat → Prop) (s s' : Store w) : Prop where
  inserted : d.Inserted d' n z
  nodup : d.candidates.slots.Nodup
  nodup' : d'.candidates.slots.Nodup
  agrees : s.Agrees s'
  root : s.level = 0
  regular : ∀ r ∈ d.rectangles, r.Regular s
  hollow : z.Hollow s
  candidates : ∀ j < d.rectangles.length, ∃ cs cs', d.candidates.get s j = .ok cs ∧
    d'.candidates.get s' (shifted n j) = .ok cs' ∧ (∀ i ∈ cs, i < d.rectangles.length ∧ i ≠ j) ∧
    Mirrors n cs cs' ∧ (sharp j → n ∉ cs')
  own : ∃ cs, d'.candidates.get s' n = .ok cs ∧ ∀ i ∈ cs, i < d'.rectangles.length ∧ i ≠ n

namespace Shadow

variable {d d' : Disjoint} {n j : Nat} {z r : Rectangle} {sharp sharp' : Nat → Prop} {s s' : Store w}
  {changed changed' : List Var} {p p' : Pass w}

/-- Fewer candidates may be required to be sharp. -/
theorem mono (h : Shadow d d' n z sharp s s') (hsharp : ∀ j < d.rectangles.length, sharp' j → sharp j) :
    Shadow d d' n z sharp' s s' := by
  refine { h with candidates := fun j hj => ?_ }
  obtain ⟨cs, cs', hcs, hcs', hlt, hmirrors, hn⟩ := h.candidates j hj
  exact ⟨cs, cs', hcs, hcs', hlt, hmirrors, fun hj' => hn (hsharp j hj hj')⟩

/-- The rectangles of the first constraint are uniform. -/
theorem uniform (h : Shadow d d' n z sharp s s') : Uniform d.rectangles s :=
  ⟨fun q hq => (h.regular q hq).known, d.uniform⟩

/-- The rectangles of the second constraint are uniform. -/
theorem uniform' (h : Shadow d d' n z sharp s s') : Uniform d'.rectangles s' := by
  refine ⟨fun q hq => h.agrees.shrinks.known ?_, d'.uniform⟩
  rcases h.inserted.mem_iff.1 hq with rfl | hq
  · exact h.hollow.known
  · exact (h.regular q hq).known

/-- At the root no rectangle is settled, so neither run skips one. -/
theorem not_settled (h : Shadow d d' n z sharp s s') (hk : r.Known s) : ¬ r.Settled s ∧ ¬ r.Settled s' := by
  have hroot := h.root
  have hroot' := h.agrees.level.trans hroot
  constructor
  · intro hset
    have hpos := hset.level_pos hk
    omega
  · intro hset
    have hpos := hset.level_pos (h.agrees.shrinks.known hk)
    omega

/-- **Corresponding rectangles have the same analysis**, under new numbers. -/
theorem analyze_eq (h : Shadow d d' n z sharp s s') (hr : d.rectangles[j]? = some r) {cs cs' : List Nat}
    (hcs : ∀ i ∈ cs, i < d.rectangles.length ∧ i ≠ j) (hmirrors : Mirrors n cs cs')
    (htouches : ∀ q ∈ d.rectangles, q.touches changed' = q.touches changed) :
    analyze s' d'.rectangles (shifted n j) cs' changed' =
      (analyze s d.rectangles j cs changed).map (renumber (shifted n)) := by
  have hshrinks := h.agrees.shrinks
  have hr' : d'.rectangles[shifted n j]? = some r := (h.inserted.getElem?_shifted j).trans hr
  have hregular : r.Regular s' := (h.regular r (List.mem_of_getElem? hr)).shrinks hshrinks
  have hcs' : ∀ i ∈ cs', i < d'.rectangles.length ∧ i ≠ shifted n j := by
    rw [h.inserted.length_eq]
    exact hmirrors.lt_and_ne h.inserted.le_length hcs
  have hknown : Uniform d.rectangles s' := ⟨fun q hq => hshrinks.known (h.uniform.known q hq), d.uniform⟩
  calc analyze s' d'.rectangles (shifted n j) cs' changed'
    _ = analyze s' d'.rectangles (shifted n j) (cs'.filter (· ≠ n)) changed' :=
      (analyze_erase_hollow h.uniform' hr' hregular h.inserted.getElem?_self (h.hollow.shrinks hshrinks)
        hcs').symm
    _ = analyze s' d'.rectangles (shifted n j) (cs.map (shifted n)) changed' := by rw [hmirrors]
    _ = (analyze s' d.rectangles j cs changed).map (renumber (shifted n)) :=
      analyze_renumber (fun i _ => h.inserted.getElem?_shifted i) (fun i _ => shifted_inj)
        fun i _ q hq => htouches q (List.mem_of_getElem? hq)
    _ = (analyze s d.rectangles j cs changed).map (renumber (shifted n)) := by
      rw [analyze_congr h.uniform hknown (fun q _ => q.view_of_cells h.agrees.cells) hr hcs]

/-! ## A visit -/

/-- A rectangle and its counterpart: the variables are the same, and so are the candidates. -/
structure Matched (d d' : Disjoint) (n j : Nat) (s s' : Store w) : Prop where
  agrees : s.Agrees s'
  candidates : ∃ cs, d.candidates.get s j = .ok cs ∧
    d'.candidates.get s' (shifted n j) = .ok (cs.map (shifted n)) ∧ ∀ i ∈ cs, i < d.rectangles.length ∧ i ≠ j

/-- Whether a rectangle must be tightened does not depend on numbers, nor on how many candidates it
had if that number is the same or the rectangle itself changed. -/
theorem matters_renumber {φ : Nat → Nat} {found : Neighborhood} {cs cs' : List Nat}
    (htouches : r.touches changed' = r.touches changed)
    (h : cs'.length = cs.length ∨ r.touches changed = true) :
    (found.renumber φ).Matters r changed' cs' ↔ found.Matters r changed cs := by
  have hlength : (found.renumber φ).overlapping.length = found.overlapping.length := List.length_map ..
  have hchanged : (found.renumber φ).changed = found.changed := rfl
  unfold Neighborhood.Matters
  rw [hlength, hchanged, htouches]
  rcases h with h | h
  · rw [h]
  · simp [h]

/-- **Corresponding rectangles are visited in lockstep**, if the second is sharp or both are tightened
anyway. Afterwards they are matched. -/
theorem lockstep_narrowRectangle (h : Shadow d d' n z sharp p.store p'.store) (hr : d.rectangles[j]? = some r)
    (htouches : ∀ q ∈ d.rectangles, q.touches changed' = q.touches changed)
    (hgate : sharp j ∨ r.touches changed = true) :
    Lockstep (fun q q' => Matched d d' n j q.store q'.store) (fun q q' => q.store.Agrees q'.store)
      (d.narrowRectangle changed j p) (d'.narrowRectangle changed' (shifted n j) p') := by
  obtain ⟨hlt, -⟩ := List.getElem?_eq_some_iff.1 hr
  have hmem := List.mem_of_getElem? hr
  have hregular := h.regular r hmem
  have hregular' := hregular.shrinks h.agrees.shrinks
  have hr' : d'.rectangles[shifted n j]? = some r := (h.inserted.getElem?_shifted j).trans hr
  obtain ⟨hunsettled, hunsettled'⟩ := h.not_settled hregular.known
  obtain ⟨cs, cs', hcs, hcs', hothers, hmirrors, hsharp⟩ := h.candidates j hlt
  have hanalysis := h.analyze_eq hr hothers hmirrors htouches
  rw [narrowRectangle_eq hr hregular.known hregular.nonneg hunsettled,
    narrowRectangle_eq hr' hregular'.known hregular'.nonneg hunsettled']
  cases hfound : analyze p.store d.rectangles j cs changed with
  | error e =>
    rw [hfound] at hanalysis
    obtain ⟨events, hfailed⟩ := revise_failed (r := r) hcs hfound
    obtain ⟨events', hfailed'⟩ := revise_failed (r := r) hcs' hanalysis
    rw [hfailed, hfailed']
    exact .error _ h.agrees
  | ok found =>
    rw [hfound] at hanalysis
    have hkept : ∀ i ∈ found.overlapping, i < d.rectangles.length ∧ i ≠ j := fun i hi =>
      hothers i ((overlapping_of_analyze hfound).1.subset hi)
    have hmatters : (found.renumber (shifted n)).Matters r changed' cs' ↔ found.Matters r changed cs := by
      refine matters_renumber (htouches r hmem) (hgate.imp_left fun hj => ?_)
      rw [hmirrors.eq_map (hsharp hj), List.length_map]
    by_cases hm : found.Matters r changed cs
    · obtain ⟨t, events, ht, hget, htight⟩ := revise_tight hcs hfound hm
      obtain ⟨t', events', ht', hget', htight'⟩ := revise_tight hcs' hanalysis (hmatters.2 hm)
      rw [htight, htight']
      have hbeside : Narrowing.Beside t.slots t'.slots ⟨t, events⟩ ⟨t', events'⟩ :=
        ⟨(ht.symm.trans h.agrees).trans ht', rfl, rfl⟩
      refine (lockstep_tighten h.inserted.mode_eq hr (h.inserted.getElem?_shifted j)
        (fun i _ => h.inserted.getElem?_shifted i) hbeside).mono (fun q q' hq => ?_) fun q q' hq => hq.agrees
      exact ⟨hq.agrees, found.overlapping, (Candidates.get_congr hq.left).trans hget,
        (Candidates.get_congr hq.right).trans hget', hkept⟩
    · obtain ⟨events, hidle⟩ := revise_idle hcs hfound hm
      obtain ⟨events', hidle'⟩ := revise_idle hcs' hanalysis fun hm' => hm (hmatters.1 hm')
      rw [hidle, hidle']
      -- nothing was touched, so the second rectangle is sharp
      have hj : sharp j := hgate.resolve_right fun htouched => hm (.inr (.inr htouched))
      rw [hmirrors.eq_map (hsharp hj)] at hcs'
      exact .ok () ⟨h.agrees, cs, hcs, hcs', hothers⟩

/-- A visit of corresponding rectangles that leaves them matched makes the second sharp. -/
theorem visited (h : Shadow d d' n z sharp s s') {t t' : Store w} (hvisited : d.Visited j s t)
    (hvisited' : d'.Visited (shifted n j) s' t') (hmatched : Matched d d' n j t t') :
    Shadow d d' n z (fun i => sharp i ∨ i = j) t t' := by
  have hshrinks := hvisited.drifts.shrinks
  refine { h with
    agrees := hmatched.agrees
    root := hvisited.drifts.level_eq.trans h.root
    regular := fun q hq => (h.regular q hq).shrinks hshrinks
    hollow := h.hollow.shrinks hshrinks
    candidates := fun i hi => ?_
    own := ?_ }
  · by_cases hij : i = j
    · obtain ⟨cs, hcs, hcs', hothers⟩ := hmatched.candidates
      obtain ⟨hmirrors, hn⟩ := Mirrors.of_map n cs
      rw [hij]
      exact ⟨cs, _, hcs, hcs', hothers, hmirrors, fun _ => hn⟩
    · obtain ⟨cs, cs', hcs, hcs', hothers, hmirrors, hsharp⟩ := h.candidates i hi
      have hne : shifted n i ≠ shifted n j := fun he => hij (shifted_inj.1 he)
      refine ⟨cs, cs', ?_, ?_, hothers, hmirrors, fun hi' => hsharp (hi'.resolve_right hij)⟩
      · rw [hvisited.get_eq h.nodup hij, hcs]
      · rw [hvisited'.get_eq h.nodup' hne, hcs']
  · obtain ⟨cs, hcs, hothers⟩ := h.own
    refine ⟨cs, ?_, hothers⟩
    rw [hvisited'.get_eq h.nodup' (shifted_ne n j).symm, hcs]

/-- **One visit keeps the second run a shadow of the first.** -/
theorem lockstep_visit (h : Shadow d d' n z sharp p.store p'.store) (hj : j < d.rectangles.length)
    (htouches : ∀ q ∈ d.rectangles, q.touches changed' = q.touches changed)
    (hgate : ∀ i r, d.rectangles[i]? = some r → sharp i ∨ r.touches changed = true) :
    Lockstep (fun q q' => Shadow d d' n z (fun i => sharp i ∨ i = j) q.store q'.store)
      (fun q q' => q.store.Agrees q'.store) (d.narrowRectangle changed j p)
      (d'.narrowRectangle changed' (shifted n j) p') := by
  have hr := List.getElem?_eq_getElem hj
  have hvisit := h.lockstep_narrowRectangle hr htouches (hgate j _ hr)
  have hvisited := (d.ends_visited changed j p).mono (fun _ _ h => h) fun _ _ _ => trivial
  have hvisited' := (d'.ends_visited changed' (shifted n j) p').mono (fun _ _ h => h) fun _ _ _ => trivial
  refine (hvisit.and_ends hvisited hvisited').mono (fun q q' hq => ?_) fun _ _ he => he
  exact h.visited hq.2.1 hq.2.2 hq.1

/-- **The visit of the hollow rectangle changes nothing** but its own candidates. -/
theorem ends_hollow (h : Shadow d d' n z sharp p.store p'.store) :
    Ends (d'.narrowRectangle changed' n) p' (fun _ q' => Shadow d d' n z sharp p.store q'.store)
      fun _ _ => False := by
  have hz := h.inserted.getElem?_self
  have hhollow := h.hollow.shrinks h.agrees.shrinks
  obtain ⟨cs, hcs, hothers⟩ := h.own
  have hanalysis : analyze p'.store d'.rectangles n cs changed' = .ok (ofNeighbors ([] : List (Neighbor w))) :=
    analyze_of_hollow h.uniform' hz hhollow hothers
  have hvisit : Ends (d'.narrowRectangle changed' n) p' (fun _ q' => p'.store.Agrees q'.store ∧
      ∃ cs, d'.candidates.get q'.store n = .ok cs ∧ ∀ i ∈ cs, i < d'.rectangles.length ∧ i ≠ n)
      fun _ _ => False := by
    refine ends_narrowRectangle hz hhollow.known (fun _ q hq => ?_) fun _ _ => ?_
    · rw [hq]
      exact ⟨.refl _, cs, hcs, hothers⟩
    unfold Ends
    by_cases hm : (ofNeighbors ([] : List (Neighbor w))).Matters z changed' cs
    · obtain ⟨t, events, ht, hget, htight⟩ := revise_tight hcs hanalysis hm
      rw [htight]
      refine (tighten_of_still hz (p := ⟨t, events⟩) (ht.shrinks.known hhollow.known) fun i _ =>
        Tighten.stillAlong_of_nothing t _ n z _ i).mono (fun _ q hq => ?_) fun _ _ he => he
      rw [hq]
      exact ⟨ht, [], hget, nofun⟩
    · obtain ⟨events, hidle⟩ := revise_idle hcs hanalysis hm
      rw [hidle]
      exact ⟨.refl _, cs, hcs, hothers⟩
  have hvisited := (d'.ends_visited changed' n p').mono (fun _ _ h => h) fun _ _ _ => trivial
  refine (hvisit.and hvisited).mono (fun _ q' hq => ?_) fun _ _ he => he.1
  obtain ⟨⟨hagrees, hown⟩, hvisited⟩ := hq
  refine { h with agrees := h.agrees.trans hagrees, candidates := fun j hj => ?_, own := hown }
  obtain ⟨cs, cs', hcs, hcs', hrest⟩ := h.candidates j hj
  refine ⟨cs, cs', hcs, ?_, hrest⟩
  rw [hvisited.get_eq h.nodup' (shifted_ne n j), hcs']

/-! ## A pass -/

/-- **A pass runs in lockstep with the pass that also visits the hollow rectangle.** Afterwards no
rectangle has that one as a candidate. -/
theorem lockstep_pass (h : Shadow d d' n z sharp p.store p'.store)
    (htouches : ∀ q ∈ d.rectangles, q.touches changed' = q.touches changed)
    (hgate : ∀ i r, d.rectangles[i]? = some r → sharp i ∨ r.touches changed = true) :
    Lockstep (fun q q' => Shadow d d' n z (fun _ => True) q.store q'.store)
      (fun q q' => q.store.Agrees q'.store) (d.pass changed p) (d'.pass changed' p') := by
  have hn := h.inserted.le_length
  -- the rectangles before position `k` are sharp
  let R : Nat → Pass w → Pass w → Prop := fun k q q' => Shadow d d' n z (fun i => sharp i ∨ i < k) q.store q'.store
  have hstep : ∀ k < d.rectangles.length, ∀ q q', R k q q' →
      Lockstep (R (k + 1)) (fun q q' => q.store.Agrees q'.store) (d.narrowRectangle changed k q)
        (d'.narrowRectangle changed' (shifted n k) q') := by
    intro k hk q q' hq
    refine (Shadow.lockstep_visit hq hk htouches fun i r hr => ?_).mono (fun _ _ hs => hs.mono fun i _ hi => ?_)
      fun _ _ he => he
    · exact (hgate i r hr).imp_left .inl
    · exact hi.elim (fun hi => .inl (.inl hi)) fun hi => by omega
  have hget : d.rectangles ≠ [] → ∃ k cs, d.candidates.get p.store k = .ok cs := fun hne => by
    obtain ⟨cs, _, hcs, -⟩ := h.candidates 0 (List.length_pos_iff.2 hne)
    exact ⟨0, cs, hcs⟩
  have hget' : d'.rectangles ≠ [] → ∃ k cs, d'.candidates.get p'.store k = .ok cs := fun _ => by
    obtain ⟨cs, hcs, -⟩ := h.own
    exact ⟨n, cs, hcs⟩
  rw [pass_eq hget, pass_eq hget', h.inserted.length_eq, range_cut hn, range_shifted hn]
  have hall : Lockstep (R d.rectangles.length) (fun q q' => q.store.Agrees q'.store)
      ((List.range' 0 n ++ List.range' n (d.rectangles.length - n)).forM (d.narrowRectangle changed)
        ⟨p.store, .pass :: p.events⟩)
      (((List.range' 0 n).map (shifted n) ++ n :: (List.range' n (d.rectangles.length - n)).map (shifted n)).forM
        (d'.narrowRectangle changed') ⟨p'.store, .pass :: p'.events⟩) := by
    refine Lockstep.forM_append (Q := R n) ?_ fun q q' hq => ?_
    · refine Lockstep.forM_range' (R := R) (Nat.zero_add n) (fun k _ hk => hstep k (by omega)) ?_
      exact h.mono fun i _ hi => hi.resolve_right (Nat.not_lt_zero i)
    · refine Lockstep.forM_cons_right (Q := R n) (Shadow.ends_hollow hq) fun q'' hq' => ?_
      exact Lockstep.forM_range' (R := R) (Nat.add_sub_cancel' hn) (fun k _ hk => hstep k hk) hq'
  exact hall.mono (fun _ _ hq => hq.mono fun i hi _ => .inr hi) fun _ _ he => he

/-! ## Rounds -/

/-- Clearing what is pending keeps the correspondence. -/
theorem clearPending (h : Shadow d d' n z sharp s s') :
    Shadow d d' n z sharp s.clearPending s'.clearPending := by
  have hshrinks := (Store.Write.clear s).shrinks
  refine { h with
    agrees := ⟨?_, h.agrees.level⟩
    root := h.root
    regular := fun q hq => (h.regular q hq).shrinks hshrinks
    hollow := h.hollow.shrinks hshrinks }
  rw [Store.cells_clearPending, Store.cells_clearPending, h.agrees.cells]

/-- The counters of the constraints do not matter. -/
theorem counted (h : Shadow d d' n z sharp s s') (a b : Statistics) :
    Shadow { d with statistics := a } { d' with statistics := b } n z sharp s s' where
  inserted := ⟨h.inserted.mode_eq, h.inserted.le_length, h.inserted.rectangles_eq⟩
  nodup := h.nodup
  nodup' := h.nodup'
  agrees := h.agrees
  root := h.root
  regular := h.regular
  hollow := h.hollow
  candidates := h.candidates
  own := h.own

end Shadow

end Disjoint

/-- The runs have ended in the same way, in stores with the same variables. -/
structure Narrowed.Agrees (run run' : Narrowed w Disjoint) : Prop where
  outcome_eq : run'.outcome = run.outcome
  store : run.store.Agrees run'.store

namespace Disjoint

variable {d d' : Disjoint} {n : Nat} {z : Rectangle} {sharp : Nat → Prop} {s s' : Store w}

/-- Where nothing is pending there is no round. -/
theorem rounds_of_quiet (h : s.hasChanges = false) (limit : Nat) (d : Disjoint) :
    Propagator.rounds limit d s = ⟨d, s, [], .ok ()⟩ := by
  unfold Propagator.rounds
  rw [if_neg (by simp [h])]

/-- If something is pending, rounds begin with a pass and end there if it fails. -/
theorem rounds_of_pending (hc : s.hasChanges = true) (limit : Nat) {first : Narrowed w Disjoint}
    (hfirst : d.narrow s.changed s.clearPending = first) :
    (∀ e, first.outcome = .error e → Propagator.rounds (limit + 1) d s = first) ∧
      (first.outcome = .ok () → Propagator.rounds (limit + 1) d s =
        { Propagator.rounds limit first.propagator first.store with
          events := first.events ++ (Propagator.rounds limit first.propagator first.store).events }) := by
  subst hfirst
  constructor
  · intro e he
    conv_lhs => unfold Propagator.rounds
    rw [if_pos hc]
    dsimp only [Store.takeChanged]
    rw [show (Propagator.narrow d s.changed s.clearPending).outcome = .error e from he]
    rfl
  · intro hok
    conv_lhs => unfold Propagator.rounds
    rw [if_pos hc]
    dsimp only [Store.takeChanged]
    rw [show (Propagator.narrow d s.changed s.clearPending).outcome = .ok () from hok]
    rfl

/-- **Rounds are a first pass and the rounds after it.** A constraint without rectangles may as well
take a round when nothing is pending. -/
theorem rounds_succ (h : s.hasChanges = true ∨ d.rectangles = []) (limit : Nat) {first : Narrowed w Disjoint}
    (hfirst : d.narrow s.changed s.clearPending = first) :
    let run := Propagator.rounds (limit + 1) d s
    let rest := Propagator.rounds limit first.propagator first.store
    (∀ e, first.outcome = .error e → run.outcome = .error e ∧ run.store = first.store) ∧
      (first.outcome = .ok () → run.outcome = rest.outcome ∧ run.store = rest.store) := by
  dsimp only
  by_cases hc : s.hasChanges = true
  · obtain ⟨hfailed, hwent⟩ := rounds_of_pending hc limit hfirst
    constructor
    · intro e he
      rw [hfailed e he]
      exact ⟨he, rfl⟩
    · intro hok
      rw [hwent hok]
      exact ⟨rfl, rfl⟩
  · have hquiet : s.hasChanges = false := by simpa using hc
    have hempty := h.resolve_left hc
    have hpass : d.pass s.changed ⟨s.clearPending, []⟩ = .ok () ⟨s.clearPending, [.pass]⟩ := by
      rw [pass_eq fun hne => absurd hempty hne, hempty]
      rfl
    have hnarrow : first.outcome = .ok () ∧ first.store = s.clearPending := by
      rw [← hfirst]
      unfold narrow Narrowing.runOn
      rw [hpass]
      exact ⟨rfl, rfl⟩
    rw [rounds_of_quiet hquiet, hnarrow.2, rounds_of_quiet s.hasChanges_clearPending, hnarrow.1,
      Store.clearPending_of_not_hasChanges hquiet]
    constructor
    · intro e he
      cases he
    · intro _
      exact ⟨rfl, rfl⟩

/-- A first pass in lockstep, and then rounds that end alike. -/
theorem Shadow.rounds_succ {limit : Nat} (h : Shadow d d' n z sharp s.clearPending s'.clearPending)
    (hs : s.hasChanges = true ∨ d.rectangles = []) (hs' : s'.hasChanges = true)
    (htouches : ∀ q ∈ d.rectangles, q.touches s'.changed = q.touches s.changed)
    (hgate : ∀ i r, d.rectangles[i]? = some r → sharp i ∨ r.touches s.changed = true)
    (hrest : ∀ (e e' : Disjoint) (t t' : Store w), Shadow e e' n z (fun _ => True) t t' →
      (Propagator.rounds limit e t).Agrees (Propagator.rounds limit e' t')) :
    (Propagator.rounds (limit + 1) d s).Agrees (Propagator.rounds (limit + 1) d' s') := by
  obtain ⟨houtcome, hok, herror⟩ := narrow_of_lockstep (Q := Shadow d d' n z fun _ => True)
    (E := fun t t' => t.Agrees t') (h.lockstep_pass htouches hgate)
  obtain ⟨failed, went⟩ := Disjoint.rounds_succ hs limit rfl
  obtain ⟨failed', went'⟩ := Disjoint.rounds_succ (d := d') (.inl hs') limit rfl
  cases hfirst : (d.narrow s.changed s.clearPending).outcome with
  | error e =>
    obtain ⟨hend, hstore⟩ := failed e hfirst
    obtain ⟨hend', hstore'⟩ := failed' e (houtcome.trans hfirst)
    refine ⟨hend'.trans hend.symm, ?_⟩
    rw [hstore, hstore']
    exact herror e hfirst
  | ok _ =>
    obtain ⟨hend, hstore⟩ := went hfirst
    obtain ⟨hend', hstore'⟩ := went' (houtcome.trans hfirst)
    obtain ⟨hsame, hagrees⟩ := hrest _ _ _ _ ((hok hfirst).counted _ _)
    refine ⟨hend'.trans (hsame.trans hend.symm), ?_⟩
    rw [hstore, hstore']
    exact hagrees

/-- **Rounds that begin alike end alike.** -/
theorem Shadow.rounds {limit : Nat} (h : Shadow d d' n z (fun _ => True) s s') :
    (Propagator.rounds limit d s).Agrees (Propagator.rounds limit d' s') := by
  induction limit generalizing d d' s s' with
  | zero =>
    unfold Propagator.rounds
    rw [h.agrees.hasChanges_eq]
    split
    · exact ⟨rfl, h.agrees⟩
    · exact ⟨rfl, h.agrees⟩
  | succ limit ih =>
    by_cases hc : s.hasChanges = true
    · exact h.clearPending.rounds_succ (.inl hc) (h.agrees.hasChanges_eq.trans hc)
        (fun q _ => by rw [h.agrees.changed_eq]) (fun _ _ _ => .inl trivial) fun _ _ _ _ ht => ih ht
    · have hquiet : s.hasChanges = false := by simpa using hc
      rw [rounds_of_quiet hquiet, rounds_of_quiet (h.agrees.hasChanges_eq.trans hquiet)]
      exact ⟨rfl, h.agrees⟩

/-- **Rounds of a constraint that is narrowed alone are enough**: if they fail, the store was refuted, or
the height of a profile left the width. -/
theorem Lone.rounds_expected {limit : Nat} (h : d.bare.Lone s) (hlimit : s.slack < limit)
    {e : Failure Inconsistency} (he : (Propagator.rounds limit d s).outcome = .error e) : e.Expected := by
  induction limit generalizing d s with
  | zero => omega
  | succ limit ih =>
    by_cases hc : s.hasChanges = true
    · obtain ⟨failed, went⟩ := rounds_succ (.inl hc) limit rfl
      cases hfirst : (d.narrow s.changed s.clearPending).outcome with
      | error e' =>
        obtain rfl : e' = e := Except.error.inj ((failed e' hfirst).1.symm.trans he)
        have hknown : ∀ q ∈ d.rectangles, q.Known s.clearPending := fun q hq =>
          (Store.Write.clear s).shrinks.known (h.known q hq)
        exact narrow_expected hknown (fun t ht => h.ready ht) _ hfirst
      | ok _ =>
        rw [(went hfirst).1] at he
        by_cases hmore : (d.narrow s.changed s.clearPending).store.hasChanges = true
        · have hprogress := (Steps.progress (d.narrow_steps s.changed s.clearPending)).pending hmore
          rw [s.hasChanges_clearPending, s.slack_clearPending] at hprogress
          have hless := hprogress.resolve_left Bool.false_ne_true
          exact ih (d := (d.narrow s.changed s.clearPending).propagator) (h.narrow hfirst) (by omega) he
        · rw [rounds_of_quiet (by simpa using hmore)] at he
          cases he
    · rw [rounds_of_quiet (by simpa using hc)] at he
      cases he

/-! ## The whole run -/

/-- Imposes the constraint on a store, marks its whole scope as pending and narrows it alone until
nothing is pending: what that leaves behind, also if it fails. -/
def exhaust (d : Disjoint) (id : ConstraintId) (s : Store w) : Except Fault (Narrowed w Disjoint) := do
  let (d, s, _) := d.impose id s
  let s ← s.touchAll d.scope
  return Propagator.fixpoint d s

end Disjoint

section Start

variable {s t : Store w} {vs : List Var}

/-- Marking variables as pending is undone by taking them. -/
theorem Store.cells_clearPending_touchAll (h : s.touchAll vs = .ok t) :
    t.clearPending.cells = s.clearPending.cells := by
  rw [cells_clearPending, cells_clearPending, (touchAll_eq_ok h).2]
  refine List.ext_getElem? fun i => ?_
  simp only [List.getElem?_map, List.getElem?_mapIdx, Option.map_map]
  refine congrFun (congrArg Option.map (funext fun c => ?_)) _
  simp only [Function.comp_apply]
  split
  · rfl
  · rfl

/-- A rectangle whose variables were marked is touched. -/
theorem Rectangle.touches_touchAll {r : Rectangle} (h : s.touchAll vs = .ok t) (hvs : ∀ v ∈ r.vars, v ∈ vs) :
    t.hasChanges = true ∧ r.touches t.changed = true := by
  obtain ⟨x, hx⟩ := List.exists_mem_of_ne_nil _ r.sides_ne_nil
  have hv : x.origin ∈ r.vars := List.mem_append_left _ (List.mem_map.2 ⟨x, hx, rfl⟩)
  have hpending := Store.pending_touchAll h (hvs _ hv)
  constructor
  · by_contra hnone
    exact Store.not_pending_of_not_hasChanges (by simpa using hnone) _ hpending
  · by_contra hnone
    exact Rectangle.touches_changed.1 (by simpa using hnone) _ hv hpending

end Start

namespace Disjoint

variable {d d' : Disjoint} {n : Nat} {z : Rectangle} {s t t' : Store w} {id id' : ConstraintId}

/-- A constraint over known rectangles can be run. -/
theorem exhaust_eq (hknown : ∀ r ∈ d.rectangles, r.Known s) (id : ConstraintId) :
    ∃ t, (s.allot d.rectangles.length).touchAll d.scope = .ok t ∧
      d.exhaust id s = .ok (Propagator.fixpoint (d.imposed id s) t) := by
  obtain ⟨t, ht⟩ : ∃ t, (s.allot d.rectangles.length).touchAll d.scope = .ok t := by
    refine Store.touchAll_ok fun v hv => ?_
    obtain ⟨r, hr, hv⟩ := List.mem_flatMap.1 hv
    exact hknown r hr v hv
  refine ⟨t, ht, ?_⟩
  unfold exhaust
  rw [impose_eq]
  exact bind_eq_ok.2 ⟨t, ht, rfl⟩

/-- **Both runs begin with the same variables and with all other rectangles as candidates.** -/
theorem Shadow.start (h0 : s.level = 0) (hinserted : d.Inserted d' n z)
    (hregular : ∀ r ∈ d.rectangles, r.Regular s) (hhollow : z.Hollow s)
    (ht : (s.allot d.rectangles.length).touchAll d.scope = .ok t)
    (ht' : (s.allot d'.rectangles.length).touchAll d'.scope = .ok t') :
    Shadow (d.imposed id s) (d'.imposed id' s) n z (fun _ => False) t.clearPending t'.clearPending := by
  have hslots := congrArg Store.slots (Store.touchAll_eq_ok ht).2
  have hslots' := congrArg Store.slots (Store.touchAll_eq_ok ht').2
  have hallot : s.Shrinks (s.allot d.rectangles.length) := .of_domains [] (List.append_nil _).symm
  have hshrinks : s.Shrinks t.clearPending :=
    hallot.trans ((Store.drifts_touchAll ht).shrinks.trans (Store.Write.clear t).shrinks)
  have hlevel : t.level = s.level := (Store.drifts_touchAll ht).level_eq
  have hlevel' : t'.level = s.level := (Store.drifts_touchAll ht').level_eq
  have hget : ∀ j < d.rectangles.length, (d.imposed id s).candidates.get t.clearPending j =
      .ok (Candidates.others d.rectangles.length j) := fun j hj =>
    (Candidates.get_congr hslots).trans (get_imposed d id s hj)
  have hget' : ∀ j < d'.rectangles.length, (d'.imposed id' s).candidates.get t'.clearPending j =
      .ok (Candidates.others d'.rectangles.length j) := fun j hj =>
    (Candidates.get_congr hslots').trans (get_imposed d' id' s hj)
  have hlength := hinserted.length_eq
  exact {
    inserted := ⟨hinserted.mode_eq, hinserted.le_length, hinserted.rectangles_eq⟩
    nodup := d.nodup_imposed id s
    nodup' := d'.nodup_imposed id' s
    agrees := ⟨(Store.cells_clearPending_touchAll ht').trans (Store.cells_clearPending_touchAll ht).symm,
      hlevel'.trans hlevel.symm⟩
    root := hlevel.trans h0
    regular := fun r hr => (hregular r hr).shrinks hshrinks
    hollow := hhollow.shrinks hshrinks
    candidates := fun j hj => by
      refine ⟨_, _, hget j hj, hget' (shifted n j) ?_, fun i => Candidates.mem_others.1, ?_, nofun⟩
      · rw [hlength]
        exact shifted_lt n hj
      · rw [hlength]
        exact mirrors_others hinserted.le_length j
    own := by
      refine ⟨_, hget' n ?_, fun i => Candidates.mem_others.1⟩
      rw [hlength]
      exact Nat.lt_succ_of_le hinserted.le_length }

/-- **A hollow rectangle is invisible.** Let a constraint over regular rectangles, and the same
constraint with a hollow rectangle inserted anywhere, each be imposed on the same store at the
root and be narrowed alone, with its whole scope pending at first, until nothing is pending. Both runs
end in the same way, and all variables have the same domains at the end. If they fail, the
store was refuted, or the height of a profile has left the width. -/
theorem hollow_invisible (h0 : s.level = 0) (hinserted : d.Inserted d' n z)
    (hregular : ∀ r ∈ d.rectangles, r.Regular s) (hhollow : z.Hollow s) (id id' : ConstraintId) :
    ∃ run run', d.exhaust id s = .ok run ∧ d'.exhaust id' s = .ok run' ∧ run'.outcome = run.outcome ∧
      (∀ v, run'.store.domain v = run.store.domain v) ∧ ∀ e, run.outcome = .error e → e.Expected := by
  obtain ⟨t, ht, hrun⟩ := exhaust_eq (fun r hr => (hregular r hr).known) id
  obtain ⟨t', ht', hrun'⟩ := exhaust_eq (d := d') (s := s) (fun q hq =>
    (hinserted.mem_iff.1 hq).elim (fun he => he ▸ hhollow.known) fun hq => (hregular q hq).known) id'
  have hstart : Shadow (d.imposed id s) (d'.imposed id' s) n z (fun _ => False) t.clearPending t'.clearPending :=
    .start h0 hinserted hregular hhollow ht ht'
  have touched : ∀ q ∈ d.rectangles, t.hasChanges = true ∧ q.touches t.changed = true := fun q hq =>
    Rectangle.touches_touchAll ht fun v hv => d.mem_scope hq hv
  have touched' : ∀ q ∈ d'.rectangles, t'.hasChanges = true ∧ q.touches t'.changed = true := fun q hq =>
    Rectangle.touches_touchAll ht' fun v hv => d'.mem_scope hq hv
  have hchanges : t.hasChanges = true ∨ d.rectangles = [] := by
    rcases List.eq_nil_or_concat d.rectangles with hnil | ⟨rest, r, hlast⟩
    · exact .inr hnil
    · exact .inl (touched r (by simp [hlast])).1
  have hslack : t'.slack = t.slack := by
    rw [← t'.slack_clearPending, ← t.slack_clearPending]
    unfold Store.slack
    rw [hstart.agrees.cells]
  have hends : (Propagator.fixpoint (d.imposed id s) t).Agrees (Propagator.fixpoint (d'.imposed id' s) t') := by
    unfold Propagator.fixpoint
    rw [hslack]
    refine hstart.rounds_succ hchanges (touched' z (hinserted.mem_iff.2 (.inl rfl))).1 (fun q hq => ?_)
      (fun i r hr => .inr (touched r (List.mem_of_getElem? hr)).2) fun _ _ _ _ ht => ht.rounds
    rw [(touched q hq).2, (touched' q (hinserted.mem_iff.2 (.inr hq))).2]
  refine ⟨_, _, hrun, hrun', hends.outcome_eq, fun v => congrFun hends.store.domain_eq v, fun e he => ?_⟩
  exact (Lone.start h0 id ht).rounds_expected (Nat.lt_succ_self _) he

/-- Two squares of side 2 in a strip, and between them in the list a rectangle that is 0 … 4 wide and at
most 0 high, in the way of both: the second square is pushed to the right of the first, with or without
the rectangle between them. -/
theorem hollow_invisible_squares :
    let range := fun (lo hi : Int) (h : lo ≤ hi ∧ Width.w8.Holds lo ∧ Width.w8.Holds hi) =>
      (⟨lo, hi, h.1, h.2.1, h.2.2⟩ : Domain .w8)
    let s : Store .w8 := .ofDomains [.single 2 (by decide), .single 0 (by decide), .single 0 (by decide),
      range 0 5 (by decide), .single 0 (by decide), range 0 5 (by decide), range 0 1 (by decide),
      range 0 4 (by decide), range (-1) 0 (by decide)]
    let box := fun x y width height : Nat =>
      (⟨[⟨⟨x⟩, ⟨width⟩⟩, ⟨⟨y⟩, ⟨height⟩⟩], List.cons_ne_nil _ _⟩ : Rectangle)
    let d : Disjoint := ⟨none, [box 1 2 0 0, box 3 4 0 0], .profile (.stable _), .empty, .zero, by decide⟩
    let d' : Disjoint := ⟨none, [box 1 2 0 0, box 5 6 7 8, box 3 4 0 0], .profile (.stable _), .empty, .zero, by decide⟩
    ∃ run run', d.exhaust ⟨0⟩ s = .ok run ∧ d'.exhaust ⟨0⟩ s = .ok run' ∧ (run.store.dom ⟨3⟩).lo = 2 ∧
      run'.outcome = run.outcome ∧ ∀ v, run'.store.domain v = run.store.domain v := by
  intro range s box d d'
  have hinserted : d.Inserted d' 1 (box 5 6 7 8) := ⟨rfl, by decide, rfl⟩
  have hpushed : (d.exhaust ⟨0⟩ s).toOption.any fun run => (run.store.dom ⟨3⟩).lo = 2 := by decide +kernel
  have hroot : s.level = 0 := rfl
  have hregular : ∀ r ∈ d.rectangles, r.Regular s := by decide +kernel
  have hhollow : (box 5 6 7 8).Hollow s := by decide +kernel
  obtain ⟨run, run', hrun, hrun', houtcome, hdomains, -⟩ :=
    hollow_invisible hroot hinserted hregular hhollow ⟨0⟩ ⟨0⟩
  rw [hrun] at hpushed
  exact ⟨run, run', hrun, hrun', by simpa [Except.toOption] using hpushed, houtcome, hdomains⟩

end Disjoint
end Placement
