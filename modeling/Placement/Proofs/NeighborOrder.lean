/-
# Neither the order of the neighbours nor the others matter

An analysis adds up what it sees of its candidates. All summands are at least zero, so the clamped
sums do not depend on the order (`Tally.foldl_add_perm`), and they only grow. Therefore the common
area bound, which is tested after every candidate, is violated on the way exactly if it is violated
by all neighbours together (`turns_of_exceeds`). Candidates whose reach does not meet that of the
focus add nothing, and the test after them is one that was passed before, if the focus ends within
the width.

So an analysis is a function of the neighbours that meet the focus; their order decides the order of
what is found and the numbers in a violation, and nothing else (`analyze_of_meetingAmong`). In
particular it is safe to keep for each rectangle only those candidates that still meet it.
-/

import Placement.Proofs.HollowRectangles

namespace Placement

variable {w : Width}

/-! ## Sums of one sign -/

/-- Adding what is not negative does not lower a value of the width. -/
theorem Width.le_add {x y : Int} (hx : w.Holds x) (hy : 0 ≤ y) : x ≤ w.add x y := by
  have hmono := w.clamp_mono (show x ≤ x + y by omega)
  rwa [Width.clamp_of_holds hx] at hmono

/-- Summands that are not negative may be added in either order. -/
theorem Width.add_right_comm {x y z : Int} (hx : w.Holds x) (hy : 0 ≤ y) (hz : 0 ≤ z) :
    w.add (w.add x y) z = w.add (w.add x z) y := by
  cases w with
  | unbounded => exact Int.add_right_comm x y z
  | word top _ =>
    simp only [Width.Holds] at hx
    simp only [Width.add, Width.clamp]
    repeat' split
    all_goals omega

namespace Neighborhood

/-- What a neighbour must take is not negative. -/
theorem forcedVolume_nonneg (f : Focus) (n : Neighbor w) : 0 ≤ forcedVolume f n := by
  have hfactors : ∀ x ∈ List.zipWith (fun (d : Window) (e : Extent w) =>
      let length := max e.length.lo 0
      forcedExtent w e.origin.lo (w.add e.origin.hi length) length d.reach d.latestStop)
      f.windows n.extents, 0 ≤ x := by
    intro x hx
    obtain ⟨i, hi⟩ := List.getElem?_of_mem hx
    obtain ⟨d, e, -, -, rfl⟩ := List.getElem?_zipWith_eq_some.1 hi
    exact forcedExtent_nonneg (le_max_right _ _)
  unfold forcedVolume
  rw [Width.product_eq_clamp hfactors]
  exact Width.clamp_nonneg (prod_nonneg_of_forall hfactors)

/-- The least area of a neighbour is not negative. -/
theorem area_of_nonneg (j : Nat) (es : List (Extent w)) (c : Bool) : 0 ≤ (Neighbor.of j es c).area := by
  have hfactors : ∀ x ∈ es.map fun e => max e.length.lo 0, 0 ≤ x :=
    List.forall_mem_map.2 fun e _ => le_max_right _ _
  unfold Neighbor.of
  dsimp only
  split
  · rw [Width.product_eq_clamp hfactors]
    exact Width.clamp_nonneg (prod_nonneg_of_forall hfactors)
  · exact Int.le_refl 0

/-! ## Tallies of the same neighbours -/

/-- An envelope may be widened by two rectangles in either order. -/
theorem zipWith_widen_comm (ts : List Stretch) (ds es : List (Extent w)) :
    List.zipWith Stretch.widen (List.zipWith Stretch.widen ts ds) es =
      List.zipWith Stretch.widen (List.zipWith Stretch.widen ts es) ds := by
  induction ts generalizing ds es with
  | nil => rfl
  | cons t ts ih =>
    cases ds with
    | nil => simp
    | cons d ds =>
      cases es with
      | nil => simp
      | cons e es =>
        simp only [List.zipWith_cons_cons, ih ds es, Stretch.widen]
        rw [min_right_comm, max_right_comm, min_right_comm t.minLength]

namespace Tally

/-- The sums are values of the width. -/
structure Holds (w : Width) (t : Tally) : Prop where
  area : w.Holds t.area
  forced : w.Holds t.forced

/-- The sums start within the width. -/
theorem holds_start (w : Width) (f : Focus) : Holds w (start f) := ⟨w.holds_zero, w.holds_zero⟩

variable {f : Focus} {t u v : Tally}

/-- The sums stay within the width. -/
theorem Holds.add (h : t.Holds w) (f : Focus) (n : Neighbor w) : (t.add f n).Holds w := by
  unfold Tally.add
  dsimp only
  split
  · exact ⟨w.holds_clamp _, w.holds_clamp _⟩
  · exact ⟨h.area, w.holds_clamp _⟩

/-- Sums are the same as themselves. -/
theorem Same.refl (t : Tally) : t.Same t := ⟨rfl, rfl, rfl, rfl⟩

/-- Being the same carries over. -/
theorem Same.trans (h : t.Same u) (h' : u.Same v) : t.Same v :=
  ⟨h'.envelope_eq.trans h.envelope_eq, h'.solids_eq.trans h.solids_eq, h'.area_eq.trans h.area_eq,
    h'.forced_eq.trans h.forced_eq⟩

/-- The same neighbour may be added to both. -/
theorem Same.add_self (h : t.Same u) (f : Focus) (n : Neighbor w) : (t.add f n).Same (u.add f n) :=
  h.add f ⟨rfl, rfl, rfl, rfl⟩

/-- The same sums stay the same when the same neighbours are added. -/
theorem Same.foldl_add (h : t.Same u) (f : Focus) (ns : List (Neighbor w)) :
    (ns.foldl (Tally.add f) t).Same (ns.foldl (Tally.add f) u) := by
  induction ns generalizing t u with
  | nil => exact h
  | cons n ns ih => exact ih (h.add_self f n)

/-- Two neighbours may be added in either order. -/
theorem same_add_comm (h : t.Holds w) (f : Focus) {m n : Neighbor w} (hm : 0 ≤ m.area) (hn : 0 ≤ n.area) :
    ((t.add f m).add f n).Same ((t.add f n).add f m) := by
  have hforced : ∀ a b : Neighbor w, w.add (w.add t.forced (forcedVolume f a)) (forcedVolume f b) =
      w.add (w.add t.forced (forcedVolume f b)) (forcedVolume f a) := fun a b =>
    Width.add_right_comm h.forced (forcedVolume_nonneg f a) (forcedVolume_nonneg f b)
  unfold Tally.add
  cases m.solid <;> cases n.solid
  · exact ⟨rfl, rfl, rfl, hforced n m⟩
  · exact ⟨rfl, rfl, rfl, hforced n m⟩
  · exact ⟨rfl, rfl, rfl, hforced n m⟩
  · exact ⟨zipWith_widen_comm .., rfl, Width.add_right_comm h.area hn hm, hforced n m⟩

/-- **The sums do not depend on the order of the neighbours.** -/
theorem foldl_add_perm {ms ns : List (Neighbor w)} (hp : ms.Perm ns) (hareas : ∀ n ∈ ms, 0 ≤ n.area)
    (ht : t.Holds w) (h : t.Same u) : (ms.foldl (Tally.add f) t).Same (ns.foldl (Tally.add f) u) := by
  induction hp generalizing t u with
  | nil => exact h
  | cons n _ ih =>
    exact ih (fun x hx => hareas x (List.mem_cons_of_mem _ hx)) (ht.add f n) (h.add_self f n)
  | swap m n ns =>
    obtain ⟨hn, hareas⟩ := List.forall_mem_cons.1 hareas
    obtain ⟨hm, -⟩ := List.forall_mem_cons.1 hareas
    have hswap := (same_add_comm ht f hn hm).trans ((h.add_self f m).add_self f n)
    exact hswap.foldl_add f ns
  | trans hp _ ih ih' =>
    exact (ih hareas ht (.refl t)).trans (ih' (fun n hn => hareas n (hp.mem_iff.2 hn)) ht h)

/-- The common area bound is violated. -/
def Exceeds (w : Width) (f : Focus) (t : Tally) : Prop := f.volume < w.add t.forced f.area

instance (w : Width) (f : Focus) (t : Tally) : Decidable (t.Exceeds w f) := inferInstanceAs (Decidable (_ < _))

/-- The same sums exceed the common area bound, or do not. -/
theorem Same.exceeds_iff (h : t.Same u) : u.Exceeds w f ↔ t.Exceeds w f := by
  unfold Exceeds
  rw [h.forced_eq]

/-- What is forced only grows. -/
theorem forced_le_foldl_add (ht : t.Holds w) (f : Focus) (ns : List (Neighbor w)) :
    t.forced ≤ (ns.foldl (Tally.add f) t).forced := by
  induction ns generalizing t with
  | nil => exact Int.le_refl _
  | cons n ns ih =>
    refine le_trans ?_ (ih (ht.add f n))
    rw [forced_add]
    exact Width.le_add ht.forced (forcedVolume_nonneg f n)

/-- A violation is not made good by more neighbours. -/
theorem Exceeds.foldl_add (h : t.Exceeds w f) (ht : t.Holds w) (ns : List (Neighbor w)) :
    (ns.foldl (Tally.add f) t).Exceeds w f :=
  lt_of_lt_of_le h (w.clamp_mono (Int.add_le_add_right (forced_le_foldl_add ht f ns) _))

end Tally

/-! ## The turns of an analysis -/

variable {f : Focus} {t : Tally}

/-- A neighbour that makes the sums exceed the common area bound refutes. -/
theorem turn_of_exceeds {n : Neighbor w} (h : (t.add f n).Exceeds w f) :
    ∃ forced, t.turn f (some n) = .error (.refuted (.commonArea forced f.area f.volume)) := by
  have hcheck : (t.add f n).checkCommonArea w f = .error (.refuted (.commonArea _ f.area f.volume)) := if_pos h
  refine ⟨(t.add f n).forced, ?_⟩
  simp only [Tally.turn, hcheck]

/-- A neighbour that does not make the sums exceed the common area bound is added. -/
theorem turn_of_not_exceeds {n : Neighbor w} (h : ¬ (t.add f n).Exceeds w f) :
    t.turn f (some n) = .ok (t.add f n) := by
  have hcheck : (t.add f n).checkCommonArea w f = .ok () := if_neg h
  simp only [Tally.turn, hcheck]

/-- **Turns refute if all neighbours together violate the bound.** -/
theorem turns_of_exceeds (ht : t.Holds w) {ns : List (Neighbor w)} (hstart : ¬ t.Exceeds w f)
    (h : (ns.foldl (Tally.add f) t).Exceeds w f) :
    ∃ forced, (ns.map some).foldlM (Tally.turn f) t = .error (.refuted (.commonArea forced f.area f.volume)) := by
  induction ns generalizing t with
  | nil => exact absurd h hstart
  | cons n ns ih =>
    rw [List.map_cons, List.foldlM_cons]
    by_cases hn : (t.add f n).Exceeds w f
    · obtain ⟨forced, hturn⟩ := turn_of_exceeds hn
      exact ⟨forced, by rw [hturn]; rfl⟩
    · rw [turn_of_not_exceeds hn]
      exact ih (ht.add f n) hn h

/-- **Turns end well if all neighbours together satisfy the bound.** -/
theorem turns_of_not_exceeds (ht : t.Holds w) {ns : List (Neighbor w)}
    (h : ¬ (ns.foldl (Tally.add f) t).Exceeds w f) :
    (ns.map some).foldlM (Tally.turn f) t = .ok (ns.foldl (Tally.add f) t) := by
  induction ns generalizing t with
  | nil => rfl
  | cons n ns ih =>
    have hn : ¬ (t.add f n).Exceeds w f := fun hn => h (hn.foldl_add (ht.add f n) ns)
    rw [List.map_cons, List.foldlM_cons, turn_of_not_exceeds hn]
    exact ih (ht.add f n) h

/-- The end of an analysis depends on the sums only, but for what it gives. -/
theorem Tally.Same.close_cases {u : Tally} (h : t.Same u) (f : Focus) :
    (∃ v, t.close w f = .error (.refuted v) ∧ u.close w f = .error (.refuted v)) ∨
      t.close w f = .ok t.found ∧ u.close w f = .ok u.found := by
  unfold Tally.close
  rw [h.solids_eq, h.checkEnvelope]
  split
  · cases hc : t.checkEnvelope w f with
    | ok _ => exact .inr ⟨rfl, rfl⟩
    | error e =>
      obtain ⟨v, rfl⟩ := Tally.checkEnvelope_refutes hc
      exact .inl ⟨v, rfl, rfl⟩
  · exact .inr ⟨rfl, rfl⟩

/-- What is found in another order. -/
theorem ofNeighbors_perm {ms ns : List (Neighbor w)} (h : ms.Perm ns) :
    (ofNeighbors ms).overlapping.Perm (ofNeighbors ns).overlapping ∧
      (ofNeighbors ms).used.Perm (ofNeighbors ns).used ∧
      (ofNeighbors ms).profiled.Perm (ofNeighbors ns).profiled ∧
      (ofNeighbors ms).changed = (ofNeighbors ns).changed :=
  ⟨h.map _, (h.filter _).map _, (h.filter _).map _, h.any_eq⟩

/-- **The turns over the same neighbours in another order** violate the same bound, or find the same. -/
theorem turns_perm {ms ns : List (Neighbor w)} (hp : ms.Perm ns) (hareas : ∀ n ∈ ms, 0 ≤ n.area)
    (hfits : f.Fits w) :
    (∃ v v' : Violation, v.bound = v'.bound ∧
      (ms.map some).foldlM (Tally.turn f) (.start f) >>= Tally.close w f = .error (.refuted v) ∧
      (ns.map some).foldlM (Tally.turn f) (.start f) >>= Tally.close w f = .error (.refuted v')) ∨
    (ms.map some).foldlM (Tally.turn f) (.start f) >>= Tally.close w f = .ok (ofNeighbors ms) ∧
      (ns.map some).foldlM (Tally.turn f) (.start f) >>= Tally.close w f = .ok (ofNeighbors ns) := by
  have hholds := Tally.holds_start w f
  have hstart : ¬ (Tally.start f).Exceeds w f := fun h => by
    have hcheck := hfits.symm.trans (if_pos h)
    cases hcheck
  have hsame : (tally f ms).Same (tally f ns) := Tally.foldl_add_perm hp hareas hholds (.refl _)
  by_cases h : (tally f ms).Exceeds w f
  · have h' : (tally f ns).Exceeds w f := hsame.exceeds_iff.2 h
    obtain ⟨forced, hms⟩ := turns_of_exceeds hholds hstart h
    obtain ⟨forced', hns⟩ := turns_of_exceeds hholds hstart h'
    rw [hms, hns]
    exact .inl ⟨.commonArea forced f.area f.volume, .commonArea forced' f.area f.volume, rfl, rfl, rfl⟩
  · have h' : ¬ (tally f ns).Exceeds w f := mt hsame.exceeds_iff.1 h
    rw [turns_of_not_exceeds hholds h, turns_of_not_exceeds hholds h', ok_bind, ok_bind]
    change (∃ v v' : Violation, v.bound = v'.bound ∧ (tally f ms).close w f = _ ∧ (tally f ns).close w f = _) ∨
      (tally f ms).close w f = _ ∧ (tally f ns).close w f = _
    rw [← found_tally f ms, ← found_tally f ns]
    rcases hsame.close_cases f with ⟨v, hv⟩ | hok
    · exact .inl ⟨v, v, rfl, hv⟩
    · exact .inr hok

end Neighborhood

/-! ## The neighbours that meet the focus -/

open Neighborhood

/-- The positions of those rectangles, other than `r` at position `k`, whose reaches meet the reaches
of `r` along every dimension. -/
def meetingAmong (s : Store w) (rectangles : List Rectangle) (k : Nat) (r : Rectangle) (cs : List Nat) :
    List Nat :=
  cs.filter fun j => j ≠ k ∧ (rectangles[j]?).any fun q => Rectangle.reachesMeet s r.sides q.sides = .ok true

section Meeting

variable {s : Store w} {rectangles : List Rectangle} {k : Nat} {r : Rectangle} {cs : List Nat}

/-- **An analysis sees the neighbours that meet the focus.** -/
theorem seen_meetingAmong (hknown : r.Known s) (hcs : Readable s rectangles r cs) (changed : List Var) :
    seen s rectangles changed (r.view s) (meetingAmong s rectangles k r cs) =
      seen s rectangles changed (r.view s) (cs.filter (· ≠ k)) := by
  unfold seen meetingAmong
  rw [List.filterMap_filter, List.filterMap_filter]
  refine List.filterMap_congr fun j hj => ?_
  obtain ⟨q, hq, hknown', hdim⟩ := hcs j hj
  have hmeet : Rectangle.reachesMeet s r.sides q.sides = .ok (meet (r.view s) (q.view s)) :=
    Rectangle.reachesMeet_eq hknown hknown' (fun _ h => h) (fun _ h => h) hdim.symm
  unfold sight
  rw [hq, Option.any_some, hmeet]
  by_cases hjk : j = k
  · simp [hjk]
  · cases hm : meet (r.view s) (q.view s) with
    | false => simp [hm]
    | true => simp [hjk]

/-- An analysis is one turn per neighbour that meets the focus and a test at the end. -/
theorem analyze_eq_meetingAmong (hr : rectangles[k]? = some r) (hknown : r.Known s)
    (hstop : ∀ x ∈ r.sides, w.Holds ((s.look x).origin.hi + max 0 (s.look x).length.hi))
    (hcs : Readable s rectangles r cs) (changed : List Var) :
    analyze s rectangles k cs changed =
      ((seen s rectangles changed (r.view s) (meetingAmong s rectangles k r cs)).map some).foldlM
        (Tally.turn (Focus.of k (r.view s))) (.start (Focus.of k (r.view s))) >>=
          Tally.close w (Focus.of k (r.view s)) := by
  have hfits := Focus.fits_of_holds (List.forall_mem_map.2 hstop) k
  rw [seen_meetingAmong hknown hcs, ← analyze_erase_focus]
  refine analyze_eq_turns hr hknown hfits (fun j hj => hcs j (List.mem_of_mem_filter hj)) fun j hj => ?_
  simpa using (List.mem_filter.1 hj).2

/-- A part of a list without repetition that has all elements with a property has them in the same
order. -/
theorem filter_eq_of_sublist {l cs : List Nat} (hsub : cs.Sublist l) (hnd : l.Nodup) {p : Nat → Bool}
    (h : ∀ j ∈ l.filter p, j ∈ cs) : cs.filter p = l.filter p := by
  refine (hsub.filter p).eq_of_length_le ((hnd.filter p).subperm fun j hj => ?_).length_le
  exact List.mem_filter.2 ⟨h j hj, (List.mem_filter.1 hj).2⟩

end Meeting

/-- **An analysis depends on the neighbours that meet the focus only, and on their order only in the
order of what it finds.** The focus must end within the width; nothing is asked of the lengths and
positions of its neighbours. If a cache of candidates holds all that meet the focus, the analysis of
the cache is the analysis of all other rectangles. -/
theorem analyze_of_meetingAmong {s : Store w} {rectangles : List Rectangle} {k : Nat} {r : Rectangle}
    (hr : rectangles[k]? = some r) (hknown : r.Known s)
    (hstop : ∀ x ∈ r.sides, w.Holds ((s.look x).origin.hi + max 0 (s.look x).length.hi)) (changed : List Var) :
    (∀ cs cs' : List Nat, Readable s rectangles r cs → Readable s rectangles r cs' →
      (meetingAmong s rectangles k r cs).Perm (meetingAmong s rectangles k r cs') →
      ((∃ v v' : Violation, v.bound = v'.bound ∧
          analyze s rectangles k cs changed = .error (.refuted v) ∧
          analyze s rectangles k cs' changed = .error (.refuted v')) ∨
        ∃ found found', analyze s rectangles k cs changed = .ok found ∧
          analyze s rectangles k cs' changed = .ok found' ∧
          found.overlapping.Perm found'.overlapping ∧ found.used.Perm found'.used ∧
          found.profiled.Perm found'.profiled ∧ found.changed = found'.changed) ∧
      (meetingAmong s rectangles k r cs = meetingAmong s rectangles k r cs' →
        analyze s rectangles k cs changed = analyze s rectangles k cs' changed)) ∧
    ∀ cached : List Nat, Readable s rectangles r (Candidates.others rectangles.length k) →
      cached.Sublist (Candidates.others rectangles.length k) →
      (∀ j ∈ meetingAmong s rectangles k r (Candidates.others rectangles.length k), j ∈ cached) →
      analyze s rectangles k cached changed =
        analyze s rectangles k (Candidates.others rectangles.length k) changed := by
  have hturns := fun {cs} (hcs : Readable s rectangles r cs) => analyze_eq_meetingAmong hr hknown hstop hcs changed
  have hsame : ∀ {cs cs'}, Readable s rectangles r cs → Readable s rectangles r cs' →
      meetingAmong s rectangles k r cs = meetingAmong s rectangles k r cs' →
      analyze s rectangles k cs changed = analyze s rectangles k cs' changed := fun hcs hcs' h => by
    rw [hturns hcs, hturns hcs', h]
  refine ⟨fun cs cs' hcs hcs' hperm => ⟨?_, hsame hcs hcs'⟩, fun cached hothers hsub hall => ?_⟩
  · have hseen := hperm.filterMap (sight s rectangles changed (r.view s))
    have hareas : ∀ n ∈ seen s rectangles changed (r.view s) (meetingAmong s rectangles k r cs), 0 ≤ n.area := by
      intro n hn
      obtain ⟨j, -, hn⟩ := List.mem_filterMap.1 hn
      obtain ⟨q, -, -, rfl⟩ := sight_eq_some hn
      exact area_of_nonneg _ _ _
    rw [hturns hcs, hturns hcs']
    refine (turns_perm hseen hareas (Focus.fits_of_holds (List.forall_mem_map.2 hstop) k)).imp_right ?_
    rintro ⟨hok, hok'⟩
    exact ⟨_, _, hok, hok', ofNeighbors_perm hseen⟩
  · have hnd : (Candidates.others rectangles.length k).Nodup := List.nodup_range.filter _
    refine hsame (fun j hj => hothers j (hsub.subset hj)) hothers ?_
    exact filter_eq_of_sublist hsub hnd hall

/-- A rod of length 2 in a field of length 5, and four others. The rod at position 3 ends beyond the
bytes and is out of reach. The rods at 1, 2 and 4 violate the common area bound, in one order with a
forced length of 4, in another with 5; those at 1 and 2 do not. -/
theorem analyze_of_meetingAmong_rods :
    let s : Store .w8 := .ofBounds [(0, 3), (2, 2), (0, 0), (3, 3), (100, 120), (1, 1), (50, 50)]
    let rod := fun x length : Nat => (⟨[⟨⟨x⟩, ⟨length⟩⟩], List.cons_ne_nil _ _⟩ : Rectangle)
    let rectangles := [rod 0 1, rod 2 1, rod 3 5, rod 4 6, rod 1 1]
    (analyze s rectangles 0 [1, 4, 2] [] = .error (.refuted (.commonArea 4 2 5)) ∧
      ∃ v : Violation, v.bound = .commonArea ∧ analyze s rectangles 0 [4, 2, 3, 1] [] = .error (.refuted v)) ∧
    (∃ found found', analyze s rectangles 0 [1, 3, 2] [] = .ok found ∧
      analyze s rectangles 0 [2, 0, 1] [] = .ok found' ∧ found.overlapping.Perm found'.overlapping ∧
      found.used.Perm found'.used) ∧
    analyze s rectangles 0 [1, 2, 4] [] = analyze s rectangles 0 [1, 2, 3, 4] [] := by
  intro s rod rectangles
  have hknown : ∀ q ∈ rectangles, q.Known s ∧ q.dim = 1 := by decide +kernel
  have hreadable : ∀ cs : List Nat, (∀ j ∈ cs, j < 5) → Readable s rectangles (rod 0 1) cs := by
    intro cs hcs j hj
    have hget : rectangles[j]? = some (rectangles.get ⟨j, hcs j hj⟩) := List.getElem?_eq_getElem (hcs j hj)
    exact ⟨_, hget, hknown _ (List.mem_of_getElem? hget)⟩
  have hfocus : rectangles[0]? = some (rod 0 1) := rfl
  obtain ⟨horder, hcached⟩ := analyze_of_meetingAmong (s := s) (k := 0) hfocus
    (hknown _ List.mem_cons_self).1 (by decide +kernel) []
  have hrefuted : analyze s rectangles 0 [1, 4, 2] [] = .error (.refuted (.commonArea 4 2 5)) := by decide +kernel
  have hfound : (analyze s rectangles 0 [1, 3, 2] []).isOk = true := by decide +kernel
  refine ⟨⟨hrefuted, ?_⟩, ?_, ?_⟩
  · obtain ⟨⟨v, v', hbound, hv, hv'⟩ | ⟨found, found', hok, -⟩, -⟩ := horder [1, 4, 2] [4, 2, 3, 1]
      (hreadable _ (by decide)) (hreadable _ (by decide)) (by decide +kernel)
    · cases hrefuted.symm.trans hv
      exact ⟨v', hbound.symm, hv'⟩
    · cases hrefuted.symm.trans hok
  · obtain ⟨⟨v, v', -, hv, -⟩ | ⟨found, found', hok, hok', hoverlapping, hused, -⟩, -⟩ := horder [1, 3, 2] [2, 0, 1]
      (hreadable _ (by decide)) (hreadable _ (by decide)) (by decide +kernel)
    · rw [hv] at hfound
      cases hfound
    · exact ⟨found, found', hok, hok', hoverlapping, hused⟩
  · exact hcached [1, 2, 4] (hreadable _ (by decide)) (by decide) (by decide +kernel)

end Placement
