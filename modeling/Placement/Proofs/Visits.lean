/-
# Visiting a rectangle

A pass visits every rectangle of its constraint. What a visit does is decided by three readings:
a rectangle with a length that may be negative is passed over, so is one that was fixed before
the current level (`Rectangle.Settled`), and any other is analysed. After the analysis, the
rectangle is tightened if something it depends on changed (`Neighborhood.Matters`). The rules
below follow a visit along these cases, for rectangles whose variables and candidates exist.
-/

import Placement.Proofs.Choices
import Placement.Proofs.VolumeBounds

namespace Placement

variable {w : Width}

/-! ## What a visit reads -/

/-- Every variable of the rectangle was fixed before the current level. -/
def Rectangle.Settled (r : Rectangle) (s : Store w) : Prop :=
  ∀ v ∈ r.vars, ∀ c, s.cells[v.val]? = some c → c.domain.IsFixed ∧ c.stamp < s.level

namespace Rectangle.Known

variable {r : Rectangle} {s : Store w} (h : r.Known s)

include h

/-- The test for negative lengths of a known rectangle answers truly. -/
theorem hasNegativeLength_iff : ∃ b, r.hasNegativeLength s = .ok b ∧ (b = false ↔ r.Nonneg s) := by
  refine ⟨_, h.hasNegativeLength_eq, ?_⟩
  simp [Rectangle.view, Rectangle.Nonneg]

/-- The test whether a known rectangle is settled answers truly. -/
theorem isSettled_iff : ∃ b, r.isSettled s = .ok b ∧ (b = true ↔ r.Settled s) := by
  refine allM_iff fun v hv => ?_
  have hc := List.getElem?_eq_getElem (h v hv)
  rw [Store.cell_eq_ok.2 hc, ok_bind]
  refine ⟨_, rfl, ?_⟩
  simp [hc]

end Rectangle.Known

/-- Candidates can be replaced by some of them. -/
theorem Candidates.replace_ok {c : Candidates} {s : Store w} {k : Nat} {current value : List Nat}
    (hc : c.get s k = .ok current) (hsub : ∀ j ∈ value, j ∈ current) : ∃ t, c.replace s k value = .ok t := by
  obtain ⟨x, hx, a, ha, -⟩ := get_eq_ok.1 hc
  unfold replace
  rw [hc, ok_bind, if_neg (by simpa [List.all_eq_true] using hsub), entry_eq_ok.2 hx]
  exact ⟨_, Store.setSnapshot_eq_ok.2 ⟨a, ha, rfl⟩⟩

/-- After an analysis of a rectangle that had the candidates `cs`: the rectangle must be tightened,
because it lost candidates, or it or a neighbour that matters changed. -/
def Neighborhood.Matters (found : Neighborhood) (r : Rectangle) (changed : List Var) (cs : List Nat) : Prop :=
  found.overlapping.length ≠ cs.length ∨ found.changed ∨ r.touches changed

/-! ## Rules -/

/-- An origin stays where it is, or is narrowed to the bounds that the regions leave; the result is the
number of bounds that moved. -/
theorem Tighten.ends_origin_count {v : Var} {length : Int} {regions : List Span} {p : Pass w}
    {Q : Nat → Pass w → Prop} {E : Failure Inconsistency → Pass w → Prop}
    (hv : v.val < p.store.cells.length)
    (still : length ≤ 0 ∨ raise w length (p.store.dom v).lo regions ≤ (p.store.dom v).lo ∧
      (p.store.dom v).hi ≤ lower w length (p.store.dom v).hi regions.reverse → Q 0 p)
    (moved : 0 < length → (p.store.dom v).lo < raise w length (p.store.dom v).lo regions ∨
      lower w length (p.store.dom v).hi regions.reverse < (p.store.dom v).hi → ∀ b t events,
      p.store.setBounds v (raise w length (p.store.dom v).lo regions)
        (lower w length (p.store.dom v).hi regions.reverse) = .ok (b, t) →
      Q ((if (p.store.dom v).lo < raise w length (p.store.dom v).lo regions then 1 else 0) +
        (if lower w length (p.store.dom v).hi regions.reverse < (p.store.dom v).hi then 1 else 0)) ⟨t, events⟩)
    (stuck : 0 < length → (p.store.dom v).lo < raise w length (p.store.dom v).lo regions ∨
      lower w length (p.store.dom v).hi regions.reverse < (p.store.dom v).hi → ∀ e events,
      p.store.setBounds v (raise w length (p.store.dom v).lo regions)
        (lower w length (p.store.dom v).hi regions.reverse) = .error e → E e ⟨p.store, events⟩) :
    Ends (origin v length regions) p Q E := by
  unfold origin
  split
  · next hnone =>
    refine still (hnone.symm.imp_right fun he => ?_)
    subst he
    exact ⟨Int.le_refl _, Int.le_refl _⟩
  · next hsome =>
    rw [not_or, Int.not_le] at hsome
    refine (ends_bind _ _ p _ _).2 ((Narrowing.ends_read _ p).2 ⟨fun d hd => ?_, fun c hc => ?_⟩)
    · rw [Store.domain_eq hv] at hd
      cases hd
      have hcount : 0 < (if (p.store.dom v).lo < raise w length (p.store.dom v).lo regions then 1 else 0) +
          (if lower w length (p.store.dom v).hi regions.reverse < (p.store.dom v).hi then 1 else 0) ↔
          (p.store.dom v).lo < raise w length (p.store.dom v).lo regions ∨
            lower w length (p.store.dom v).hi regions.reverse < (p.store.dom v).hi := by
        split
        · simp [*]
        · split
          · simp [*]
          · simp [*]
      dsimp only
      generalize (if (p.store.dom v).lo < raise w length (p.store.dom v).lo regions then 1 else 0) +
        (if lower w length (p.store.dom v).hi regions.reverse < (p.store.dom v).hi then 1 else 0) = n
        at hcount moved
      split
      · next hn =>
        have hmoves := hcount.1 hn
        refine (ends_bind _ _ p _ _).2 ((ends_bind _ _ _ _ _).2 ((Narrowing.ends_setBounds ..).2 ⟨?_, ?_⟩))
        · exact fun b t hset => moved hsome.2 hmoves b t _ hset
        · exact fun e he => stuck hsome.2 hmoves e _ he
      · next hn =>
        obtain rfl : n = 0 := Nat.eq_zero_of_not_pos hn
        rw [hcount, not_or, Int.not_lt, Int.not_lt] at hn
        exact still (.inr hn)
    · rw [Store.domain_eq hv] at hc
      cases hc

/-- An origin stays where it is, or is narrowed to the bounds that the regions leave. -/
theorem Tighten.ends_origin {v : Var} {length : Int} {regions : List Span} {p : Pass w}
    {Q : Nat → Pass w → Prop} {E : Failure Inconsistency → Pass w → Prop}
    (hv : v.val < p.store.cells.length)
    (still : length ≤ 0 ∨ raise w length (p.store.dom v).lo regions ≤ (p.store.dom v).lo ∧
      (p.store.dom v).hi ≤ lower w length (p.store.dom v).hi regions.reverse → ∀ n, Q n p)
    (moved : 0 < length → (p.store.dom v).lo < raise w length (p.store.dom v).lo regions ∨
      lower w length (p.store.dom v).hi regions.reverse < (p.store.dom v).hi → ∀ n b t events,
      p.store.setBounds v (raise w length (p.store.dom v).lo regions)
        (lower w length (p.store.dom v).hi regions.reverse) = .ok (b, t) → Q n ⟨t, events⟩)
    (stuck : 0 < length → (p.store.dom v).lo < raise w length (p.store.dom v).lo regions ∨
      lower w length (p.store.dom v).hi regions.reverse < (p.store.dom v).hi → ∀ e events,
      p.store.setBounds v (raise w length (p.store.dom v).lo regions)
        (lower w length (p.store.dom v).hi regions.reverse) = .error e → E e ⟨p.store, events⟩) :
    Ends (origin v length regions) p Q E :=
  ends_origin_count hv (fun h => still h 0) (fun hpos h => moved hpos h _) stuck

/-- A rectangle is tightened against the regions of used space and, in profile mode, against those of
full profiles along another dimension. -/
theorem Tighten.mem_regions {rectangles : List Rectangle} {k : Nat} {r : Rectangle} {found : Neighborhood}
    {mode : Mode} {i : Nat} {f : Store w → Except Fault (List Span)} :
    f ∈ regions rectangles k r found mode i ↔ f = (fun s => Region.ofUsed s r i found.used) ∨
      ∃ sorter, mode = .profile sorter ∧ found.profiled ≠ [] ∧ ∃ j ∈ Region.otherDims r [i],
        f = fun s => Region.ofProfile s rectangles k i j found.profiled sorter := by
  unfold regions
  rw [List.mem_cons]
  refine or_congr_right ?_
  cases mode with
  | pairwise => simp
  | profile sorter =>
    dsimp only
    split
    · next hnone => simp [hnone]
    · next hsome =>
      simp only [List.mem_map, Mode.profile.injEq, eq_comm, exists_eq_left', ne_eq, hsome,
        not_false_eq_true, true_and]

/-- One computed region after the other. -/
theorem Tighten.ends_originAgainst_cons {v : Var} {length : Int} {f : Store w → Except Fault (List Span)}
    {fs : List (Store w → Except Fault (List Span))} {p : Pass w} {Q : Nat → Pass w → Prop}
    {E : Failure Inconsistency → Pass w → Prop}
    (computed : ∀ regions, f p.store = .ok regions → Ends (origin v length regions) p
      (fun m q => Ends (originAgainst v length fs) q (fun n q' => Q (m + n) q') E) E)
    (failed : ∀ c, f p.store = .error c → E (.fault c) p) : Ends (originAgainst v length (f :: fs)) p Q E := by
  unfold originAgainst
  refine (ends_bind _ _ p _ _).2 ((Narrowing.ends_read _ p).2 ⟨fun regions hf => ?_, failed⟩)
  refine (ends_bind _ _ p _ _).2 ((computed regions hf).mono (fun m q hq => ?_) fun _ _ he => he)
  exact (ends_bind _ _ q _ _).2 hq

/-- One dimension after the other. -/
theorem Tighten.ends_dimensions_cons {rectangles : List Rectangle} {k i : Nat} {r : Rectangle}
    {found : Neighborhood} {mode : Mode} {is : List Nat} {p : Pass w} {Q : Nat → Pass w → Prop}
    {E : Failure Inconsistency → Pass w → Prop} (hk : r.Known p.store) {x : Side} (hx : r.sides[i]? = some x)
    (skipped : (p.store.look x).length.lo ≤ 0 → Ends (dimensions rectangles k r found mode is) p Q E)
    (tightened : 0 < (p.store.look x).length.lo →
      Ends (originAgainst x.origin (p.store.look x).length.lo (regions rectangles k r found mode i)) p
        (fun m q => Ends (dimensions rectangles k r found mode is) q (fun n q' => Q (m + n) q') E) E) :
    Ends (dimensions rectangles k r found mode (i :: is)) p Q E := by
  have hview : (r.view p.store)[i]? = some (p.store.look x) := by rw [r.view_getElem?, hx]; rfl
  have hmin := hk.minLength_eq hview
  unfold dimensions
  refine (ends_bind _ _ p _ _).2 ((Narrowing.ends_read _ p).2 ⟨fun length hlength => ?_, fun c hc => ?_⟩)
  · rw [hmin] at hlength
    cases hlength
    split
    · next hle => exact skipped hle
    · next hpos =>
      refine (ends_bind _ _ p _ _).2 ((Narrowing.ends_read _ p).2 ⟨fun side hside => ?_, fun c hc => ?_⟩)
      · rw [Rectangle.side, entry_eq_ok, hx] at hside
        cases hside
        refine (ends_bind _ _ p _ _).2 ((tightened (Int.not_le.1 hpos)).mono (fun m q hq => ?_) fun _ _ he => he)
        exact (ends_bind _ _ q _ _).2 hq
      · rw [Rectangle.side, entry, hx] at hc
        cases hc
  · rw [hmin] at hc
    cases hc

namespace Disjoint

variable {d : Disjoint} {changed : List Var} {k : Nat} {r : Rectangle} {p : Pass w}
  {Q : Unit → Pass w → Prop} {E : Failure Inconsistency → Pass w → Prop}

/-- Tightening a rectangle tightens it along all dimensions; how that ends is only reported. -/
theorem ends_tighten {found : Neighborhood} (hr : d.rectangles[k]? = some r)
    (h : Ends (Tighten.dimensions d.rectangles k r found d.mode (List.range r.dim)) p
      (fun _ q => ∀ q' : Pass w, q'.store = q.store → Q () q')
      fun e q => ∀ q' : Pass w, q'.store = q.store → E e q') : Ends (d.tighten k found) p Q E := by
  unfold tighten Tighten.rectangle
  refine (ends_bind _ _ p _ _).2 ((ends_tryCatch _ _ p _ _).2 ((ends_bind _ _ p _ _).2 ?_))
  refine (Narrowing.ends_read _ p).2 ⟨fun r' hr' => ?_, fun c hc => ?_⟩
  · rw [entry_eq_ok, hr] at hr'
    cases hr'
    refine h.mono (fun _ q hq => hq _ rfl) fun e q he => ?_
    cases e with
    | fault c => exact he _ rfl
    | refuted c => exact he _ rfl
  · rw [entry, hr] at hc
    cases hc

/-- The analysis, and then, if it matters, the new candidates and the tightening. -/
theorem ends_revise {cs : List Nat} (hc : d.candidates.get p.store k = .ok cs)
    (analyzed : ∀ found, analyze p.store d.rectangles k cs changed = .ok found →
      (¬ found.Matters r changed cs → ∀ q : Pass w, q.store = p.store → Q () q) ∧
      (found.Matters r changed cs → ∀ q : Pass w,
        (found.overlapping.length = cs.length ∧ q.store = p.store ∨
          found.overlapping.length ≠ cs.length ∧
            d.candidates.replace p.store k found.overlapping = .ok q.store) →
        Ends (d.tighten k found) q Q E))
    (failed : ∀ e, analyze p.store d.rectangles k cs changed = .error e → ∀ e' (q : Pass w),
      ((∃ c, e = .fault c ∧ e' = .fault c) ∨ ∃ v, e = .refuted v ∧ e' = .refuted (.violated v.bound)) →
      q.store = p.store → E e' q) : Ends (d.revise changed k r) p Q E := by
  unfold revise
  refine (ends_bind _ _ p _ _).2 ((ends_bind _ _ _ _ _).2 ((Narrowing.ends_read _ _).2 ⟨?_, ?_⟩))
  · intro current hc'
    dsimp only at hc'
    rw [hc] at hc'
    cases hc'
    refine (ends_bind _ _ _ _ _).2 ((d.ends_inspect changed k cs _).mono ?_ ?_)
    · rintro found q ⟨hq, ha⟩
      obtain ⟨idle, tight⟩ := analyzed found ha
      dsimp only at hq ⊢
      split
      · next hm =>
        split
        · next hlen =>
          refine (ends_bind _ _ q _ _).2 ((ends_bind _ _ _ _ _).2 ?_)
          rw [Narrowing.ends_update]
          dsimp only
          rw [hq]
          refine ⟨fun t ht => tight hm _ (.inr ⟨hlen, ht⟩), fun c he => ?_⟩
          obtain ⟨t, ht⟩ := Candidates.replace_ok hc fun j hj => (overlapping_of_analyze ha).1.subset hj
          rw [ht] at he
          cases he
        · next hlen => exact tight hm q (.inl ⟨Classical.not_not.1 hlen, hq⟩)
      · next hm => exact idle hm _ hq
    · rintro e q ⟨hq, ⟨c, rfl, he⟩ | ⟨v, rfl, he⟩⟩
      · exact failed _ he _ q (.inl ⟨c, rfl, rfl⟩) hq
      · exact failed _ he _ q (.inr ⟨v, rfl, rfl⟩) hq
  · intro c he
    dsimp only at he
    rw [hc] at he
    cases he

/-- The three cases of a visit. -/
theorem ends_narrowRectangle (hr : d.rectangles[k]? = some r) (hknown : r.Known p.store)
    (passed : ¬ r.Nonneg p.store ∨ r.Settled p.store → ∀ q : Pass w, q.store = p.store → Q () q)
    (visit : r.Nonneg p.store → ¬ r.Settled p.store → Ends (d.revise changed k r) p Q E) :
    Ends (d.narrowRectangle changed k) p Q E := by
  obtain ⟨b, hb, hnn⟩ := hknown.hasNegativeLength_iff
  obtain ⟨b', hb', hset⟩ := hknown.isSettled_iff
  unfold narrowRectangle
  refine (ends_bind _ _ p _ _).2 ((Narrowing.ends_read _ p).2 ⟨fun r' hr' => ?_, fun c hc => ?_⟩)
  · rw [entry_eq_ok, hr] at hr'
    cases hr'
    refine (ends_bind _ _ p _ _).2 ((Narrowing.ends_read _ p).2 ⟨fun b₁ hb₁ => ?_, fun c hc => ?_⟩)
    · rw [hb] at hb₁
      cases hb₁
      cases b with
      | true => exact passed (.inl fun h => nomatch hnn.2 h) _ rfl
      | false =>
        refine (ends_bind _ _ p _ _).2 ((Narrowing.ends_read _ p).2 ⟨fun b₂ hb₂ => ?_, fun c hc => ?_⟩)
        · rw [hb'] at hb₂
          cases hb₂
          cases b' with
          | true => exact passed (.inr (hset.1 rfl)) _ rfl
          | false => exact visit (hnn.1 rfl) fun h => nomatch hset.2 h
        · rw [hb'] at hc
          cases hc
    · rw [hb] at hc
      cases hc
  · rw [entry, hr] at hc
    cases hc

/-- A pass of an imposed constraint visits its rectangles in turn. -/
theorem pass_eq (hget : d.rectangles ≠ [] → ∃ k cs, d.candidates.get p.store k = .ok cs) :
    d.pass changed p =
      (List.range d.rectangles.length).forM (d.narrowRectangle changed) ⟨p.store, .pass :: p.events⟩ := by
  have himposed : (!d.rectangles.isEmpty && !d.candidates.isAllocated) = false := by
    rcases hrect : d.rectangles with _ | ⟨r, rest⟩
    · rfl
    · obtain ⟨k, cs, hcs⟩ := hget (by rw [hrect]; exact List.cons_ne_nil _ _)
      obtain ⟨x, hx, -⟩ := Candidates.get_eq_ok.1 hcs
      unfold Candidates.isAllocated
      rcases hslots : d.candidates.slots with _ | ⟨y, slots⟩
      · rw [hslots] at hx
        cases hx
      · rfl
  unfold pass
  dsimp only
  rw [himposed]
  rfl

/-- What every visit hands on to the next holds after a pass of an imposed constraint. -/
theorem ends_pass {I : Nat → Pass w → Prop} (hready : d.Ready p.store)
    (h0 : ∀ q : Pass w, q.store = p.store → I 0 q)
    (step : ∀ k < d.rectangles.length, ∀ q, I k q →
      Ends (d.narrowRectangle changed k) q (fun _ q' => I (k + 1) q') E) :
    Ends (d.pass changed) p (fun _ q => I d.rectangles.length q) E := by
  have hget : d.rectangles ≠ [] → ∃ k cs, d.candidates.get p.store k = .ok cs := fun hne => by
    obtain ⟨cs, hcs, -⟩ := hready 0 (List.length_pos_iff.2 hne)
    exact ⟨0, cs, hcs⟩
  unfold Ends
  rw [pass_eq hget]
  exact Ends.forM_range (h0 _ rfl) step

/-- A pass says how a narrowing ends. -/
theorem narrow_of_ends {s : Store w} {Q : Store w → Prop} {E : Failure Inconsistency → Store w → Prop}
    (h : Ends (d.pass changed) ⟨s, []⟩ (fun _ q => Q q.store) fun e q => E e q.store) :
    ((d.narrow changed s).outcome = .ok () → Q (d.narrow changed s).store) ∧
      ∀ e, (d.narrow changed s).outcome = .error e → E e (d.narrow changed s).store := by
  unfold Ends at h
  unfold narrow Narrowing.runOn
  dsimp only
  split at h <;> rename_i hm <;> rw [hm]
  · exact ⟨fun _ => h, nofun⟩
  · exact ⟨nofun, fun _ he => by cases he; exact h⟩

end Disjoint
end Placement
