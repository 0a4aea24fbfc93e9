/-
# What saturation can make an analysis say

The exact analysis of a store is the analysis of its exact counterpart. The two are compared while
they run (`Mirrors`): as long as both go on, they hold the same envelope, and the saturated areas
and volumes are the exact ones, cut off at the end of the width. Cutting off keeps the order of what
it does not make equal, so a violated bound on areas is violated by the exact ones.

The capacity bound divides the extents of the envelope. If such an extent leaves the width it is cut
off before it is divided, and too few cells are counted; this is the only violation that saturation
can invent (`analyze_refuted_exact`), and it does (`capacity_invented`). What the envelope holds is
the focus and the solid rectangles that meet it (`Enveloped`); how far the others lie does not matter.
-/

import Placement.Proofs.CachedCandidates
import Placement.Proofs.Exact

namespace Placement

open Neighborhood

variable {w : Width}

namespace Neighborhood

/-! ## Runs side by side -/

/-- The run `y` refutes. -/
def Refutes {β : Type} (y : Except (Failure Violation) β) : Prop := ∃ v, y = .error (.refuted v)

/-- Side by side with the run `x`, the run `y` has refuted, or it goes on as `x` does: if `x` gives a
result, `y` gives a related one, and if `x` refutes, so does `y`, the violations in `X` apart. -/
structure Mirrors {α β : Type} (X : Violation → Prop) (R : α → β → Prop) (x : Except (Failure Violation) α)
    (y : Except (Failure Violation) β) : Prop where
  ok : ∀ a, x = .ok a → Refutes y ∨ ∃ b, y = .ok b ∧ R a b
  refuted : ∀ v, x = .error (.refuted v) → Refutes y ∨ X v

namespace Mirrors

variable {α β γ δ : Type} {X : Violation → Prop} {R : α → β → Prop} {S : γ → δ → Prop}

/-- Related results go on side by side. -/
theorem pure {a : α} {b : β} (h : R a b) : Mirrors X R (.ok a) (.ok b) where
  ok _ ha := .inr ⟨b, rfl, Except.ok.inj ha ▸ h⟩
  refuted _ hv := nomatch hv

/-- What only reads cannot refute. -/
theorem lift {x : Except Fault α} {y : Except Fault β} (h : ∀ a, x = .ok a → ∃ b, y = .ok b ∧ R a b) :
    Mirrors X R (liftM x : Except (Failure Violation) α) (liftM y) where
  ok a ha := by
    obtain ⟨b, hb, hR⟩ := h a (liftM_eq_ok.1 ha)
    exact .inr ⟨b, liftM_eq_ok.2 hb, hR⟩
  refuted v hv := by
    obtain ⟨c, -, hc⟩ := liftM_eq_error.1 hv
    cases hc

/-- **Chains run side by side if their parts do.** -/
theorem bind {x : Except (Failure Violation) α} {y : Except (Failure Violation) β}
    {f : α → Except (Failure Violation) γ} {g : β → Except (Failure Violation) δ} (h : Mirrors X R x y)
    (hfg : ∀ a b, R a b → Mirrors X S (f a) (g b)) : Mirrors X S (x >>= f) (y >>= g) := by
  have hstop : Refutes y → Refutes (y >>= g) := by
    rintro ⟨v, rfl⟩
    exact ⟨v, rfl⟩
  refine ⟨fun c hc => ?_, fun v hv => ?_⟩
  · obtain ⟨a, ha, hc⟩ := bind_eq_ok.1 hc
    rcases h.ok a ha with hy | ⟨b, rfl, hR⟩
    · exact .inl (hstop hy)
    · exact (hfg a b hR).ok c hc
  · rcases bind_eq_error.1 hv with hv | ⟨a, ha, hv⟩
    · exact (h.refuted v hv).imp_left hstop
    · rcases h.ok a ha with hy | ⟨b, rfl, hR⟩
      · exact .inl (hstop hy)
      · exact (hfg a b hR).refuted v hv

/-- A test on both sides: what violates it on one side violates it on the other, or is in `X`. -/
theorem test {c c' : Prop} [Decidable c] [Decidable c'] {v v' : Violation} {x : Except (Failure Violation) α}
    {y : Except (Failure Violation) β} (h : c → c' ∨ X v) (hxy : Mirrors X R x y) :
    Mirrors X R (if c then .error (.refuted v) else x) (if c' then .error (.refuted v') else y) := by
  by_cases hc' : c'
  · rw [if_pos hc']
    exact ⟨fun _ _ => .inl ⟨v', rfl⟩, fun _ _ => .inl ⟨v', rfl⟩⟩
  · rw [if_neg hc']
    split
    · next hc =>
      refine ⟨nofun, fun u hu => .inr ?_⟩
      cases hu
      exact (h hc).resolve_left hc'
    · exact hxy

/-- A loop goes on side by side if every turn does. -/
theorem foldlM {ι : Type} {f : α → ι → Except (Failure Violation) α} {g : β → ι → Except (Failure Violation) β}
    {is : List ι} (h : ∀ i ∈ is, ∀ a b, R a b → Mirrors X R (f a i) (g b i)) {a : α} {b : β} (hab : R a b) :
    Mirrors X R (is.foldlM f a) (is.foldlM g b) := by
  induction is generalizing a b with
  | nil => exact .pure hab
  | cons i is ih =>
    obtain ⟨hi, his⟩ := List.forall_mem_cons.1 h
    rw [List.foldlM_cons, List.foldlM_cons]
    exact (hi a b hab).bind fun _ _ h' => ih his h'

end Mirrors

/-! ## The focus and a neighbour -/

section Neighbors

variable {s : Store w} {q : Rectangle}

/-- An extent that can be read can be read in the exact counterpart. -/
theorem extent_exact {x : Side} {e : Extent w} (h : s.extent x = .ok e) :
    e = s.look x ∧ s.exact.extent x = .ok e.exact := by
  obtain ⟨⟨ho, hl⟩, rfl⟩ := Store.extent_eq_ok.1 h
  refine ⟨rfl, Store.extent_eq_ok.2 ⟨?_, (s.look_exact x).symm⟩⟩
  rw [s.length_cells_exact]
  exact ⟨ho, hl⟩

/-- A rectangle whose extents can be read exists. -/
theorem known_of_extents {es : List (Extent w)} (h : q.extents s = .ok es) : q.Known s := by
  have hread : ∀ x ∈ q.sides, x.origin.val < s.cells.length ∧ x.length.val < s.cells.length := by
    intro x hx
    obtain ⟨i, hi, rfl⟩ := List.getElem_of_mem hx
    obtain ⟨hlen, hget⟩ := List.forall₂_iff_get.1 (mapM_eq_ok.1 h)
    exact (Store.extent_eq_ok.1 (hget i hi (by omega))).1
  intro v hv
  rcases List.mem_append.1 hv with hv | hv
  · obtain ⟨x, hx, rfl⟩ := List.mem_map.1 hv
    exact (hread x hx).1
  · obtain ⟨x, hx, rfl⟩ := List.mem_map.1 hv
    exact (hread x hx).2

/-- A focus on both sides. -/
theorem focus_exact {k : Nat} {f : Focus} (h : focus s q k = .ok f) :
    f = Focus.of k (q.view s) ∧ focus s.exact q k = .ok (Focus.of k ((q.view s).map Extent.exact)) := by
  obtain ⟨es, hes, -⟩ := bind_eq_ok.1 h
  have hknown := known_of_extents hes
  have hknown' : q.Known s.exact := fun v hv => by
    rw [s.length_cells_exact]
    exact hknown v hv
  have hview : q.view s.exact = (q.view s).map Extent.exact := by
    unfold Rectangle.view
    rw [List.map_map]
    exact List.map_congr_left fun x _ => s.look_exact x
  rw [focus_eq hknown] at h
  rw [focus_eq hknown', hview]
  exact ⟨(Except.ok.inj h).symm, rfl⟩

/-- The extents along the windows are the same. -/
theorem meeting?_exact {windows : List Window} {sides : List Side} (hfits : ∀ x ∈ sides, (s.look x).Fits)
    {es? : Option (List (Extent w))} (h : meeting? s windows sides = .ok es?) :
    meeting? s.exact windows sides = .ok (es?.map (List.map Extent.exact)) ∧
      ∀ es, es? = some es → ∀ (i : Nat) (e : Extent w), es[i]? = some e → ∃ x, sides[i]? = some x ∧ e = s.look x := by
  induction windows generalizing sides es? with
  | nil =>
    cases h
    refine ⟨rfl, fun es hes i e he => ?_⟩
    cases hes
    cases he
  | cons window windows ih =>
    cases sides with
    | nil => cases h
    | cons x sides =>
      obtain ⟨hx, hsides⟩ := List.forall_mem_cons.1 hfits
      unfold meeting? at h ⊢
      obtain ⟨e, he, h⟩ := bind_eq_ok.1 h
      obtain ⟨rfl, he'⟩ := extent_exact he
      rw [Extent.reach_eq, ok_bind] at h
      rw [he', ok_bind, Extent.reach_eq, ok_bind, hx.span_exact]
      split at h
      · next hmeets =>
        rw [if_pos hmeets]
        obtain ⟨rest, hrest, h⟩ := bind_eq_ok.1 h
        obtain ⟨hrest', hlooks⟩ := ih hsides hrest
        cases h
        rw [hrest', ok_bind]
        refine ⟨by cases rest <;> rfl, fun es hes i e he => ?_⟩
        obtain ⟨es', rfl, rfl⟩ := Option.map_eq_some_iff.1 hes
        cases i with
        | zero =>
          cases he
          exact ⟨x, rfl, rfl⟩
        | succ i => exact hlooks es' rfl i e he
      · next hapart =>
        rw [if_neg hapart]
        cases h
        exact ⟨rfl, fun es hes => by cases hes⟩

/-- A rectangle has a zero extent in the exact counterpart exactly if it has one. -/
theorem hasZeroExtent_exact (q : Rectangle) (s : Store w) : q.hasZeroExtent s.exact = q.hasZeroExtent s := by
  unfold Rectangle.hasZeroExtent
  congr 1
  funext l
  rw [s.domain_exact]
  cases s.domain l with
  | error c => rfl
  | ok d => rfl

/-- The least area is the exact one, clamped. -/
theorem minArea_exact {a : Int} (h : q.minArea s = .ok a) :
    ∃ a', q.minArea s.exact = .ok a' ∧ a = w.clamp a' ∧ 0 ≤ a' := by
  unfold Rectangle.minArea at h ⊢
  obtain ⟨ds, hds, h⟩ := bind_eq_ok.1 h
  cases h
  have hds' : q.lengths.mapM s.exact.domain = .ok (ds.map Domain.exact) := by
    rw [mapM_eq_ok] at hds ⊢
    rw [List.forall₂_map_right_iff]
    refine hds.imp fun l d hd => ?_
    rw [s.domain_exact, hd]
    rfl
  have hnonneg : ∀ x ∈ ds.map fun d => max d.lo 0, 0 ≤ x := by
    intro x hx
    obtain ⟨d, -, rfl⟩ := List.mem_map.1 hx
    exact le_max_right ..
  have hmap : ((ds.map Domain.exact).map fun d => max d.lo 0) = ds.map fun d => max d.lo 0 := by
    rw [List.map_map]
    rfl
  rw [hds', ok_bind, hmap]
  exact ⟨_, rfl, Width.product_exact hnonneg⟩

/-- No entry passes a test that says so. -/
theorem of_anyM_eq_false {α ε : Type} {f : α → Except ε Bool} {as : List α} (h : as.anyM f = .ok false) :
    ∀ a ∈ as, f a = .ok false := by
  induction as with
  | nil => exact nofun
  | cons a as ih =>
    rw [List.anyM_cons] at h
    obtain ⟨b, hb, h⟩ := bind_eq_ok.1 h
    cases b with
    | true => cases h
    | false => exact List.forall_mem_cons.2 ⟨hb, ih h⟩

/-- A rectangle without zero extent has positive least lengths. -/
theorem positive_of_hasZeroExtent (h : q.hasZeroExtent s = .ok false) : ∀ x ∈ q.sides, 0 < (s.look x).length.lo := by
  intro x hx
  have hread := of_anyM_eq_false h x.length (List.mem_map.2 ⟨x, hx, rfl⟩)
  obtain ⟨d, hd, hpos⟩ := bind_eq_ok.1 hread
  obtain ⟨c, hc, rfl⟩ := Store.domain_eq_ok.1 hd
  have hlook : (s.look x).length = c.domain := Store.dom_of_cell hc
  rw [hlook]
  simpa using hpos

end Neighbors

section Runs

variable {P : Nat → Extent w → Prop} {s : Store w} {q : Rectangle} {f f' : Focus} {t t' : Tally}

/-- The neighbour `n'` is what exact arithmetic makes of `n`, whose extents are in `P` if the envelope
is to hold them. -/
structure Neighbor.Exact (P : Nat → Extent w → Prop) (n : Neighbor w) (n' : Neighbor .unbounded) : Prop where
  extents_eq : n'.extents = n.extents.map Extent.exact
  solid_eq : n'.solid = n.solid
  area_eq : n.area = w.clamp n'.area
  area_nonneg : 0 ≤ n'.area
  fits : ∀ e ∈ n.extents, e.Fits
  positive : n.solid = true → ∀ e ∈ n.extents, 0 < e.length.lo
  mem : n.solid = true → ∀ (i : Nat) (e : Extent w), n.extents[i]? = some e → P i e

/-- The rectangle `q` is a neighbour on both sides, or on neither; its extents have to be in `P` only if
it meets the windows of the focus and its least lengths are positive. -/
theorem neighbor?_exact (hfits : ∀ x ∈ q.sides, (s.look x).Fits)
    (hq : ∀ es, meeting? s f.windows q.sides = .ok (some es) → (∀ y ∈ q.sides, 0 < (s.look y).length.lo) →
      ∀ (i : Nat) (x : Side), q.sides[i]? = some x → P i (s.look x)) (hf : f'.windows = f.windows)
    {changed : List Var} {j : Nat} {n? : Option (Neighbor w)} (h : neighbor? s changed f q j = .ok n?) :
    ∃ n?', neighbor? s.exact changed f' q j = .ok n?' ∧ Option.Rel (Neighbor.Exact P) n? n?' := by
  unfold neighbor? at h ⊢
  obtain ⟨es?, hes, h⟩ := bind_eq_ok.1 h
  obtain ⟨hes', hlooks⟩ := meeting?_exact hfits hes
  rw [hf, hes', ok_bind]
  cases es? with
  | none =>
    cases h
    exact ⟨none, rfl, .none⟩
  | some es =>
    obtain ⟨zero, hzero, h⟩ := bind_eq_ok.1 h
    have hes_fits : ∀ e ∈ es, e.Fits := by
      intro e he
      obtain ⟨i, hi⟩ := List.getElem?_of_mem he
      obtain ⟨x, hx, rfl⟩ := hlooks es rfl i e hi
      exact hfits x (List.mem_of_getElem? hx)
    dsimp only [Option.map_some]
    rw [hasZeroExtent_exact, hzero, ok_bind]
    cases zero with
    | true =>
      cases h
      exact ⟨_, rfl, .some ⟨rfl, rfl, (Width.clamp_of_holds w.holds_zero).symm, Int.le_refl 0, hes_fits,
        nofun, nofun⟩⟩
    | false =>
      obtain ⟨a, ha, h⟩ := bind_eq_ok.1 h
      obtain ⟨a', ha', hclamp, hnonneg⟩ := minArea_exact ha
      cases h
      have hpositive := positive_of_hasZeroExtent hzero
      refine ⟨some ⟨j, es.map Extent.exact, true, a', q.touches changed⟩, ?_,
        .some ⟨rfl, rfl, hclamp, hnonneg, hes_fits, fun _ e he => ?_, fun _ i e he => ?_⟩⟩
      · exact bind_eq_ok.2 ⟨a', ha', rfl⟩
      · obtain ⟨i, hi⟩ := List.getElem?_of_mem he
        obtain ⟨x, hx, rfl⟩ := hlooks es rfl i e hi
        exact hpositive x (List.mem_of_getElem? hx)
      · obtain ⟨x, hx, rfl⟩ := hlooks es rfl i e he
        exact hq es hes hpositive i x hx

/-! ## The sums over the neighbours -/

/-- **What a neighbour must take is the exact volume, clamped.** -/
theorem forcedVolume_exact {es : List (Extent w)} (hes : ∀ e ∈ es, e.Fits ∧ 0 ≤ e.length.lo) {k : Nat}
    {n : Neighbor w} {n' : Neighbor .unbounded} (hn : Neighbor.Exact P n n') :
    forcedVolume (Focus.of k es) n = w.clamp (forcedVolume (Focus.of k (es.map Extent.exact)) n') ∧
      0 ≤ forcedVolume (Focus.of k (es.map Extent.exact)) n' := by
  have hfits := hn.fits
  have hfactors : List.zipWith forcedAlong (es.map Extent.exact) (n.extents.map Extent.exact) =
      List.zipWith forcedAlong es n.extents ∧ ∀ x ∈ List.zipWith forcedAlong es n.extents, 0 ≤ x := by
    generalize n.extents = ns at hfits
    induction es generalizing ns with
    | nil => exact ⟨rfl, nofun⟩
    | cons d es ih =>
      cases ns with
      | nil => exact ⟨rfl, nofun⟩
      | cons e ns =>
        obtain ⟨⟨hd, hnn⟩, hes⟩ := List.forall_mem_cons.1 hes
        obtain ⟨he, hns⟩ := List.forall_mem_cons.1 hfits
        obtain ⟨heq, hnonneg⟩ := ih hes ns hns
        obtain ⟨halong, halong₀⟩ := hd.forcedAlong_exact he hnn
        refine ⟨?_, List.forall_mem_cons.2 ⟨halong₀, hnonneg⟩⟩
        rw [List.map_cons, List.map_cons, List.zipWith_cons_cons, heq, halong]
        rfl
  have hvolume : ∀ {w : Width} (es : List (Extent w)) (n : Neighbor w),
      forcedVolume (Focus.of k es) n = w.product (List.zipWith forcedAlong es n.extents) := by
    intro w es n
    change w.product (List.zipWith _ (es.map Window.of) n.extents) = _
    rw [List.zipWith_map_left]
    rfl
  rw [hvolume, hvolume, hn.extents_eq, hfactors.1]
  exact Width.product_exact hfactors.2

/-- The stretch goes from an earliest start to a latest stop, of extents in `P`. -/
structure Stretch.Spans (P : Extent w → Prop) (d : Stretch) : Prop where
  le : d.start ≤ d.stop
  start : ∃ e, P e ∧ d.start = e.origin.lo
  stop : ∃ e, P e ∧ d.stop = e.origin.hi + e.length.lo

/-- A stretch between extents in `P` that is widened by one of them is between extents in `P`. -/
theorem Stretch.Spans.widen {P : Extent w → Prop} {d : Stretch} (h : d.Spans P) {e : Extent w} (he : P e)
    (hfits : e.Fits) (hl : 0 ≤ e.length.lo) : (d.widen e).Spans P := by
  have := e.origin.lo_le_hi
  have hle := h.le
  have hstop : (d.widen e).stop = max d.stop (e.origin.hi + e.length.lo) := by
    rw [← hfits.latestStop_eq hl]
    rfl
  refine ⟨?_, ?_, ?_⟩
  · rw [hstop]
    change min d.start e.origin.lo ≤ _
    omega
  · change ∃ e', P e' ∧ min d.start e.origin.lo = e'.origin.lo
    rcases Int.le_total d.start e.origin.lo with h₁ | h₁
    · rw [min_eq_left h₁]
      exact h.start
    · rw [min_eq_right h₁]
      exact ⟨e, he, rfl⟩
  · rw [hstop]
    rcases Int.le_total d.stop (e.origin.hi + e.length.lo) with h₁ | h₁
    · rw [max_eq_right h₁]
      exact ⟨e, he, rfl⟩
    · rw [max_eq_left h₁]
      exact h.stop

/-- The sums `t'` are what exact arithmetic makes of `t`. -/
structure Tally.Exact (P : Nat → Extent w → Prop) (t t' : Tally) : Prop where
  envelope_eq : t'.envelope = t.envelope
  solids_eq : t'.solids = t.solids
  area_eq : t.area = w.clamp t'.area
  area_nonneg : 0 ≤ t'.area
  forced_eq : t.forced = w.clamp t'.forced
  forced_nonneg : 0 ≤ t'.forced
  spans : ∀ (i : Nat) (d : Stretch), t.envelope[i]? = some d → d.Spans (P i)

/-- The sums start as the exact ones. -/
theorem Tally.Exact.start {es : List (Extent w)} {k : Nat} (hes : ∀ e ∈ es, e.Fits ∧ 0 ≤ e.length.lo)
    (hmem : ∀ (i : Nat) (e : Extent w), es[i]? = some e → P i e) :
    Tally.Exact P (.start (Focus.of k es)) (.start (Focus.of k (es.map Extent.exact))) := by
  have hzero : (0 : Int) = w.clamp 0 := (Width.clamp_of_holds w.holds_zero).symm
  refine ⟨?_, rfl, hzero, Int.le_refl 0, hzero, Int.le_refl 0, fun i d hd => ?_⟩
  · unfold Tally.start
    rw [Focus.windows_exact hes]
  · change ((es.map Window.of).map _)[i]? = some d at hd
    rw [List.map_map, List.getElem?_map] at hd
    obtain ⟨e, he, rfl⟩ := Option.map_eq_some_iff.1 hd
    obtain ⟨hfits, hl⟩ := hes e (List.mem_of_getElem? he)
    have := e.origin.lo_le_hi
    have hstop := hfits.latestStop_eq hl
    refine ⟨?_, ⟨e, hmem i e he, rfl⟩, ⟨e, hmem i e he, hstop⟩⟩
    change e.origin.lo ≤ e.latestStop
    omega

/-- Extents widen an envelope as their exact counterparts do. -/
theorem widen_exact {es : List (Extent w)} (hes : ∀ e ∈ es, e.Fits ∧ 0 ≤ e.length.lo) (ds : List Stretch) :
    List.zipWith Stretch.widen ds (es.map Extent.exact) = List.zipWith Stretch.widen ds es := by
  induction es generalizing ds with
  | nil => rw [List.map_nil, List.zipWith_nil_right, List.zipWith_nil_right]
  | cons e es ih =>
    obtain ⟨⟨hfits, hl⟩, hes⟩ := List.forall_mem_cons.1 hes
    cases ds with
    | nil => rfl
    | cons d ds =>
      rw [List.map_cons, List.zipWith_cons_cons, List.zipWith_cons_cons, ih hes]
      unfold Stretch.widen
      rw [hfits.latestStop_eq hl]
      rfl

/-- Adding a neighbour on both sides. -/
theorem Tally.Exact.add {es : List (Extent w)} {k : Nat} (hes : ∀ e ∈ es, e.Fits ∧ 0 ≤ e.length.lo)
    (ht : Tally.Exact P t t') {n : Neighbor w} {n' : Neighbor .unbounded} (hn : Neighbor.Exact P n n') :
    Tally.Exact P (t.add (Focus.of k es) n) (t'.add (Focus.of k (es.map Extent.exact)) n') := by
  obtain ⟨hvolume, hvolume₀⟩ := forcedVolume_exact (k := k) hes hn
  have hforced : w.add t.forced (forcedVolume (Focus.of k es) n) =
      w.clamp (t'.forced + forcedVolume (Focus.of k (es.map Extent.exact)) n') := by
    rw [ht.forced_eq, hvolume]
    exact Width.clamp_add_clamp ht.forced_nonneg hvolume₀
  have hforced₀ := Int.add_nonneg ht.forced_nonneg hvolume₀
  unfold Tally.add
  rw [hn.solid_eq]
  split
  · next hsolid =>
    refine ⟨?_, congrArg (· + 1) ht.solids_eq, ?_, Int.add_nonneg ht.area_nonneg hn.area_nonneg, hforced, hforced₀,
      fun i d hd => ?_⟩
    · change List.zipWith Stretch.widen t'.envelope n'.extents = List.zipWith Stretch.widen t.envelope n.extents
      rw [ht.envelope_eq, hn.extents_eq]
      exact widen_exact (fun e he => ⟨hn.fits e he, Int.le_of_lt (hn.positive hsolid e he)⟩) t.envelope
    · change w.add t.area n.area = _
      rw [ht.area_eq, hn.area_eq]
      exact Width.clamp_add_clamp ht.area_nonneg hn.area_nonneg
    · obtain ⟨d, e, hd', he, rfl⟩ := List.getElem?_zipWith_eq_some.1 hd
      have hmem := List.mem_of_getElem? he
      have hpos := hn.positive hsolid e hmem
      exact (ht.spans i d hd').widen (hn.mem hsolid i e he) (hn.fits e hmem) (Int.le_of_lt hpos)
  · exact ⟨ht.envelope_eq, ht.solids_eq, ht.area_eq, ht.area_nonneg, hforced, hforced₀, ht.spans⟩

/-! ## The bounds -/

/-- The violation is one of the capacity bound, and an extent of an envelope of extents in `P` leaves
the width. -/
def Overstretched (P : Nat → Extent w → Prop) (v : Violation) : Prop :=
  v.bound = .capacity ∧ ∃ i d e, P i d ∧ P i e ∧ ¬ w.Holds (d.origin.hi + d.length.lo - e.origin.lo)

/-- **The common area bound** is violated only if the exact one is. -/
theorem checkCommonArea_mirrors {X : Violation → Prop} (hvolume : f.volume = w.clamp f'.volume)
    (harea : f.area = w.clamp f'.area) (harea₀ : 0 ≤ f'.area) (ht : Tally.Exact P t t') :
    Mirrors X (fun _ _ => True) (t.checkCommonArea w f) (t'.checkCommonArea .unbounded f') := by
  have hneeded : w.add t.forced f.area = w.clamp (t'.forced + f'.area) := by
    rw [ht.forced_eq, harea]
    exact Width.clamp_add_clamp ht.forced_nonneg harea₀
  unfold Tally.checkCommonArea
  refine .test (fun hviolated => .inl ?_) (.pure trivial)
  rw [hneeded, hvolume] at hviolated
  exact Width.lt_of_clamp_lt hviolated

/-- The volume of an envelope is the exact one, clamped. -/
theorem available_exact {envelope : List Stretch} (h : ∀ d ∈ envelope, d.start ≤ d.stop) :
    w.product (envelope.map fun d => w.sub d.stop d.start) =
        w.clamp (envelope.map fun d => d.stop - d.start).prod ∧
      Width.unbounded.product (envelope.map fun d => Width.unbounded.sub d.stop d.start) =
        (envelope.map fun d => d.stop - d.start).prod := by
  have hnonneg : ∀ x ∈ envelope.map fun d => d.stop - d.start, 0 ≤ x := by
    intro x hx
    obtain ⟨d, hd, rfl⟩ := List.mem_map.1 hx
    exact Int.sub_nonneg.2 (h d hd)
  refine ⟨?_, Width.unbounded_product hnonneg⟩
  rw [← Width.product_clamp hnonneg, List.map_map]
  rfl

/-- The cells of an envelope are the exact ones, clamped, if its extents are values of the width. -/
theorem cells_exact {envelope : List Stretch} (h : ∀ d ∈ envelope, d.start ≤ d.stop)
    (hpos : ∀ d ∈ envelope, 0 < d.minLength) (hholds : ∀ d ∈ envelope, w.Holds (d.stop - d.start)) :
    w.product (envelope.map fun d => w.sub d.stop d.start / d.minLength) =
      w.clamp (Width.unbounded.product (envelope.map fun d => Width.unbounded.sub d.stop d.start / d.minLength)) := by
  have hnonneg : ∀ x ∈ envelope.map fun d => (d.stop - d.start) / d.minLength, 0 ≤ x := by
    intro x hx
    obtain ⟨d, hd, rfl⟩ := List.mem_map.1 hx
    exact Int.ediv_nonneg (Int.sub_nonneg.2 (h d hd)) (Int.le_of_lt (hpos d hd))
  have hcells : (envelope.map fun d => w.sub d.stop d.start / d.minLength) =
      envelope.map fun d => (d.stop - d.start) / d.minLength := by
    refine List.map_congr_left fun d hd => ?_
    unfold Width.sub
    rw [Width.clamp_of_holds (hholds d hd)]
  rw [hcells]
  exact (Width.product_exact hnonneg).1

/-- **The bounds on the envelope.** Only the capacity bound can be violated by saturation. -/
theorem checkEnvelope_mirrors (harea : f.area = w.clamp f'.area) (harea₀ : 0 ≤ f'.area) (ht : Tally.Exact P t t') :
    Mirrors (Overstretched P) (fun _ _ => True) (t.checkEnvelope w f) (t'.checkEnvelope .unbounded f') := by
  have hle : ∀ d ∈ t.envelope, d.start ≤ d.stop := fun d hd => by
    obtain ⟨i, hi⟩ := List.getElem?_of_mem hd
    exact (ht.spans i d hi).le
  obtain ⟨havailable, havailable'⟩ := available_exact (w := w) hle
  have hneeded : w.add t.area f.area = w.clamp (t'.area + f'.area) := by
    rw [ht.area_eq, harea]
    exact Width.clamp_add_clamp ht.area_nonneg harea₀
  unfold Tally.checkEnvelope
  rw [ht.envelope_eq, ht.solids_eq, hneeded, havailable, havailable']
  refine .test (fun hviolated => .inl (Width.lt_of_clamp_lt hviolated)) ?_
  split
  · next hall =>
    have hpos : ∀ d ∈ t.envelope, 0 < d.minLength := by simpa using hall
    refine .test (fun hviolated => ?_) (.pure trivial)
    by_cases hholds : ∀ d ∈ t.envelope, w.Holds (d.stop - d.start)
    · rw [cells_exact hle hpos hholds] at hviolated
      exact .inl (Width.lt_of_clamp_lt hviolated)
    · -- the extent that leaves the width is one of two extents in `P`
      rw [not_forall₂] at hholds
      obtain ⟨d, hd, hout⟩ := hholds
      obtain ⟨i, hi⟩ := List.getElem?_of_mem hd
      obtain ⟨-, ⟨e, he, hstart⟩, ⟨e', he', hstop⟩⟩ := ht.spans i d hi
      rw [hstart, hstop] at hout
      exact .inr ⟨rfl, i, e', e, he', he, hout⟩
  · exact .pure trivial

/-! ## The analysis -/

/-- One turn on both sides. -/
theorem visit_mirrors {X : Violation → Prop} {rectangles : List Rectangle} {changed : List Var} {k j : Nat}
    {es : List (Extent w)} (hes : ∀ e ∈ es, e.Fits ∧ 0 ≤ e.length.lo)
    (hfits : ∀ q, rectangles[j]? = some q → ∀ x ∈ q.sides, (s.look x).Fits)
    (hj : ∀ q, rectangles[j]? = some q → ∀ ns, meeting? s (Focus.of k es).windows q.sides = .ok (some ns) →
      (∀ y ∈ q.sides, 0 < (s.look y).length.lo) →
      ∀ (i : Nat) (x : Side), q.sides[i]? = some x → P i (s.look x))
    (ht : Tally.Exact P t t') :
    Mirrors X (Tally.Exact P) (visit s rectangles changed (Focus.of k es) t j)
      (visit s.exact rectangles changed (Focus.of k (es.map Extent.exact)) t' j) := by
  have hwindows : (Focus.of k (es.map Extent.exact)).windows = (Focus.of k es).windows :=
    Focus.windows_exact hes
  have hvolume : (Focus.of k es).volume = w.clamp (Focus.of k (es.map Extent.exact)).volume :=
    Focus.volume_exact hes
  obtain ⟨harea, harea₀⟩ := product_least es
  have hcheck : ∀ {t t' : Tally}, Tally.Exact P t t' → Mirrors X (Tally.Exact P)
      (do t.checkCommonArea w (Focus.of k es); pure t)
      (do t'.checkCommonArea .unbounded (Focus.of k (es.map Extent.exact)); pure t') := fun ht =>
    (checkCommonArea_mirrors hvolume harea harea₀ ht).bind fun _ _ _ => .pure ht
  unfold visit
  change Mirrors X (Tally.Exact P) (if j = k then _ else _) (if j = k then _ else _)
  split
  · exact .pure ht
  refine Mirrors.bind (R := fun q q' => q' = q ∧ rectangles[j]? = some q)
    (.lift fun q hq => ⟨q, hq, rfl, entry_eq_ok.1 hq⟩) fun q q' hq => ?_
  obtain ⟨rfl, hq⟩ := hq
  refine Mirrors.bind (.lift fun n? hn => neighbor?_exact (hfits q' hq) (hj q' hq) hwindows hn)
    fun n? n?' hn => ?_
  cases hn with
  | none => exact hcheck ht
  | some hn => exact hcheck (ht.add hes hn)

end Runs

end Neighborhood

/-! ## The two analyses -/

/-- The envelope of the focus `r` at position `k` holds the extent `e` along dimension `i`: it is that of
the focus, or of a rectangle at one of the positions `cs` whose reaches meet those of the focus and
whose least lengths are positive. -/
def Enveloped (s : Store w) (rectangles : List Rectangle) (r : Rectangle) (k : Nat) (cs : List Nat) (i : Nat)
    (e : Extent w) : Prop :=
  ∃ j q x, rectangles[j]? = some q ∧ q.sides[i]? = some x ∧ e = s.look x ∧
    (j = k ∨ j ∈ cs ∧ r.ReachesMeet q s ∧ ∀ y ∈ q.sides, 0 < (s.look y).length.lo)

/-- The two analyses side by side. -/
theorem analyze_mirrors {s : Store w} {rectangles : List Rectangle} {k : Nat} {r : Rectangle} {cs : List Nat}
    (changed : List Var) (hr : rectangles[k]? = some r) (hnn : r.Nonneg s)
    (hfits : ∀ j ∈ k :: cs, ∀ q, rectangles[j]? = some q → ∀ x ∈ q.sides, (s.look x).Fits) :
    Mirrors (Overstretched (Enveloped s rectangles r k cs)) (fun _ _ => True)
      (analyze s rectangles k cs changed) (analyze s.exact rectangles k cs changed) := by
  unfold analyze
  rw [entry_eq_ok.2 hr]
  refine Mirrors.bind (R := fun f f' => focus s r k = .ok f ∧ f = Focus.of k (r.view s) ∧
      f' = Focus.of k ((r.view s).map Extent.exact))
    (.lift fun f hf => ⟨_, (focus_exact hf).2, hf, (focus_exact hf).1, rfl⟩) fun f f' hf => ?_
  obtain ⟨hfocus, rfl, rfl⟩ := hf
  have hmem : ∀ (i : Nat) (e : Extent w), (r.view s)[i]? = some e → Enveloped s rectangles r k cs i e := by
    intro i e he
    rw [Rectangle.view_getElem?] at he
    obtain ⟨x, hx, rfl⟩ := Option.map_eq_some_iff.1 he
    exact ⟨k, r, x, hr, hx, rfl, .inl rfl⟩
  have hes : ∀ e ∈ r.view s, e.Fits ∧ 0 ≤ e.length.lo := by
    intro e he
    obtain ⟨x, hx, rfl⟩ := List.mem_map.1 he
    exact ⟨hfits k List.mem_cons_self r hr x hx, hnn x hx⟩
  refine Mirrors.bind (Mirrors.foldlM (fun j hj t t' ht => ?_) (Tally.Exact.start hes hmem)) fun t t' ht => ?_
  · refine visit_mirrors hes (hfits j (List.mem_cons_of_mem k hj)) (fun q hq ns hmeets hpositive i x hx => ?_) ht
    exact ⟨j, q, x, hq, hx, rfl, .inr ⟨hj, reachesMeet_of_meeting? hfocus hmeets, hpositive⟩⟩
  · obtain ⟨harea, harea₀⟩ := product_least (r.view s)
    rw [ht.solids_eq]
    split
    · exact (checkEnvelope_mirrors harea harea₀ ht).bind fun _ _ _ => .pure trivial
    · exact .pure trivial

/-- **Saturation can invent a violation of the capacity bound only**, and only if the envelope leaves
the width. All rectangles that are looked at have their latest stops within the width; the least
lengths of the focus are not negative. Then what the analysis refutes is refuted by the exact
analysis, or else two of the rectangles that the envelope holds lie further apart along some dimension
than the width holds. -/
theorem analyze_refuted_exact {s : Store w} {rectangles : List Rectangle} {k : Nat} {r : Rectangle} {cs : List Nat}
    {changed : List Var} (hr : rectangles[k]? = some r) (hnn : r.Nonneg s)
    (hfits : ∀ j ∈ k :: cs, ∀ q, rectangles[j]? = some q → ∀ x ∈ q.sides, (s.look x).Fits) {v : Violation}
    (h : analyze s rectangles k cs changed = .error (.refuted v)) :
    (∃ v', analyze s.exact rectangles k cs changed = .error (.refuted v')) ∨
      v.bound = .capacity ∧ ∃ i d e, Enveloped s rectangles r k cs i d ∧ Enveloped s rectangles r k cs i e ∧
        ¬ w.Holds (d.origin.hi + d.length.lo - e.origin.lo) :=
  (analyze_mirrors changed hr hnn hfits).refuted v h

/-- Two rods, each with an origin and a length of its own. -/
def rods : List Rectangle := [⟨[⟨⟨0⟩, ⟨1⟩⟩], List.cons_ne_nil _ _⟩, ⟨[⟨⟨2⟩, ⟨3⟩⟩], List.cons_ne_nil _ _⟩]

/-- The store in which both rods have the same domains. -/
def rodStore (origin length : Domain .w8) : Store .w8 where
  cells := [origin, length, origin, length].map fun d => ⟨d, 0, false⟩
  slots := []
  trail := .empty

/-- Two rods of length 60 have no room in a range of 88. -/
theorem analyze_refuted_exact_rods :
    let s := rodStore ⟨-128, -100, by decide, by decide, by decide⟩ (.single 60 (by decide))
    analyze s rods 0 [1] [] = .error (.refuted (.commonArea 60 60 88)) ∧
      ∃ v, analyze s.exact rods 0 [1] [] = .error (.refuted v) := by
  intro s
  have hsides : ∀ r ∈ rods, ∀ x ∈ r.sides, 0 ≤ (s.look x).length.lo ∧ (s.look x).Fits := by decide +kernel
  have h : analyze s rods 0 [1] [] = .error (.refuted (.commonArea 60 60 88)) := by decide +kernel
  have hexact := analyze_refuted_exact (k := 0) rfl (fun x hx => (hsides _ (.head _) x hx).1)
    (fun j _ q hq x hx => (hsides q (List.mem_of_getElem? hq) x hx).2) h
  exact ⟨h, hexact.resolve_right fun hcapacity => nomatch hcapacity.1⟩

/-- **The violation that saturation invents.** Two rods of length 100, whose left ends are in
`-128 … 27`, have an envelope of extent 255. Cut off at 127 it has room for one cell of length 100;
the exact analysis counts two and goes on. The rods do fit, at `-128` and `-28`. -/
theorem capacity_invented :
    let s := rodStore ⟨-128, 27, by decide, by decide, by decide⟩ (.single 100 (by decide))
    let α : Var → Int := fun v => [-128, 100, -28, 100].getD v.val 0
    (∀ r ∈ rods, ∀ x ∈ r.sides, 0 ≤ (s.look x).length.lo ∧ (s.look x).Fits ∧
        α x.origin ∈ (s.look x).origin ∧ α x.length ∈ (s.look x).length) ∧
      rods.Pairwise (fun a b => ¬ a.Overlaps b α) ∧
      analyze s rods 0 [1] [] = .error (.refuted (.capacity 1 2)) ∧
      analyze s.exact rods 0 [1] [] = .ok ⟨[1], [], [], false⟩ := by
  intro s α
  refine ⟨by decide +kernel, List.pairwise_pair.2 fun hoverlaps => ?_, by decide +kernel, by decide +kernel⟩
  obtain ⟨p, ⟨-, hleft⟩, hright, -⟩ := (List.forall₂_cons.1 hoverlaps.shared).1
  exact absurd (hright.trans_lt hleft) (by decide)

end Placement
