/-
# A full profile keeps the focus out

Let the focus cover a point `x` along dimension `i`. The neighbours that contribute to the profile
at `x` cover `x` along `i` too, and in every dimension other than `i` and `j` they cover a point that
the focus also covers. So along `j` all of them, and the focus, are pairwise apart: what they take
of the focus's reach along `j` adds up to at most its length (`Scene.heightAt_le`). Where the
profile is higher than the room the focus leaves, the focus cannot be (`Scene.ofProfile_spec`).
-/

import Placement.Proofs.Heights
import Placement.Proofs.UsedSpace
import Placement.Proofs.VolumeBounds

namespace Placement

variable {w : Width}

/-- The room that a rectangle leaves of its reach is not computed as less than it is. A least length
that is negative takes no room. -/
theorem Extent.Inside.room_le {e : Extent w} {f : Int × Int} (hf : IsFrame w f) (h : e.Inside f) :
    e.span.stop - e.span.start - max 0 e.length.lo ≤ w.sub (e.span.length w) e.length.lo := by
  have hlength := h.length_span hf
  have hle := e.length.lo_le_hi
  have hmax : max 0 e.length.lo ≤ e.span.length w := by
    have := e.origin.lo_le_hi
    have hstart : e.span.start = e.origin.lo := rfl
    rcases le_or_gt e.length.hi 0 with hz | hpos
    · have hstop : e.span.stop = e.origin.lo := if_pos hz
      omega
    · have hstop := h.stop_span hf hpos
      omega
  have hholds : w.Holds (e.span.length w) := w.holds_clamp _
  have hroom : w.Holds (e.span.length w - max 0 e.length.lo) :=
    w.holds_between w.holds_zero hholds (by omega) (by omega)
  rw [← hlength, ← Width.clamp_of_holds hroom]
  exact w.clamp_mono (by omega)

/-- What a placed rectangle takes of an interval along a dimension. -/
def Rectangle.taken (q : Rectangle) (α : Var → Int) (j : Nat) (reach : Span) : Int × Int :=
  match q.sides[j]? with
  | some y => (max (α y.origin) reach.start, min (α y.origin + α y.length) reach.stop)
  | none => (0, 0)

/-- The contribution of a placed rectangle is a true one: it covers the stretch along `i`, takes
at least the height along `j`, and covers the given points. -/
structure Contributes (w : Width) (α : Var → Int) (q : Rectangle) (i j : Nat) (reach : Span)
    (points : List (Nat × Int)) (c : Contribution) : Prop where
  along : ∀ x ∈ c.span, q.Along α i x
  pos : 0 < c.height
  holds : w.Holds c.height
  height_le : c.height ≤ Box.volume [q.taken α j reach]
  covers : ∀ kp ∈ points, q.Along α kp.1 kp.2

namespace Scene

variable {α : Var → Int} {s : Store w} {rectangles : List Rectangle} {frames : Box}
  (h : Scene α s rectangles frames) {r q : Rectangle} {k i j : Nat}

include h

/-- The points that are shared are points that the focus covers, one along each of the dimensions. -/
theorem sharedPoints_spec (hr : r ∈ rectangles) {dims : List Nat} (hdims : ∀ d ∈ dims, d < r.dim) :
    ∃ points?, Region.sharedPoints s r dims = .ok points? ∧ ∀ points, points? = some points →
      (∀ kp ∈ points, kp.1 < r.dim ∧ r.Along α kp.1 kp.2) ∧ ∀ d ∈ dims, ∃ p, (d, p) ∈ points := by
  induction dims with
  | nil => exact ⟨some [], rfl, fun points he => by cases he; exact ⟨nofun, nofun⟩⟩
  | cons d dims ih =>
    obtain ⟨rest?, hrest, hspec⟩ := ih fun x hx => hdims x (List.mem_cons_of_mem _ hx)
    have hd := hdims d List.mem_cons_self
    obtain ⟨e, he⟩ : ∃ e, (r.view s)[d]? = some e :=
      ⟨_, List.getElem?_eq_getElem (by rwa [r.length_view])⟩
    unfold Region.sharedPoints
    rw [(h.uniform.known r hr).extent_eq he, ok_bind]
    cases hm : e.mandatory? with
    | none => exact ⟨none, rfl, nofun⟩
    | some part =>
      dsimp only
      split
      · next hp =>
        rw [hrest, ok_bind]
        refine ⟨_, rfl, fun points hpoints => ?_⟩
        obtain ⟨rest, rfl, rfl⟩ := Option.map_eq_some_iff.1 hpoints
        obtain ⟨hcov, hall⟩ := hspec rest rfl
        refine ⟨List.forall_mem_cons.2 ⟨⟨hd, h.along_mandatory hr he hm hp⟩, hcov⟩, fun x hx => ?_⟩
        rcases List.mem_cons.1 hx with rfl | hx
        · exact ⟨_, List.mem_cons_self⟩
        · obtain ⟨p, hp⟩ := hall x hx
          exact ⟨p, List.mem_cons_of_mem _ hp⟩
      · exact ⟨none, rfl, nofun⟩

/-- A rectangle that covers the points in every placement covers them in this one. -/
theorem covers_spec (hq : q ∈ rectangles) {points : List (Nat × Int)} (hpoints : ∀ kp ∈ points, kp.1 < q.dim) :
    ∃ b, Region.covers s q points = .ok b ∧ (b = true → ∀ kp ∈ points, q.Along α kp.1 kp.2) := by
  induction points with
  | nil => exact ⟨true, rfl, fun _ => nofun⟩
  | cons kp points ih =>
    obtain ⟨hkp, hrest⟩ := List.forall_mem_cons.1 hpoints
    obtain ⟨b, hb, hall⟩ := ih hrest
    obtain ⟨n, x⟩ := kp
    obtain ⟨e, he⟩ : ∃ e, (q.view s)[n]? = some e :=
      ⟨_, List.getElem?_eq_getElem (by rwa [q.length_view])⟩
    unfold Region.covers at hb ⊢
    rw [List.allM_cons]
    dsimp only
    rw [(h.uniform.known q hq).mandatory?_eq he, ok_bind]
    cases hm : e.mandatory? with
    | none => exact ⟨false, rfl, nofun⟩
    | some part =>
      by_cases hp : x ∈ part
      · refine ⟨b, ?_, fun htrue => List.forall_mem_cons.2 ⟨h.along_mandatory hq he hm hp, hall htrue⟩⟩
        dsimp only
        rw [decide_eq_true hp]
        exact hb
      · refine ⟨false, ?_, nofun⟩
        dsimp only
        rw [decide_eq_false hp]
        rfl

/-- The height of a mandatory part is at most what the rectangle takes. -/
theorem overlap_le (hq : q ∈ rectangles) {e : Extent w} (he : (q.view s)[j]? = some e) {part : Span}
    (hm : e.mandatory? = some part) (reach : Span) :
    w.Holds (part.overlap w reach) ∧ part.overlap w reach ≤ Box.volume [q.taken α j reach] := by
  have hnn := Box.volume_nonneg [q.taken α j reach]
  unfold Span.overlap
  split
  · next u hu =>
    refine ⟨w.holds_clamp _, ?_⟩
    obtain ⟨hlt, hstart, hstop⟩ := Span.inter?_eq_some hu
    rw [q.view_getElem?, Option.map_eq_some_iff] at he
    obtain ⟨y, hy, rfl⟩ := he
    obtain ⟨ho, hl⟩ := h.fits hq (List.mem_of_getElem? hy)
    -- the first and the last point of the common part lie in the placed rectangle
    have hfirst := Extent.covers_mandatory hm ho hl (p := u.start) ⟨by omega, by omega⟩
    have hlast := Extent.covers_mandatory hm ho hl (p := u.stop - 1) ⟨by omega, by omega⟩
    have hle : u.length w ≤ u.stop - u.start := Width.clamp_le_self (by omega)
    refine le_trans hle ?_
    have htaken : q.taken α j reach =
        (max (α y.origin) reach.start, min (α y.origin + α y.length) reach.stop) := by
      unfold Rectangle.taken
      rw [hy]
    rw [htaken, Box.volume_single]
    dsimp only
    omega
  · exact ⟨w.holds_of_small (by decide) (by decide), hnn⟩

/-- A contribution can always be computed, and is a true one. -/
theorem contribution_spec (hq : q ∈ rectangles) (hi : i < q.dim) (hj : j < q.dim) (sweep reach : Span)
    {points : List (Nat × Int)} (hpoints : ∀ kp ∈ points, kp.1 < q.dim) :
    ∃ c?, Region.contribution? s q i j sweep reach points = .ok c? ∧
      ∀ c, c? = some c → Contributes w α q i j reach points c := by
  have hknown := h.uniform.known q hq
  obtain ⟨d, hd⟩ : ∃ d, (q.view s)[i]? = some d := ⟨_, List.getElem?_eq_getElem (by rwa [q.length_view])⟩
  obtain ⟨e, he⟩ : ∃ e, (q.view s)[j]? = some e := ⟨_, List.getElem?_eq_getElem (by rwa [q.length_view])⟩
  obtain ⟨b, hb, hcovers⟩ := h.covers_spec hq hpoints
  unfold Region.contribution?
  rw [hknown.mandatory?_eq hd, ok_bind, hknown.mandatory?_eq he]
  cases hbind : d.mandatory?.bind (·.inter? sweep) with
  | none => exact ⟨none, rfl, nofun⟩
  | some span =>
    dsimp only
    rw [ok_bind]
    cases hm : e.mandatory? with
    | none => exact ⟨none, rfl, nofun⟩
    | some part =>
      obtain ⟨holds, hle⟩ := h.overlap_le hq he hm reach
      dsimp only
      rw [hb, ok_bind]
      split
      · next hcond =>
        refine ⟨_, rfl, fun c hc => ?_⟩
        cases hc
        obtain ⟨m, hm', hinter⟩ := Option.bind_eq_some_iff.1 hbind
        refine ⟨fun x hx => h.along_mandatory hq hd hm' ?_, hcond.1, holds, hle, hcovers hcond.2⟩
        obtain ⟨-, hstart, hstop⟩ := Span.inter?_eq_some hinter
        obtain ⟨hle, hlt⟩ : span.start ≤ x ∧ x < span.stop := hx
        exact ⟨by omega, by omega⟩
      · exact ⟨none, rfl, nofun⟩

/-- The contributions of all candidates, each with the position of its rectangle. -/
theorem contributions_spec (hi : ∀ q ∈ rectangles, i < q.dim) (hj : ∀ q ∈ rectangles, j < q.dim)
    (sweep reach : Span) {points : List (Nat × Int)}
    (hpoints : ∀ q ∈ rectangles, ∀ kp ∈ points, kp.1 < q.dim) {ks : List Nat}
    (hks : ∀ n ∈ ks, n < rectangles.length) :
    ∃ cs : List (Nat × Contribution),
      Region.contributions s rectangles i j sweep reach points ks = .ok (cs.map Prod.snd) ∧
      (cs.map Prod.fst).Sublist ks ∧
      ∀ nc ∈ cs, ∃ q, rectangles[nc.1]? = some q ∧ Contributes w α q i j reach points nc.2 := by
  induction ks with
  | nil => exact ⟨[], rfl, .refl _, nofun⟩
  | cons n ks ih =>
    obtain ⟨cs, hcs, hsub, htrue⟩ := ih fun m hm => hks m (List.mem_cons_of_mem _ hm)
    obtain ⟨q, hq⟩ : ∃ q, rectangles[n]? = some q :=
      ⟨_, List.getElem?_eq_getElem (hks n List.mem_cons_self)⟩
    have hmem := List.mem_of_getElem? hq
    obtain ⟨c?, hc, hspec⟩ := h.contribution_spec hmem (hi q hmem) (hj q hmem) sweep reach (hpoints q hmem)
    unfold Region.contributions
    rw [entry_eq_ok.2 hq, ok_bind, hc, ok_bind, hcs, ok_bind]
    cases c? with
    | none => exact ⟨cs, rfl, hsub.cons _, htrue⟩
    | some c =>
      exact ⟨(n, c) :: cs, rfl, hsub.cons_cons _, List.forall_mem_cons.2 ⟨⟨q, hq, hspec c rfl⟩, htrue⟩⟩

/-- Intervals along `j` of two rectangles that share a coordinate along every other dimension have no
common point. -/
theorem clear_along {a b : Rectangle} {m n : Nat} (hmn : m ≠ n) (ha : rectangles[m]? = some a)
    (hb : rectangles[n]? = some b) (hshare : ∀ d < a.dim, d ≠ j → ∃ p, a.Along α d p ∧ b.Along α d p)
    {x y : Int × Int} (hx : ∀ c, x.1 ≤ c → c < x.2 → a.Along α j c)
    (hy : ∀ c, y.1 ≤ c → c < y.2 → b.Along α j c) : Box.Clear [x] [y] := by
  intro p hp hp'
  obtain ⟨c, rfl, hc⟩ := Box.mem_cells_single.1 hp
  obtain ⟨c', he, hc'⟩ := Box.mem_cells_single.1 hp'
  cases he
  have hdim := h.uniform.dim_eq a (List.mem_of_getElem? ha) b (List.mem_of_getElem? hb)
  refine Rectangle.not_clear_of_along hdim (fun d hd => ?_) (h.clear m n a b hmn ha hb)
  by_cases hdj : d = j
  · subst hdj
    exact ⟨c, hx c hc.1 hc.2, hy c hc'.1 hc'.2⟩
  · exact hshare d hd hdj

omit h in
/-- What a placed rectangle takes of an interval lies in both. -/
theorem along_taken {reach : Span} : ∀ c, (q.taken α j reach).1 ≤ c → c < (q.taken α j reach).2 →
    q.Along α j c ∧ reach.start ≤ c ∧ c < reach.stop := by
  intro c hc hc'
  unfold Rectangle.taken at hc hc'
  split at hc
  · next y hy =>
    rw [hy] at hc'
    simp only at hc hc'
    exact ⟨⟨y, hy, by omega, by omega⟩, by omega, by omega⟩
  · next hy =>
    rw [hy] at hc'
    simp only at hc hc'
    omega

omit h in
/-- The height at a point is at most what the contributors there have, if each has its height at
least. -/
theorem heightAt_le_sum {cs : List (Nat × Contribution)} {f : Nat × Contribution → Int}
    (hle : ∀ nc ∈ cs, nc.2.height ≤ f nc) (p : Int) :
    heightAt (cs.map Prod.snd) p ≤ ((cs.filter fun nc => p ∈ nc.2.span).map f).sum := by
  induction cs with
  | nil => exact le_refl _
  | cons nc cs ih =>
    have ih := ih fun m hm => hle m (List.mem_cons_of_mem _ hm)
    unfold heightAt at ih ⊢
    simp only [List.map_cons, List.sum_cons, List.filter_cons]
    by_cases hpc : p ∈ nc.2.span
    · simp only [hpc, if_true, decide_true, List.map_cons, List.sum_cons]
      exact add_le_add (hle nc List.mem_cons_self) ih
    · simpa [hpc] using ih

/-- **What the contributors at a point take leaves room for the focus.** If the focus covers `p` along
`i` and the points along all dimensions but `i` and `j`, then the height at `p` and the least length
of the focus along `j`, unless this is negative, fit into its reach along `j`. -/
theorem heightAt_le (hr : rectangles[k]? = some r) {x : Side} (hx : r.sides[j]? = some x)
    {points : List (Nat × Int)} (hpoints : ∀ kp ∈ points, r.Along α kp.1 kp.2)
    (hall : ∀ d < r.dim, d ≠ i → d ≠ j → ∃ p, (d, p) ∈ points) {cs : List (Nat × Contribution)}
    (hnd : (cs.map Prod.fst).Nodup) (hk : k ∉ cs.map Prod.fst)
    (hcs : ∀ nc ∈ cs, ∃ q, rectangles[nc.1]? = some q ∧
      Contributes w α q i j (s.look x).span points nc.2) {p : Int} (hp : r.Along α i p) :
    heightAt (cs.map Prod.snd) p + max 0 (s.look x).length.lo ≤
      (s.look x).span.stop - (s.look x).span.start := by
  have hmem := List.mem_of_getElem? hr
  have hxmem := List.mem_of_getElem? hx
  obtain ⟨f, hf, hin⟩ := h.frame hmem hxmem
  obtain ⟨⟨ho₁, ho₂⟩, hl₁, hl₂⟩ := h.fits hmem hxmem
  have hordered := (s.look x).span.start_le_stop
  -- along `j`, what the focus takes at its least length, and what each contributor at `p` takes
  let own : Int × Int := (α x.origin, α x.origin + (s.look x).length.lo)
  let taken := fun nc : Nat × Contribution => ((rectangles[nc.1]?).getD r).taken α j (s.look x).span
  let here := cs.filter fun nc => p ∈ nc.2.span
  have hcs' : ∀ nc ∈ cs, rectangles[nc.1]? = some ((rectangles[nc.1]?).getD r) ∧
      Contributes w α ((rectangles[nc.1]?).getD r) i j (s.look x).span points nc.2 := fun nc hnc => by
    obtain ⟨q, hq, hc⟩ := hcs nc hnc
    rw [hq, Option.getD_some]
    exact ⟨rfl, hc⟩
  have hheight : heightAt (cs.map Prod.snd) p ≤ (here.map fun nc => Box.volume [taken nc]).sum :=
    heightAt_le_sum (fun nc hnc => (hcs' nc hnc).2.height_le) p
  have hown : ∀ c, own.1 ≤ c → c < own.2 → r.Along α j c := fun c hc hc' => by
    simp only [own] at hc hc'
    exact ⟨x, hx, hc, by omega⟩
  have hpacked : (([own] :: here.map fun nc => [taken nc]).map Box.volume).sum ≤
      Box.volume [((s.look x).span.start, (s.look x).span.stop)] := by
    refine Box.sum_volume_le (List.pairwise_cons.2 ⟨fun b hb => ?_, ?_⟩) fun b hb => ?_
    · obtain ⟨nc, hnc, rfl⟩ := List.mem_map.1 hb
      obtain ⟨hnc, hpc⟩ := List.mem_filter.1 hnc
      obtain ⟨hq, hc⟩ := hcs' nc hnc
      have hne : k ≠ nc.1 := fun he => hk (he ▸ List.mem_map.2 ⟨nc, hnc, rfl⟩)
      refine h.clear_along hne hr hq (fun d hd hdj => ?_) hown
        fun c hc hc' => (along_taken c hc hc').1
      by_cases hdi : d = i
      · subst hdi
        exact ⟨p, hp, hc.along p (by simpa using hpc)⟩
      · obtain ⟨c, hc'⟩ := hall d hd hdi hdj
        exact ⟨c, hpoints _ hc', hc.covers _ hc'⟩
    · refine List.pairwise_map.2 (((List.pairwise_map.1 hnd).filter _).imp_of_mem fun {m n} hm hn hmn => ?_)
      obtain ⟨hm, hpm⟩ := List.mem_filter.1 hm
      obtain ⟨hn, hpn⟩ := List.mem_filter.1 hn
      obtain ⟨hqm, hcm⟩ := hcs' m hm
      obtain ⟨hqn, hcn⟩ := hcs' n hn
      refine h.clear_along hmn hqm hqn (fun d hd hdj => ?_) (fun c hc hc' => (along_taken c hc hc').1)
        fun c hc hc' => (along_taken c hc hc').1
      by_cases hdi : d = i
      · subst hdi
        exact ⟨p, hcm.along p (by simpa using hpm), hcn.along p (by simpa using hpn)⟩
      · rw [h.uniform.dim_eq _ (List.mem_of_getElem? hqm) r hmem] at hd
        obtain ⟨c, hc'⟩ := hall d hd hdi hdj
        exact ⟨c, hcm.covers _ hc', hcn.covers _ hc'⟩
    · intro z hz
      rcases List.mem_cons.1 hb with rfl | hb
      · obtain ⟨c, rfl, hc, hc'⟩ := Box.mem_cells_single.1 hz
        simp only [own] at hc hc'
        have hstop := hin.stop_span hf (by omega)
        have hstart : (s.look x).span.start = (s.look x).origin.lo := rfl
        exact Box.mem_cells_single.2 ⟨c, rfl, by simp only; omega, by simp only; omega⟩
      · obtain ⟨nc, hnc, rfl⟩ := List.mem_map.1 hb
        obtain ⟨c, rfl, hc, hc'⟩ := Box.mem_cells_single.1 hz
        exact Box.mem_cells_single.2 ⟨c, rfl, (along_taken c hc hc').2⟩
  rw [List.map_cons, List.sum_cons, List.map_map, Box.volume_single, Box.volume_single] at hpacked
  have hsum : (here.map (Box.volume ∘ fun nc => [taken nc])).sum =
      (here.map fun nc => Box.volume [taken nc]).sum := rfl
  simp only [own] at hpacked
  omega

/-- **The focus covers no point of a region of full profiles**, however the steps are sorted. The region
can be computed unless a height leaves the width. -/
theorem ofProfile_spec (hr : rectangles[k]? = some r) (hi : i < r.dim) (hj : j < r.dim) (hij : i ≠ j)
    {ks : List Nat} (hnd : ks.Nodup) (hks : ∀ n ∈ ks, n < rectangles.length ∧ n ≠ k)
    (sorter : Sorter Step.place) :
    Region.ofProfile s rectangles k i j ks sorter = .error .addOverflow ∨
      ∃ regions, Region.ofProfile s rectangles k i j ks sorter = .ok regions ∧ (∀ g ∈ regions, ¬ g.IsEmpty) ∧
        ∀ p, Covered regions p → ¬ r.Along α i p := by
  have hmem := List.mem_of_getElem? hr
  have hknown := h.uniform.known r hmem
  have nothing : ∃ regions : List Span, (.ok [] : Except Fault (List Span)) = .ok regions ∧
      (∀ g ∈ regions, ¬ g.IsEmpty) ∧ ∀ p, Covered regions p → ¬ r.Along α i p :=
    ⟨[], rfl, nofun, fun p ⟨_, hg, _⟩ => absurd hg List.not_mem_nil⟩
  obtain ⟨d, hd⟩ : ∃ d, (r.view s)[i]? = some d := ⟨_, List.getElem?_eq_getElem (by rwa [r.length_view])⟩
  obtain ⟨e, he⟩ : ∃ e, (r.view s)[j]? = some e := ⟨_, List.getElem?_eq_getElem (by rwa [r.length_view])⟩
  obtain ⟨points?, hshared, hpoints⟩ := h.sharedPoints_spec hmem
    fun d (hd : d ∈ Region.otherDims r [i, j]) => (mem_otherDims.1 hd).1
  unfold Region.ofProfile
  rw [if_neg hij, entry_eq_ok.2 hr, ok_bind, hknown.extent_eq hd, ok_bind]
  cases Span.make? d.origin.lo d.latestStop with
  | none => exact .inr nothing
  | some sweep =>
    dsimp only
    rw [hknown.extent_eq he, ok_bind, e.reach_eq, ok_bind, hshared, ok_bind]
    cases points? with
    | none => exact .inr nothing
    | some points =>
      obtain ⟨hcov, hall⟩ := hpoints points rfl
      have hdim : ∀ q ∈ rectangles, r.dim = q.dim := fun q hq => h.uniform.dim_eq r hmem q hq
      obtain ⟨cs, hcs, hsub, htrue⟩ := h.contributions_spec (i := i) (j := j) (fun q hq => hdim q hq ▸ hi)
        (fun q hq => hdim q hq ▸ hj) sweep e.span (fun q hq kp hkp => hdim q hq ▸ (hcov kp hkp).1)
        fun n hn => (hks n hn).1
      have hheights : ∀ c ∈ cs.map Prod.snd, 0 < c.height ∧ w.Holds c.height := fun c hc => by
        obtain ⟨nc, hnc, rfl⟩ := List.mem_map.1 hc
        obtain ⟨q, -, hq⟩ := htrue nc hnc
        exact ⟨hq.pos, hq.holds⟩
      dsimp only
      rw [hcs, ok_bind]
      rcases Profile.build_spec (Profile.holds_falls hheights) sorter with ⟨hb, -⟩ | ⟨profile, hb, hprofile⟩
      · left
        rw [hb]
        rfl
      · right
        rw [hb, ok_bind]
        refine ⟨_, rfl, Span.not_isEmpty_merge _, fun p hp hr' => ?_⟩
        obtain ⟨g, hg, hpg⟩ := (Span.covered_merge _ _).1 hp
        obtain ⟨seg, hseg, rfl⟩ := List.mem_map.1 hg
        obtain ⟨hseg, hhigh⟩ := List.mem_filter.1 hseg
        have hheight := (hprofile.height seg hseg p hpg).symm
        rw [r.view_getElem?, Option.map_eq_some_iff] at he
        obtain ⟨x, hx, rfl⟩ := he
        have hle := h.heightAt_le hr hx (fun kp hkp => (hcov kp hkp).2)
          (fun d hd hdi hdj => hall d (mem_otherDims.2 ⟨hd, by simp [hdi, hdj]⟩)) (hnd.sublist hsub)
          (fun hk => (hks k (hsub.subset hk)).2 rfl) htrue hr'
        obtain ⟨f, hf, hin⟩ := h.frame hmem (List.mem_of_getElem? hx)
        have hlimit := hin.room_le hf
        rw [decide_eq_true_eq, hheight] at hhigh
        omega

end Scene
end Placement
