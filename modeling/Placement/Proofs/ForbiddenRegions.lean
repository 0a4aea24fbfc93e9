/-
# No placement covers a forbidden region

`Region.ofUsed_avoids` and `Scene.ofProfile_spec` say this of the regions that an analysis leads to.
Here it is said of the two computations by themselves (`Region.never_covered`). The used space may
be any space within mandatory parts of other rectangles, with no bound on the positions; the
candidates of a profile may be any other rectangles that share frames with the focus, since the rest
of the list may lie anywhere. Lengths may be zero, undecided or negative, also those of the focus.
-/

import Placement.Proofs.CachedCandidates
import Placement.Proofs.FullProfiles
import Placement.Proofs.Lockstep
import Placement.Proofs.Verdicts

namespace Placement

variable {w : Width}

/-- Every box lies in the mandatory part of one rectangle, other than the one at position `k`. -/
def Used.IsMandatory (u : Used) (s : Store w) (rectangles : List Rectangle) (k : Nat) : Prop :=
  u.neighbor ≠ k ∧ ∃ q, rectangles[u.neighbor]? = some q ∧ u.boxes.length = q.dim ∧
    ∀ (i : Nat) (b : Span), u.boxes[i]? = some b → ∀ p ∈ b, ∃ m, q.mandatory? s i = .ok (some m) ∧ p ∈ m

/-- What lies in a mandatory part is taken in every placement. -/
theorem Used.IsMandatory.taken {u : Used} {s : Store w} {rectangles : List Rectangle} {k : Nat}
    (h : u.IsMandatory s rectangles k) {α : Var → Int} (hα : s.Admits α) : u.Taken α rectangles k := by
  obtain ⟨hne, q, hq, hlen, hboxes⟩ := h
  refine ⟨hne, q, hq, hlen, fun i b hb p hp => ?_⟩
  obtain ⟨m, hm, hpm⟩ := hboxes i b hb p hp
  simp only [Rectangle.mandatory?, Rectangle.extent, Rectangle.side, bind_eq_ok, pure_eq_ok, entry_eq_ok] at hm
  obtain ⟨e, ⟨x, hx, he⟩, hm⟩ := hm
  obtain ⟨⟨ho, hl⟩, rfl⟩ := Store.extent_eq_ok.1 he
  exact ⟨x, hx, Extent.covers_mandatory hm (hα _ ho) (hα _ hl) hpm⟩

namespace Region

/-- A region of full profiles is that of the picked rectangles. -/
theorem ofProfile_picked {rectangles : List Rectangle} {k : Nat} {cs : List Nat}
    (h : ∀ j ∈ k :: cs, ∃ q, rectangles[j]? = some q) (s : Store w) (i j : Nat) (sorter : Sorter Step.place) :
    ofProfile s rectangles k i j cs sorter =
      ofProfile s (picked rectangles (k :: cs)) 0 i j (List.range' 1 cs.length) sorter := by
  obtain ⟨φ, hzero, hmap, hsame⟩ := exists_numbering h
  obtain ⟨hfocus, hrest⟩ := List.forall_mem_cons.1 hsame
  have hrenumber := Tighten.ofProfile_renumber hfocus hrest s i j sorter
  rwa [hzero, hmap] at hrenumber

/-- **No placement covers a forbidden region.** Under an assignment within the domains that makes no
two rectangles overlap, the extent of a rectangle along a dimension contains no point of a region of
used space, whatever mandatory parts of other rectangles are taken for it, and no point of a region
of full profiles along any other dimension, whatever other rectangles in common frames are its
candidates and in whatever order the steps of one place are sorted; a region is not computed only if
the sum of the steps, in that order, leaves the width. -/
theorem never_covered {s : Store w} {rectangles : List Rectangle}
    (hdim : ∀ a ∈ rectangles, ∀ b ∈ rectangles, a.dim = b.dim) {α : Var → Int} (hα : s.Admits α)
    (hapart : ∀ (m n : Nat) (a b : Rectangle), m ≠ n → rectangles[m]? = some a → rectangles[n]? = some b →
      ¬ a.Overlaps b α) {k : Nat} {r : Rectangle} (hr : rectangles[k]? = some r) (hk : r.Known s)
    {i : Nat} {x : Side} (hx : r.sides[i]? = some x) :
    (∀ used : List Used, (∀ u ∈ used, u.IsMandatory s rectangles k) →
      ∃ regions, ofUsed s r i used = .ok regions ∧
        ∀ p, Covered regions p → ¬ (α x.origin ≤ p ∧ p < α x.origin + α x.length)) ∧
    ∀ (j : Nat) (cs : List Nat) (sorter : Sorter Step.place), j < r.dim → i ≠ j → cs.Nodup → k ∉ cs →
      Framed s rectangles (k :: cs) →
      ofProfile s rectangles k i j cs sorter = .error .addOverflow ∨
        ∃ regions, ofProfile s rectangles k i j cs sorter = .ok regions ∧
          ∀ p, Covered regions p → ¬ (α x.origin ≤ p ∧ p < α x.origin + α x.length) := by
  have hmem := List.mem_of_getElem? hr
  have hi : i < r.dim := (List.getElem?_eq_some_iff.1 hx).1
  have hextent : ∀ p, ¬ r.Along α i p → ¬ (α x.origin ≤ p ∧ p < α x.origin + α x.length) :=
    fun p hnot hin => hnot ⟨x, hx, hin⟩
  refine ⟨fun used hused => ?_, fun j cs sorter hj hij hnd hkcs hframed => ?_⟩
  · obtain ⟨regions, hok, -, hfree⟩ := ofUsed_avoids (hdim r hmem)
      (fun j q hjk hq => Rectangle.clear_of_not_overlaps (hapart k j r q hjk.symm hr hq)) hk hα hi
      fun u hu => (hused u hu).taken hα
    exact ⟨regions, hok, fun p hp => hextent p (hfree p hp)⟩
  · obtain ⟨frames, hscene⟩ := Scene.of_picked (fun a ha => hdim a ha r hmem) hframed
      (List.nodup_cons.2 ⟨hkcs, hnd⟩) hα fun m _ n _ hmn a b ha hb => hapart m n a b hmn ha hb
    have hfirst : (picked rectangles (k :: cs))[0]? = some r := (picked_getElem? hframed.exists_at 0).trans hr
    have hlt : ∀ n ∈ List.range' 1 cs.length, n < (picked rectangles (k :: cs)).length ∧ n ≠ 0 := fun n hn => by
      rw [length_picked hframed.exists_at, List.length_cons]
      rw [List.mem_range'_1] at hn
      omega
    rw [ofProfile_picked hframed.exists_at]
    refine (hscene.ofProfile_spec hfirst hi hj hij List.nodup_range' hlt sorter).imp_right ?_
    rintro ⟨regions, hok, -, hfree⟩
    exact ⟨regions, hok, fun p hp => hextent p (hfree p hp)⟩

/-- Three boxes. The length of the first along the second dimension is undecided. The second box keeps it
off the point 4 along the first dimension because of used space, and off the points 3 and 4 because
it leaves too little room along the second. The third box has length zero. -/
theorem never_covered_boxes :
    let s : Store .w8 := .ofBounds [(0, 0), (2, 2), (0, 4), (0, 1), (2, 3), (3, 3), (3, 3)]
    let box := fun x y side length : Nat =>
      (⟨[⟨⟨x⟩, ⟨side⟩⟩, ⟨⟨y⟩, ⟨length⟩⟩, ⟨⟨0⟩, ⟨1⟩⟩], List.cons_ne_nil _ _⟩ : Rectangle)
    let rectangles := [box 2 3 1 4, box 5 0 1 6, box 5 3 0 4]
    let used : Used := ⟨1, [⟨4, 5, by decide⟩, ⟨0, 3, by decide⟩, ⟨0, 2, by decide⟩]⟩
    let α := fun v : Var => [0, 2, 1, 0, 3, 3, 3].getD v.val 0
    (ofUsed s (box 2 3 1 4) 0 [used] = .ok [⟨4, 5, by decide⟩] ∧
      ∀ p, Covered [⟨4, 5, by decide⟩] p → ¬ (α ⟨2⟩ ≤ p ∧ p < α ⟨2⟩ + α ⟨1⟩)) ∧
    ofProfile s rectangles 0 0 1 [1, 2] (.stable _) = .ok [⟨3, 5, by decide⟩] ∧
      ∀ p, Covered [⟨3, 5, by decide⟩] p → ¬ (α ⟨2⟩ ≤ p ∧ p < α ⟨2⟩ + α ⟨1⟩) := by
  intro s box rectangles used α
  have hused : ofUsed s (box 2 3 1 4) 0 [used] = .ok [⟨4, 5, by decide⟩] := by decide +kernel
  have hprofile : ofProfile s rectangles 0 0 1 [1, 2] (.stable _) = .ok [⟨3, 5, by decide⟩] := by decide +kernel
  have hα : s.Admits α := fun v hv =>
    (by decide +kernel : ∀ n < 7, α ⟨n⟩ ∈ s.dom ⟨n⟩) v.val hv
  have hapart : ∀ (m n : Nat) (a b : Rectangle), m ≠ n → rectangles[m]? = some a → rectangles[n]? = some b →
      ¬ a.Overlaps b α := by
    -- no two of them share a point along the first dimension
    intro m n a b hmn ha hb hover
    have hshared := hover.shared
    match m, n, ha, hb with
    | 0, 0, _, _ | 1, 1, _, _ | 2, 2, _, _ => exact hmn rfl
    | 0, 1, ha, hb | 0, 2, ha, hb | 1, 0, ha, hb | 1, 2, ha, hb | 2, 0, ha, hb | 2, 1, ha, hb =>
      cases ha
      cases hb
      obtain ⟨⟨p, hp, hp'⟩, -⟩ := List.forall₂_cons.1 hshared
      simp [α] at hp hp'
      omega
    | n + 3, _, h, _ | 0, n + 3, _, h | 1, n + 3, _, h | 2, n + 3, _, h => cases h
  have hmandatory : used.IsMandatory s rectangles 0 := by
    refine ⟨by decide, box 5 0 1 6, rfl, rfl, fun i b hb p ⟨hle, hlt⟩ => ?_⟩
    match i, hb with
    | 0, hb =>
      cases hb
      exact ⟨⟨3, 5, by decide⟩, by decide +kernel, Int.le_trans (by decide) hle, hlt⟩
    | 1, hb | 2, hb =>
      cases hb
      exact ⟨_, by decide +kernel, hle, hlt⟩
    | n + 3, hb => cases hb
  have hfits : ∀ q ∈ rectangles, q.Known s ∧ ∀ x ∈ q.sides, 0 ≤ (s.look x).origin.lo ∧
      (s.look x).origin.hi + max 0 (s.look x).length.hi ≤ 6 := by decide +kernel
  have hframed : Framed s rectangles [0, 1, 2] := fun i => by
    refine ⟨(0, 6), ⟨by decide, by decide, by decide⟩, fun j hj => ?_⟩
    have hj : j < 3 := (by decide : ∀ j ∈ [0, 1, 2], j < 3) j hj
    obtain ⟨q, hq⟩ : ∃ q, rectangles[j]? = some q := ⟨_, List.getElem?_eq_getElem hj⟩
    obtain ⟨hknown, hinside⟩ := hfits q (List.mem_of_getElem? hq)
    refine ⟨q, hq, hknown, fun x hx => ?_⟩
    obtain ⟨hlo, hhi⟩ := hinside x (List.mem_of_getElem? hx)
    exact ⟨hlo, hhi⟩
  obtain ⟨ofUsed_free, ofProfile_free⟩ :=
    never_covered (by decide) hα hapart (k := 0) (i := 0) rfl (hfits _ List.mem_cons_self).1 rfl
  refine ⟨⟨hused, ?_⟩, hprofile, ?_⟩
  · obtain ⟨regions, hok, hfree⟩ := ofUsed_free [used] (List.forall_mem_singleton.2 hmandatory)
    obtain rfl := Except.ok.inj (hused.symm.trans hok)
    exact hfree
  · rcases ofProfile_free 1 [1, 2] (.stable _) (by decide) (by decide) (by decide) (by decide) hframed with
      hover | ⟨regions, hok, hfree⟩
    · cases hprofile.symm.trans hover
    · obtain rfl := Except.ok.inj (hprofile.symm.trans hok)
      exact hfree

end Region
end Placement
