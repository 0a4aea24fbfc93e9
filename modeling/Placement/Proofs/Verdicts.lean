/-
# A verdict is a proof

An analysis refutes a store by comparing volumes, and the volumes are sums and products that
saturate. `Scene.analyze` says that an analysis of rectangles that have a solution ends well. Here
this is turned around for any focus and any list of neighbours: if the analysis refutes, then every
assignment within the domains makes two of the rectangles it was given overlap
(`analyze_refuted_overlaps`).

Nothing is known of the rectangles it was not given; they may have no variables, or overlap each
other. So the focus and its neighbours are picked out of the list (`Scene.of_picked`), and the
analysis of the whole list is that of the picked rectangles under other numbers.
-/

import Placement.Proofs.Envelope
import Placement.Proofs.Renumbering

namespace Placement

open Neighborhood

variable {w : Width}

/-- The rectangles at the given positions. -/
def picked (rectangles : List Rectangle) (positions : List Nat) : List Rectangle :=
  positions.filterMap (rectangles[·]?)

section Picked

variable {rectangles : List Rectangle} {positions : List Nat}

/-- The rectangle at the first position is picked first. -/
theorem picked_cons {j : Nat} {q : Rectangle} (hq : rectangles[j]? = some q) :
    picked rectangles (j :: positions) = q :: picked rectangles positions := List.filterMap_cons_some hq

/-- If there is a rectangle at every position, the picked ones stand in the order of the positions. -/
theorem picked_getElem? (h : ∀ j ∈ positions, ∃ q, rectangles[j]? = some q) (n : Nat) :
    (picked rectangles positions)[n]? = positions[n]?.bind (rectangles[·]?) := by
  induction positions generalizing n with
  | nil => rfl
  | cons j positions ih =>
    obtain ⟨⟨q, hq⟩, hrest⟩ := List.forall_mem_cons.1 h
    rw [picked_cons hq]
    cases n with
    | zero => exact hq.symm
    | succ n => exact ih hrest n

/-- As many rectangles are picked as there are positions, if all exist. -/
theorem length_picked (h : ∀ j ∈ positions, ∃ q, rectangles[j]? = some q) :
    (picked rectangles positions).length = positions.length := by
  induction positions with
  | nil => rfl
  | cons j positions ih =>
    obtain ⟨⟨q, hq⟩, hrest⟩ := List.forall_mem_cons.1 h
    rw [picked_cons hq, List.length_cons, ih hrest, List.length_cons]

/-- The rectangles picked are those at the positions. -/
theorem mem_picked {r : Rectangle} :
    r ∈ picked rectangles positions ↔ ∃ j ∈ positions, rectangles[j]? = some r := List.mem_filterMap

/-- The focus, at position 0, and its neighbours after it have the numbers that they had before they were
picked. -/
theorem exists_numbering {k : Nat} {cs : List Nat} (h : ∀ j ∈ k :: cs, ∃ q, rectangles[j]? = some q) :
    ∃ φ : Nat → Nat, φ 0 = k ∧ (List.range' 1 cs.length).map φ = cs ∧
      ∀ n ∈ 0 :: List.range' 1 cs.length, rectangles[φ n]? = (picked rectangles (k :: cs))[n]? := by
  refine ⟨fun n => (k :: cs).getD n k, rfl, ?_, fun n hn => ?_⟩
  · refine List.ext_getElem? fun n => ?_
    by_cases hn : n < cs.length
    · simp [hn, Nat.add_comm 1 n]
    · simp [hn]
  · have hlt : n < (k :: cs).length := by
      simp only [List.mem_cons, List.mem_range'_1, List.length_cons] at hn ⊢
      omega
    have hget : (k :: cs)[n]? = some ((k :: cs).getD n k) := by simp [List.getElem?_eq_getElem hlt]
    rw [picked_getElem? h, hget]
    rfl

/-- **An analysis reads the picked rectangles only**: the focus, at position 0, and its neighbours
after it. -/
theorem analyze_picked {k : Nat} {cs : List Nat} (h : ∀ j ∈ k :: cs, ∃ q, rectangles[j]? = some q)
    (hnd : (k :: cs).Nodup) (s : Store w) (changed : List Var) :
    ∃ φ, analyze s rectangles k cs changed =
      (analyze s (picked rectangles (k :: cs)) 0 (List.range' 1 cs.length) changed).map (renumber φ) := by
  obtain ⟨φ, hzero, hmap, hsame⟩ := exists_numbering h
  have hfocus : ∀ n ∈ List.range' 1 cs.length, (φ n = φ 0 ↔ n = 0) := fun n hn => by
    have hmem : φ n ∈ cs := hmap ▸ List.mem_map.2 ⟨n, hn, rfl⟩
    rw [List.mem_range'_1] at hn
    refine ⟨fun he => ?_, fun he => by omega⟩
    rw [he, hzero] at hmem
    exact absurd hmem (List.nodup_cons.1 hnd).1
  have hanalyze : analyze s rectangles (φ 0) ((List.range' 1 cs.length).map φ) changed =
      (analyze s (picked rectangles (k :: cs)) 0 (List.range' 1 cs.length) changed).map (renumber φ) :=
    analyze_renumber hsame hfocus fun _ _ _ _ => rfl
  rw [hmap, hzero] at hanalyze
  exact ⟨φ, hanalyze⟩

end Picked

/-- There is a rectangle at every position, all its variables exist, and along every dimension no
placement of one of them leaves some frame. -/
def Framed (s : Store w) (rectangles : List Rectangle) (positions : List Nat) : Prop :=
  ∀ i : Nat, ∃ f, IsFrame w f ∧ ∀ j ∈ positions, ∃ q, rectangles[j]? = some q ∧ q.Known s ∧
    ∀ x, q.sides[i]? = some x → (s.look x).Inside f

/-- At each of the framed positions there is a rectangle. -/
theorem Framed.exists_at {s : Store w} {rectangles : List Rectangle} {positions : List Nat}
    (h : Framed s rectangles positions) : ∀ j ∈ positions, ∃ q, rectangles[j]? = some q := fun j hj => by
  obtain ⟨f, -, hin⟩ := h 0
  exact (hin j hj).imp fun _ hq => hq.1

/-- An assignment under which no two of the rectangles at the given positions overlap makes a scene of
them. -/
theorem Scene.of_picked {α : Var → Int} {s : Store w} {rectangles : List Rectangle} {positions : List Nat}
    {r : Rectangle} (hdim : ∀ a ∈ rectangles, a.dim = r.dim) (hframed : Framed s rectangles positions)
    (hnd : positions.Nodup) (hα : s.Admits α)
    (hclear : ∀ i ∈ positions, ∀ j ∈ positions, i ≠ j → ∀ a b, rectangles[i]? = some a →
      rectangles[j]? = some b → ¬ a.Overlaps b α) :
    ∃ frames, Scene α s (picked rectangles positions) frames := by
  have hexists := hframed.exists_at
  choose f hf hin using hframed
  have hmem : ∀ q ∈ picked rectangles positions, q.dim = r.dim ∧ q.Known s ∧
      ∀ i x, q.sides[i]? = some x → (s.look x).Inside (f i) := by
    intro q hq
    obtain ⟨j, hj, hq⟩ := mem_picked.1 hq
    have hlook : ∀ i, q.Known s ∧ ∀ x, q.sides[i]? = some x → (s.look x).Inside (f i) := fun i => by
      obtain ⟨q', hq', hknown, hinside⟩ := hin i j hj
      obtain rfl := Option.some.inj (hq.symm.trans hq')
      exact ⟨hknown, hinside⟩
    exact ⟨hdim q (List.mem_of_getElem? hq), (hlook 0).1, fun i => (hlook i).2⟩
  refine ⟨(List.range r.dim).map f, ⟨fun q hq => (hmem q hq).2.1, fun a ha b hb => ?_⟩, hα, ?_, ?_, ?_⟩
  · exact (hmem a ha).1.trans (hmem b hb).1.symm
  · intro g hg
    obtain ⟨i, -, rfl⟩ := List.mem_map.1 hg
    exact hf i
  · intro q hq
    obtain ⟨hqdim, -, hinside⟩ := hmem q hq
    refine List.forall₂_iff_get.2 ⟨by simpa [Rectangle.dim] using hqdim, fun i hi hi' => ?_⟩
    simpa using hinside i _ (List.getElem?_eq_getElem hi)
  · intro i j a b hij ha hb
    rw [picked_getElem? hexists, Option.bind_eq_some_iff] at ha hb
    obtain ⟨m, hm, ha⟩ := ha
    obtain ⟨n, hn, hb⟩ := hb
    have hmn : m ≠ n := fun he =>
      hij ((List.getElem?_inj (List.getElem?_eq_some_iff.1 hm).1 hnd).1 (hm.trans (he ▸ hn.symm)))
    exact Rectangle.clear_of_not_overlaps
      (hclear m (List.mem_of_getElem? hm) n (List.mem_of_getElem? hn) hmn a b ha hb)

/-- **A verdict is a proof.** If the analysis of a rectangle whose lengths cannot be negative, against
any list of positions without repetition, refutes the store, then every assignment within the
domains makes two of these rectangles overlap. -/
theorem analyze_refuted_overlaps {s : Store w} {rectangles : List Rectangle}
    (hdim : ∀ a ∈ rectangles, ∀ b ∈ rectangles, a.dim = b.dim) {k : Nat} {r : Rectangle}
    (hr : rectangles[k]? = some r) (hnn : r.Nonneg s) {cs : List Nat} (hnd : cs.Nodup)
    (hframed : Framed s rectangles (k :: cs)) {changed : List Var} {v : Violation}
    (h : analyze s rectangles k cs changed = .error (.refuted v)) {α : Var → Int} (hα : s.Admits α) :
    ∃ i ∈ k :: cs, ∃ j ∈ k :: cs, i ≠ j ∧ ∃ a b, rectangles[i]? = some a ∧ rectangles[j]? = some b ∧
      a.Overlaps b α := by
  by_contra hnone
  push Not at hnone
  let neighbors := cs.filter (· ≠ k)
  have hsub : ∀ j ∈ k :: neighbors, j ∈ k :: cs := fun j hj =>
    (List.mem_cons.1 hj).elim (fun he => he ▸ List.mem_cons_self) fun hj =>
      List.mem_cons_of_mem _ (List.mem_of_mem_filter hj)
  have hnd' : (k :: neighbors).Nodup := List.nodup_cons.2 ⟨by simp [neighbors], hnd.filter _⟩
  have hframed' : Framed s rectangles (k :: neighbors) := fun i =>
    (hframed i).imp fun f hf => ⟨hf.1, fun j hj => hf.2 j (hsub j hj)⟩
  obtain ⟨frames, hscene⟩ := Scene.of_picked (fun a ha => hdim a ha r (List.mem_of_getElem? hr)) hframed' hnd'
    hα fun i hi j hj hij a b ha hb => hnone i (hsub i hi) j (hsub j hj) hij a b ha hb
  obtain ⟨φ, hsame⟩ := analyze_picked hframed'.exists_at hnd' s changed
  have hfirst : (picked rectangles (k :: neighbors))[0]? = some r :=
    (picked_getElem? hframed'.exists_at 0).trans hr
  have hlt : ∀ n ∈ List.range' 1 neighbors.length, n < (picked rectangles (k :: neighbors)).length ∧ n ≠ 0 := by
    intro n hn
    rw [length_picked hframed'.exists_at, List.length_cons]
    rw [List.mem_range'_1] at hn
    omega
  rw [hscene.analyze hfirst hnn List.nodup_range' hlt changed, analyze_erase_focus, h] at hsame
  cases hsame

/-- Two squares of side 2 in a field of side 3, against a list that also holds the focus itself and a
rectangle whose length cannot be positive. The last rectangle has no variables, and is not looked at. -/
theorem analyze_refuted_overlaps_squares :
    let edge : Domain .w8 := ⟨0, 1, by decide, by decide, by decide⟩
    let s : Store .w8 := .ofDomains [.single 2 (by decide), edge, edge, edge, edge,
      ⟨-1, 0, by decide, by decide, by decide⟩]
    let box := fun x y side : Nat => (⟨[⟨⟨x⟩, ⟨side⟩⟩, ⟨⟨y⟩, ⟨side⟩⟩], List.cons_ne_nil _ _⟩ : Rectangle)
    let rectangles := [box 1 2 0, box 3 4 0, box 1 4 5, box 7 8 9]
    analyze s rectangles 0 [2, 0, 1] [] = .error (.refuted (.capacity 1 2)) ∧
      ∀ α, s.Admits α → ∃ i ∈ [0, 2, 0, 1], ∃ j ∈ [0, 2, 0, 1], i ≠ j ∧ ∃ a b, rectangles[i]? = some a ∧
        rectangles[j]? = some b ∧ a.Overlaps b α := by
  intro edge s box rectangles
  have hrefuted : analyze s rectangles 0 [2, 0, 1] [] = .error (.refuted (.capacity 1 2)) := by decide +kernel
  have hfits : ∀ q ∈ rectangles.take 3, q.Known s ∧ ∀ x ∈ q.sides, 0 ≤ (s.look x).origin.lo ∧
      (s.look x).origin.hi + max 0 (s.look x).length.hi ≤ 3 := by decide +kernel
  have hframed : Framed s rectangles [0, 2, 0, 1] := fun i => by
    refine ⟨(0, 3), ⟨by decide, by decide, by decide⟩, fun j hj => ?_⟩
    have hj : j < 3 := (by decide : ∀ j ∈ [0, 2, 0, 1], j < 3) j hj
    obtain ⟨q, hq⟩ : ∃ q, (rectangles.take 3)[j]? = some q := ⟨_, List.getElem?_eq_getElem hj⟩
    obtain ⟨hknown, hinside⟩ := hfits q (List.mem_of_getElem? hq)
    refine ⟨q, ?_, hknown, fun x hx => ?_⟩
    · rwa [List.getElem?_take_of_lt hj] at hq
    · exact ⟨(hinside x (List.mem_of_getElem? hx)).1, (hinside x (List.mem_of_getElem? hx)).2⟩
  refine ⟨hrefuted, fun α hα => analyze_refuted_overlaps (by decide) rfl ?_ (by decide) hframed hrefuted hα⟩
  exact fun x hx => (by decide +kernel : ∀ x ∈ (box 1 2 0).sides, 0 ≤ (s.look x).length.lo) x hx

end Placement
