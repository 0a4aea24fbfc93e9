/-
# Entailment with lengths that may be zero

A constraint compares least lengths: a rectangle one of whose least lengths is zero never
overlaps another one for it, also if that length can still become positive. Such a rectangle is
*undecided* (`Rectangle.Undecided`), and the answer of a constraint says nothing about it.

This is all that the answer leaves open. If a constraint over regular rectangles
(`Rectangle.Regular`) takes itself to hold, then two rectangles overlap under an assignment within
the domains only if one of them is undecided; and if it does not, then two solid rectangles of it have
reaches that meet in every dimension (`Disjoint.satisfied_of_undecided`).

That undecided rectangles can overlap although the constraint takes itself to hold is shown by two
rods on a line, one of them of length 0 … 3 (`Disjoint.satisfied_with_overlapping_trio`).
-/

import Placement.Proofs.Entailment

namespace Placement

open Neighborhood

variable {w : Width}

namespace Rectangle

variable {a b r : Rectangle} {s : Store w} {α : Var → Int}

/-- All variables of the rectangle exist, no length can be negative, and every side ends within the
width, wherever it is placed. -/
structure Regular (r : Rectangle) (s : Store w) : Prop where
  known : r.Known s
  nonneg : r.Nonneg s
  holds_stop : ∀ x ∈ r.sides, w.Holds ((s.look x).origin.hi + (s.look x).length.hi)

instance decidableRegular (r : Rectangle) (s : Store w) : Decidable (r.Regular s) :=
  decidable_of_iff (r.Known s ∧ (∀ x ∈ r.sides, 0 ≤ (s.look x).length.lo) ∧
    ∀ x ∈ r.sides, w.Holds ((s.look x).origin.hi + (s.look x).length.hi))
    ⟨fun ⟨h₁, h₂, h₃⟩ => ⟨h₁, h₂, h₃⟩, fun h => ⟨h.known, h.nonneg, h.holds_stop⟩⟩

/-- Some length may be zero, and all lengths may be positive. -/
structure Undecided (r : Rectangle) (s : Store w) : Prop where
  zero : ∃ x ∈ r.sides, (s.look x).length.lo ≤ 0
  pos : ∀ x ∈ r.sides, 0 < (s.look x).length.hi

/-- A regular rectangle of positive least lengths is solid. -/
theorem Regular.solid (h : r.Regular s) (hthick : r.isThick s = true) : r.Solid s := fun x hx =>
  ⟨_, _, Store.domain_eq (h.known.origin hx), Store.domain_eq (h.known.length hx),
    isThick_iff.1 hthick x hx, h.holds_stop x hx⟩

/-- A rectangle that can be placed with positive lengths is undecided, or its least lengths are
positive. -/
theorem isThick_or_undecided (hk : r.Known s) (hα : s.Admits α) (hpos : ∀ x ∈ r.sides, 0 < α x.length) :
    r.isThick s = true ∨ r.Undecided s := by
  by_cases hthick : r.isThick s = true
  · exact .inl hthick
  · right
    constructor
    · rw [isThick_iff] at hthick
      push Not at hthick
      exact hthick
    · intro x hx
      have hl : α x.length ∈ (s.look x).length := hα _ (hk.length hx)
      exact lt_of_lt_of_le (hpos x hx) hl.2

end Rectangle

namespace Disjoint

/-- **What the answer of a constraint is worth when lengths may be zero.** A constraint over regular
rectangles that was just imposed answers. If it answers `true`, then under every assignment within
the domains two rectangles overlap only if one of them is undecided. If it answers `false`, then
two of its rectangles are solid, and their reaches meet in every dimension. -/
theorem satisfied_of_undecided (s : Store w) (d : Disjoint) (id : ConstraintId)
    (hregular : ∀ r ∈ d.rectangles, r.Regular s) :
    ∃ answer, (d.impose id s).1.satisfied (d.impose id s).2.1 = .ok answer ∧
      (answer = true → ∀ α, s.Admits α → ∀ (i j : Nat) (p q : Rectangle), i ≠ j →
        d.rectangles[i]? = some p → d.rectangles[j]? = some q → p.Overlaps q α →
          p.Undecided s ∨ q.Undecided s) ∧
      (answer = false → ∃ (i j : Nat) (p q : Rectangle), i ≠ j ∧ d.rectangles[i]? = some p ∧
        d.rectangles[j]? = some q ∧ p.Solid s ∧ q.Solid s ∧ ¬ p.Apart q s) := by
  have regular : ∀ {i : Nat} {p : Rectangle}, d.rectangles[i]? = some p → p.Regular s := fun hp =>
    hregular _ (List.mem_of_getElem? hp)
  rw [impose_eq]
  obtain ⟨answer, hanswer, hiff⟩ := satisfied_iff (d.sound_imposed id s) fun r hr => (hregular r hr).known
  refine ⟨answer, hanswer, fun htrue α hα i j p q hij hp hq hover => ?_, fun hfalse => ?_⟩
  · rcases Rectangle.isThick_or_undecided (regular hp).known hα hover.pos_left with hpt | hpu
    · rcases Rectangle.isThick_or_undecided (regular hq).known hα hover.pos_right with hqt | hqu
      · have hmeet := hover.meet hα ((regular hp).solid hpt) ((regular hq).solid hqt)
        have hnot := hiff.1 htrue i j p q hij hp hq hpt hqt
        exact absurd (hmeet.symm.trans hnot) (by decide)
      · exact .inr hqu
    · exact .inl hpu
  · by_contra hnone
    refine Bool.false_ne_true (hfalse.symm.trans (hiff.2 fun i j p q hij hp hq hpt hqt => ?_))
    by_contra hmeet
    have hmeet : meet (p.view s) (q.view s) = true := (Bool.not_eq_false _).mp hmeet
    exact hnone ⟨i, j, p, q, hij, hp, hq, (regular hp).solid hpt, (regular hq).solid hqt,
      Rectangle.not_apart_of_meet
        (d.uniform p (List.mem_of_getElem? hp) q (List.mem_of_getElem? hq)) hmeet⟩

/-- Three rods on a line: one of length 0 … 3 and one of length 3, both at 0, and one of length 2
at 3. -/
def trio : Disjoint where
  id := none
  rectangles := [0, 2, 4].map fun v => ⟨[⟨⟨v⟩, ⟨v + 1⟩⟩], List.cons_ne_nil _ _⟩
  mode := .pairwise
  candidates := .empty
  statistics := .zero
  uniform := by decide

/-- The places of the three rods. -/
def trioStore : Store .w8 := .ofBounds [(0, 0), (0, 3), (0, 0), (3, 3), (3, 3), (2, 2)]

/-- The three rods take themselves not to overlap, and only the first can overlap another one: it is
undecided. -/
theorem satisfied_of_undecided_trio :
    (∀ r ∈ trio.rectangles, r.Regular trioStore) ∧
      (trio.impose ⟨0⟩ trioStore).1.satisfied (trio.impose ⟨0⟩ trioStore).2.1 = .ok true ∧
      ∀ α, trioStore.Admits α → ∀ (i j : Nat) (p q : Rectangle), i ≠ j →
        trio.rectangles[i]? = some p → trio.rectangles[j]? = some q → p.Overlaps q α →
          p.Undecided trioStore ∨ q.Undecided trioStore := by
  have hregular : ∀ r ∈ trio.rectangles, r.Regular trioStore := by decide +kernel
  have htrue : (trio.impose ⟨0⟩ trioStore).1.satisfied (trio.impose ⟨0⟩ trioStore).2.1 = .ok true := by
    decide +kernel
  obtain ⟨answer, hanswer, hthen, -⟩ := satisfied_of_undecided trioStore trio ⟨0⟩ hregular
  obtain rfl : true = answer := Except.ok.inj (htrue.symm.trans hanswer)
  exact ⟨hregular, htrue, hthen rfl⟩

/-- **A constraint can take itself to hold and yet be violated.** The rods are regular and the
constraint takes itself to hold, but at length 1 the first rod overlaps the second. -/
theorem satisfied_with_overlapping_trio :
    (∀ r ∈ trio.rectangles, r.Regular trioStore) ∧
      (trio.impose ⟨0⟩ trioStore).1.satisfied (trio.impose ⟨0⟩ trioStore).2.1 = .ok true ∧
      ∃ α, trioStore.Admits α ∧ ∃ p q : Rectangle, trio.rectangles[0]? = some p ∧
        trio.rectangles[1]? = some q ∧ p.Overlaps q α := by
  refine ⟨by decide +kernel, by decide +kernel, fun v => [0, 1, 0, 3, 3, 2].getD v.val 0, ?_, _, _, rfl, rfl,
    ⟨by decide, by decide, ?_⟩⟩
  · have hin : ∀ v < 6, [0, 1, 0, 3, 3, 2].getD v 0 ∈ trioStore.dom ⟨v⟩ := by decide +kernel
    exact fun v hv => hin v.val hv
  · exact .cons ⟨0, by decide, by decide⟩ .nil

end Disjoint
end Placement
