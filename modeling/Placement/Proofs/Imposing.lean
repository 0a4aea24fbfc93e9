/-
# What imposing and posting do

Imposing a constraint appends one slot per rectangle to the store, which holds all other
rectangles, and hands these slots to the constraint; nothing else changes
(`Disjoint.impose_eq`). Posting also marks every variable of the scope as pending, if all
of them exist (`Engine.post_eq_ok`).
-/

import Placement.Disjoint
import Placement.Engine
import Placement.Proofs.Ends
import Placement.Proofs.Writing

namespace Placement

variable {w : Width}

/-- The other positions are ascending. -/
theorem Candidates.pairwise_others (count r : Nat) : (others count r).Pairwise (· < ·) :=
  List.pairwise_lt_range.filter _

/-- The other positions are all but one. -/
theorem Candidates.mem_others {count r j : Nat} : j ∈ others count r ↔ j < count ∧ j ≠ r := by
  unfold others
  simp

/-- Allocating candidates appends one slot per rectangle, with all others in it. -/
theorem Candidates.allocateFor_eq (count : Nat) (s : Store w) (rs : List Nat) :
    allocateFor count s rs = ((List.range' s.slots.length rs.length).map Index.mk,
      { s with slots := s.slots ++ rs.map fun r => ⟨others count r, s.level⟩ }) := by
  induction rs generalizing s with
  | nil => simp [allocateFor]
  | cons r rs ih =>
    simp only [allocateFor, ih, Store.newSnapshot, Store.level, List.length_append, List.length_nil,
      List.length_cons, List.range'_succ, List.map_cons, List.append_assoc, List.singleton_append,
      Nat.zero_add]

/-- The store after a constraint on `count` rectangles was imposed on it. -/
def Store.allot (s : Store w) (count : Nat) : Store w :=
  { s with slots := s.slots ++ (List.range count).map fun r => ⟨Candidates.others count r, s.level⟩ }

/-- The constraint after it was imposed on a store. -/
def Disjoint.imposed (d : Disjoint) (id : ConstraintId) (s : Store w) : Disjoint :=
  { d with
    id := some id
    candidates := ⟨(List.range' s.slots.length d.rectangles.length).map Index.mk⟩ }

/-- **Imposing appends slots**, and hands them to the constraint. -/
theorem Disjoint.impose_eq (d : Disjoint) (id : ConstraintId) (s : Store w) :
    d.impose id s = (d.imposed id s, s.allot d.rectangles.length,
      [.imposed (d.imposed id s).label d.rectangles.length d.mode]) := by
  unfold impose Candidates.allocate
  rw [Candidates.allocateFor_eq, List.length_range]
  rfl

namespace Store

variable {s t : Store w}

/-- Marking variables as pending changes nothing else. -/
theorem touchAll_eq_ok {vs : List Var} (h : s.touchAll vs = .ok t) :
    (∀ v ∈ vs, v.val < s.cells.length) ∧
      t = { s with cells := s.cells.mapIdx fun i c =>
        if (⟨i⟩ : Var) ∈ vs then { c with pending := true } else c } := by
  induction vs generalizing s with
  | nil =>
    simp only [touchAll, List.foldlM_nil, pure_eq_ok] at h
    subst h
    refine ⟨fun v hv => absurd hv List.not_mem_nil, ?_⟩
    refine congrArg (Store.mk · s.slots s.trail) (List.ext_getElem? fun i => ?_)
    simp
  | cons v vs ih =>
    simp only [touchAll, List.foldlM_cons, bind_eq_ok, touch_eq_ok] at h
    obtain ⟨u, ⟨c, hc, rfl⟩, h⟩ := h
    obtain ⟨hv, rfl⟩ := List.getElem?_eq_some_iff.1 hc
    obtain ⟨hvs, rfl⟩ := ih h
    refine ⟨fun x hx => ?_, ?_⟩
    · rcases List.mem_cons.1 hx with rfl | hx
      · exact hv
      · simpa using hvs x hx
    · refine congrArg (Store.mk · s.slots s.trail) (List.ext_getElem? fun i => ?_)
      simp only [List.getElem?_mapIdx, List.getElem?_set]
      by_cases hi : v.val = i
      · subst hi
        simp [hv]
      · have hne : (⟨i⟩ : Var) ≠ v := fun e => hi (e ▸ rfl)
        simp [hi, hne]

/-- Variables that exist can be marked as pending. -/
theorem touchAll_ok {vs : List Var} (h : ∀ v ∈ vs, v.val < s.cells.length) : ∃ t, s.touchAll vs = .ok t := by
  induction vs generalizing s with
  | nil => exact ⟨s, rfl⟩
  | cons v vs ih =>
    obtain ⟨hv, hvs⟩ := List.forall_mem_cons.1 h
    obtain ⟨c, hc⟩ : ∃ c, s.cells[v.val]? = some c := ⟨_, List.getElem?_eq_getElem hv⟩
    obtain ⟨t, ht⟩ := ih (s := { s with cells := s.cells.set v.val { c with pending := true } })
      fun x hx => by simpa using hvs x hx
    exact ⟨t, bind_eq_ok.2 ⟨_, touch_eq_ok.2 ⟨c, hc, rfl⟩, ht⟩⟩

/-- Marking variables is a sequence of writes. -/
theorem touchAll_writes {vs : List Var} (h : s.touchAll vs = .ok t) : Writes s t := by
  induction vs generalizing s with
  | nil =>
    simp only [touchAll, List.foldlM_nil, pure_eq_ok] at h
    exact h ▸ .refl
  | cons v vs ih =>
    simp only [touchAll, List.foldlM_cons, bind_eq_ok] at h
    obtain ⟨u, hu, h⟩ := h
    exact .head (.touch hu) (ih h)

end Store

namespace Engine

section Post

variable {π : Type} [Propagator π] {p q : π} {g : Engine w π} {s : Store w} {es : List Event}

/-- Any propagator is posted if its scope exists once it is imposed. -/
theorem post_of_impose_ok (hi : Propagator.impose p ⟨g.posted.length⟩ g.store = (q, s, es)) {t : Store w}
    (h : s.touchAll (Propagator.scope q) = .ok t) :
    ∃ g' : Engine w π, g'.store = t ∧ g'.posted = g.posted ++ [⟨q, Propagator.scope q⟩] ∧
      post p g = .ok ⟨g.posted.length⟩ g' := by
  unfold post read
  rw [get_bind]
  dsimp only
  rw [hi]
  dsimp only
  rw [set_bind, h]
  exact ⟨_, rfl, rfl, rfl⟩

/-- Otherwise the propagator is imposed only. -/
theorem post_of_impose_error (hi : Propagator.impose p ⟨g.posted.length⟩ g.store = (q, s, es)) {c : Fault}
    (h : s.touchAll (Propagator.scope q) = .error c) :
    ∃ g' : Engine w π, g'.store = s ∧ g'.posted = g.posted ∧ post p g = .error (.fault c) g' := by
  unfold post read
  rw [get_bind]
  dsimp only
  rw [hi]
  dsimp only
  rw [set_bind, h]
  refine ⟨_, ?_, ?_, rfl⟩
  · rfl
  · rfl

end Post

variable {d : Disjoint} {g : Engine w Disjoint}

/-- **Posting imposes the constraint and marks its scope as pending.** -/
theorem post_eq_ok {t : Store w} (h : (g.store.allot d.rectangles.length).touchAll d.scope = .ok t) :
    ∃ g' : Engine w Disjoint, g'.store = t ∧
      g'.posted = g.posted ++ [⟨d.imposed ⟨g.posted.length⟩ g.store, d.scope⟩] ∧
      post d g = .ok ⟨g.posted.length⟩ g' :=
  post_of_impose_ok (d.impose_eq ⟨g.posted.length⟩ g.store) h

/-- A variable of the scope that does not exist is a fault, and the constraint is not posted. -/
theorem post_eq_error {c : Fault}
    (h : (g.store.allot d.rectangles.length).touchAll d.scope = .error c) :
    ∃ g' : Engine w Disjoint, g'.store = g.store.allot d.rectangles.length ∧
      g'.posted = g.posted ∧ post d g = .error (.fault c) g' :=
  post_of_impose_error (d.impose_eq ⟨g.posted.length⟩ g.store) h

end Engine
end Placement
