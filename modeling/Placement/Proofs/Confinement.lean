/-
# What a pass leaves alone

A pass writes origins of its rectangles and slots of its candidates, at the current level, and it
may end at any of its writes: in a refutation, or in a fault. `Disjoint.Confined` says how a store
that it leaves behind can differ from the one it found. A variable is as it was, stamp and mark
included, or it is an origin that lost values, and then it is stamped with the level and pending; a
slot is as it was, or it is one of the constraint's own and holds some of what it held; the trail
only grew, within the current level.

Confinement holds of one step, and it composes: what lost values once has a domain that differs
from the first one, whatever happens to it later.
-/

import Placement.Proofs.CachedCandidates

namespace Placement

variable {w : Width}

/-! ## Recording at the current level -/

/-- Noting a write adds at most one entry, to the current level. -/
theorem Store.note_levels (s : Store w) (stamp : Nat) (e : Trail.Entry w) :
    (s.note stamp e).marks = s.trail.marks ∧ s.trail.entries <+: (s.note stamp e).entries := by
  unfold note Trail.record
  split
  · cases hl : s.trail.levels with
    | nil => exact ⟨rfl, List.prefix_rfl⟩
    | cons level older => simp [Trail.marks, Trail.marksOf, Trail.entries, hl]
  · exact ⟨rfl, List.prefix_rfl⟩

namespace Disjoint

/-- The variable is an origin of one of the rectangles. -/
def HasOrigin (d : Disjoint) (v : Var) : Prop := ∃ r ∈ d.rectangles, v ∈ r.origins

/-- All that may become of a variable: it stays as it is, or it is an origin that loses values. -/
inductive CellKept (d : Disjoint) (v : Var) (level : Nat) (c : Cell w) : Cell w → Prop
  | same : CellKept d v level c c
  | narrowed {e : Domain w} (hv : d.HasOrigin v) (hne : e ≠ c.domain) (hw : e.Within c.domain) :
      CellKept d v level c ⟨e, level, true⟩

/-- All that may become of a slot: it stays as it is, or it is one of the constraint's own and holds
some of what it held. -/
inductive SlotKept (d : Disjoint) (k : Slot) (level : Nat) (a : Saved) : Saved → Prop
  | same : SlotKept d k level a a
  | shrunk {value : List Nat} (hk : k ∈ d.candidates.slots) (hs : value.Sublist a.value) :
      SlotKept d k level a ⟨value, level⟩

/-- All that a pass may do to a store. -/
structure Confined (d : Disjoint) (s t : Store w) : Prop where
  numVars : t.numVars = s.numVars
  cells : ∀ (i : Nat) (c c' : Cell w), s.cells[i]? = some c → t.cells[i]? = some c' →
    d.CellKept ⟨i⟩ s.level c c'
  numSlots : t.slots.length = s.slots.length
  slots : ∀ (i : Nat) (a a' : Saved), s.slots[i]? = some a → t.slots[i]? = some a' →
    d.SlotKept ⟨i⟩ s.level a a'
  level : t.level = s.level
  marks : t.trail.marks = s.trail.marks
  entries : s.trail.entries <+: t.trail.entries

variable {d : Disjoint} {s t u : Store w}

/-- What may become of a variable may become of it in two steps. -/
theorem CellKept.trans {v : Var} {level : Nat} {c c' c'' : Cell w} (h : d.CellKept v level c c')
    (h' : d.CellKept v level c' c'') : d.CellKept v level c c'' := by
  cases h with
  | same => exact h'
  | narrowed hv hne hw =>
    cases h' with
    | same => exact .narrowed hv hne hw
    | narrowed hv hne' hw' =>
      -- A domain that came back to the first one would lie between the two.
      refine .narrowed hv (fun he => hne' ?_) (hw'.trans hw)
      subst he
      exact hw'.antisymm hw

/-- What may become of a slot may become of it in two steps. -/
theorem SlotKept.trans {k : Slot} {level : Nat} {a a' a'' : Saved} (h : d.SlotKept k level a a')
    (h' : d.SlotKept k level a' a'') : d.SlotKept k level a a'' := by
  cases h with
  | same => exact h'
  | shrunk hk hs =>
    cases h' with
    | same => exact .shrunk hk hs
    | shrunk hk hs' => exact .shrunk hk (hs'.trans hs)

namespace Confined

/-- A pass may do nothing. -/
theorem refl (d : Disjoint) (s : Store w) : d.Confined s s where
  numVars := rfl
  cells _ _ _ h h' := by
    obtain rfl := Option.some.inj (h.symm.trans h')
    exact .same
  numSlots := rfl
  slots _ _ _ h h' := by
    obtain rfl := Option.some.inj (h.symm.trans h')
    exact .same
  level := rfl
  marks := rfl
  entries := List.prefix_rfl

/-- What a pass may do, it may do in two parts. -/
theorem trans (h : d.Confined s t) (h' : d.Confined t u) : d.Confined s u where
  numVars := h'.numVars.trans h.numVars
  cells i c c'' hc hc'' := by
    have hi : i < t.cells.length :=
      Nat.lt_of_lt_of_eq (List.getElem?_eq_some_iff.1 hc).1 h.numVars.symm
    have hc' := List.getElem?_eq_getElem hi
    exact (h.cells i c _ hc hc').trans (h.level ▸ h'.cells i _ c'' hc' hc'')
  numSlots := h'.numSlots.trans h.numSlots
  slots i a a'' ha ha'' := by
    have hi : i < t.slots.length :=
      Nat.lt_of_lt_of_eq (List.getElem?_eq_some_iff.1 ha).1 h.numSlots.symm
    have ha' := List.getElem?_eq_getElem hi
    exact (h.slots i a _ ha ha').trans (h.level ▸ h'.slots i _ a'' ha' ha'')
  level := h'.level.trans h.level
  marks := h'.marks.trans h.marks
  entries := h.entries.trans h'.entries

/-- Narrowing an origin is confined. -/
theorem narrow {v : Var} {lo hi : Int} {b : Bool} (hv : d.HasOrigin v)
    (h : s.setBounds v lo hi = .ok (b, t)) : d.Confined s t := by
  obtain ⟨c, e, hc, he, ⟨-, -, rfl⟩ | ⟨hne, -, rfl⟩⟩ := Store.setBounds_eq_ok h
  · exact .refl d t
  obtain ⟨hmarks, hentries⟩ := s.note_levels c.stamp (.domain v c.domain c.stamp)
  refine ⟨List.length_set, fun i c₁ c' h₁ h' => ?_, rfl, (refl d s).slots, Store.level_of_note rfl,
    hmarks, hentries⟩
  dsimp only at h'
  rw [List.getElem?_set] at h'
  split at h'
  · next hi =>
    subst hi
    obtain rfl := Option.some.inj (hc.symm.trans h₁)
    obtain ⟨hlt, -⟩ := List.getElem?_eq_some_iff.1 hc
    rw [if_pos hlt] at h'
    cases h'
    exact .narrowed hv hne (Domain.within_of_restrict? he)
  · exact (refl d s).cells i c₁ c' h₁ h'

/-- Replacing candidates by those that an analysis kept is confined. -/
theorem shrink {k : Nat} {current : List Nat} {changed : List Var} {found : Neighborhood}
    (hc : d.candidates.get s k = .ok current)
    (ha : analyze s d.rectangles k current changed = .ok found)
    (h : d.candidates.replace s k found.overlapping = .ok t) : d.Confined s t := by
  obtain ⟨-, x, -, -, hx, hset⟩ := Candidates.replace_eq_ok h
  obtain ⟨y, hy, a, hsa, rfl⟩ := Candidates.get_eq_ok.1 hc
  obtain rfl := Option.some.inj (hx.symm.trans hy)
  obtain ⟨a', hsa', rfl⟩ := Store.setSnapshot_eq_ok.1 hset
  obtain rfl := Option.some.inj (hsa.symm.trans hsa')
  obtain ⟨hmarks, hentries⟩ := s.note_levels a.stamp (.slot x a.value a.stamp)
  refine ⟨rfl, (refl d s).cells, List.length_set, fun i a₁ a' h₁ h' => ?_, Store.level_of_note rfl,
    hmarks, hentries⟩
  dsimp only at h'
  rw [List.getElem?_set] at h'
  split at h'
  · next hi =>
    subst hi
    obtain rfl := Option.some.inj (hsa.symm.trans h₁)
    obtain ⟨hlt, -⟩ := List.getElem?_eq_some_iff.1 hsa
    rw [if_pos hlt] at h'
    cases h'
    exact .shrunk (List.mem_of_getElem? hx) (overlapping_of_analyze ha).1
  · exact (refl d s).slots i a₁ a' h₁ h'

/-- A step of the constraint does only what a pass may do. -/
theorem of_step (h : d.Step s t) : d.Confined s t := by
  cases h with
  | narrow hr hv h => exact .narrow ⟨_, hr, hv⟩ h
  | shrink hc ha h => exact .shrink hc ha h

/-- Steps of the constraint do only what a pass may do. -/
theorem of_steps (h : d.Steps s t) : d.Confined s t := by
  induction h with
  | refl => exact .refl d s
  | tail _ hstep ih => exact ih.trans (.of_step hstep)

end Confined

/-- **A pass only shrinks, and only what it owns**, whether it ends well or not. No variable and no
slot comes or goes; every domain is a part of what it was; a variable that is not an origin stays as
it was; one that lost values is stamped with the level and pending, and any other one keeps its
stamp and its mark; a slot of someone else stays as it was, and one of the constraint's own holds
some of what it held, in the same order; the level and the marks of the open levels stay, and
entries are only added to the trail. -/
theorem narrow_confined (d : Disjoint) (changed : List Var) (s : Store w) :
    let t := (d.narrow changed s).store
    t.numVars = s.numVars ∧
    (∀ (i : Nat) (c c' : Cell w), s.cells[i]? = some c → t.cells[i]? = some c' →
      (c.domain.lo ≤ c'.domain.lo ∧ c'.domain.lo ≤ c'.domain.hi ∧ c'.domain.hi ≤ c.domain.hi) ∧
      (¬ d.HasOrigin ⟨i⟩ → c'.domain = c.domain ∧ c'.stamp = c.stamp) ∧
      (c'.domain ≠ c.domain → c'.stamp = s.level ∧ c'.pending = true) ∧
      (c'.domain = c.domain → c'.stamp = c.stamp ∧ c'.pending = c.pending)) ∧
    t.slots.length = s.slots.length ∧
    (∀ (i : Nat) (a a' : Saved), s.slots[i]? = some a → t.slots[i]? = some a' →
      (⟨i⟩ ∉ d.candidates.slots → a' = a) ∧ a'.value.Sublist a.value) ∧
    t.level = s.level ∧ t.trail.marks = s.trail.marks ∧ s.trail.entries <+: t.trail.entries := by
  intro t
  have h : d.Confined s t := .of_steps (d.narrow_steps changed s)
  refine ⟨h.numVars, fun i c c' hc hc' => ?_, h.numSlots, fun i a a' ha ha' => ?_, h.level, h.marks,
    h.entries⟩
  · have hle := c'.domain.lo_le_hi
    cases h.cells i c c' hc hc' with
    | same => simp [hle]
    | narrowed hv hne hw =>
      exact ⟨⟨hw.1, hle, hw.2⟩, fun hnot => absurd hv hnot, fun _ => ⟨rfl, rfl⟩, fun he => absurd he hne⟩
  · cases h.slots i a a' ha ha' with
    | same => exact ⟨fun _ => rfl, .refl _⟩
    | shrunk hk hs => exact ⟨fun hnot => absurd hk hnot, hs⟩

end Disjoint
end Placement
