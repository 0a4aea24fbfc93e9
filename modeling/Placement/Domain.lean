/-
# Interval domains

A variable ranges over the integers from `lo` to `hi`, both included. A domain is
never empty and never leaves the width; narrowing it to nothing gives `none`.
-/

import Placement.Width

namespace Placement

/-- The values `lo … hi` of a variable. -/
structure Domain (w : Width) where
  lo : Int
  hi : Int
  lo_le_hi : lo ≤ hi
  holds_lo : w.Holds lo
  holds_hi : w.Holds hi
deriving DecidableEq

namespace Domain

variable {w : Width}

/-- The domain `lo … hi`, whose bounds must be values of the width in order. -/
def make (w : Width) (lo hi : Int) : Except Fault (Domain w) :=
  if hw : w.Holds lo ∧ w.Holds hi then
    if h : lo ≤ hi then .ok ⟨lo, hi, h, hw.1, hw.2⟩ else .error .emptyDomain
  else .error .outsideWidth

/-- A value of the domain. -/
instance : Membership Int (Domain w) := ⟨fun d x => d.lo ≤ x ∧ x ≤ d.hi⟩

/-- A domain holds the values from its least to its greatest. -/
theorem mem_iff {d : Domain w} {x : Int} : x ∈ d ↔ d.lo ≤ x ∧ x ≤ d.hi := Iff.rfl

instance (x : Int) (d : Domain w) : Decidable (x ∈ d) := inferInstanceAs (Decidable (_ ∧ _))

/-- The domain has one value only. -/
def IsFixed (d : Domain w) : Prop := d.lo = d.hi

instance (d : Domain w) : Decidable d.IsFixed := inferInstanceAs (Decidable (_ = _))

/-- The value of a fixed domain. -/
def value? (d : Domain w) : Option Int := if d.IsFixed then some d.lo else none

/-- How many values the domain can still lose. -/
def slack (d : Domain w) : Nat := (d.hi - d.lo).toNat

/-- The values of the domain from `lo` to `hi`. -/
def restrict? (d : Domain w) (lo hi : Int) : Option (Domain w) :=
  if h : max d.lo lo ≤ min d.hi hi then
    some
      { lo := max d.lo lo
        hi := min d.hi hi
        lo_le_hi := h
        holds_lo := w.holds_between d.holds_lo d.holds_hi (by omega) (by omega)
        holds_hi := w.holds_between d.holds_lo d.holds_hi (by omega) (by omega) }
  else none

/-- Restricting a domain keeps its values between the bounds. -/
theorem mem_restrict? {d e : Domain w} {lo hi : Int} (h : d.restrict? lo hi = some e) (x : Int) :
    x ∈ e ↔ x ∈ d ∧ lo ≤ x ∧ x ≤ hi := by
  simp only [restrict?] at h
  split at h
  · obtain rfl := Option.some.inj h
    simp only [mem_iff]
    omega
  · cases h

/-- **A restriction that changes the domain takes at least one value from it.** -/
theorem slack_lt_of_restrict? {d e : Domain w} {lo hi : Int} (h : d.restrict? lo hi = some e)
    (hne : e ≠ d) : e.slack < d.slack := by
  simp only [restrict?] at h
  split at h
  · next hle =>
    obtain rfl := Option.some.inj h
    have : ¬ (max d.lo lo = d.lo ∧ min d.hi hi = d.hi) := fun ⟨h₁, h₂⟩ => hne <| by
      cases d; simp_all
    simp only [slack]
    omega
  · cases h

/-- The text of a domain: `3..7`, or `3` if that is its only value. -/
def text (d : Domain w) : String := if d.IsFixed then s!"{d.lo}" else s!"{d.lo}..{d.hi}"

end Domain
end Placement
