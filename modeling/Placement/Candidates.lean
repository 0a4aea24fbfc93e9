/-
# Overlap candidates

A constraint keeps, for each of its rectangles, the positions of those that may
still overlap it. Each list lives in a saved slot of the store, so it shrinks as
domains do and comes back when the search does.
-/

import Placement.Store

namespace Placement

/-- One slot per rectangle. -/
structure Candidates where
  slots : List Slot
deriving DecidableEq, Repr

namespace Candidates

variable {w : Width}

/-- No slots. -/
def empty : Candidates := ⟨[]⟩

/-- Slots have been allocated. -/
def isAllocated (c : Candidates) : Bool := !c.slots.isEmpty

/-- All positions below `count` but `r`. -/
def others (count r : Nat) : List Nat := (List.range count).filter (· ≠ r)

/-- Allocates a slot for each of the given rectangles, which starts with all others. -/
def allocateFor (count : Nat) (s : Store w) : List Nat → List Slot × Store w
  | [] => ([], s)
  | r :: rs =>
    let (slot, s) := s.newSnapshot (others count r)
    let (slots, s) := allocateFor count s rs
    (slot :: slots, s)

/-- Allocates the slots of `count` rectangles. -/
def allocate (s : Store w) (count : Nat) : Candidates × Store w :=
  let (slots, s) := allocateFor count s (List.range count)
  (⟨slots⟩, s)

/-- The candidates of rectangle `r`. -/
def get (c : Candidates) (s : Store w) (r : Nat) : Except Fault (List Nat) := do
  s.snapshot (← entry c.slots r)

/-- Replaces the candidates of rectangle `r` by a subset of them. -/
def replace (c : Candidates) (s : Store w) (r : Nat) (candidates : List Nat) :
    Except Fault (Store w) := do
  let current ← c.get s r
  if ¬ candidates.all current.contains then throw .strangerCandidate
  s.setSnapshot (← entry c.slots r) candidates

end Candidates
end Placement
