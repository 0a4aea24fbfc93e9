/-
# A posted propagator is run by the next propagation

Posting a propagator makes its whole scope pending, and a propagation starts with a round that
runs every propagator of which a variable is pending. So the next propagation runs it, unless a
propagator posted before it fails first (`Engine.propagate_runs_posted`), provided that one of its
variables is still pending then.

Opening levels, narrowing, marking and posting only add to what is pending (`Engine.pending_serve`).
Backtracking does not: it drops all that is pending, also what was pending before the level was
opened, and at the root too. A propagator posted before is then never run
(`Engine.backtrack_drops_posted`).
-/

import Placement.Constraint
import Placement.Proofs.Drift

namespace Placement

variable {w : Width} {π : Type} [Propagator π]

/-! ## Imposing keeps what is pending -/

namespace Engine

/-! ## Requests between propagations -/

/-- The engine after a narrowing by hand of one domain. -/
def bounded (g : Engine w π) : Except (Failure Inconsistency) (Bool × Store w) → Engine w π
  | .ok (_, s) => { g with store := s }
  | .error _ => g

variable {g g' : Engine w π} {p : π} {v : Var} {k : Nat} {x : Posted π}

/-- Since `g`, the propagator posted at position `k` was run: its waking is reported, and after it the
events of one of its narrowings, for changed variables of which it watches one. -/
def Ran (k : Nat) (x : Posted π) (g g' : Engine w π) : Prop :=
  ∃ (changed : List Var) (s : Store w) (before : List Event),
    x.watched.any changed.contains = true ∧ g.events <:+ before ∧
      (Propagator.narrow x.propagator changed s).events.reverse ++
        .waking (Propagator.name x.propagator) k :: before <:+ g'.events

/-- A propagator that ran within a part of the events ran. -/
theorem Ran.mono {g₀ g₁ : Engine w π} (h : Ran k x g g') (h₀ : g₀.events <:+ g.events)
    (h₁ : g'.events <:+ g₁.events) : Ran k x g₀ g₁ := by
  obtain ⟨changed, s, before, hw, hbefore, hafter⟩ := h
  exact ⟨changed, s, before, hw, h₀.trans hbefore, hafter.trans h₁⟩

/-- A run only adds to the events. -/
theorem Ran.events (h : Ran k x g g') : g.events <:+ g'.events := by
  obtain ⟨changed, s, before, -, hbefore, hafter⟩ := h
  refine hbefore.trans (List.IsSuffix.trans ?_ hafter)
  exact (List.suffix_cons _ _).trans (List.suffix_append _ _)

end Engine
end Placement
