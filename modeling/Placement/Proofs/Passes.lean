/-
# What a pass writes

A pass of a non-overlap constraint reaches a store only in two ways (`Disjoint.Step`): it
narrows an origin of one of its rectangles, or it replaces the candidates of a rectangle
by those that an analysis of the store at that moment kept. A whole pass is a sequence of
such steps, whether it ends well, in a refutation or in a fault (`Disjoint.narrow_steps`),
and so is what a propagation does between taking the pending variables
(`Engine.propagate_acts`). Every invariant of propagation is an invariant of the steps.
-/

import Placement.Disjoint
import Placement.Proofs.Ends
import Placement.Proofs.Writing

namespace Placement

open Relation (ReflTransGen)

variable {w : Width} {α β : Type}

/-! ## Computations that only take certain steps -/

/-- However the computation ends, it has changed the store by steps of `R` only. -/
def Narrowing.Moves (R : Store w → Store w → Prop) (m : Narrowing w α) : Prop :=
  ∀ p : Pass w, Ends m p (fun _ q => ReflTransGen R p.store q.store)
    fun _ q => ReflTransGen R p.store q.store

namespace Narrowing.Moves

variable {R : Store w → Store w → Prop}

/-- A value takes no step. -/
theorem pure (a : α) : Moves R (Pure.pure a : Narrowing w α) := fun _ => .refl

/-- A failure takes no step. -/
theorem throw (e : Failure Inconsistency) : Moves R (MonadExcept.throw e : Narrowing w α) :=
  fun _ => .refl

/-- Reading the state takes no step. -/
theorem get : Moves R (MonadState.get : Narrowing w (Pass w)) := fun _ => .refl

/-- A report takes no step. -/
theorem report (e : Event) : Moves R (Narrowing.report e : Narrowing w Unit) := fun _ => .refl

/-- Reading the store takes no step. -/
theorem read (f : Store w → Except Fault α) : Moves R (Narrowing.read f) := fun p =>
  (ends_read f p).2 ⟨fun _ _ => .refl, fun _ _ => .refl⟩

/-- Narrowing a domain takes one step, if such writes are steps. -/
theorem setBounds {v : Var} {lo hi : Int}
    (h : ∀ s b t, s.setBounds v lo hi = .ok (b, t) → R s t) :
    Moves R (Narrowing.setBounds v lo hi : Narrowing w Bool) := fun p =>
  (ends_setBounds v lo hi p _).2 ⟨fun b t ht => .single (h _ b t ht), fun _ _ => .refl⟩

/-- A chain takes the steps of its parts. -/
theorem bind {m : Narrowing w α} {f : α → Narrowing w β} (hm : Moves R m)
    (hf : ∀ a, Moves R (f a)) : Moves R (m >>= f) := fun p =>
  (ends_bind m f p _ _).2 <| (hm p).mono
    (fun a q hq => (hf a q).mono (fun _ _ h => hq.trans h) fun _ _ h => hq.trans h) fun _ _ h => h

/-- A handler takes its steps after those of the computation that failed. -/
theorem tryCatch {m : Narrowing w α} {f : Failure Inconsistency → Narrowing w α}
    (hm : Moves R m) (hf : ∀ e, Moves R (f e)) : Moves R (MonadExcept.tryCatch m f) := fun p =>
  (ends_tryCatch m f p _ _).2 <| (hm p).mono (fun _ _ h => h) fun e q hq =>
    (hf e q).mono (fun _ _ h => hq.trans h) fun _ _ h => hq.trans h

/-- A choice takes the steps of whichever part is chosen. -/
theorem ite {c : Prop} [Decidable c] {m m' : Narrowing w α} (hm : Moves R m) (hm' : Moves R m') :
    Moves R (if c then m else m') := by
  split
  · exact hm
  · exact hm'

/-- A loop takes the steps of its turns. -/
theorem forM {f : Nat → Narrowing w Unit} {n : Nat} (hf : ∀ k, Moves R (f k)) :
    Moves R ((List.range n).forM f) := fun p =>
  Ends.forM_range (I := fun _ q => ReflTransGen R p.store q.store) .refl fun k _ q hq =>
    (hf k q).mono (fun _ _ h => hq.trans h) fun _ _ h => hq.trans h

end Narrowing.Moves

/-! ## Tightening -/

namespace Tighten

open Narrowing (Moves)

variable {R : Store w → Store w → Prop}

/-- Tightening an origin takes steps that narrow that origin. -/
theorem moves_origin {v : Var} (length : Int) (regions : List Span)
    (h : ∀ lo hi s b t, s.setBounds v lo hi = .ok (b, t) → R s t) :
    Moves R (origin v length regions) := by
  unfold origin
  refine .ite (.pure _) (.bind (.read _) fun d => ?_)
  dsimp only
  exact .ite (.bind (.report _) fun _ => .bind (.setBounds (h _ _)) fun _ => .pure _) (.pure _)

/-- Tightening an origin against several regions takes steps that narrow that origin. -/
theorem moves_originAgainst {v : Var} (length : Int)
    (regions : List (Store w → Except Fault (List Span)))
    (h : ∀ lo hi s b t, s.setBounds v lo hi = .ok (b, t) → R s t) :
    Moves R (originAgainst v length regions) := by
  induction regions with
  | nil => exact .pure _
  | cons f fs ih =>
    unfold originAgainst
    exact .bind (.read _) fun _ => .bind (moves_origin length _ h) fun _ => .bind ih fun _ => .pure _

/-- Tightening a rectangle takes steps that narrow its origins. -/
theorem moves_dimensions (rectangles : List Rectangle) (k : Nat) {r : Rectangle}
    (found : Neighborhood) (mode : Mode) (is : List Nat)
    (h : ∀ v ∈ r.origins, ∀ lo hi s b t, s.setBounds v lo hi = .ok (b, t) → R s t) :
    Moves R (dimensions rectangles k r found mode is) := by
  induction is with
  | nil => exact .pure _
  | cons i is ih =>
    unfold dimensions
    refine .bind (.read _) fun length => .ite ih ?_
    intro p
    refine (ends_bind _ _ p _ _).2 ((Narrowing.ends_read _ p).2 ⟨fun side hside => ?_, fun _ _ => .refl⟩)
    have hv : side.origin ∈ r.origins := by
      obtain ⟨hi, he⟩ := List.getElem?_eq_some_iff.1 (entry_eq_ok.1 hside)
      exact List.mem_map.2 ⟨side, he ▸ List.getElem_mem hi, rfl⟩
    exact (Moves.bind (moves_originAgainst _ _ (h _ hv)) fun _ => .bind ih fun _ => .pure _) p

end Tighten

/-! ## A pass -/

namespace Disjoint

/-- One step of a pass: an origin is narrowed, or candidates are replaced by those that an
analysis kept. -/
inductive Step (d : Disjoint) : Store w → Store w → Prop
  | narrow {s t : Store w} {v : Var} {lo hi : Int} {b : Bool} {r : Rectangle}
      (hr : r ∈ d.rectangles) (hv : v ∈ r.origins) (h : s.setBounds v lo hi = .ok (b, t)) : Step d s t
  | shrink {s t : Store w} {k : Nat} {current : List Nat} {changed : List Var}
      {found : Neighborhood} (hc : d.candidates.get s k = .ok current)
      (ha : analyze s d.rectangles k current changed = .ok found)
      (h : d.candidates.replace s k found.overlapping = .ok t) : Step d s t

/-- Any number of steps of a pass. -/
abbrev Steps (d : Disjoint) : Store w → Store w → Prop := ReflTransGen d.Step

open Narrowing (Moves)

variable (d : Disjoint) {R : Store w → Store w → Prop}

/-- Tightening a rectangle narrows its origins. -/
theorem moves_tighten (k : Nat) (found : Neighborhood)
    (narrow : ∀ r, d.rectangles[k]? = some r → ∀ v ∈ r.origins, ∀ lo hi s b t,
      s.setBounds v lo hi = .ok (b, t) → R s t) : Moves R (d.tighten k found : Narrowing w Unit) := by
  unfold tighten
  refine .bind (.tryCatch ?_ fun e => ?_) fun _ => .report _
  · unfold Tighten.rectangle
    intro p
    refine (ends_bind _ _ p _ _).2 ((Narrowing.ends_read _ p).2 ⟨fun r hr => ?_, fun _ _ => .refl⟩)
    exact Tighten.moves_dimensions _ _ _ _ _ (narrow r (entry_eq_ok.1 hr)) p
  · cases e with
    | fault c => exact .throw _
    | refuted c => exact .bind (.report _) fun _ => .throw _

/-- An inspection leaves the store as it is and gives what `analyze` gives. -/
theorem ends_inspect (changed : List Var) (k : Nat) (candidates : List Nat) (p : Pass w) :
    Ends (d.inspect changed k candidates) p
      (fun found q => q.store = p.store ∧
        analyze p.store d.rectangles k candidates changed = .ok found)
      fun e q => q.store = p.store ∧
        ((∃ c, e = .fault c ∧ analyze p.store d.rectangles k candidates changed = .error (.fault c)) ∨
          ∃ v : Violation, e = .refuted (.violated v.bound) ∧
            analyze p.store d.rectangles k candidates changed = .error (.refuted v)) := by
  unfold inspect
  rw [ends_bind, ends_get]
  cases h : analyze p.store d.rectangles k candidates changed with
  | ok found => exact ⟨rfl, rfl⟩
  | error e =>
    cases e with
    | fault c => exact ⟨rfl, .inl ⟨c, rfl, rfl⟩⟩
    | refuted v => exact ⟨rfl, .inr ⟨v, rfl, rfl⟩⟩

/-- Revising a rectangle takes steps that narrow its origins or replace its candidates by some of
them. -/
theorem moves_revise (changed : List Var) (k : Nat) (r : Rectangle)
    (narrow : ∀ r, d.rectangles[k]? = some r → ∀ v ∈ r.origins, ∀ lo hi s b t,
      s.setBounds v lo hi = .ok (b, t) → R s t)
    (shrink : ∀ s t current found, d.candidates.get s k = .ok current →
      analyze s d.rectangles k current changed = .ok found →
      d.candidates.replace s k found.overlapping = .ok t → R s t) :
    Moves R (d.revise changed k r : Narrowing w Unit) := by
  unfold revise
  refine .bind (.report _) fun _ p => ?_
  refine (ends_bind _ _ p _ _).2 ((Narrowing.ends_read _ p).2 ⟨fun current hc => ?_, fun _ _ => .refl⟩)
  refine (ends_bind _ _ p _ _).2 ((d.ends_inspect changed k current p).mono ?_ ?_)
  · rintro found q ⟨hq, ha⟩
    have tail : Moves R (d.tighten k found : Narrowing w Unit) := d.moves_tighten k found narrow
    dsimp only
    rw [← hq] at hc ha ⊢
    split
    · split
      · refine (ends_bind _ _ q _ _).2 ((ends_bind _ _ _ _ _).2 ?_)
        refine (Narrowing.ends_update _ _ _).2 ⟨fun t ht => ?_, fun _ _ => .refl⟩
        have hst := shrink _ t current found hc ha ht
        exact (tail _).mono (fun _ _ h => .head hst h) fun _ _ h => .head hst h
      · exact tail q
    · exact Moves.report _ q
  · rintro e q ⟨hq, -⟩
    rw [hq]

/-- A visit of a rectangle narrows its origins and replaces its candidates. -/
theorem moves_narrowRectangle (changed : List Var) (k : Nat)
    (narrow : ∀ r, d.rectangles[k]? = some r → ∀ v ∈ r.origins, ∀ lo hi s b t,
      s.setBounds v lo hi = .ok (b, t) → R s t)
    (shrink : ∀ s t current found, d.candidates.get s k = .ok current →
      analyze s d.rectangles k current changed = .ok found →
      d.candidates.replace s k found.overlapping = .ok t → R s t) :
    Moves R (d.narrowRectangle changed k : Narrowing w Unit) := by
  unfold narrowRectangle
  refine .bind (.read _) fun r => .bind (.read _) fun _ => ?_
  refine .ite (.bind .get fun _ => .report _) (.bind (.read _) fun _ => ?_)
  exact .ite (.report _) (d.moves_revise changed k r narrow shrink)

/-- A visit is a sequence of steps. -/
theorem steps_narrowRectangle (changed : List Var) (k : Nat) :
    Moves d.Step (d.narrowRectangle changed k : Narrowing w Unit) :=
  d.moves_narrowRectangle changed k
    (fun _ hr _ hv _ _ _ _ _ h => .narrow (List.mem_of_getElem? hr) hv h)
    fun _ _ _ _ hc ha h => .shrink hc ha h

/-- **A pass takes steps of its constraint only**, however it ends. -/
theorem moves_pass (changed : List Var) : Moves d.Step (d.pass changed : Narrowing w Unit) := by
  unfold pass
  have tail : Moves d.Step (do
      Narrowing.report .pass
      (List.range d.rectangles.length).forM (d.narrowRectangle changed) : Narrowing w Unit) :=
    .bind (.report _) fun _ => .forM fun k => d.steps_narrowRectangle changed k
  dsimp only
  exact .ite (.bind (.throw _) fun _ => tail) tail

/-- **A pass is a sequence of its steps**, however it ends. -/
theorem narrow_steps (changed : List Var) (s : Store w) : d.Steps s (d.narrow changed s).store := by
  have h := d.moves_pass changed ⟨s, []⟩
  unfold Ends at h
  unfold narrow Narrowing.runOn
  split at h <;> rename_i hm <;> rw [hm] <;> exact h

end Disjoint

/-! ## A propagation -/

/-- The constraint without its counters. -/
def Disjoint.bare (d : Disjoint) : Disjoint := { d with statistics := .zero }

/-- The steps of a constraint do not depend on what it has counted. -/
theorem Disjoint.step_bare {d : Disjoint} {s t : Store w} : d.bare.Step s t ↔ d.Step s t := by
  constructor
  · intro h
    cases h with
    | narrow hr hv h => exact .narrow hr hv h
    | shrink hc ha h => exact .shrink hc ha h
  · intro h
    cases h with
    | narrow hr hv h => exact .narrow hr hv h
    | shrink hc ha h => exact .shrink hc ha h

/-- One change that a propagation of the constraints `ds` makes: the pending variables are
taken, or a constraint takes a step. -/
inductive Store.Act (ds : List Disjoint) : Store w → Store w → Prop
  | clear (s : Store w) : Act ds s s.clearPending
  | step {s t : Store w} {d : Disjoint} (hd : d ∈ ds) (h : d.Step s t) : Act ds s t

/-- Any number of changes that a propagation makes. -/
abbrev Store.Acts (ds : List Disjoint) : Store w → Store w → Prop := ReflTransGen (Store.Act ds)

/-- The steps of a posted constraint are changes that a propagation makes. -/
theorem Disjoint.Steps.acts {d : Disjoint} {ds : List Disjoint} (hd : d.bare ∈ ds) {s t : Store w}
    (h : d.Steps s t) : Store.Acts ds s t :=
  ReflTransGen.mono (fun _ _ h => .step hd (Disjoint.step_bare.2 h)) _ _ h

/-- The posted constraint without its counters. -/
def Posted.bare (p : Posted Disjoint) : Posted Disjoint := ⟨p.propagator.bare, p.watched⟩

namespace Engine

/-- The posted constraints, without their counters. -/
def constraints (g : Engine w Disjoint) : List Disjoint := g.posted.map fun p => p.propagator.bare

/-- The engine `g'` came from `g` by changes that a propagation makes; the posted constraints are
the same but for their counters. -/
structure Evolves (g g' : Engine w Disjoint) : Prop where
  acts : Store.Acts g.constraints g.store g'.store
  posted_eq : g'.posted.map Posted.bare = g.posted.map Posted.bare

variable {g g' g'' : Engine w Disjoint}

/-- Engines with the same constraints but for their counters have the same bare constraints. -/
theorem constraints_eq (h : g'.posted.map Posted.bare = g.posted.map Posted.bare) :
    g'.constraints = g.constraints := by
  have := congrArg (List.map Posted.propagator) h
  simpa [constraints, Function.comp_def, Posted.bare] using this

/-- An engine that has only counted has evolved. -/
theorem Evolves.refl (hs : g'.store = g.store) (hp : g'.posted = g.posted) : Evolves g g' :=
  ⟨hs ▸ .refl, by rw [hp]⟩

/-- Evolving twice is evolving. -/
theorem Evolves.trans (h : Evolves g g') (h' : Evolves g' g'') : Evolves g g'' :=
  ⟨h.acts.trans (constraints_eq h.posted_eq ▸ h'.acts), h'.posted_eq.trans h.posted_eq⟩

/-- Narrowing one posted constraint. -/
theorem Evolves.narrow {changed : List Var} {k : Nat} {p : Posted Disjoint}
    (hp : g.posted[k]? = some p) (hs : g'.store = (p.propagator.narrow changed g.store).store)
    (hg : g'.posted = g.posted.set k ⟨(p.propagator.narrow changed g.store).propagator, p.watched⟩) :
    Evolves g g' := by
  obtain ⟨hk, rfl⟩ := List.getElem?_eq_some_iff.1 hp
  refine ⟨?_, ?_⟩
  · rw [hs]
    refine (Disjoint.narrow_steps _ _ _).acts ?_
    exact List.mem_map.2 ⟨_, List.getElem_mem hk, rfl⟩
  · rw [hg]
    refine List.ext_getElem? fun i => ?_
    rw [List.getElem?_map, List.getElem?_map, List.getElem?_set]
    split
    · next hi =>
      subst hi
      simp [hk, Posted.bare, Disjoint.bare, Disjoint.narrow]
    · rfl

/-- **A propagation changes the store by the steps of its constraints**, however it ends. -/
theorem propagate_evolves (g : Engine w Disjoint) :
    Ends propagate g (fun _ g' => Evolves g g') fun _ g' => Evolves g g' := by
  refine ends_propagate fun g₁ hs hp => ?_
  refine (ends_rounds (I := fun _ g' => Evolves g g') (fun n g₂ h _ => ?_) (fun _ h _ => h)
    (.refl hs hp)).mono (fun _ _ h => h.1.choose_spec) fun _ _ h => h
  refine ends_round fun g₃ hs hp => ?_
  have h₃ : Evolves g g₃ := h.trans ⟨hs ▸ .single (.clear _), by rw [hp]⟩
  refine Ends.forM_range (I := fun _ g' => Evolves g g') h₃ fun k _ g₄ h₄ => ?_
  refine ends_wake (fun _ => h₄) fun p hp _ g₅ hs hg => ?_
  have h₅ : Evolves g g₅ := h₄.trans (.narrow hp hs hg)
  exact ⟨fun _ => h₅, fun _ _ => h₅⟩

end Engine
end Placement
