/-
# Sessions

A session is an engine over non-overlap constraints together with the constraints that
were imposed on its store by hand, outside the engine. `Op` lists everything that can be
done to it, and `Session.step` does it: it gives the answer and the session afterwards.
A failed operation answers with its failure, and the session goes on from what the
failure left behind.

`Session.Reached allowed` are the sessions that some sequence of operations leads to from
the empty one, where `allowed` says which operations may be done in which session. The
rules that occur are `Session.RootCreation` (what is created is created at the root), the weaker
`Session.RootDeclaration` (slots may be created at any level) and `Session.OwnSlots` (the
candidates of a constraint are written by the constraint only).
-/

import Placement.Proofs.Imposing
import Placement.Proofs.Passes
import Placement.Proofs.Reading

namespace Placement

/-- An engine, and the constraints imposed on its store by hand. -/
structure Session (w : Width) where
  engine : Engine w Disjoint
  loose : List Disjoint

/-- What can be done to a session. -/
inductive Op (w : Width) where
  /-- Creates a variable. -/
  | newVar (d : Domain w)
  /-- Creates a slot. -/
  | newSnapshot (value : List Nat)
  | setMin (v : Var) (lo : Int)
  | setMax (v : Var) (hi : Int)
  | setBounds (v : Var) (lo hi : Int)
  | fix (v : Var) (x : Int)
  | setSnapshot (k : Slot) (value : List Nat)
  | touch (v : Var)
  | takeChanged
  | pushLevel
  | backtrack
  /-- Posts a constraint to the engine. -/
  | post (d : Disjoint)
  /-- Imposes a constraint on the store by hand. -/
  | impose (d : Disjoint) (id : ConstraintId)
  /-- Narrows the constraint imposed by hand at position `i`, for any variables. -/
  | narrow (i : Nat) (changed : List Var)
  /-- Narrows the posted constraint at position `i`, for any variables. -/
  | narrowPosted (i : Nat) (changed : List Var)
  | propagate

/-- What an operation answers. -/
inductive Answer where
  | var (v : Var)
  | slot (k : Slot)
  | constraint (id : ConstraintId)
  /-- Whether a domain changed, or whether a level was left. -/
  | flag (b : Bool)
  | vars (vs : List Var)
  | done
  | failed (e : Failure Inconsistency)
deriving DecidableEq

/-- The answer to an operation that gives nothing. -/
def Answer.ofOutcome : Except (Failure Inconsistency) Unit → Answer
  | .ok () => .done
  | .error e => .failed e

namespace Session

variable {w : Width}

/-- Nothing created, nothing posted. -/
def empty : Session w := ⟨.ofStore .empty, []⟩

/-- The store of the engine. -/
def store (s : Session w) : Store w := s.engine.store

/-- The posted constraints and those imposed by hand, without their counters. -/
def constraints (s : Session w) : List Disjoint := s.engine.constraints ++ s.loose.map Disjoint.bare

/-- The session with another store. -/
def withStore (s : Session w) (t : Store w) : Session w :=
  { s with engine := { s.engine with store := t } }

/-- A narrowing by hand of one domain. -/
def bounded (s : Session w) : Except (Failure Inconsistency) (Bool × Store w) → Answer × Session w
  | .ok (b, t) => (.flag b, s.withStore t)
  | .error e => (.failed e, s)

/-- A write that can only be misused. -/
def written (s : Session w) : Except Fault (Store w) → Answer × Session w
  | .ok t => (.done, s.withStore t)
  | .error c => (.failed (.fault c), s)

/-- What the engine has done. -/
def acted {α : Type} (s : Session w) (answer : α → Answer) :
    EStateM.Result (Failure Inconsistency) (Engine w Disjoint) α → Answer × Session w
  | .ok a g => (answer a, { s with engine := g })
  | .error e g => (.failed e, { s with engine := g })

/-- Does one operation: the answer, and the session afterwards. -/
def step (s : Session w) : Op w → Answer × Session w
  | .newVar d => (.var (s.store.newVar d).1, s.withStore (s.store.newVar d).2)
  | .newSnapshot value =>
    (.slot (s.store.newSnapshot value).1, s.withStore (s.store.newSnapshot value).2)
  | .setMin v lo => s.bounded (s.store.setMin v lo)
  | .setMax v hi => s.bounded (s.store.setMax v hi)
  | .setBounds v lo hi => s.bounded (s.store.setBounds v lo hi)
  | .fix v x => s.bounded (s.store.fix v x)
  | .setSnapshot k value => s.written (s.store.setSnapshot k value)
  | .touch v => s.written (s.store.touch v)
  | .takeChanged => (.vars s.store.takeChanged.1, s.withStore s.store.takeChanged.2)
  | .pushLevel => (.done, s.withStore s.store.pushLevel)
  | .backtrack => (.flag s.store.backtrack.1, s.withStore s.store.backtrack.2)
  | .post d => s.acted .constraint (Engine.post d s.engine)
  | .impose d id =>
    (.done,
      { s.withStore (d.impose id s.store).2.1 with loose := s.loose ++ [(d.impose id s.store).1] })
  | .narrow i changed =>
    match s.loose[i]? with
    | none => (.failed (.fault .index), s)
    | some d =>
      let r := d.narrow changed s.store
      (.ofOutcome r.outcome, { s.withStore r.store with loose := s.loose.set i r.propagator })
  | .narrowPosted i changed =>
    match s.engine.posted[i]? with
    | none => (.failed (.fault .index), s)
    | some p =>
      let r := p.propagator.narrow changed s.store
      (.ofOutcome r.outcome,
        { s with engine :=
          { s.engine with
            store := r.store
            posted := s.engine.posted.set i ⟨r.propagator, p.watched⟩ } })
  | .propagate => s.acted (fun _ => .done) (Engine.propagate s.engine)

/-- Does operations in turn. -/
def run (s : Session w) : List (Op w) → Session w
  | [] => s
  | op :: ops => (s.step op).2.run ops

/-- The answers to operations done in turn, each with the store after it. -/
def trace (s : Session w) : List (Op w) → List (Answer × Store w)
  | [] => []
  | op :: ops => ((s.step op).1, (s.step op).2.store) :: (s.step op).2.trace ops

/-! ## Runs under a rule -/

/-- The sessions that allowed operations lead to. -/
inductive Reached (allowed : Session w → Op w → Prop) : Session w → Prop
  | start : Reached allowed empty
  | step {s : Session w} {op : Op w} (h : Reached allowed s) (ha : allowed s op) :
      Reached allowed (s.step op).2

/-- Every operation of a sequence is allowed where it is done. -/
def Permits (allowed : Session w → Op w → Prop) (s : Session w) : List (Op w) → Prop
  | [] => True
  | op :: ops => allowed s op ∧ Permits allowed (s.step op).2 ops

instance decidablePermits (allowed : Session w → Op w → Prop) [∀ s op, Decidable (allowed s op)]
    (s : Session w) (ops : List (Op w)) : Decidable (Permits allowed s ops) :=
  match ops with
  | [] => inferInstanceAs (Decidable True)
  | op :: ops =>
    have := decidablePermits allowed (s.step op).2 ops
    inferInstanceAs (Decidable (_ ∧ _))

/-- A run of allowed operations leads on to a reached session. -/
theorem Reached.run {allowed : Session w → Op w → Prop} {s : Session w} (h : Reached allowed s)
    {ops : List (Op w)} (hops : Permits allowed s ops) : Reached allowed (s.run ops) := by
  induction ops generalizing s with
  | nil => exact h
  | cons op ops ih => exact ih (h.step hops.1) hops.2

end Session

/-- The operation creates a variable, a slot or a constraint. -/
def Op.Creates {w : Width} : Op w → Prop
  | newVar _ | newSnapshot _ | post _ | impose _ _ => True
  | _ => False

instance {w : Width} (op : Op w) : Decidable op.Creates := by
  cases op <;> (unfold Op.Creates; infer_instance)

/-- The operation declares a variable or a constraint. -/
def Op.Declares {w : Width} : Op w → Prop
  | newVar _ | post _ | impose _ _ => True
  | _ => False

instance {w : Width} (op : Op w) : Decidable op.Declares := by
  cases op <;> (unfold Op.Declares; infer_instance)

namespace Session

variable {w : Width}

/-- What is created is created at the root. -/
def RootCreation (s : Session w) (op : Op w) : Prop := op.Creates → s.store.level = 0

instance (s : Session w) (op : Op w) : Decidable (RootCreation s op) :=
  inferInstanceAs (Decidable (_ → _))

/-- Variables and constraints are declared at the root; slots may be created at any level. -/
def RootDeclaration (s : Session w) (op : Op w) : Prop := op.Declares → s.store.level = 0

instance (s : Session w) (op : Op w) : Decidable (RootDeclaration s op) :=
  inferInstanceAs (Decidable (_ → _))

/-- A slot that holds candidates is written by its constraint only. -/
def OwnSlots (s : Session w) : Op w → Prop
  | .setSnapshot k _ => ∀ d ∈ s.constraints, k ∉ d.candidates.slots
  | _ => True

instance (s : Session w) (op : Op w) : Decidable (OwnSlots s op) := by
  cases op <;> (unfold OwnSlots; infer_instance)

/-! ## What one operation does -/

end Session

/-- One change of a store at its level: a write by hand, where `free` says which slots may be
written by hand, or a step of one of the constraints `ds`. -/
inductive Store.Change {w : Width} (ds : List Disjoint) (free : Slot → Prop) :
    Store w → Store w → Prop
  | bounds {s t : Store w} {v : Var} {lo hi : Int} {b : Bool}
      (h : s.setBounds v lo hi = .ok (b, t)) : Change ds free s t
  | slot {s t : Store w} {k : Slot} {value : List Nat} (hk : free k)
      (h : s.setSnapshot k value = .ok t) : Change ds free s t
  | touch {s t : Store w} {v : Var} (h : s.touch v = .ok t) : Change ds free s t
  | act {s t : Store w} (h : Store.Act ds s t) : Change ds free s t

/-- Any number of changes. -/
abbrev Store.Changes {w : Width} (ds : List Disjoint) (free : Slot → Prop) :
    Store w → Store w → Prop := Relation.ReflTransGen (Store.Change ds free)

/-- The operation neither creates anything nor changes the level. -/
def Op.Flat {w : Width} : Op w → Prop
  | newVar _ | newSnapshot _ | post _ | impose _ _ | pushLevel | backtrack => False
  | _ => True

/-- The operation neither opens nor leaves a level. -/
def Op.Stays {w : Width} : Op w → Prop
  | pushLevel | backtrack => False
  | _ => True

/-- A flat operation stays at its level. -/
theorem Op.Flat.stays {w : Width} {op : Op w} (h : op.Flat) : op.Stays := by
  cases op with
  | pushLevel | backtrack => exact h
  | _ => trivial

/-- A flat operation declares nothing. -/
theorem Op.Flat.not_declares {w : Width} {op : Op w} (h : op.Flat) : ¬ op.Declares := by
  cases op with
  | newVar _ | post _ | impose _ _ => exact h.elim
  | _ => exact id

/-- A declaration stays at its level. -/
theorem Op.Declares.stays {w : Width} {op : Op w} (h : op.Declares) : op.Stays := by
  cases op with
  | pushLevel | backtrack => exact h
  | _ => trivial

/-- The kinds of operations. -/
@[elab_as_elim] theorem Op.kinds {w : Width} {motive : Op w → Prop} (op : Op w)
    (flat : ∀ op : Op w, op.Flat → motive op) (newVar : ∀ d, motive (.newVar d))
    (newSnapshot : ∀ value, motive (.newSnapshot value)) (post : ∀ d, motive (.post d))
    (impose : ∀ d id, motive (.impose d id)) (pushLevel : motive .pushLevel)
    (backtrack : motive .backtrack) : motive op := by
  cases op with
  | newVar d => exact newVar d
  | newSnapshot value => exact newSnapshot value
  | post d => exact post d
  | impose d id => exact impose d id
  | pushLevel => exact pushLevel
  | backtrack => exact backtrack
  | _ => exact flat _ trivial

namespace Session

variable {w : Width} {s : Session w} {free : Slot → Prop}

/-- The session `t` came from `s` by changes of the store; the constraints are the same but for
their counters. -/
structure Flows (free : Slot → Prop) (s t : Session w) : Prop where
  posted_eq : t.engine.posted.map Posted.bare = s.engine.posted.map Posted.bare
  loose_eq : t.loose.map Disjoint.bare = s.loose.map Disjoint.bare
  changes : Store.Changes s.constraints free s.store t.store

/-- The constraints of a session that flows on are the same but for their counters. -/
theorem Flows.constraints_eq {t : Session w} (h : Flows free s t) : t.constraints = s.constraints := by
  unfold constraints
  rw [Engine.constraints_eq h.posted_eq, h.loose_eq]

/-- Narrowing a domain flows, if narrowing the store is a change. -/
theorem flows_bounded {x : Except (Failure Inconsistency) (Bool × Store w)}
    (h : ∀ b t, x = .ok (b, t) → Store.Changes s.constraints free s.store t) :
    Flows free s (s.bounded x).2 := by
  cases x with
  | ok r => exact ⟨rfl, rfl, h _ _ rfl⟩
  | error e => exact ⟨rfl, rfl, .refl⟩

/-- Writing to the store flows, if the write is a change. -/
theorem flows_written {x : Except Fault (Store w)}
    (h : ∀ t, x = .ok t → Store.Changes s.constraints free s.store t) :
    Flows free s (s.written x).2 := by
  cases x with
  | ok t => exact ⟨rfl, rfl, h _ rfl⟩
  | error e => exact ⟨rfl, rfl, .refl⟩

/-- What a propagation changes is a sequence of changes, whatever slots are free. -/
theorem changes_of_acts {ds : List Disjoint} {t u : Store w} (h : Store.Acts ds t u) :
    Store.Changes ds free t u :=
  Relation.ReflTransGen.mono (fun _ _ h => .act h) _ _ h

/-- An engine that evolves makes the session flow. -/
theorem flows_of_evolves {g : Engine w Disjoint} (h : s.engine.Evolves g) :
    Flows free s { s with engine := g } := by
  refine ⟨h.posted_eq, rfl, changes_of_acts ?_⟩
  refine Relation.ReflTransGen.mono (fun t u h => ?_) _ _ h.acts
  cases h with
  | clear => exact .clear _
  | step hd h => exact .step (List.mem_append_left _ hd) h

/-- **A flat operation changes the store by writes and steps**, whatever it answers, and keeps
the constraints. -/
theorem flows_of_flat (free : Slot → Prop) {op : Op w} (hop : op.Flat)
    (hfree : ∀ k value, op = .setSnapshot k value → free k) : Flows free s (s.step op).2 := by
  cases op with
  | newVar _ | newSnapshot _ | post _ | impose _ _ | pushLevel | backtrack => exact hop.elim
  | setMin v lo =>
    refine flows_bounded fun b t h => ?_
    obtain ⟨_, h⟩ := Store.setBounds_of_setMin h
    exact .single (.bounds h)
  | setMax v hi =>
    refine flows_bounded fun b t h => ?_
    obtain ⟨_, h⟩ := Store.setBounds_of_setMax h
    exact .single (.bounds h)
  | setBounds v lo hi => exact flows_bounded fun b t h => .single (.bounds h)
  | fix v x => exact flows_bounded fun b t h => .single (.bounds h)
  | setSnapshot k value => exact flows_written fun t h => .single (.slot (hfree k value rfl) h)
  | touch v => exact flows_written fun t h => .single (.touch h)
  | takeChanged => exact ⟨rfl, rfl, .single (.act (.clear _))⟩
  | narrow i changed =>
    unfold step
    dsimp only
    split
    · exact ⟨rfl, rfl, .refl⟩
    · next d hd =>
      obtain ⟨hi, rfl⟩ := List.getElem?_eq_some_iff.1 hd
      refine ⟨rfl, ?_, changes_of_acts ((Disjoint.narrow_steps _ _ _).acts ?_)⟩
      · refine List.ext_getElem? fun j => ?_
        rw [List.getElem?_map, List.getElem?_map, List.getElem?_set]
        split
        · next hj => subst hj; simp [hi, Disjoint.bare, Disjoint.narrow]
        · rfl
      · exact List.mem_append_right _ (List.mem_map.2 ⟨_, List.getElem_mem hi, rfl⟩)
  | narrowPosted i changed =>
    unfold step
    dsimp only
    split
    · exact ⟨rfl, rfl, .refl⟩
    · next p hp => exact flows_of_evolves (Engine.Evolves.narrow hp rfl rfl)
  | propagate =>
    have h := Engine.propagate_evolves s.engine
    unfold Ends at h
    unfold step acted
    dsimp only
    split at h <;> rename_i hm <;> rw [hm] <;> exact flows_of_evolves h

/-- Flat operations flow, where any slot may be written. -/
theorem flows_of_flat_any (s : Session w) {op : Op w} (hop : op.Flat) :
    Flows (fun _ => True) s (s.step op).2 :=
  flows_of_flat _ hop fun _ _ _ => trivial

/-- Where slots of candidates are left to their constraints, other slots only are written by hand. -/
theorem flows_of_flat_own {op : Op w} (hop : op.Flat) (hown : OwnSlots s op) :
    Flows (fun k => ∀ d ∈ s.constraints, k ∉ d.candidates.slots) s (s.step op).2 :=
  flows_of_flat _ hop fun k value he => by subst he; exact hown

/-- **Posting** adds a constraint whose whole scope is pending, or, if a variable of the scope does
not exist, only the slots. -/
theorem step_post (s : Session w) (d : Disjoint) :
    (∃ t, (s.store.allot d.rectangles.length).touchAll d.scope = .ok t ∧
      (s.step (.post d)).2.store = t ∧
      (s.step (.post d)).2.engine.posted =
        s.engine.posted ++ [⟨d.imposed ⟨s.engine.posted.length⟩ s.store, d.scope⟩] ∧
      (s.step (.post d)).2.loose = s.loose) ∨
    (s.step (.post d)).2.store = s.store.allot d.rectangles.length ∧
      (s.step (.post d)).2.engine.posted = s.engine.posted ∧
      (s.step (.post d)).2.loose = s.loose := by
  have hstep : s.step (.post d) = s.acted .constraint (Engine.post d s.engine) := rfl
  cases ht : (s.store.allot d.rectangles.length).touchAll d.scope with
  | ok t =>
    obtain ⟨g, hs, hp, he⟩ := Engine.post_eq_ok (g := s.engine) ht
    rw [hstep, he]
    exact .inl ⟨t, rfl, hs, hp, rfl⟩
  | error c =>
    obtain ⟨g, hs, hp, he⟩ := Engine.post_eq_error (g := s.engine) ht
    rw [hstep, he]
    exact .inr ⟨hs, hp, rfl⟩

/-- **Imposing by hand** adds a constraint. -/
theorem step_impose (s : Session w) (d : Disjoint) (id : ConstraintId) :
    (s.step (.impose d id)).2.store = s.store.allot d.rectangles.length ∧
      (s.step (.impose d id)).2.engine.posted = s.engine.posted ∧
      (s.step (.impose d id)).2.loose = s.loose ++ [d.imposed id s.store] := by
  have hstep : s.step (.impose d id) = (.done,
      { s.withStore (d.impose id s.store).2.1 with
        loose := s.loose ++ [(d.impose id s.store).1] }) := rfl
  rw [hstep, d.impose_eq]
  exact ⟨rfl, rfl, rfl⟩

end Session

/-! ## A small session -/

namespace Session

/-- Makes two squares of side 3 whose lower edges are at height 0 and whose left edges are at
`0 … 4`, and posts that they do not overlap. -/
def squares : List (Op .w8) :=
  let edge : Domain .w8 := ⟨0, 4, by decide, by decide, by decide⟩
  let square := fun v : Nat => (⟨[⟨⟨v⟩, ⟨3⟩⟩, ⟨⟨2⟩, ⟨3⟩⟩], List.cons_ne_nil _ _⟩ : Rectangle)
  [.newVar edge, .newVar edge, .newVar (.single 0 (by decide)), .newVar (.single 3 (by decide)),
    .post ⟨none, [square 0, square 1], .profile (.stable _), .empty, .zero, by decide⟩]

end Session

/-- Every change is a write. -/
theorem Store.Change.write {w : Width} {ds : List Disjoint} {free : Slot → Prop} {s t : Store w}
    (h : Store.Change ds free s t) : Store.Write s t := by
  cases h with
  | bounds h => exact .bounds h
  | slot _ h => exact .slot h
  | touch h => exact .touch h
  | act h =>
    cases h with
    | clear => exact .clear _
    | step hd h =>
      cases h with
      | narrow _ _ h => exact .bounds h
      | shrink _ _ h =>
        obtain ⟨_, _, _, _, _, h⟩ := Candidates.replace_eq_ok h
        exact .slot h

/-- Changes are writes. -/
theorem Store.Changes.writes {w : Width} {ds : List Disjoint} {free : Slot → Prop} {s t : Store w}
    (h : Store.Changes ds free s t) : Store.Writes s t :=
  Relation.ReflTransGen.mono (fun _ _ h => h.write) _ _ h

end Placement
