/-
# Candidates in a shared store

Others may keep slots of their own in the store of a session, and create them at any level. Such
a slot outlives the level it was created at and may not be given back by backtracking, so the
store as a whole need not come back as it was. What was created at the root does come back.

`Store.Throughout G P` follows a store through its levels: the places of `G` exist since the
root, and `P` holds of the store and of the one that each open level was opened in. For the
variables and the slots of candidates of a session in which variables and constraints are
declared at the root (`Session.RootDeclaration`), this keeps candidates sound at every level.
-/

import Placement.Proofs.CachedCandidates
import Placement.Proofs.LateCreation

namespace Placement

variable {w : Width}

/-! ## Every level that is open -/

namespace Store

/-- The places of `G` exist since the root, and `P` holds of the store and of every store in which
a level was opened that is still open. -/
inductive Throughout (G : Place → Prop) (P : Store w → Prop) : Store w → Prop
  | root {s : Store w} (h0 : s.level = 0) (hg : ∀ p, G p → s.Dated p) (h : P s) : Throughout G P s
  | opened {base s : Store w} (hbase : Throughout G P base) (hs : Sustains base.pushLevel s) (h : P s) :
      Throughout G P s

namespace Throughout

variable {G : Place → Prop} {P : Store w → Prop} {s t : Store w}

/-- What holds throughout holds now. -/
theorem now (h : Throughout G P s) : P s := by
  cases h with
  | root _ _ h => exact h
  | opened _ _ h => exact h

/-- The places of `G` are dated. -/
theorem dated (h : Throughout G P s) {p : Place} (hp : G p) : s.Dated p := by
  induction h with
  | root _ hg _ => exact hg p hp
  | opened _ hs _ ih => exact hs.dated p ih.pushLevel

/-- What sustains the store stays at its level. -/
theorem sustain (h : Throughout G P s) (hst : Sustains s t) (ht : P t) : Throughout G P t := by
  cases h with
  | root h0 hg _ => exact .root (hst.level_eq.trans h0) (fun p hp => hst.dated p (hg p hp)) ht
  | opened hbase hs _ => exact .opened hbase (hs.trans hst) ht

/-- What holds throughout still does when a level is opened. -/
theorem pushLevel (h : Throughout G P s) (hp : P s.pushLevel) : Throughout G P s.pushLevel :=
  .opened h (.refl _) hp

/-- **Leaving a level** gives the places of `G` back as they were when it was opened. -/
theorem backtrack (h : Throughout G P s)
    (hback : ∀ base, P base → (∀ p, G p → s.backtrack.2.held p = base.held p) → P s.backtrack.2) :
    Throughout G P s.backtrack.2 := by
  cases h with
  | root h0 hg h =>
    rw [backtrack_of_level_eq_zero h0] at hback ⊢
    exact (Throughout.root h0 hg h).sustain (Write.clear s).sustains
      (hback s h fun p _ => held_clearPending s p)
  | opened hbase hs h =>
    refine hbase.sustain (sustains_branch hs) (hback _ hbase.now fun p hp => ?_)
    obtain ⟨e, he, hle⟩ := hbase.dated hp
    rw [hs.held_backtrack he hle, he]

end Throughout

/-! ## What candidates rest on -/

/-- The variables below `n`, and the slots of the constraints. -/
def Founded (ds : List Disjoint) (n : Nat) : Place → Prop
  | .var v => v.val < n
  | .slot x => ∃ d ∈ ds, x ∈ d.candidates.slots

/-- There are `n` variables, and the constraints have sound candidates. -/
structure Supports (ds : List Disjoint) (n : Nat) (s : Store w) : Prop where
  length_eq : s.cells.length = n
  sound : ∀ d ∈ ds, d.Sound s

variable {ds : List Disjoint} {n : Nat} {s t : Store w}

/-- The domain of a variable is read off what its place holds. -/
theorem dom_of_held {v : Var} (hv : v.val < s.cells.length) (h : t.held (.var v) = s.held (.var v)) :
    t.dom v = s.dom v := by
  have hc := List.getElem?_eq_getElem hv
  simp only [held, hc, Option.map_some, Option.map_eq_some_iff] at h
  obtain ⟨c, hct, he⟩ := h
  injection he with _ hd _
  rw [dom_of_cell hc, dom_of_cell hct, hd]

/-- A slot is read off what its place holds. -/
theorem slot_of_held {x : Slot} (h : t.held (.slot x) = s.held (.slot x)) :
    t.slots[x.val]? = s.slots[x.val]? := by
  refine Option.map_injective (fun a b he => ?_) h
  injection he with _ hvalue hstamp
  cases a
  cases b
  rw [Saved.mk.injEq]
  exact ⟨hvalue, hstamp⟩

/-- Sound candidates come back with the variables and their slots. -/
theorem Supports.of_held (h : Supports ds n s) (hlen : t.cells.length = n)
    (hheld : ∀ p, Founded ds n p → t.held p = s.held p) : Supports ds n t := by
  refine ⟨hlen, fun d hd => (h.sound d hd).of_get ⟨?_, fun v hv => ?_⟩ fun k cs hcs => ?_⟩
  · exact Nat.le_of_eq (h.length_eq.trans hlen.symm)
  · rw [dom_of_held hv (hheld (.var v) (h.length_eq ▸ hv))]
    exact .refl _
  · rw [Candidates.get_of_slots fun x hx => slot_of_held (hheld (.slot x) ⟨d, hd, List.mem_of_getElem? hx⟩)]
    exact hcs

/-- The slots of a constraint that was just imposed are dated. -/
theorem dated_imposed {ds' : List Disjoint} {d : Disjoint} {id : ConstraintId}
    (hg : ∀ p, Founded ds n p → s.Dated p) (hds : ∀ e, e ∈ ds' ↔ e ∈ ds ∨ e = (d.imposed id s).bare)
    {p : Place} (hp : Founded ds' n p) : (s.allot d.rectangles.length).Dated p := by
  have hallot : Sustains s (s.allot d.rectangles.length) :=
    sustains_of_append (List.append_nil _).symm rfl rfl
  cases p with
  | var v => exact hallot.dated _ (hg (.var v) hp)
  | slot x =>
    obtain ⟨e, he, hx⟩ := hp
    rcases (hds e).1 he with he | rfl
    · exact hallot.dated _ (hg (.slot x) ⟨e, he, hx⟩)
    · obtain ⟨k, hk⟩ := List.getElem?_of_mem hx
      obtain ⟨hlt, hval⟩ := (slots_imposed d id s).1 hk
      refine ⟨.slot x (Candidates.others d.rectangles.length k) s.level, ?_, Nat.le_refl _⟩
      simp [held, allot, hval, hlt]

end Store

/-! ## Sessions -/

namespace Session

open Store (Founded Supports Sustains Throughout)

variable {s : Session w}

/-- An operation that declares nothing keeps the constraints and the number of variables. -/
theorem constraints_of_not_declares (s : Session w) {op : Op w} (hop : op.Stays) (hd : ¬ op.Declares) :
    (s.step op).2.constraints = s.constraints ∧ (s.step op).2.store.cells.length = s.store.cells.length := by
  cases op using Op.kinds with
  | flat op hflat =>
    have hf := s.flows_of_flat_any hflat
    exact ⟨hf.constraints_eq, hf.changes.writes.length_cells⟩
  | newSnapshot value => exact ⟨rfl, rfl⟩
  | newVar d => exact absurd trivial hd
  | post d => exact absurd trivial hd
  | impose d id => exact absurd trivial hd
  | pushLevel => exact hop.elim
  | backtrack => exact hop.elim

/-- What is declared is dated. -/
theorem dated_of_declares {op : Op w} (hd : op.Declares)
    (hg : ∀ p, Founded s.constraints s.store.cells.length p → s.store.Dated p) {p : Place}
    (hp : Founded (s.step op).2.constraints (s.step op).2.store.cells.length p) :
    (s.step op).2.store.Dated p := by
  cases op using Op.kinds with
  | flat op hflat => exact absurd hd hflat.not_declares
  | newSnapshot value => exact hd.elim
  | pushLevel => exact hd.elim
  | backtrack => exact hd.elim
  | newVar e =>
    have hst : Sustains s.store (s.step (.newVar e)).2.store := s.sustains_step trivial
    cases p with
    | slot x => exact hst.dated _ (hg _ hp)
    | var v =>
      have hlen : (s.step (.newVar e)).2.store.cells.length = s.store.cells.length + 1 := List.length_append
      have hv : v.val < s.store.cells.length + 1 := hlen ▸ hp
      rcases Nat.lt_succ_iff_lt_or_eq.1 hv with hlt | heq
      · exact hst.dated _ (hg (.var v) hlt)
      · obtain rfl : v = ⟨s.store.numVars⟩ := congrArg Index.mk heq
        exact s.dated_newVar e
  | post d =>
    rcases s.step_post d with ⟨t, ht, hs, hp', hl⟩ | ⟨hs, hp', hl⟩
    · rw [hs] at hp ⊢
      have hw := Store.touchAll_writes ht
      rw [hw.length_cells] at hp
      exact hw.sustains.dated p (Store.dated_imposed hg (mem_constraints_post hp' hl) hp)
    · rw [hs, constraints_of_posted_eq hp' hl] at hp
      have hst : Sustains s.store (s.step (.post d)).2.store := s.sustains_step trivial
      exact hst.dated p (hg p hp)
  | impose d id =>
    obtain ⟨hs, hp', hl⟩ := s.step_impose d id
    rw [hs] at hp ⊢
    exact Store.dated_imposed hg (mem_constraints_impose hp' hl) hp

/-- **Where variables and constraints are declared at the root and slots of candidates are left to
their constraints, candidates are sound at every open level**, whatever else is kept in the store. -/
theorem throughout_sound (hs : s.Reached fun s op => RootDeclaration s op ∧ OwnSlots s op) :
    s.store.Throughout (Founded s.constraints s.store.cells.length)
      (Supports s.constraints s.store.cells.length) := by
  induction hs with
  | start =>
    refine .root rfl ?_ ⟨rfl, nofun⟩
    rintro (v | x) hp
    · exact absurd hp (Nat.not_lt_zero _)
    · obtain ⟨d, hd, -⟩ := hp
      cases hd
  | @step s op hr ha ih =>
    have hstep : op.Stays → Supports (s.step op).2.constraints (s.step op).2.store.cells.length
        (s.step op).2.store := fun hop => ⟨rfl, allSound_step hr hop ha.2 ih.now.sound⟩
    by_cases hd : op.Declares
    · have hlevel := (s.sustains_step hd.stays).level_eq.trans (ha.1 hd)
      exact .root hlevel (fun p hp => dated_of_declares hd (fun _ => ih.dated) hp) (hstep hd.stays)
    · cases op using Op.kinds with
      | pushLevel => exact ih.pushLevel (ih.now.of_held rfl fun p _ => by cases p <;> rfl)
      | backtrack =>
        have hlen : (s.step .backtrack).2.store.cells.length = s.store.cells.length := s.store.length_backtrack.1
        rw [hlen]
        exact ih.backtrack fun base hbase hheld => hbase.of_held hlen hheld
      | flat op hflat =>
        obtain ⟨hc, hl⟩ := s.constraints_of_not_declares hflat.stays hd
        have hsound := hstep hflat.stays
        rw [hc, hl] at hsound ⊢
        exact ih.sustain (s.sustains_step hflat.stays) hsound
      | newSnapshot value => exact ih.sustain (s.sustains_step trivial) (hstep trivial)
      | newVar d => exact absurd trivial hd
      | post d => exact absurd trivial hd
      | impose d id => exact absurd trivial hd

end Session
end Placement
