/-
# Backtracking undoes a whole branch

A branch is what happens between opening a level and leaving it again: flat operations,
and inner branches (`Session.Balanced`). An inner branch, once left, amounts to marking
everything as not pending, so a whole branch amounts to writes at its level
(`Session.writes_of_balanced`), and writes do not change what backtracking gives.

What comes after depends on nothing that a branch leaves behind: two sessions that differ
only in counters and reports answer alike and stay alike (`Session.Alike.step`).
-/

import Placement.Proofs.Backtracking
import Placement.Proofs.Replay

namespace Placement

open Store (Always Layered)

variable {w : Width}

/-- At the root, a layered store stays layered when a constraint is imposed on it. -/
theorem Store.Layered.allot {s : Store w} (hs : s.Layered) (h0 : s.level = 0) (count : Nat) :
    (s.allot count).Layered :=
  hs.append_slots h0 fun a ha => by
    obtain ⟨r, -, rfl⟩ := List.mem_map.1 ha
    rfl

namespace Session

variable {s t : Session w}

/-! ## The invariant of every level -/

/-- At the root, a layered session stays layered when a constraint is posted, however that ends. -/
theorem layered_post (d : Disjoint) (hs : s.store.Layered) (h0 : s.store.level = 0) :
    (s.step (.post d)).2.store.Layered ∧ (s.step (.post d)).2.store.level = 0 := by
  have hl := hs.allot h0 d.rectangles.length
  rcases s.step_post d with ⟨t, ht, hst, -, -⟩ | ⟨hst, -, -⟩
  · have hk := (Store.touchAll_writes ht).keeps hl
    rw [hst]
    exact ⟨hk.layered, hk.level_eq.trans h0⟩
  · rw [hst]
    exact ⟨hl, h0⟩

/-- **Where all is created at the root, every level is layered**, those below the current one
included. -/
theorem always_layered (hs : s.Reached RootCreation) : Always Layered s.store := by
  induction hs with
  | start => exact .of_root rfl Store.layered_empty
  | @step s op _ ha ih =>
    cases op using Op.kinds with
    | flat op hop =>
      have hf := s.flows_of_flat_any hop
      have hk := hf.changes.writes.keeps ih.now
      exact ih.keeps hk hk.layered
    | newVar d => exact .of_root (ha trivial) (ih.now.newVar (ha trivial) d)
    | newSnapshot value =>
      refine .of_root (ha trivial) (ih.now.append_slots (ha trivial) fun a h => ?_)
      rw [List.mem_singleton.1 h]
    | post d =>
      obtain ⟨hl, h0⟩ := layered_post d ih.now (ha trivial)
      exact .of_root h0 hl
    | impose d id =>
      rw [(s.step_impose d id).1]
      exact .of_root (ha trivial) (ih.now.allot (ha trivial) _)
    | pushLevel => exact Store.always_layered_pushLevel ih
    | backtrack => exact Store.always_layered_backtrack ih

/-! ## Branches -/

/-- A run of two sequences is the run of the second after that of the first. -/
theorem run_append (s : Session w) (ops ops' : List (Op w)) :
    s.run (ops ++ ops') = (s.run ops).run ops' := by
  induction ops generalizing s with
  | nil => rfl
  | cons op ops ih => exact ih _

/-- Operations that stay at their level or come back to it: flat ones, and inner branches. -/
inductive Balanced : List (Op w) → Prop
  | nil : Balanced []
  | flat {op : Op w} {ops : List (Op w)} (hop : op.Flat) (h : Balanced ops) : Balanced (op :: ops)
  | branch {inner ops : List (Op w)} (hi : Balanced inner) (h : Balanced ops) :
      Balanced (.pushLevel :: (inner ++ .backtrack :: ops))

/-- **A balanced sequence amounts to writes**, whatever its operations answer. -/
theorem writes_of_balanced {ops : List (Op w)} (h : Balanced ops) (s : Session w)
    (hs : s.store.Layered) : Store.Writes s.store (s.run ops).store := by
  induction h generalizing s with
  | nil => exact .refl
  | flat hop _ ih =>
    have hf := s.flows_of_flat_any hop
    exact hf.changes.writes.trans (ih _ (hf.changes.writes.keeps hs).layered)
  | @branch inner ops _ _ ihi ih =>
    -- the inner branch starts one level up, and its own writes are taken back
    have hw : Store.Writes s.store.pushLevel ((s.step .pushLevel).2.run inner).store :=
      ihi (s.step .pushLevel).2 hs.pushLevel
    have hb := (hw.keeps hs.pushLevel).backtrack_eq (Nat.succ_pos _)
    rw [Store.backtrack_pushLevel] at hb
    have hc : ((((s.step .pushLevel).2.run inner).step .backtrack).2).store = s.store.clearPending :=
      congrArg Prod.snd hb
    have hl := ((Store.Write.clear s.store).keeps hs).layered
    have hr := ih ((((s.step .pushLevel).2.run inner).step .backtrack).2) (by rw [hc]; exact hl)
    rw [hc] at hr
    rw [run, run_append, run]
    exact .head (.clear _) hr

/-- A balanced sequence keeps the constraints, but for their counters. -/
theorem constraints_of_balanced {ops : List (Op w)} (h : Balanced ops) (s : Session w) :
    (s.run ops).engine.posted.map Posted.bare = s.engine.posted.map Posted.bare ∧
      (s.run ops).loose.map Disjoint.bare = s.loose.map Disjoint.bare := by
  induction h generalizing s with
  | nil => exact ⟨rfl, rfl⟩
  | flat hop _ ih =>
    have hf := s.flows_of_flat_any hop
    exact ⟨(ih _).1.trans hf.posted_eq, (ih _).2.trans hf.loose_eq⟩
  | @branch inner ops _ _ ihi ih =>
    rw [run, run_append, run]
    obtain ⟨hp, hl⟩ := ihi (s.step .pushLevel).2
    exact ⟨(ih _).1.trans hp, (ih _).2.trans hl⟩

/-- **Backtracking undoes a whole branch exactly.** In a session where all was created at the
root, let a level be opened while nothing is pending. After any balanced sequence of
operations, whatever they answered, backtracking leaves the level and gives the store as it
was when the level was opened; any operations done from there give the answers and the stores
that they would have given then. -/
theorem backtrack_restores {s : Session w} (hs : s.Reached RootCreation)
    (hp : s.store.hasChanges = false) {ops : List (Op w)} (hb : Balanced ops) :
    (((s.step .pushLevel).2.run ops).step .backtrack).1 = .flag true ∧
      (((s.step .pushLevel).2.run ops).step .backtrack).2.store = s.store ∧
      ∀ again, (((s.step .pushLevel).2.run ops).step .backtrack).2.trace again = s.trace again := by
  have hl := (always_layered hs).now.pushLevel
  have hw : Store.Writes s.store.pushLevel ((s.step .pushLevel).2.run ops).store :=
    writes_of_balanced hb (s.step .pushLevel).2 hl
  have hback : ((s.step .pushLevel).2.run ops).store.backtrack = (true, s.store) := by
    rw [(hw.keeps hl).backtrack_eq (Nat.succ_pos _), Store.backtrack_pushLevel,
      Store.clearPending_of_not_hasChanges hp]
  obtain ⟨hposted, hloose⟩ := constraints_of_balanced hb (s.step .pushLevel).2
  have hstore := congrArg Prod.snd hback
  refine ⟨congrArg Answer.flag (congrArg Prod.fst hback), hstore, fun again => ?_⟩
  have halike : (((s.step .pushLevel).2.run ops).step .backtrack).2.Alike s :=
    ⟨⟨hstore, hposted⟩, hloose⟩
  exact halike.trace_eq again

/-- Two squares: one is fixed, and an inner branch that leaves no place for the other is refuted. -/
theorem backtrack_restores_refuted_branch :
    let s := empty.run (squares ++ [.propagate])
    let inner : List (Op .w8) := [.setMax ⟨1⟩ 2, .propagate]
    let branch := .fix ⟨0⟩ 1 :: .pushLevel :: (inner ++ .backtrack :: [.touch ⟨1⟩, .propagate])
    (((s.step .pushLevel).2.run branch).step .backtrack).2.store = s.store := by
  intro s inner branch
  have hs : s.Reached RootCreation := Reached.start.run (by decide +kernel)
  have hp : s.store.hasChanges = false := by decide +kernel
  have hi : Balanced inner := .flat trivial (.flat trivial .nil)
  have hb : Balanced branch := .flat trivial (.branch hi (.flat trivial (.flat trivial .nil)))
  exact (backtrack_restores hs hp hb).2.1

end Session
end Placement
