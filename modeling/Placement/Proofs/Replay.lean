/-
# Counters and reports decide nothing

Two engines are alike when they have the same store and the same posted constraints, but
for the counters of the constraints. Whatever is done to two alike engines, it ends the
same way in both and leaves them alike (`Twin`), and the same holds of sessions. So a
sequence of operations has one sequence of answers and stores, however much was counted
and reported before it (`Session.Alike.trace_eq`).
-/

import Placement.Proofs.Imposing
import Placement.Proofs.Session

namespace Placement

variable {ε σ α β : Type}

/-- Two computations have ended in the same way, in related states. -/
inductive Twin (R : σ → σ → Prop) :
    EStateM.Result ε σ α → EStateM.Result ε σ α → Prop
  | ok (a : α) {t t' : σ} (h : R t t') : Twin R (.ok a t) (.ok a t')
  | error (e : ε) {t t' : σ} (h : R t t') : Twin R (.error e t) (.error e t')

namespace Twin

variable {R : σ → σ → Prop} {s s' : σ}

/-- Chains end in the same way if their parts do. -/
theorem bind {m : EStateM ε σ α} {f : α → EStateM ε σ β} (hm : Twin R (m s) (m s'))
    (hf : ∀ a t t', R t t' → Twin R (f a t) (f a t')) : Twin R ((m >>= f) s) ((m >>= f) s') := by
  change Twin R (EStateM.bind m f s) (EStateM.bind m f s')
  unfold EStateM.bind
  generalize m s = x, m s' = x' at hm
  cases hm with
  | ok a h => exact hf a _ _ h
  | error e h => exact .error e h

/-- Loops end in the same way if their turns do. -/
theorem forM {f : Nat → EStateM ε σ Unit} (ks : List Nat)
    (hf : ∀ k t t', R t t' → Twin R (f k t) (f k t')) (h : R s s') :
    Twin R (ks.forM f s) (ks.forM f s') := by
  induction ks generalizing s s' with
  | nil => exact .ok () h
  | cons k ks ih => exact bind (f := fun _ => ks.forM f) (hf k s s' h) fun _ t t' h => ih h

end Twin

variable {w : Width}

namespace Engine

/-- Two engines differ only in what they have counted and reported. -/
structure Alike (g g' : Engine w Disjoint) : Prop where
  store : g.store = g'.store
  posted : g.posted.map Posted.bare = g'.posted.map Posted.bare

variable {g g' : Engine w Disjoint}

/-- Alike engines have the same number of constraints. -/
theorem Alike.length (h : Alike g g') : g.posted.length = g'.posted.length := by
  simpa using congrArg List.length h.posted

/-- Alike engines have constraints in the same places that are the same but for their counters. -/
theorem Alike.posted_some (h : Alike g g') {k : Nat} {p : Posted Disjoint}
    (hp : g.posted[k]? = some p) : ∃ p', g'.posted[k]? = some p' ∧ p.bare = p'.bare := by
  have := congrArg (·[k]?) h.posted
  simp only [List.getElem?_map, hp, Option.map_some] at this
  obtain ⟨p', hp', he⟩ := Option.map_eq_some_iff.1 this.symm
  exact ⟨p', hp', he.symm⟩

/-- Alike engines stay alike where alike constraints are replaced. -/
theorem Alike.set (h : Alike g g') {k : Nat} {p p' : Posted Disjoint} (hp : p.bare = p'.bare) :
    (g.posted.set k p).map Posted.bare = (g'.posted.set k p').map Posted.bare := by
  rw [List.map_set, List.map_set, h.posted, hp]

/-- A narrowing depends on the counters of its constraint only in the counters it leaves. -/
theorem narrow_of_bare {d d' : Disjoint} (h : d.bare = d'.bare) (changed : List Var) (s : Store w) :
    (d.narrow changed s).store = (d'.narrow changed s).store ∧
      (d.narrow changed s).outcome = (d'.narrow changed s).outcome ∧
      (d.narrow changed s).propagator.bare = (d'.narrow changed s).propagator.bare := by
  have hs : (d.bare.narrow changed s).store = (d'.bare.narrow changed s).store := by rw [h]
  have ho : (d.bare.narrow changed s).outcome = (d'.bare.narrow changed s).outcome := by rw [h]
  exact ⟨hs, ho, h⟩

/-- Alike engines wake the same constraints, with the same end. -/
theorem twin_wake (changed : List Var) (k : Nat) (h : Alike g g') :
    Twin Alike (wake changed k g) (wake changed k g') := by
  cases hp : g.posted[k]? with
  | none =>
    have hp' : g'.posted[k]? = none := by
      rw [List.getElem?_eq_none_iff, ← h.length]
      exact List.getElem?_eq_none_iff.1 hp
    rw [wake_idle fun p h => by simp [hp] at h, wake_idle fun p h => by simp [hp'] at h]
    exact .ok () h
  | some p =>
    obtain ⟨p', hp', he⟩ := h.posted_some hp
    have hw : p.bare.watched = p'.bare.watched := congrArg Posted.watched he
    change p.watched = p'.watched at hw
    cases hc : p.watched.any changed.contains with
    | false =>
      rw [wake_idle fun q hq => by rw [hp] at hq; cases hq; exact hc,
        wake_idle fun q hq => by rw [hp'] at hq; cases hq; exact hw ▸ hc]
      exact .ok () h
    | true =>
      obtain ⟨g₁, hs, hg, hr⟩ := wake_woken hp hc
      obtain ⟨g₁', hs', hg', hr'⟩ := wake_woken hp' (hw ▸ hc)
      rw [← h.store] at hs' hg' hr'
      obtain ⟨hst, hout, hbare⟩ := narrow_of_bare (congrArg Posted.propagator he) changed g.store
      have hout' : (Propagator.narrow p'.propagator changed g.store).outcome =
        (Propagator.narrow p.propagator changed g.store).outcome := hout.symm
      have h₁ : Alike g₁ g₁' := by
        refine ⟨hs.trans (hst.trans hs'.symm), ?_⟩
        rw [hg, hg']
        exact h.set (congr (congrArg Posted.mk hbare) hw : Posted.mk _ _ = Posted.mk _ _)
      rw [hr, hr', hout']
      cases (Propagator.narrow p.propagator changed g.store).outcome with
      | ok u => exact .ok () h₁
      | error e => exact .error e h₁

/-- A round of alike engines ends in the same way. -/
theorem twin_round (h : Alike g g') : Twin Alike (round g) (round g') := by
  have hr : round g = (List.range g.posted.length).forM (wake g.store.changed)
      { g with
        store := g.store.clearPending
        statistics := { g.statistics with rounds := g.statistics.rounds + 1 } } := rfl
  have hr' : round g' = (List.range g'.posted.length).forM (wake g'.store.changed)
      { g' with
        store := g'.store.clearPending
        statistics := { g'.statistics with rounds := g'.statistics.rounds + 1 } } := rfl
  rw [hr, hr', h.length, h.store]
  exact .forM _ (fun k t t' ht => twin_wake _ k ht) ⟨rfl, h.posted⟩

/-- The rounds of alike engines end in the same way. -/
theorem twin_rounds (limit : Nat) (h : Alike g g') : Twin Alike (rounds limit g) (rounds limit g') := by
  induction limit generalizing g g' with
  | zero =>
    have hr : ∀ g : Engine w Disjoint, rounds 0 g =
        if g.store.hasChanges = true then .error (.fault .roundLimit) g else .ok () g := fun g => by
      unfold rounds
      rw [get_bind]
      split <;> rfl
    rw [hr, hr, h.store]
    split
    · exact .error _ h
    · exact .ok () h
  | succ limit ih =>
    have hr : ∀ g : Engine w Disjoint, rounds (limit + 1) g =
        if g.store.hasChanges = true then (round >>= fun _ => rounds limit) g else .ok () g := fun g => by
      rw [rounds]
      rw [get_bind]
      split <;> rfl
    rw [hr, hr, h.store]
    split
    · exact .bind (twin_round h) fun _ t t' ht => ih ht
    · exact .ok () h

/-- **Propagations of alike engines end in the same way.** -/
theorem twin_propagate (h : Alike g g') : Twin Alike (propagate g) (propagate g') := by
  have hr : ∀ g : Engine w Disjoint, propagate g = rounds (g.store.slack + 1)
      { g with statistics := { g.statistics with propagations := g.statistics.propagations + 1 } } :=
    fun _ => rfl
  rw [hr, hr, h.store]
  exact twin_rounds _ ⟨rfl, h.posted⟩

/-- Posting ends alike, whatever was counted before. -/
theorem twin_post (d : Disjoint) (h : Alike g g') : Twin Alike (post d g) (post d g') := by
  cases ht : (g.store.allot d.rectangles.length).touchAll d.scope with
  | ok t =>
    obtain ⟨g₁, hs, hp, he⟩ := post_eq_ok ht
    obtain ⟨g₁', hs', hp', he'⟩ := post_eq_ok (g := g') (h.store ▸ ht)
    rw [he, he', h.length]
    refine .ok _ ⟨hs.trans hs'.symm, ?_⟩
    rw [hp, hp', List.map_append, List.map_append, h.posted, h.store, h.length]
  | error c =>
    obtain ⟨g₁, hs, hp, he⟩ := post_eq_error ht
    obtain ⟨g₁', hs', hp', he'⟩ := post_eq_error (g := g') (h.store ▸ ht)
    rw [he, he']
    exact .error _ ⟨by rw [hs, hs', h.store], by rw [hp, hp', h.posted]⟩

end Engine

namespace Session

/-- Two sessions differ only in what was counted and reported. -/
structure Alike (s s' : Session w) : Prop where
  engine : s.engine.Alike s'.engine
  loose : s.loose.map Disjoint.bare = s'.loose.map Disjoint.bare

variable {s s' : Session w}

/-- Alike sessions stay alike on one store. -/
theorem Alike.withStore (h : Alike s s') (t : Store w) : Alike (s.withStore t) (s'.withStore t) :=
  ⟨⟨rfl, h.engine.posted⟩, h.loose⟩

/-- Narrowing a domain gives alike sessions the same answer. -/
theorem Alike.bounded (h : Alike s s') (x : Except (Failure Inconsistency) (Bool × Store w)) :
    (s.bounded x).1 = (s'.bounded x).1 ∧ Alike (s.bounded x).2 (s'.bounded x).2 := by
  cases x with
  | ok r => exact ⟨rfl, h.withStore _⟩
  | error e => exact ⟨rfl, h⟩

/-- Writing to the store gives alike sessions the same answer. -/
theorem Alike.written (h : Alike s s') (x : Except Fault (Store w)) :
    (s.written x).1 = (s'.written x).1 ∧ Alike (s.written x).2 (s'.written x).2 := by
  cases x with
  | ok t => exact ⟨rfl, h.withStore _⟩
  | error e => exact ⟨rfl, h⟩

/-- What two engines do in the same way gives alike sessions the same answer. -/
theorem Alike.acted {α : Type} (h : Alike s s') (answer : α → Answer)
    {x x' : EStateM.Result (Failure Inconsistency) (Engine w Disjoint) α}
    (hx : Twin Engine.Alike x x') :
    (s.acted answer x).1 = (s'.acted answer x').1 ∧
      Alike (s.acted answer x).2 (s'.acted answer x').2 := by
  cases hx with
  | ok a hg => exact ⟨rfl, hg, h.loose⟩
  | error e hg => exact ⟨rfl, hg, h.loose⟩

/-- **Alike sessions answer alike and stay alike.** -/
theorem Alike.step (h : Alike s s') (op : Op w) :
    (s.step op).1 = (s'.step op).1 ∧ Alike (s.step op).2 (s'.step op).2 := by
  have hs : s.store = s'.store := h.engine.store
  cases op with
  | newVar | newSnapshot | takeChanged | pushLevel | backtrack =>
    unfold Session.step
    rw [hs]
    exact ⟨rfl, h.withStore _⟩
  | setMin | setMax | setBounds | fix =>
    unfold Session.step
    rw [hs]
    exact h.bounded _
  | setSnapshot | touch =>
    unfold Session.step
    rw [hs]
    exact h.written _
  | post d => exact h.acted _ (Engine.twin_post d h.engine)
  | impose d id =>
    unfold Session.step
    rw [hs]
    refine ⟨rfl, ⟨rfl, h.engine.posted⟩, ?_⟩
    dsimp only
    rw [List.map_append, List.map_append, h.loose]
  | narrow i changed =>
    unfold Session.step
    rw [hs]
    dsimp only
    cases hd : s.loose[i]? with
    | none =>
      have hd' : s'.loose[i]? = none := by
        have := congrArg (·[i]?) h.loose
        simpa [hd] using this.symm
      rw [hd']
      exact ⟨rfl, h⟩
    | some d =>
      obtain ⟨d', hd', he⟩ : ∃ d', s'.loose[i]? = some d' ∧ d'.bare = d.bare := by
        have := congrArg (·[i]?) h.loose
        simp only [List.getElem?_map, hd, Option.map_some] at this
        exact Option.map_eq_some_iff.1 this.symm
      obtain ⟨hst, hout, hbare⟩ := Engine.narrow_of_bare he changed s'.store
      rw [hd']
      dsimp only
      rw [hst, hout]
      refine ⟨rfl, ⟨rfl, h.engine.posted⟩, ?_⟩
      dsimp only
      rw [List.map_set, List.map_set, h.loose, hbare]
  | narrowPosted i changed =>
    unfold Session.step
    rw [hs]
    dsimp only
    cases hp : s.engine.posted[i]? with
    | none =>
      have hp' : s'.engine.posted[i]? = none := by
        have := congrArg (·[i]?) h.engine.posted
        simpa [hp] using this.symm
      rw [hp']
      exact ⟨rfl, h⟩
    | some p =>
      obtain ⟨p', hp', he⟩ := h.engine.posted_some hp
      obtain ⟨hst, hout, hbare⟩ := Engine.narrow_of_bare (congrArg Posted.propagator he) changed s'.store
      have hw : p.bare.watched = p'.bare.watched := congrArg Posted.watched he
      change p.watched = p'.watched at hw
      rw [hp']
      dsimp only
      rw [hst, hout, hw]
      exact ⟨rfl, ⟨rfl, h.engine.set (congrArg (Posted.mk · p'.watched) hbare)⟩, h.loose⟩
  | propagate => exact h.acted _ (Engine.twin_propagate h.engine)

/-- **Alike sessions give the same answers and the same stores at every step.** -/
theorem Alike.trace_eq (h : Alike s s') (ops : List (Op w)) : s.trace ops = s'.trace ops := by
  induction ops generalizing s s' with
  | nil => rfl
  | cons op ops ih =>
    obtain ⟨ha, hs⟩ := h.step op
    unfold trace
    rw [ha, ih hs]
    exact congrArg (fun t => ((s'.step op).1, t) :: _) hs.engine.store

end Session
end Placement
