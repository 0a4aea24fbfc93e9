/-
# Propagation reaches a fixpoint

A round takes the pending variables and visits the rectangles of the constraints that watch one of
them. If all rectangles were at rest before the round, they are at rest after it
(`Engine.Proper.round_rests`): those of a constraint that was not woken because nothing they look at
was pending, the others because they were visited. A propagation that ends well leaves nothing
pending, so it leaves a store that no pass of a posted constraint changes.

Rest survives backtracking if a level is only opened when nothing is pending and the last
propagation has not failed; `Session.Disciplined` are the runs that keep to this.
-/

import Placement.Proofs.Resting
import Placement.Proofs.Restoration

namespace Placement

variable {w : Width}

/-- All rectangles of the constraints are at rest. -/
def AtRest (ds : List Disjoint) (s : Store w) : Prop := ∀ d ∈ ds, ∀ k, d.Rests s k

/-! ## A round -/

namespace Engine

variable {g g' : Engine w Disjoint}

/-- Different posted constraints have different slots. -/
theorem Proper.slots_apart (h : g.Proper) {i j : Nat} {p q : Posted Disjoint} (hp : g.posted[i]? = some p)
    (hq : g.posted[j]? = some q) (hij : i ≠ j) {k : Nat} {x : Slot}
    (hx : p.propagator.candidates.slots[k]? = some x) : x ∉ q.propagator.candidates.slots := by
  intro hx'
  obtain ⟨k', hk'⟩ := List.getElem?_of_mem hx'
  obtain ⟨he, -⟩ := h.owned.unique p.propagator.bare (List.mem_map.2 ⟨p, List.mem_of_getElem? hp, rfl⟩)
    q.propagator.bare (List.mem_map.2 ⟨q, List.mem_of_getElem? hq, rfl⟩) k k' x hx hk'
  have hid : p.propagator.id = q.propagator.id := show p.propagator.bare.id = q.propagator.bare.id by rw [he]
  rw [(h.posted i p hp).id_eq, (h.posted j q hq).id_eq] at hid
  cases hid
  exact hij rfl

/-- In the middle of a round that started at `g`, after `m` turns: the constraints that had their turn
are at rest, and the others have the candidates they had. -/
structure Midway (g : Engine w Disjoint) (m : Nat) (g' : Engine w Disjoint) : Prop where
  evolves : g.Evolves g'
  drifts : g.store.clearPending.Drifts g'.store
  done : ∀ (i : Nat) (p : Posted Disjoint), g'.posted[i]? = some p → i < m →
    ∀ k, p.propagator.Rests g'.store k
  left : ∀ (i : Nat) (p : Posted Disjoint), g'.posted[i]? = some p → m ≤ i →
    ∀ k, p.propagator.candidates.get g'.store k = p.propagator.candidates.get g.store k

namespace Midway

variable {m : Nat} {p : Posted Disjoint}

/-- A round starts with no constraint having had its turn. -/
theorem start (hs : g'.store = g.store.clearPending) (hp : g'.posted = g.posted) : g.Midway 0 g' where
  evolves := ⟨hs ▸ .single (.clear _), by rw [hp]⟩
  drifts := by
    rw [hs]
    exact .refl _
  done := nofun
  left _ _ _ _ k := by
    rw [hs]
    exact Candidates.get_congr rfl

/-- What was known, at the start of the round, of a constraint. -/
theorem turn (hm : g.Midway m g') (h : g.Proper) (hrest : AtRest g.constraints g.store) {i : Nat}
    (hp : g'.posted[i]? = some p) : p.watched = p.propagator.scope ∧
      (∀ r ∈ p.propagator.rectangles, r.Known g.store) ∧ ∀ k, p.propagator.Rests g.store k := by
  obtain ⟨q, hq, he⟩ := posted_of_bare hm.evolves.posted_eq hp
  have hproper := (h.posted i q hq).of_bare he
  have hmem : p.propagator.bare ∈ g.constraints := by
    rw [← constraints_eq hm.evolves.posted_eq]
    exact List.mem_map.2 ⟨p, List.mem_of_getElem? hp, rfl⟩
  exact ⟨hproper.watched_eq, hproper.known, fun k => Disjoint.rests_bare.1 (hrest _ hmem k)⟩

/-- A constraint that is not woken watches nothing that was pending, so it is still at rest. -/
theorem idle (hm : g.Midway m g') (h : g.Proper) (hrest : AtRest g.constraints g.store)
    (hidle : ∀ p, g'.posted[m]? = some p → p.watched.any g.store.changed.contains = false) :
    g.Midway (m + 1) g' := by
  refine ⟨hm.evolves, hm.drifts, fun i p hp hi => ?_, fun i p hp hi => hm.left i p hp (by omega)⟩
  rcases Nat.lt_succ_iff_lt_or_eq.1 hi with hi | rfl
  · exact hm.done i p hp hi
  · obtain ⟨hwatched, hknown, hrests⟩ := hm.turn h hrest hp
    have hquiet : p.propagator.Quiet g.store := fun v hv hpending => by
      have := List.any_eq_false.1 (hidle p hp) v (hwatched ▸ hv)
      exact this (List.contains_iff_mem.2 (Store.mem_changed.2 hpending))
    have hclear := fun k =>
      (hrests k).follows (Disjoint.follows_clearPending hknown hquiet) (Candidates.get_congr rfl)
    have hknown' := fun q hq => (Store.Write.clear g.store).shrinks.known (hknown q hq)
    intro k
    refine (hclear k).follows (Disjoint.follows_of_drifts hknown' hm.drifts) ?_
    exact (hm.left i p hp (Nat.le_refl _) k).trans (Candidates.get_congr rfl).symm

/-- A constraint that is woken is put to rest, and its pass leaves the candidates of the others
alone. -/
theorem woken (hm : g.Midway m g') (h : g.Proper) (hrest : AtRest g.constraints g.store)
    (hp : g'.posted[m]? = some p) {g'' : Engine w Disjoint}
    (hs : g''.store = (p.propagator.narrow g.store.changed g'.store).store)
    (hg : g''.posted = g'.posted.set m ⟨(p.propagator.narrow g.store.changed g'.store).propagator, p.watched⟩)
    (hok : (p.propagator.narrow g.store.changed g'.store).outcome = .ok ()) : g.Midway (m + 1) g'' := by
  have h' := h.evolves hm.evolves
  obtain ⟨-, hknown, hrests⟩ := hm.turn h hrest hp
  have hmem : p.propagator.bare ∈ g'.constraints := List.mem_map.2 ⟨p, List.mem_of_getElem? hp, rfl⟩
  obtain ⟨hdrifts, hrests', hslots⟩ := Disjoint.narrow_rests hknown hrests hm.drifts
    (hm.left m p hp (Nat.le_refl _)) (fun u hu => h'.ready (List.mem_of_getElem? hp) hu)
    (fun j k x hj hk => (h'.owned.unique _ hmem _ hmem j k x hj hk).2) hok
  -- every constraint is the one that was woken, or it was there before and its slots were not written
  have hcases : ∀ i q, g''.posted[i]? = some q → i = m ∧ (∀ k, q.propagator.Rests g''.store k) ∨
      i ≠ m ∧ g'.posted[i]? = some q ∧
        ∀ k, q.propagator.candidates.get g''.store k = q.propagator.candidates.get g'.store k := by
    intro i q hq
    rw [hg, List.getElem?_set] at hq
    rw [hs]
    split at hq
    · next him =>
      refine .inl ⟨him.symm, ?_⟩
      split at hq
      · cases hq
        -- only its counters differ from what was narrowed
        have hbare := fun k => Disjoint.rests_bare.2 (hrests' k)
        exact fun k => Disjoint.rests_bare.1 (hbare k)
      · cases hq
    · next him =>
      exact .inr ⟨Ne.symm him, hq, fun k => Candidates.get_of_slots fun x hx =>
        hslots x (h'.slots_apart hq hp (Ne.symm him) hx)⟩
  refine ⟨hm.evolves.trans (.narrow hp hs hg), ?_, fun i q hq hi => ?_, fun i q hq hi => ?_⟩
  · rw [hs]
    exact hm.drifts.trans hdrifts
  · rcases hcases i q hq with ⟨-, hrests⟩ | ⟨him, hq', hget⟩
    · exact hrests
    · intro k
      refine (hm.done i q hq' (by omega) k).follows ?_ (hget k)
      rw [hs]
      exact Disjoint.follows_of_drifts (h'.posted i q hq').known hdrifts
  · rcases hcases i q hq with ⟨rfl, -⟩ | ⟨-, hq', hget⟩
    · omega
    · exact fun k => (hget k).trans (hm.left i q hq' (by omega) k)

/-- When all constraints had their turn, all are at rest. -/
theorem atRest (hm : g.Midway g.posted.length g') : AtRest g'.constraints g'.store := by
  intro d hd k
  obtain ⟨p, hp, rfl⟩ := List.mem_map.1 hd
  obtain ⟨i, hi⟩ := List.getElem?_of_mem hp
  have hlen : g'.posted.length = g.posted.length := by
    simpa using congrArg List.length hm.evolves.posted_eq
  have hlt := (List.getElem?_eq_some_iff.1 hi).1
  exact Disjoint.rests_bare.2 (hm.done i p hi (by omega) k)

end Midway

/-- **A round that ends well keeps all rectangles at rest.** -/
theorem Proper.round_rests (h : g.Proper) (hrest : AtRest g.constraints g.store) :
    Ends round g (fun _ g' => g.Evolves g' ∧ AtRest g'.constraints g'.store) fun _ _ => True := by
  refine ends_round fun g₁ hs hp => ?_
  refine (Ends.forM_range (I := g.Midway) (.start hs hp) fun m _ g₂ hm => ?_).mono
    (fun _ g₂ hm => ⟨hm.evolves, hm.atRest⟩) fun _ _ he => he
  refine ends_wake (fun hidle => hm.idle h hrest hidle) fun p hp₂ _ g₃ hs₃ hg₃ => ?_
  exact ⟨fun hok => hm.woken h hrest hp₂ hs₃ hg₃ hok, fun _ _ => trivial⟩

/-- **A propagation that ends well leaves all rectangles at rest, and nothing pending.** -/
theorem Proper.propagate_rests (h : g.Proper) (hrest : AtRest g.constraints g.store) :
    Ends propagate g
      (fun _ g' => g.Evolves g' ∧ AtRest g'.constraints g'.store ∧ g'.store.hasChanges = false)
      fun _ _ => True := by
  refine ends_propagate fun g₁ hs hp => ?_
  have h₁ : g.Evolves g₁ ∧ AtRest g₁.constraints g₁.store := by
    refine ⟨.refl hs hp, ?_⟩
    unfold constraints
    rw [hs, hp]
    exact hrest
  refine (ends_rounds (I := fun _ g' => g.Evolves g' ∧ AtRest g'.constraints g'.store)
    (fun _ g₂ h₂ _ => ?_) (fun _ _ _ => trivial) h₁).mono
    (fun _ _ hg => ⟨hg.1.choose_spec.1, hg.1.choose_spec.2, hg.2⟩) fun _ _ he => he
  exact ((h.evolves h₂.1).round_rests h₂.2).mono (fun _ _ h₃ => ⟨h₂.1.trans h₃.1, h₃.2⟩) fun _ _ he => he

end Engine

/-! ## Disciplined runs -/

namespace Session

/-- What may be done next in a disciplined run, where `failed` says that the last operation was a
propagation that failed. -/
def Orderly (failed : Bool) (s : Session w) : Op w → Prop
  | .newVar _ | .post _ => failed = false ∧ s.store.level = 0
  | .setMin _ _ | .setMax _ _ | .setBounds _ _ _ | .fix _ _ | .propagate => failed = false
  | .pushLevel => failed = false ∧ s.store.hasChanges = false
  | .backtrack => 0 < s.store.level
  | _ => False

instance decidableOrderly (failed : Bool) (s : Session w) (op : Op w) : Decidable (Orderly failed s op) :=
  match op with
  | .newVar _ | .post _ => inferInstanceAs (Decidable (failed = false ∧ s.store.level = 0))
  | .setMin _ _ | .setMax _ _ | .setBounds _ _ _ | .fix _ _ | .propagate =>
    inferInstanceAs (Decidable (failed = false))
  | .pushLevel => inferInstanceAs (Decidable (failed = false ∧ s.store.hasChanges = false))
  | .backtrack => inferInstanceAs (Decidable (0 < s.store.level))
  | .newSnapshot _ | .setSnapshot _ _ | .touch _ | .takeChanged | .impose _ _ | .narrow _ _
  | .narrowPosted _ _ => inferInstanceAs (Decidable False)

/-- Everything is created at the root, and no slot is written by hand. -/
theorem Orderly.allowed {failed : Bool} {s : Session w} {op : Op w} (h : Orderly failed s op) :
    RootCreation s op ∧ OwnSlots s op := by
  cases op with
  | newVar | post => exact ⟨fun _ => h.2, trivial⟩
  | setMin | setMax | setBounds | fix | propagate | pushLevel | backtrack => exact ⟨False.elim, trivial⟩
  | _ => exact h.elim

/-- The operation is a propagation that fails. -/
def fails (s : Session w) : Op w → Bool
  | .propagate => (s.step .propagate).1 ≠ .done
  | _ => false

/-- Variables are created and constraints posted at the root only, domains are narrowed by hand or by
propagating, a level is opened only when nothing is pending, and after a propagation that failed,
the next operation is to backtrack. -/
def Disciplined (failed : Bool) (s : Session w) : List (Op w) → Prop
  | [] => True
  | op :: ops => Orderly failed s op ∧ Disciplined (s.fails op) (s.step op).2 ops

instance decidableDisciplined (failed : Bool) (s : Session w) (ops : List (Op w)) :
    Decidable (Disciplined failed s ops) :=
  match ops with
  | [] => inferInstanceAs (Decidable True)
  | op :: ops =>
    have := decidableDisciplined (s.fails op) (s.step op).2 ops
    inferInstanceAs (Decidable (_ ∧ _))

/-- All rectangles are at rest, unless the last propagation failed, and they are at rest in every store
that backtracking gives. -/
structure Calm (s : Session w) (failed : Bool) : Prop where
  reached : s.Reached fun s op => RootCreation s op ∧ OwnSlots s op
  now : failed = false → AtRest s.engine.constraints s.store
  past : 0 < s.store.level → s.store.backtrack.2.Always (AtRest s.engine.constraints)

variable {s t : Session w} {failed : Bool}

namespace Calm

/-- The engine of a calm session is proper. -/
theorem proper (h : s.Calm failed) : s.engine.Proper :=
  Session.proper (h.reached.mono fun _ _ ha => ha.2)

/-- The store of a calm session is layered. -/
theorem layered (h : s.Calm failed) : s.store.Layered :=
  (always_layered (h.reached.mono fun _ _ ha => ha.1)).now

/-- Every posted constraint has variables that exist. -/
theorem known (h : s.Calm failed) {d : Disjoint} (hd : d ∈ s.engine.constraints) :
    ∀ r ∈ d.rectangles, r.Known s.store := by
  obtain ⟨p, hp, rfl⟩ := List.mem_map.1 hd
  obtain ⟨i, hi⟩ := List.getElem?_of_mem hp
  exact (h.proper.posted i p hi).known

/-- Writes leave the past alone. -/
theorem past_of_writes (h : s.Calm failed) (hc : t.engine.constraints = s.engine.constraints)
    (hw : Store.Writes s.store t.store) :
    0 < t.store.level → t.store.backtrack.2.Always (AtRest t.engine.constraints) := by
  intro hl
  have hk := hw.keeps h.layered
  rw [hk.level_eq] at hl
  rw [hc, hk.backtrack_eq hl]
  exact h.past hl

/-- Rectangles stay at rest while the store drifts and the slots of their constraints are not
written. -/
theorem atRest_of_drifts (h : s.Calm false) {u : Store w} (hu : s.store.Drifts u)
    (hslots : ∀ i < s.store.slots.length, u.slots[i]? = s.store.slots[i]?) :
    AtRest s.engine.constraints u := by
  intro d hd k
  refine (h.now rfl d hd k).follows (Disjoint.follows_of_drifts (h.known hd) hu) ?_
  exact Candidates.get_of_slots fun x hx =>
    hslots _ (h.proper.owned.lt_count d hd x (List.mem_of_getElem? hx))

/-- Narrowing one domain by hand. -/
theorem bounded (h : s.Calm false) {x : Except (Failure Inconsistency) (Bool × Store w)}
    (hx : ∀ b u, x = .ok (b, u) → ∃ v lo hi, s.store.setBounds v lo hi = .ok (b, u))
    (hr : (s.bounded x).2.Reached fun s op => RootCreation s op ∧ OwnSlots s op) :
    (s.bounded x).2.Calm false := by
  cases x with
  | ok r =>
    obtain ⟨b, u⟩ := r
    obtain ⟨v, lo, hi, hset⟩ := hx b u rfl
    have hslots := Store.slots_setBounds hset
    refine ⟨hr, fun _ => ?_, h.past_of_writes rfl (.single (.bounds hset))⟩
    exact h.atRest_of_drifts (Store.drifts_setBounds hset) fun i _ => congrArg (·[i]?) hslots
  | error e => exact ⟨hr, h.now, h.past⟩

/-- A calm session stays calm when a variable is created at the root. -/
theorem newVar (h : s.Calm false) (h0 : s.store.level = 0) (d : Domain w)
    (hr : (s.step (.newVar d)).2.Reached fun s op => RootCreation s op ∧ OwnSlots s op) :
    (s.step (.newVar d)).2.Calm false := by
  refine ⟨hr, fun _ => h.atRest_of_drifts (s.store.drifts_newVar d) fun _ _ => rfl, fun hl => ?_⟩
  have : s.store.level = (s.step (.newVar d)).2.store.level := rfl
  omega

/-- A constraint that was just posted has its whole scope pending. -/
theorem post (h : s.Calm false) (h0 : s.store.level = 0) (d : Disjoint)
    (hr : (s.step (.post d)).2.Reached fun s op => RootCreation s op ∧ OwnSlots s op) :
    (s.step (.post d)).2.Calm false := by
  have hallot : s.store.Drifts (s.store.allot d.rectangles.length) := .of_cells rfl rfl
  have hslots : ∀ i < s.store.slots.length,
      (s.store.allot d.rectangles.length).slots[i]? = s.store.slots[i]? := fun i hi =>
    List.getElem?_append_left hi
  rcases s.step_post d with ⟨u, hu, hst, hp, -⟩ | ⟨hst, hp, -⟩
  · have hdrift := Store.drifts_touchAll hu
    refine ⟨hr, fun _ => ?_, fun hl => ?_⟩
    · have hold := h.atRest_of_drifts (hallot.trans hdrift) fun i hi => by
        rw [congrArg Store.slots (Store.touchAll_eq_ok hu).2]
        exact hslots i hi
      rw [hst]
      intro e he k
      unfold Engine.constraints at he
      rw [hp, List.map_append, List.mem_append] at he
      rcases he with he | he
      · exact hold e he k
      · cases List.mem_singleton.1 he
        intro r hmem _ _ hun
        obtain ⟨x, hx⟩ := List.exists_mem_of_ne_nil _ r.sides_ne_nil
        have hv : x.origin ∈ r.vars := List.mem_append_left _ (List.mem_map.2 ⟨x, hx, rfl⟩)
        exact absurd (Store.pending_touchAll hu (d.mem_scope (List.mem_of_getElem? hmem) hv)) (hun _ hv)
    · rw [hst, hdrift.level_eq, hallot.level_eq] at hl
      omega
  · refine ⟨hr, fun _ => ?_, fun hl => ?_⟩
    · rw [hst]
      unfold Engine.constraints
      rw [hp]
      exact h.atRest_of_drifts hallot hslots
    · rw [hst, hallot.level_eq] at hl
      omega

/-- A calm session stays calm over a propagation, which may fail. -/
theorem propagate (h : s.Calm false)
    (hr : (s.step .propagate).2.Reached fun s op => RootCreation s op ∧ OwnSlots s op) :
    (s.step .propagate).2.Calm (s.fails .propagate) := by
  have hf : Flows (fun _ => True) s (s.step .propagate).2 := s.flows_of_flat_any trivial
  refine ⟨hr, fun hok => ?_, h.past_of_writes (Engine.constraints_eq hf.posted_eq) hf.changes.writes⟩
  have hends := h.proper.propagate_rests (h.now rfl)
  unfold Ends at hends
  unfold fails step acted at hok
  unfold step acted
  dsimp only at hok ⊢
  split at hends <;> rename_i hm
  · rw [hm]
    exact hends.2.1
  · rw [hm] at hok
    simp at hok

/-- A calm session in which nothing is pending stays calm when a level is opened. -/
theorem pushLevel (h : s.Calm false) (hq : s.store.hasChanges = false)
    (hr : (s.step .pushLevel).2.Reached fun s op => RootCreation s op ∧ OwnSlots s op) :
    (s.step .pushLevel).2.Calm false := by
  refine ⟨hr, fun _ d hd k => ?_, fun _ => ?_⟩
  · exact (h.now rfl d hd k).follows (Disjoint.follows_pushLevel (h.known hd)) (Candidates.get_congr rfl)
  · have hback : (s.step .pushLevel).2.store.backtrack.2 = s.store := by
      change s.store.pushLevel.backtrack.2 = s.store
      rw [Store.backtrack_pushLevel]
      exact Store.clearPending_of_not_hasChanges hq
    rw [hback]
    exact .of_backtrack (h.now rfl) h.past

/-- A calm session, also after a failure, stays calm when a level is left. -/
theorem backtrack (h : s.Calm failed) (hl : 0 < s.store.level)
    (hr : (s.step .backtrack).2.Reached fun s op => RootCreation s op ∧ OwnSlots s op) :
    (s.step .backtrack).2.Calm false :=
  ⟨hr, fun _ => (h.past hl).now, fun hl' => (h.past hl).tail hl'⟩

/-- **One operation of a disciplined run.** -/
theorem step (h : s.Calm failed) {op : Op w} (ho : Orderly failed s op) :
    (s.step op).2.Calm (s.fails op) := by
  have hr := h.reached.step ho.allowed
  cases op with
  | newVar d =>
    obtain ⟨rfl, h0⟩ := ho
    exact h.newVar h0 d hr
  | post d =>
    obtain ⟨rfl, h0⟩ := ho
    exact h.post h0 d hr
  | setMin v lo =>
    obtain rfl : failed = false := ho
    refine h.bounded (fun b u hx => ?_) hr
    obtain ⟨_, hx⟩ := Store.setBounds_of_setMin hx
    exact ⟨_, _, _, hx⟩
  | setMax v hi =>
    obtain rfl : failed = false := ho
    refine h.bounded (fun b u hx => ?_) hr
    obtain ⟨_, hx⟩ := Store.setBounds_of_setMax hx
    exact ⟨_, _, _, hx⟩
  | setBounds v lo hi =>
    obtain rfl : failed = false := ho
    exact h.bounded (fun b u hx => ⟨_, _, _, hx⟩) hr
  | fix v x =>
    obtain rfl : failed = false := ho
    exact h.bounded (fun b u hx => ⟨_, _, _, hx⟩) hr
  | propagate =>
    obtain rfl : failed = false := ho
    exact h.propagate hr
  | pushLevel =>
    obtain ⟨rfl, hq⟩ := ho
    exact h.pushLevel hq hr
  | backtrack => exact h.backtrack ho hr
  | _ => exact ho.elim

/-- **A disciplined run stays calm**, up to any of its operations. -/
theorem run (h : s.Calm failed) {ops : List (Op w)} {op : Op w} (hd : Disciplined failed s (ops ++ [op])) :
    ∃ failed', (s.run ops).Calm failed' ∧ Orderly failed' (s.run ops) op := by
  induction ops generalizing s failed with
  | nil => exact ⟨failed, h, hd.1⟩
  | cons op' ops ih => exact ih (h.step hd.1) hd.2

end Calm

/-- **Propagation reaches a fixpoint.** After every disciplined run that ends with a propagation that
ends well, narrowing any posted constraint once more, whatever variables are said to have changed,
ends well and leaves the store as it is. In whatever orders the constraints sort the steps of one
place, the run and the narrowing use the same. -/
theorem propagate_reaches_fixpoint {ops : List (Op w)}
    (hd : Disciplined false (empty : Session w) (ops ++ [.propagate]))
    (hok : ((empty.run ops).step .propagate).1 = .done) {p : Posted Disjoint}
    (hp : p ∈ ((empty.run ops).step .propagate).2.engine.posted) (changed : List Var) :
    (p.propagator.narrow changed ((empty.run ops).step .propagate).2.store).outcome = .ok () ∧
      (p.propagator.narrow changed ((empty.run ops).step .propagate).2.store).store =
        ((empty.run ops).step .propagate).2.store := by
  have hstart : (empty : Session w).Calm false :=
    ⟨.start, fun _ => nofun, fun hl => absurd hl (Nat.lt_irrefl 0)⟩
  obtain ⟨failed, hcalm, rfl⟩ := hstart.run hd
  have hends := hcalm.proper.propagate_rests (hcalm.now rfl)
  unfold Ends at hends
  unfold Session.step acted at hok hp ⊢
  dsimp only at hok hp ⊢
  split at hends <;> rename_i hm <;> rw [hm] at hok hp ⊢
  · obtain ⟨hev, hrest, hquiet⟩ := hends
    have hproper := hcalm.proper.evolves hev
    obtain ⟨i, hi⟩ := List.getElem?_of_mem hp
    refine Disjoint.narrow_of_rests (hproper.posted i p hi).known (hproper.ready hp .refl) (fun k => ?_)
      (fun v _ => Store.not_pending_of_not_hasChanges hquiet v) changed
    exact Disjoint.rests_bare.1 (hrest _ (List.mem_map.2 ⟨p, hp, rfl⟩) k)
  · cases hok

/-- Two squares, the first of them put at the left edge at a level of its own: after the second has
moved away, neither moves any more. -/
theorem propagate_reaches_fixpoint_squares :
    let ops := squares ++ [.propagate, .pushLevel, .fix ⟨0⟩ 0]
    ∃ p ∈ ((empty.run ops).step .propagate).2.engine.posted, ∀ changed,
      (p.propagator.narrow changed ((empty.run ops).step .propagate).2.store).outcome = .ok () ∧
        (p.propagator.narrow changed ((empty.run ops).step .propagate).2.store).store =
          ((empty.run ops).step .propagate).2.store := by
  intro ops
  have hd : Disciplined false empty (ops ++ [.propagate]) := by decide +kernel
  have hok : ((empty.run ops).step .propagate).1 = .done := by decide +kernel
  have hposted : ((empty.run ops).step .propagate).2.engine.posted ≠ [] := by decide +kernel
  obtain ⟨p, hp⟩ := List.exists_mem_of_ne_nil _ hposted
  exact ⟨p, hp, propagate_reaches_fixpoint hd hok hp⟩

end Session
end Placement
