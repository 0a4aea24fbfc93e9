/-
# Candidates are always a choice of the other rectangles

Whatever is done to a session, and at whatever level things are created, the candidates of a
rectangle are some of the other rectangles of its constraint, in ascending order and each once
(`Disjoint.Ready`). For this to survive backtracking it must also hold of every value that the
trail keeps for a slot of candidates, of all levels (`Stash`). Together with what posting makes
sure of, this is what a propagation finds (`Engine.Proper`).
-/

import Placement.Proofs.CachedCandidates

namespace Placement

variable {w : Width}

/-- The value is fit for the slot: a choice of other rectangles, for whichever rectangle owns the slot. -/
def Fit (ds : List Disjoint) (x : Slot) (value : List Nat) : Prop :=
  ∀ d ∈ ds, ∀ k, d.candidates.slots[k]? = some x → value.Sublist (Candidates.others d.rectangles.length k)

/-- All values of slots, present or kept in the trail, are fit for their slots. -/
structure Stash (ds : List Disjoint) (s : Store w) : Prop where
  present : ∀ (i : Nat) (a : Saved), s.slots[i]? = some a → Fit ds ⟨i⟩ a.value
  kept : ∀ es ∈ s.trail.levels, ∀ (x : Slot) (old : List Nat) (n : Nat), .slot x old n ∈ es →
    x.val < s.slots.length ∧ Fit ds x old

/-- Every rectangle has candidates, which are a choice of the others. -/
def Disjoint.Ready (d : Disjoint) (s : Store w) : Prop :=
  ∀ k < d.rectangles.length, ∃ cs, d.candidates.get s k = .ok cs ∧
    cs.Sublist (Candidates.others d.rectangles.length k)

/-- Constraints that own their slots are ready if all values are fit. -/
theorem Stash.ready {ds : List Disjoint} {s : Store w} (h : Stash ds s) (ho : Owned ds s.slots.length)
    {d : Disjoint} (hd : d ∈ ds) : d.Ready s := by
  intro k hk
  have hx := List.getElem?_eq_getElem (show k < d.candidates.slots.length by rwa [ho.length_eq d hd])
  have hlt := ho.lt_count d hd _ (List.mem_of_getElem? hx)
  have ha := List.getElem?_eq_getElem hlt
  exact ⟨_, Candidates.get_eq_ok.2 ⟨_, hx, _, ha, rfl⟩, h.present _ _ ha d hd k hx⟩

namespace Stash

variable {ds : List Disjoint} {s t : Store w}

/-- Whether all values are fit depends on slots and trail only. -/
theorem of_eq (h : Stash ds s) (hslots : t.slots = s.slots) (htrail : t.trail = s.trail) : Stash ds t :=
  ⟨by rw [hslots]; exact h.present, by rw [hslots, htrail]; exact h.kept⟩

/-- Values that are fit for all constraints are fit for some of them. -/
theorem subset {es : List Disjoint} (h : Stash ds s) (hes : ∀ d ∈ es, d ∈ ds) : Stash es s := by
  have hfit : ∀ {x value}, Fit ds x value → Fit es x value := fun hf d hd => hf d (hes d hd)
  exact ⟨fun i a ha => hfit (h.present i a ha), fun l hl x old n hm =>
    ⟨(h.kept l hl x old n hm).1, hfit (h.kept l hl x old n hm).2⟩⟩

/-- Noting an entry keeps what is kept fit, if the entry is. -/
theorem kept_note (h : Stash ds s) {n : Nat} {e : Trail.Entry w}
    (he : ∀ x old m, e = .slot x old m → x.val < s.slots.length ∧ Fit ds x old) :
    ∀ es ∈ (s.note n e).levels, ∀ (x : Slot) (old : List Nat) (m : Nat), .slot x old m ∈ es →
      x.val < s.slots.length ∧ Fit ds x old := by
  intro es hes x old m hmem
  unfold Store.note Trail.record at hes
  split at hes
  · split at hes <;> rename_i hl
    · exact h.kept es hes x old m hmem
    · rcases List.mem_cons.1 hes with rfl | hes
      · rcases List.mem_cons.1 hmem with rfl | hmem
        · exact he x old m rfl
        · exact h.kept _ (hl ▸ List.mem_cons_self) x old m hmem
      · exact h.kept es (hl ▸ List.mem_cons_of_mem _ hes) x old m hmem
  · exact h.kept es hes x old m hmem

/-- Narrowing a domain leaves all values fit. -/
theorem setBounds (h : Stash ds s) {v : Var} {lo hi : Int} {b : Bool}
    (hs : s.setBounds v lo hi = .ok (b, t)) : Stash ds t := by
  obtain ⟨c, d, -, -, ⟨-, -, rfl⟩ | ⟨-, -, rfl⟩⟩ := Store.setBounds_eq_ok hs
  · exact h
  · exact ⟨h.present, h.kept_note fun x old m he => nomatch he⟩

/-- Writing a fit value leaves all values fit. -/
theorem setSnapshot (h : Stash ds s) {x : Slot} {value : List Nat} (hs : s.setSnapshot x value = .ok t)
    (hfit : Fit ds x value) : Stash ds t := by
  obtain ⟨a, ha, rfl⟩ := Store.setSnapshot_eq_ok.1 hs
  obtain ⟨hx, -⟩ := List.getElem?_eq_some_iff.1 ha
  refine ⟨fun i a' hi => ?_, ?_⟩
  · rw [List.getElem?_set] at hi
    split at hi
    · next he =>
      subst he
      cases hi
      exact hfit
    · exact h.present i a' hi
  · dsimp only
    rw [List.length_set]
    refine h.kept_note fun y old m he => ?_
    cases he
    exact ⟨hx, h.present _ _ ha⟩

/-- **One change of the store keeps everything fit.** -/
theorem change {free : Slot → Prop} {count : Nat} (h : Stash ds s) (ho : Owned ds count)
    (hfree : ∀ x, free x → ∀ d ∈ ds, x ∉ d.candidates.slots) (hst : Store.Change ds free s t) :
    Stash ds t := by
  cases hst with
  | bounds hb => exact h.setBounds hb
  | slot hx hs => exact h.setSnapshot hs fun d hd k hk => absurd (List.mem_of_getElem? hk) (hfree _ hx d hd)
  | touch ht =>
    obtain ⟨c, -, rfl⟩ := Store.touch_eq_ok.1 ht
    exact h.of_eq rfl rfl
  | act ha =>
    cases ha with
    | clear => exact h.of_eq rfl rfl
    | step hd' hstep =>
      cases hstep with
      | narrow _ _ hb => exact h.setBounds hb
      | shrink hc ha hr =>
        obtain ⟨current, x, hc', -, hx, hs⟩ := Candidates.replace_eq_ok hr
        rw [hc] at hc'
        cases hc'
        refine h.setSnapshot hs fun d hd k hk => ?_
        obtain ⟨rfl, rfl⟩ := ho.unique d hd _ hd' k _ x hk hx
        obtain ⟨y, hy, a, ha', rfl⟩ := Candidates.get_eq_ok.1 hc
        rw [hx] at hy
        cases hy
        exact (overlapping_of_analyze ha).1.trans (h.present _ _ ha' d hd k hx)

/-- Changes leave all values fit, if no free slot belongs to a constraint. -/
theorem changes {free : Slot → Prop} {count : Nat} (h : Stash ds s) (ho : Owned ds count)
    (hfree : ∀ x, free x → ∀ d ∈ ds, x ∉ d.candidates.slots) (hst : Store.Changes ds free s t) :
    Stash ds t := by
  induction hst with
  | refl => exact h
  | tail _ hc ih => exact ih.change ho hfree hc

/-- Undoing entries of fit values leaves all values of slots fit. -/
theorem foldl_undo (h : Stash ds s) {es : List (Trail.Entry w)}
    (hes : ∀ (x : Slot) (old : List Nat) (n : Nat), .slot x old n ∈ es → Fit ds x old) :
    ∀ (i : Nat) (a : Saved), (es.foldl Store.undo s).slots[i]? = some a → Fit ds ⟨i⟩ a.value := by
  have hpresent := h.present
  clear h
  induction es generalizing s with
  | nil => exact hpresent
  | cons e es ih =>
    refine ih (fun x old n hm => hes x old n (List.mem_cons_of_mem _ hm)) fun i a hi => ?_
    cases e with
    | domain v d n => exact hpresent i a hi
    | slot x old n =>
      simp only [Store.undo, List.getElem?_set] at hi
      split at hi
      · next he =>
        subst he
        split at hi
        · cases hi
          exact hes x old n List.mem_cons_self
        · cases hi
      · exact hpresent i a hi

/-- Opening a level leaves all values fit. -/
theorem pushLevel (h : Stash ds s) : Stash ds s.pushLevel := by
  refine ⟨h.present, fun es hes => ?_⟩
  rcases List.mem_cons.1 hes with rfl | hes
  · exact nofun
  · exact h.kept es hes

/-- Leaving a level leaves all values fit. -/
theorem backtrack (h : Stash ds s) : Stash ds s.backtrack.2 := by
  rcases Nat.eq_zero_or_pos s.level with h0 | hl
  · rw [Store.backtrack_of_level_eq_zero h0]
    exact h.of_eq rfl rfl
  · obtain ⟨older, hlev⟩ := Store.levels_eq_log hl
    rw [Store.backtrack_eq hlev]
    refine ⟨h.foldl_undo fun x old n hm => (h.kept s.log (hlev ▸ List.mem_cons_self) x old n hm).2, ?_⟩
    intro es hes x old n hm
    dsimp only [Store.clearPending]
    rw [(Store.length_foldl_undo _ _).2]
    exact h.kept es (hlev ▸ List.mem_cons_of_mem _ hes) x old n hm

/-- Appending slots whose values are fit keeps everything fit. -/
theorem append (h : Stash ds s) {as : List Saved} {ds' : List Disjoint}
    (hold : ∀ i value, i < s.slots.length → Fit ds ⟨i⟩ value → Fit ds' ⟨i⟩ value)
    (hnew : ∀ i a, as[i]? = some a → Fit ds' ⟨s.slots.length + i⟩ a.value) :
    Stash ds' { s with slots := s.slots ++ as } := by
  refine ⟨fun i a hi => ?_, fun es hes x old n hm => ?_⟩
  · dsimp only at hi
    rw [List.getElem?_append] at hi
    split at hi
    · next hlt => exact hold i _ hlt (h.present i a hi)
    · next hge =>
      have := hnew (i - s.slots.length) a hi
      rwa [show s.slots.length + (i - s.slots.length) = i by omega] at this
  · obtain ⟨hlt, hfit⟩ := h.kept es hes x old n hm
    refine ⟨?_, hold x.val old hlt hfit⟩
    dsimp only
    rw [List.length_append]
    omega

/-- Imposing a constraint keeps everything fit. -/
theorem impose {ds' : List Disjoint} {d : Disjoint} {id : ConstraintId} (h : Stash ds s)
    (ho : Owned ds s.slots.length) (hds : ∀ e, e ∈ ds' ↔ e ∈ ds ∨ e = (d.imposed id s).bare) :
    Stash ds' (s.allot d.rectangles.length) := by
  refine h.append (fun i value hi hfit e he k hk => ?_) fun i a ha e he k hk => ?_
  · rcases (hds e).1 he with he | rfl
    · exact hfit e he k hk
    · have hval := ((slots_imposed d id s).1 hk).2
      dsimp only at hval
      omega
  · rcases (hds e).1 he with he | rfl
    · have hlt := ho.lt_count e he _ (List.mem_of_getElem? hk)
      dsimp only at hlt
      omega
    · obtain ⟨hk, hval⟩ := (slots_imposed d id s).1 hk
      dsimp only at hval
      obtain rfl : i = k := by omega
      rw [List.getElem?_map, List.getElem?_range hk] at ha
      cases ha
      exact .refl _

/-- Throughout a propagation, the rectangles of a constraint have candidates. -/
theorem ready_of_acts {d : Disjoint} (h : Stash ds s) (ho : Owned ds s.slots.length) (hd : d.bare ∈ ds)
    (hst : Store.Acts ds s t) : d.Ready t := by
  have hchanges : Store.Changes ds (fun _ => False) s t := Session.changes_of_acts hst
  have howned : Owned ds t.slots.length := by
    rw [hchanges.writes.length_slots]
    exact ho
  have hready := (h.changes ho nofun hchanges).ready howned hd
  exact hready

end Stash

/-! ## Posted constraints -/

/-- The constraint at position `i` watches its scope, is numbered by its position, and has variables
that exist. -/
structure Posted.Proper (p : Posted Disjoint) (i : Nat) (s : Store w) : Prop where
  watched_eq : p.watched = p.propagator.scope
  id_eq : p.propagator.id = some ⟨i⟩
  known : ∀ r ∈ p.propagator.rectangles, r.Known s

/-- Whether a constraint is posted properly does not depend on what it has counted. -/
theorem Posted.Proper.of_bare {p q : Posted Disjoint} {i : Nat} {s : Store w} (h : p.Proper i s)
    (he : q.bare = p.bare) : q.Proper i s := by
  obtain ⟨⟨id, rectangles, mode, candidates, statistics, uniform⟩, watched⟩ := p
  obtain ⟨⟨id', rectangles', mode', candidates', statistics', uniform'⟩, watched'⟩ := q
  simp only [Posted.bare, Disjoint.bare, Posted.mk.injEq, Disjoint.mk.injEq] at he
  obtain ⟨⟨rfl, rfl, -⟩, rfl⟩ := he
  exact ⟨h.watched_eq, h.id_eq, h.known⟩

/-- Engines with the same constraints have them in the same places. -/
theorem Engine.posted_of_bare {g g' : Engine w Disjoint}
    (h : g'.posted.map Posted.bare = g.posted.map Posted.bare) {i : Nat} {p : Posted Disjoint}
    (hp : g'.posted[i]? = some p) : ∃ q, g.posted[i]? = some q ∧ p.bare = q.bare := by
  have hi := congrArg (fun ps : List (Posted Disjoint) => ps[i]?) h
  rw [List.getElem?_map, List.getElem?_map, hp] at hi
  obtain ⟨q, hq, he⟩ := Option.map_eq_some_iff.1 hi.symm
  exact ⟨q, hq, he.symm⟩

namespace Engine

/-- The constraints keep fit candidates in slots of their own, and are posted properly. -/
structure Proper (g : Engine w Disjoint) : Prop where
  owned : Owned g.constraints g.store.slots.length
  stash : Stash g.constraints g.store
  posted : ∀ (i : Nat) (p : Posted Disjoint), g.posted[i]? = some p → p.Proper i g.store

namespace Proper

variable {g g' : Engine w Disjoint} (h : g.Proper)

include h

/-- A proper engine stays proper as it evolves. -/
theorem evolves (hg : g.Evolves g') : g'.Proper := by
  have hchanges : Store.Changes g.constraints (fun _ => False) g.store g'.store :=
    Session.changes_of_acts hg.acts
  have hc := constraints_eq hg.posted_eq
  refine ⟨?_, ?_, fun i p hp => ?_⟩
  · rw [hc, hchanges.writes.length_slots]
    exact h.owned
  · rw [hc]
    exact h.stash.changes h.owned nofun hchanges
  · obtain ⟨q, hq, he⟩ := posted_of_bare hg.posted_eq hp
    have hproper := (h.posted i q hq).of_bare he
    exact ⟨hproper.watched_eq, hproper.id_eq, fun r hr => hchanges.writes.shrinks.known (hproper.known r hr)⟩

/-- Throughout a pass, the rectangles of a posted constraint have candidates. -/
theorem ready {p : Posted Disjoint} (hp : p ∈ g.posted) {t : Store w} (ht : p.propagator.Steps g.store t) :
    p.propagator.Ready t := by
  have hd : p.propagator.bare ∈ g.constraints := List.mem_map.2 ⟨p, hp, rfl⟩
  exact h.stash.ready_of_acts h.owned hd (ht.acts hd)

end Proper
end Engine

namespace Session

variable {s : Session w}

/-- The constraints of a session are listed without their counters. -/
theorem bare_of_mem {d : Disjoint} (hd : d ∈ s.constraints) : d.bare = d := by
  simp only [constraints, Engine.constraints, List.mem_append, List.mem_map] at hd
  rcases hd with ⟨p, -, rfl⟩ | ⟨q, -, rfl⟩
  · rfl
  · rfl

/-- **Where slots of candidates are left to their constraints, all their values are fit**, at whatever
level things were created. -/
theorem stash (hs : s.Reached OwnSlots) : Stash s.constraints s.store := by
  induction hs with
  | start => exact ⟨nofun, nofun⟩
  | @step s op hr ha ih =>
    have ho := owned hr
    cases op using Op.kinds with
    | flat op hop =>
      have hf := flows_of_flat_own hop ha
      rw [hf.constraints_eq]
      exact ih.changes ho (fun _ h => h) hf.changes
    | newVar d => exact ih.of_eq rfl rfl
    | newSnapshot value =>
      refine ih.append (fun _ _ _ h => h) fun i a ha d hd k hk => ?_
      have hlt := ho.lt_count d hd _ (List.mem_of_getElem? hk)
      dsimp only at hlt
      omega
    | post d =>
      rcases s.step_post d with ⟨t, ht, hst, hp, hl⟩ | ⟨hst, hp, hl⟩
      · rw [hst, (Store.touchAll_eq_ok ht).2]
        exact (ih.impose ho (mem_constraints_post hp hl)).of_eq rfl rfl
      · rw [hst, constraints_of_posted_eq hp hl]
        refine ih.append (fun _ _ _ h => h) fun i a ha e he k hk => ?_
        have hlt := ho.lt_count e he _ (List.mem_of_getElem? hk)
        dsimp only at hlt
        omega
    | impose d id =>
      obtain ⟨hst, hp, hl⟩ := s.step_impose d id
      rw [hst]
      exact ih.impose ho (mem_constraints_impose hp hl)
    | pushLevel => exact ih.pushLevel
    | backtrack => exact ih.backtrack

/-- A posted constraint watches its scope, is numbered by its position, and has variables that exist. -/
theorem posted_proper {allowed : Session w → Op w → Prop} (hs : s.Reached allowed) :
    ∀ (i : Nat) (p : Posted Disjoint), s.engine.posted[i]? = some p → p.Proper i s.store := by
  induction hs with
  | start => exact nofun
  | @step s op hr ha ih =>
    have grown : ∀ {t : Store w}, s.store.cells.length ≤ t.cells.length →
        ∀ (i : Nat) (p : Posted Disjoint), s.engine.posted[i]? = some p → p.Proper i t :=
      fun hle i p hp => ⟨(ih i p hp).watched_eq, (ih i p hp).id_eq, fun r hmem v hv =>
        Nat.lt_of_lt_of_le ((ih i p hp).known r hmem v hv) hle⟩
    cases op using Op.kinds with
    | flat op hop =>
      intro i p hp
      have hf := s.flows_of_flat_any hop
      obtain ⟨q, hq, he⟩ := Engine.posted_of_bare hf.posted_eq hp
      exact (grown hf.changes.writes.shrinks.length_le i q hq).of_bare he
    | newVar d => exact grown (by simp [step, store, withStore, Store.newVar])
    | newSnapshot value => exact grown (Nat.le_refl _)
    | post d =>
      rcases s.step_post d with ⟨t, ht, hst, hp, -⟩ | ⟨hst, hp, -⟩
      · obtain ⟨hscope, rfl⟩ := Store.touchAll_eq_ok ht
        rw [hst, hp]
        intro i p hp
        rw [List.getElem?_append] at hp
        split at hp
        · exact grown (by simp [Store.allot]) i p hp
        · next hge =>
          obtain ⟨hi, rfl⟩ := List.getElem?_eq_some_iff.1 hp
          simp only [List.length_singleton] at hi
          obtain rfl : i = s.engine.posted.length := by omega
          refine ⟨?_, ?_, fun r hmem v hv => ?_⟩
          · simp [Disjoint.imposed, Disjoint.scope]
          · simp [Disjoint.imposed]
          · dsimp only
            rw [List.length_mapIdx]
            refine hscope v (List.mem_flatMap.2 ⟨r, ?_, hv⟩)
            simpa [Disjoint.imposed] using hmem
      · rw [hst, hp]
        exact grown (Nat.le_refl _)
    | impose d id =>
      obtain ⟨hst, hp, -⟩ := s.step_impose d id
      rw [hst, hp]
      exact grown (Nat.le_refl _)
    | pushLevel => exact grown (Nat.le_refl _)
    | backtrack => exact grown (Nat.le_of_eq s.store.length_backtrack.1.symm)

/-- **Every engine is proper** where slots of candidates are left to their constraints. -/
theorem proper (hs : s.Reached OwnSlots) : s.engine.Proper := by
  have hsub : ∀ d ∈ s.engine.constraints, d ∈ s.constraints := fun d hd => List.mem_append_left _ hd
  exact ⟨(owned hs).subset hsub, (stash hs).subset hsub, posted_proper hs⟩

end Session
end Placement
