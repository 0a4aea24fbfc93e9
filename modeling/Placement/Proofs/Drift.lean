/-
# What changes is pending

While nothing takes the pending variables, a store drifts (`Store.Drifts`): a variable is as it was,
stamp and all, or it is pending and has a part of its domain. So a rectangle none of whose
variables is pending (`Rectangle.Untouched`) looks as it did, is settled if it was, and has lengths
that may be negative if it had.

All writes but the taking of the pending variables are drifts, and a visit of a rectangle is one
that writes no slot but the rectangle's own (`Disjoint.ends_visited`).
-/

import Placement.Proofs.Visits

namespace Placement

variable {w : Width}

/-! ## Pending variables -/

namespace Store

/-- The variable is pending. -/
def Pending (s : Store w) (v : Var) : Prop := ∃ c, s.cells[v.val]? = some c ∧ c.pending = true

/-- The changed variables are those that are pending. -/
theorem mem_changed {s : Store w} {v : Var} : v ∈ s.changed ↔ s.Pending v := by
  unfold changed vars numVars Pending
  rw [List.mem_filter, List.mem_map]
  constructor
  · rintro ⟨-, hany⟩
    cases hc : s.cells[v.val]? with
    | none =>
      rw [hc] at hany
      cases hany
    | some c =>
      rw [hc] at hany
      exact ⟨c, rfl, hany⟩
  · rintro ⟨c, hc, hp⟩
    obtain ⟨hv, -⟩ := List.getElem?_eq_some_iff.1 hc
    exact ⟨⟨v.val, List.mem_range.2 hv, rfl⟩, by rw [hc]; exact hp⟩

/-- After clearing, no variable is pending. -/
theorem not_pending_clearPending (s : Store w) (v : Var) : ¬ s.clearPending.Pending v := by
  rintro ⟨c, hc, hp⟩
  rw [cells_clearPending, List.getElem?_map, Option.map_eq_some_iff] at hc
  obtain ⟨c', -, rfl⟩ := hc
  cases hp

/-- If a store has no changes, no variable is pending. -/
theorem not_pending_of_not_hasChanges {s : Store w} (h : s.hasChanges = false) (v : Var) : ¬ s.Pending v := by
  rw [← clearPending_of_not_hasChanges h]
  exact s.not_pending_clearPending v

end Store

/-- No variable of the rectangle is pending. -/
def Rectangle.Untouched (r : Rectangle) (s : Store w) : Prop := ∀ v ∈ r.vars, ¬ s.Pending v

/-- No variable that the constraint watches is pending. -/
def Disjoint.Quiet (d : Disjoint) (s : Store w) : Prop := ∀ v ∈ d.scope, ¬ s.Pending v

/-- A rectangle touches no changed variable exactly if it is untouched. -/
theorem Rectangle.touches_changed {r : Rectangle} {s : Store w} :
    r.touches s.changed = false ↔ r.Untouched s := by
  unfold touches Untouched
  rw [List.any_eq_false]
  refine forall₂_congr fun v _ => ?_
  rw [List.contains_iff_mem, Store.mem_changed]

/-- The variables of its rectangles are in the scope of a constraint. -/
theorem Disjoint.mem_scope {d : Disjoint} {r : Rectangle} (hr : r ∈ d.rectangles) {v : Var} (hv : v ∈ r.vars) :
    v ∈ d.scope := List.mem_flatMap.2 ⟨r, hr, hv⟩

/-- All rectangles of a quiet constraint are untouched. -/
theorem Disjoint.Quiet.untouched {d : Disjoint} {s : Store w} (h : d.Quiet s) {r : Rectangle}
    (hr : r ∈ d.rectangles) : r.Untouched s := fun _ hv => h _ (d.mem_scope hr hv)

/-! ## Drifting stores -/

namespace Store

variable {s t u : Store w}

/-- Every variable is as it was, or is pending and has a part of its domain. -/
structure Drifts (s t : Store w) : Prop where
  level_eq : t.level = s.level
  cells : ∀ (i : Nat) (c : Cell w), s.cells[i]? = some c →
    ∃ c', t.cells[i]? = some c' ∧ (c' = c ∨ c'.pending = true ∧ c'.domain.Within c.domain)

namespace Drifts

/-- Every store has drifted to itself. -/
theorem refl (s : Store w) : Drifts s s := ⟨rfl, fun _ c hc => ⟨c, hc, .inl rfl⟩⟩

/-- Drifting twice is drifting. -/
theorem trans (h : Drifts s t) (h' : Drifts t u) : Drifts s u := by
  refine ⟨h'.level_eq.trans h.level_eq, fun i c hc => ?_⟩
  obtain ⟨c₁, hc₁, h₁⟩ := h.cells i c hc
  obtain ⟨c₂, hc₂, h₂⟩ := h'.cells i c₁ hc₁
  refine ⟨c₂, hc₂, ?_⟩
  rcases h₂ with rfl | ⟨hp₂, hw₂⟩
  · exact h₁
  · rcases h₁ with rfl | ⟨-, hw₁⟩
    · exact .inr ⟨hp₂, hw₂⟩
    · exact .inr ⟨hp₂, hw₂.trans hw₁⟩

/-- A store with the same variables at the same level. -/
theorem of_cells (hc : t.cells = s.cells) (hl : t.level = s.level) : Drifts s t :=
  ⟨hl, fun _ c h => ⟨c, by rw [hc]; exact h, .inl rfl⟩⟩

/-- What is pending stays so. -/
theorem pending (h : Drifts s t) {v : Var} (hv : s.Pending v) : t.Pending v := by
  obtain ⟨c, hc, hp⟩ := hv
  obtain ⟨c', hc', rfl | ⟨hp', -⟩⟩ := h.cells _ c hc
  · exact ⟨c', hc', hp⟩
  · exact ⟨c', hc', hp'⟩

/-- A store that drifts shrinks. -/
theorem shrinks (h : Drifts s t) : Shrinks s t := by
  refine ⟨?_, fun v hv => ?_⟩
  · by_contra hlt
    rw [Nat.not_le] at hlt
    obtain ⟨c', hc', -⟩ := h.cells _ _ (List.getElem?_eq_getElem hlt)
    exact Nat.lt_irrefl _ (List.getElem?_eq_some_iff.1 hc').1
  · have hc := List.getElem?_eq_getElem hv
    obtain ⟨c', hc', rfl | ⟨-, hw⟩⟩ := h.cells _ _ hc
    · rw [dom_of_cell hc, dom_of_cell hc']
      exact .refl _
    · rw [dom_of_cell hc, dom_of_cell hc']
      exact hw

/-- A variable that is not pending afterwards is as it was. -/
theorem cell_eq (h : Drifts s t) {v : Var} (hv : v.val < s.cells.length) (hp : ¬ t.Pending v) :
    t.cells[v.val]? = s.cells[v.val]? := by
  have hc := List.getElem?_eq_getElem hv
  obtain ⟨c', hc', rfl | ⟨hp', -⟩⟩ := h.cells _ _ hc
  · rw [hc, hc']
  · exact absurd ⟨c', hc', hp'⟩ hp

/-- A variable that is not pending after a drift has kept its domain. -/
theorem dom_eq (h : Drifts s t) {v : Var} (hv : v.val < s.cells.length) (hp : ¬ t.Pending v) :
    t.dom v = s.dom v := by
  unfold dom
  rw [h.cell_eq hv hp]

end Drifts

/-- Narrowing a domain is a drift. -/
theorem drifts_setBounds {v : Var} {lo hi : Int} {b : Bool} (h : s.setBounds v lo hi = .ok (b, t)) :
    Drifts s t := by
  obtain ⟨c, d, hc, hd, ⟨-, -, rfl⟩ | ⟨-, -, rfl⟩⟩ := setBounds_eq_ok h
  · exact .refl _
  obtain ⟨hv, -⟩ := List.getElem?_eq_some_iff.1 hc
  refine ⟨level_of_note rfl, fun i e he => ?_⟩
  dsimp only
  rw [List.getElem?_set]
  by_cases hi : v.val = i
  · subst hi
    rw [hc] at he
    cases he
    rw [if_pos rfl, if_pos hv]
    exact ⟨_, rfl, .inr ⟨rfl, Domain.within_of_restrict? hd⟩⟩
  · rw [if_neg hi]
    exact ⟨e, he, .inl rfl⟩

/-- Writing a slot is a drift. -/
theorem drifts_setSnapshot {x : Slot} {value : List Nat} (h : s.setSnapshot x value = .ok t) :
    Drifts s t := by
  obtain ⟨a, -, rfl⟩ := setSnapshot_eq_ok.1 h
  exact .of_cells rfl (level_of_note rfl)

/-- Marking variables is a drift. -/
theorem drifts_touchAll {vs : List Var} (h : s.touchAll vs = .ok t) : Drifts s t := by
  obtain ⟨-, rfl⟩ := touchAll_eq_ok h
  refine ⟨rfl, fun i c hc => ?_⟩
  dsimp only
  rw [List.getElem?_mapIdx, hc]
  refine ⟨_, rfl, ?_⟩
  split
  · exact .inr ⟨rfl, .refl _⟩
  · exact .inl rfl

/-- A variable that was marked is pending. -/
theorem pending_touchAll {vs : List Var} (h : s.touchAll vs = .ok t) {v : Var} (hv : v ∈ vs) : t.Pending v := by
  obtain ⟨hlt, rfl⟩ := touchAll_eq_ok h
  have hlt := hlt v hv
  refine ⟨{ s.cells[v.val] with pending := true }, ?_, rfl⟩
  dsimp only
  rw [List.getElem?_mapIdx, List.getElem?_eq_getElem hlt]
  exact congrArg some (if_pos hv)

/-- Creating a variable is a drift. -/
theorem drifts_newVar (s : Store w) (d : Domain w) : Drifts s (s.newVar d).2 := by
  refine ⟨rfl, fun i c hc => ⟨c, ?_, .inl rfl⟩⟩
  exact (List.getElem?_append_left (List.getElem?_eq_some_iff.1 hc).1).trans hc

end Store

namespace Rectangle

variable {r : Rectangle} {s t : Store w}

/-- A rectangle that is untouched after a drift was untouched before. -/
theorem Untouched.of_drifts (h : r.Untouched t) (hst : s.Drifts t) : r.Untouched s :=
  fun v hv hp => h v hv (hst.pending hp)

/-- A rectangle that is untouched afterwards looks as it did. -/
theorem Untouched.view_eq (h : r.Untouched t) (hst : s.Drifts t) (hk : r.Known s) : r.view t = r.view s := by
  refine List.map_congr_left fun x hx => ?_
  have ho : x.origin ∈ r.vars := List.mem_append_left _ (List.mem_map.2 ⟨x, hx, rfl⟩)
  have hl : x.length ∈ r.vars := List.mem_append_right _ (List.mem_map.2 ⟨x, hx, rfl⟩)
  unfold Store.look
  rw [hst.dom_eq (hk _ ho) (h _ ho), hst.dom_eq (hk _ hl) (h _ hl)]

/-- A drift that leaves a rectangle untouched does not decide whether it is settled. -/
theorem Untouched.settled_iff (h : r.Untouched t) (hst : s.Drifts t) (hk : r.Known s) :
    r.Settled t ↔ r.Settled s := by
  unfold Settled
  refine forall₂_congr fun v hv => ?_
  rw [hst.cell_eq (hk v hv) (h v hv), hst.level_eq]

/-- What a rectangle shows depends on the variables only. -/
theorem view_of_cells (r : Rectangle) (h : t.cells = s.cells) : r.view t = r.view s := by
  refine List.map_congr_left fun x _ => ?_
  unfold Store.look Store.dom
  rw [h]

/-- A rectangle shows the same after what is pending is cleared. -/
theorem view_clearPending (r : Rectangle) (s : Store w) : r.view s.clearPending = r.view s := by
  refine List.map_congr_left fun x _ => ?_
  unfold Store.look
  rw [Store.dom_clearPending, Store.dom_clearPending]

/-- A rectangle is settled after clearing what is pending exactly if it was before. -/
theorem settled_clearPending (r : Rectangle) (s : Store w) : r.Settled s.clearPending ↔ r.Settled s := by
  unfold Settled
  refine forall₂_congr fun v _ => ?_
  rw [Store.cells_clearPending, List.getElem?_map, Store.level_clearPending]
  cases s.cells[v.val]? with
  | none => simp
  | some c => simp [Cell.quiet]

/-- No least length of a rectangle is negative exactly if that is so of the extents it shows. -/
theorem nonneg_iff_view : r.Nonneg s ↔ ∀ e ∈ r.view s, 0 ≤ e.length.lo := by
  unfold Nonneg view
  rw [List.forall_mem_map]

/-- Whether a least length is negative depends on what the rectangle shows only. -/
theorem nonneg_congr (h : r.view t = r.view s) : r.Nonneg t ↔ r.Nonneg s := by
  rw [nonneg_iff_view, nonneg_iff_view, h]

end Rectangle

/-! ## A visit of a rectangle -/

/-- The store drifted, and no slot was written but the one of the rectangle at position `k`. -/
structure Disjoint.Visited (d : Disjoint) (k : Nat) (s t : Store w) : Prop where
  drifts : s.Drifts t
  slots_eq : ∀ x : Slot, d.candidates.slots[k]? ≠ some x → t.slots[x.val]? = s.slots[x.val]?

namespace Disjoint

variable {d : Disjoint} {k : Nat} {s t u : Store w}

/-- Two visits of one position act as one. -/
theorem Visited.trans (h : d.Visited k s t) (h' : d.Visited k t u) : d.Visited k s u :=
  ⟨h.drifts.trans h'.drifts, fun x hx => (h'.slots_eq x hx).trans (h.slots_eq x hx)⟩

/-- A visit leaves the candidates of the other rectangles as they were. -/
theorem Visited.get_eq (h : d.Visited k s t) (hnodup : d.candidates.slots.Nodup) {i : Nat} (hik : i ≠ k) :
    d.candidates.get t i = d.candidates.get s i := by
  refine Candidates.get_of_slots fun x hx => h.slots_eq x fun hk => hik ?_
  exact (List.getElem?_inj (List.getElem?_eq_some_iff.1 hx).1 hnodup).1 (hx.trans hk.symm)

/-- Any number of visits of one position act as one. -/
theorem Visited.of_steps (h : Relation.ReflTransGen (d.Visited k) s t) : d.Visited k s t := by
  induction h with
  | refl => exact ⟨.refl _, fun _ _ => rfl⟩
  | tail _ hst ih => exact ih.trans hst

/-- Narrowing a domain may be part of a visit. -/
theorem visited_setBounds {v : Var} {lo hi : Int} {b : Bool} (h : s.setBounds v lo hi = .ok (b, t)) :
    d.Visited k s t := by
  refine ⟨Store.drifts_setBounds h, fun x _ => ?_⟩
  rw [Store.slots_setBounds h]

/-- **A visit drifts, and writes its own slot only**, however it ends. -/
theorem ends_visited (d : Disjoint) (changed : List Var) (k : Nat) (p : Pass w) :
    Ends (d.narrowRectangle changed k) p (fun _ q => d.Visited k p.store q.store)
      fun _ q => d.Visited k p.store q.store := by
  refine (d.moves_narrowRectangle changed k (R := d.Visited k) (fun _ _ _ _ _ _ _ _ _ h => visited_setBounds h)
    (fun s t current found _ _ h => ?_) p).mono (fun _ _ h => .of_steps h) fun _ _ h => .of_steps h
  obtain ⟨_, x, -, -, hx, h⟩ := Candidates.replace_eq_ok h
  refine ⟨Store.drifts_setSnapshot h, fun y hy => ?_⟩
  have hne : x.val ≠ y.val := fun he => hy (hx.trans (by cases x; cases y; exact congrArg _ (congrArg _ he)))
  obtain ⟨a, -, rfl⟩ := Store.setSnapshot_eq_ok.1 h
  exact List.getElem?_set_ne hne

end Disjoint
end Placement
