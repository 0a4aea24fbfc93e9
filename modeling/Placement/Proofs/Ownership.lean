/-
# Who owns which slot

Every constraint of a session keeps its candidates in slots of its own: one for each
rectangle, all of them exist, and no slot belongs to two rectangles (`Owned`). This holds
whatever is done to the session (`Session.owned`), since slots are only ever appended.
Together with the rule that slots of candidates are not written by hand, it says what
happens to the candidates of a rectangle: only a step of its own constraint at its own
position replaces them (`Candidates.get_of_change`).
-/

import Placement.Proofs.Backtracking
import Placement.Proofs.Session

namespace Placement

variable {w : Width}

/-- The constraints keep their candidates in different slots, one for each rectangle, among the
first `count`. -/
structure Owned (ds : List Disjoint) (count : Nat) : Prop where
  length_eq : ∀ d ∈ ds, d.candidates.slots.length = d.rectangles.length
  lt_count : ∀ d ∈ ds, ∀ x ∈ d.candidates.slots, x.val < count
  unique : ∀ d ∈ ds, ∀ d' ∈ ds, ∀ (k k' : Nat) (x : Slot), d.candidates.slots[k]? = some x →
    d'.candidates.slots[k']? = some x → d = d' ∧ k = k'

/-- Slots that are owned stay so as more are created. -/
theorem Owned.mono {ds : List Disjoint} {m n : Nat} (h : Owned ds m) (hmn : m ≤ n) : Owned ds n :=
  ⟨h.length_eq, fun d hd x hx => Nat.lt_of_lt_of_le (h.lt_count d hd x hx) hmn, h.unique⟩

/-- Some of the constraints own their slots if all do. -/
theorem Owned.subset {ds es : List Disjoint} {n : Nat} (h : Owned ds n) (hes : ∀ d ∈ es, d ∈ ds) :
    Owned es n :=
  ⟨fun d hd => h.length_eq d (hes d hd), fun d hd => h.lt_count d (hes d hd),
    fun d hd d' hd' => h.unique d (hes d hd) d' (hes d' hd')⟩

/-- A constraint has different slots for different rectangles. -/
theorem Owned.nodup {ds : List Disjoint} {n : Nat} (h : Owned ds n) {d : Disjoint} (hd : d ∈ ds) :
    d.candidates.slots.Nodup :=
  List.pairwise_iff_getElem.2 fun k k' hk hk' hlt he => by
    have hx := List.getElem?_eq_getElem hk'
    have := (h.unique d hd d hd k k' _ (he ▸ List.getElem?_eq_getElem hk) hx).2
    omega

/-- A constraint that was imposed owns the slots that were created for it, one per rectangle. -/
theorem slots_imposed (d : Disjoint) (id : ConstraintId) (s : Store w) {k : Nat} {x : Slot} :
    (d.imposed id s).bare.candidates.slots[k]? = some x ↔
      k < d.rectangles.length ∧ x.val = s.slots.length + k := by
  change ((List.range' s.slots.length d.rectangles.length).map Index.mk)[k]? = some x ↔ _
  rw [List.getElem?_map, Option.map_eq_some_iff]
  constructor
  · rintro ⟨a, ha, rfl⟩
    obtain ⟨hk, rfl⟩ := List.getElem?_eq_some_iff.1 ha
    rw [List.length_range'] at hk
    exact ⟨hk, by simp⟩
  · rintro ⟨hk, hx⟩
    refine ⟨x.val, ?_, rfl⟩
    rw [List.getElem?_eq_getElem (by simpa using hk)]
    simp [hx]

/-- The slots of a constraint that was imposed are distinct. -/
theorem Disjoint.nodup_imposed (d : Disjoint) (id : ConstraintId) (s : Store w) :
    (d.imposed id s).candidates.slots.Nodup :=
  List.pairwise_map.2 (List.Pairwise.imp (fun hne h => hne (congrArg Index.val h)) List.nodup_range')

/-- A constraint that was just imposed owns the slots that were appended for it. -/
theorem Owned.impose {ds ds' : List Disjoint} {d : Disjoint} {id : ConstraintId} {s : Store w}
    (h : Owned ds s.slots.length) (hds : ∀ e, e ∈ ds' ↔ e ∈ ds ∨ e = (d.imposed id s).bare) :
    Owned ds' (s.slots.length + d.rectangles.length) := by
  have old : ∀ e ∈ ds, ∀ (k : Nat) (x : Slot), e.candidates.slots[k]? = some x →
      x.val < s.slots.length := fun e he k x hx => h.lt_count e he x (List.mem_of_getElem? hx)
  refine ⟨fun e he => ?_, fun e he x hx => ?_, fun e he e' he' k k' x hx hx' => ?_⟩
  · rcases (hds e).1 he with he | rfl
    · exact h.length_eq e he
    · change ((List.range' s.slots.length d.rectangles.length).map Index.mk).length = _
      rw [List.length_map, List.length_range']
      rfl
  · obtain ⟨k, hk⟩ := List.getElem?_of_mem hx
    rcases (hds e).1 he with he | rfl
    · have := old e he k x hk
      omega
    · obtain ⟨hlt, hval⟩ := (slots_imposed d id s).1 hk
      omega
  · rcases (hds e).1 he with he | rfl <;> rcases (hds e').1 he' with he' | rfl
    · exact h.unique e he e' he' k k' x hx hx'
    · have := old e he k x hx
      have := ((slots_imposed d id s).1 hx').2
      omega
    · have := old e' he' k' x hx'
      have := ((slots_imposed d id s).1 hx).2
      omega
    · have hk := ((slots_imposed d id s).1 hx).2
      have hk' := ((slots_imposed d id s).1 hx').2
      exact ⟨rfl, by omega⟩

/-! ## The number of variables and slots -/

namespace Store

variable {s t : Store w}

/-- A write creates no slot. -/
theorem Write.length_slots (h : Write s t) : t.slots.length = s.slots.length := by
  cases h with
  | bounds h => rw [slots_setBounds h]
  | slot h =>
    obtain ⟨a, -, rfl⟩ := setSnapshot_eq_ok.1 h
    exact List.length_set ..
  | touch h =>
    obtain ⟨c, -, rfl⟩ := touch_eq_ok.1 h
    rfl
  | clear => rfl

/-- Writes create no slots. -/
theorem Writes.length_slots (h : Writes s t) : t.slots.length = s.slots.length := by
  induction h with
  | refl => rfl
  | tail _ hw ih => exact hw.length_slots.trans ih

/-- A write creates no variable. -/
theorem Write.length_cells (h : Write s t) : t.cells.length = s.cells.length := by
  cases h with
  | bounds h =>
    obtain ⟨c, d, -, -, ⟨-, -, rfl⟩ | ⟨-, -, rfl⟩⟩ := setBounds_eq_ok h
    · rfl
    · exact List.length_set ..
  | slot h =>
    obtain ⟨a, -, rfl⟩ := setSnapshot_eq_ok.1 h
    rfl
  | touch h =>
    obtain ⟨c, -, rfl⟩ := touch_eq_ok.1 h
    exact List.length_set ..
  | clear => exact List.length_map ..

/-- Writes create no variables. -/
theorem Writes.length_cells (h : Writes s t) : t.cells.length = s.cells.length := by
  induction h with
  | refl => rfl
  | tail _ hw ih => exact hw.length_cells.trans ih

/-- Undoing entries creates nothing and drops nothing. -/
theorem length_foldl_undo (es : List (Trail.Entry w)) (s : Store w) :
    (es.foldl undo s).cells.length = s.cells.length ∧
      (es.foldl undo s).slots.length = s.slots.length := by
  induction es generalizing s with
  | nil => exact ⟨rfl, rfl⟩
  | cons e es ih =>
    rw [List.foldl_cons, (ih _).1, (ih _).2]
    cases e with
    | domain v d n => exact ⟨List.length_modify .., rfl⟩
    | slot k l n => exact ⟨rfl, List.length_set ..⟩

/-- Backtracking creates nothing and drops nothing. -/
theorem length_backtrack (s : Store w) :
    s.backtrack.2.cells.length = s.cells.length ∧ s.backtrack.2.slots.length = s.slots.length := by
  rcases Nat.eq_zero_or_pos s.level with h0 | hl
  · rw [backtrack_of_level_eq_zero h0]
    exact ⟨List.length_map .., rfl⟩
  · obtain ⟨older, hlev⟩ := levels_eq_log hl
    rw [backtrack_eq hlev]
    exact ⟨(List.length_map ..).trans (length_foldl_undo _ _).1, (length_foldl_undo _ _).2⟩

/-- Imposing a constraint creates one slot per rectangle. -/
theorem length_slots_allot (s : Store w) (count : Nat) :
    (s.allot count).slots.length = s.slots.length + count := by
  simp [allot]

end Store

namespace Session

variable {s : Session w}

/-- Sessions with the same posted and imposed constraints have the same constraints. -/
theorem constraints_of_posted_eq {t : Session w} (hp : t.engine.posted = s.engine.posted)
    (hl : t.loose = s.loose) : t.constraints = s.constraints := by
  unfold constraints Engine.constraints
  rw [hp, hl]

/-- Imposing by hand adds one constraint. -/
theorem mem_constraints_impose {t : Session w} {d : Disjoint} {id : ConstraintId}
    (hp : t.engine.posted = s.engine.posted) (hl : t.loose = s.loose ++ [d.imposed id s.store]) (e : Disjoint) :
    e ∈ t.constraints ↔ e ∈ s.constraints ∨ e = (d.imposed id s.store).bare := by
  unfold constraints Engine.constraints
  rw [hp, hl]
  simp [or_assoc]

/-- Posting adds one constraint. -/
theorem mem_constraints_post {t : Session w} {d : Disjoint} {id : ConstraintId} {watched : List Var}
    (hp : t.engine.posted = s.engine.posted ++ [⟨d.imposed id s.store, watched⟩]) (hl : t.loose = s.loose)
    (e : Disjoint) : e ∈ t.constraints ↔ e ∈ s.constraints ∨ e = (d.imposed id s.store).bare := by
  unfold constraints Engine.constraints
  rw [hp, hl]
  simp only [List.map_append, List.map_cons, List.map_nil, List.mem_append, List.mem_singleton]
  exact or_right_comm

/-- **The constraints of a session own their slots**, whatever was done to it. -/
theorem owned {allowed : Session w → Op w → Prop} (h : s.Reached allowed) :
    Owned s.constraints s.store.slots.length := by
  induction h with
  | start => exact ⟨nofun, nofun, nofun⟩
  | @step s op _ _ ih =>
    cases op using Op.kinds with
    | flat op hop =>
      have hf := s.flows_of_flat_any hop
      rw [hf.constraints_eq, hf.changes.writes.length_slots]
      exact ih
    | newVar d => exact ih
    | newSnapshot value => exact ih.mono (by simp [step, store, withStore, Store.newSnapshot])
    | post d =>
      rcases s.step_post d with ⟨t, ht, hs, hp, hl⟩ | ⟨hs, hp, hl⟩
      · rw [hs, (Store.touchAll_writes ht).length_slots, Store.length_slots_allot]
        exact ih.impose (mem_constraints_post hp hl)
      · rw [hs, constraints_of_posted_eq hp hl, Store.length_slots_allot]
        exact ih.mono (Nat.le_add_right ..)
    | impose d id =>
      obtain ⟨hs, hp, hl⟩ := s.step_impose d id
      rw [hs, Store.length_slots_allot]
      exact ih.impose (mem_constraints_impose hp hl)
    | pushLevel => exact ih
    | backtrack =>
      have hl : (s.step .backtrack).2.store.slots.length = s.store.slots.length :=
        s.store.length_backtrack.2
      rw [hl]
      exact ih

end Session

/-! ## What happens to candidates -/

namespace Candidates

variable {s t : Store w} {c : Candidates} {k : Nat}

/-- Candidates are read from their slot only. -/
theorem get_of_slots (h : ∀ x : Slot, c.slots[k]? = some x → t.slots[x.val]? = s.slots[x.val]?) :
    c.get t k = c.get s k := by
  unfold get Store.snapshot Store.saved
  cases hx : c.slots[k]? with
  | none =>
    unfold entry
    rw [hx]
    rfl
  | some x =>
    rw [entry_eq_ok.2 hx, ok_bind, ok_bind]
    unfold entry
    rw [h x hx]

/-- The candidates of a rectangle depend on the slots only. -/
theorem get_congr (h : t.slots = s.slots) : c.get t k = c.get s k := get_of_slots fun x _ => by rw [h]

/-- Writing a slot gives new candidates to the rectangle whose slot it is, and to no other. -/
theorem get_of_setSnapshot {x : Slot} {value : List Nat} (h : s.setSnapshot x value = .ok t) :
    c.get t k = if c.slots[k]? = some x then .ok value else c.get s k := by
  obtain ⟨a, ha, rfl⟩ := Store.setSnapshot_eq_ok.1 h
  obtain ⟨hx, -⟩ := List.getElem?_eq_some_iff.1 ha
  unfold get Store.snapshot Store.saved
  cases hk : c.slots[k]? with
  | none =>
    rw [if_neg (by simp)]
    unfold entry
    rw [hk]
    rfl
  | some y =>
    rw [entry_eq_ok.2 hk]
    by_cases hy : y = x
    · subst hy
      rw [if_pos rfl]
      simp only [entry, bind, Except.bind, List.getElem?_set, if_pos hx, if_true]
      rfl
    · have hne : x.val ≠ y.val := fun he => hy (by cases x; cases y; exact congrArg _ he.symm)
      rw [if_neg fun he => hy (Option.some.inj he)]
      simp only [entry, bind, Except.bind, List.getElem?_set, if_neg hne]

end Candidates

/-- **Candidates change only by a step of their own constraint**: after a change of the store they
are what they were, or what an analysis has just kept of them. -/
theorem Candidates.get_of_change {ds : List Disjoint} {count : Nat} {free : Slot → Prop} {s t : Store w}
    (ho : Owned ds count) (hfree : ∀ x, free x → ∀ d ∈ ds, x ∉ d.candidates.slots)
    (h : Store.Change ds free s t) {d : Disjoint} (hd : d ∈ ds) (k : Nat) :
    d.candidates.get t k = d.candidates.get s k ∨
      t.cells = s.cells ∧ ∃ current changed found, d.candidates.get s k = .ok current ∧
        analyze s d.rectangles k current changed = .ok found ∧
        d.candidates.get t k = .ok found.overlapping := by
  have of_bounds : ∀ {v lo hi b}, s.setBounds v lo hi = .ok (b, t) →
      d.candidates.get t k = d.candidates.get s k := fun h => get_congr (Store.slots_setBounds h)
  cases h with
  | bounds h => exact .inl (of_bounds h)
  | slot hx h =>
    left
    rw [get_of_setSnapshot h, if_neg]
    exact fun hk => hfree _ hx d hd (List.mem_of_getElem? hk)
  | touch h =>
    obtain ⟨c, -, rfl⟩ := Store.touch_eq_ok.1 h
    exact .inl (get_congr rfl)
  | act h =>
    cases h with
    | clear => exact .inl (get_congr rfl)
    | step hd' h =>
      cases h with
      | narrow _ _ h => exact .inl (of_bounds h)
      | shrink hc ha h =>
        obtain ⟨_, x, -, -, hx, h⟩ := replace_eq_ok h
        have hcells : t.cells = s.cells := by
          obtain ⟨a, -, rfl⟩ := Store.setSnapshot_eq_ok.1 h
          rfl
        rw [get_of_setSnapshot h]
        by_cases hk : d.candidates.slots[k]? = some x
        · obtain ⟨rfl, rfl⟩ := ho.unique d hd _ hd' k _ x hk hx
          rw [if_pos hk]
          exact .inr ⟨hcells, _, _, _, hc, ha, rfl⟩
        · rw [if_neg hk]
          exact .inl rfl

end Placement
