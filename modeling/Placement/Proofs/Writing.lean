/-
# What a write does to a store

Every operation of a store that neither creates something nor changes the level is made
of four writes: narrow a domain, replace the value of a slot, mark a variable as pending,
or mark all variables as not pending (`Store.Write`). The inversion lemmas below say all
that each of them can do; whatever is claimed of a sequence of writes is proved from
these four cases.
-/

import Placement.Candidates
import Mathlib.Logic.Relation

namespace Placement

variable {α β ε : Type}

/-! ## Reading what may be missing -/

/-- A chain gives a result if its first part does and the rest does from there. -/
theorem bind_eq_ok {x : Except ε α} {f : α → Except ε β} {b : β} :
    (x >>= f) = .ok b ↔ ∃ a, x = .ok a ∧ f a = .ok b := by
  cases x with
  | ok a => exact ⟨fun h => ⟨a, rfl, h⟩, fun ⟨_, ha, h⟩ => by cases ha; exact h⟩
  | error e => exact ⟨fun h => (by cases h), fun ⟨_, ha, _⟩ => by cases ha⟩

/-- A chain fails if its first part does, or the rest does from there. -/
theorem bind_eq_error {x : Except ε α} {f : α → Except ε β} {e : ε} :
    (x >>= f) = .error e ↔ x = .error e ∨ ∃ a, x = .ok a ∧ f a = .error e := by
  cases x with
  | ok a => exact ⟨fun h => .inr ⟨a, rfl, h⟩, fun h => by
      rcases h with h | ⟨_, ha, h⟩
      · cases h
      · cases ha; exact h⟩
  | error e' => exact ⟨fun h => .inl (by cases h; rfl), fun h => by
      rcases h with h | ⟨_, ha, _⟩
      · cases h; rfl
      · cases ha⟩

/-- A value gives itself only. -/
@[simp] theorem pure_eq_ok {a b : α} : (pure a : Except ε α) = .ok b ↔ a = b :=
  ⟨fun h => Except.ok.inj h, fun h => h ▸ rfl⟩

/-- A value is no failure. -/
@[simp] theorem pure_ne_error {a : α} {e : ε} : (pure a : Except ε α) ≠ .error e :=
  fun h => nomatch h

/-- What may only be at fault gives the same results where there are failures of other kinds too. -/
@[simp] theorem liftM_eq_ok {x : Except Fault α} {a : α} :
    (liftM x : Except (Failure ε) α) = .ok a ↔ x = .ok a := by
  cases x with
  | ok b => exact ⟨fun h => by cases h; rfl, fun h => by cases h; rfl⟩
  | error c => exact ⟨fun h => (nomatch h), fun h => nomatch h⟩

/-- A computation that can only be misused never refutes. -/
@[simp] theorem liftM_eq_error {x : Except Fault α} {e : Failure ε} :
    (liftM x : Except (Failure ε) α) = .error e ↔ ∃ c, x = .error c ∧ e = .fault c := by
  cases x with
  | ok b => exact ⟨fun h => (nomatch h), fun ⟨_, h, _⟩ => nomatch h⟩
  | error c => exact ⟨fun h => ⟨c, rfl, by cases h; rfl⟩, fun ⟨_, h, he⟩ => by cases h; exact he ▸ rfl⟩

/-- After a result, a chain goes on with it. -/
theorem ok_bind (a : α) (f : α → Except ε β) : (Except.ok a >>= f) = f a := rfl

/-- After a lifted result, a chain goes on with it. -/
theorem liftM_ok_bind (a : α) (f : α → Except (Failure ε) β) :
    ((liftM (Except.ok a : Except Fault α) : Except (Failure ε) α) >>= f) = f a := rfl

/-- An entry is given exactly if the table has it. -/
@[simp] theorem entry_eq_ok {table : List α} {i : Nat} {a : α} :
    entry table i = .ok a ↔ table[i]? = some a := by
  unfold entry
  cases table[i]? <;> simp

namespace Store

variable {w : Width} {s t : Store w} {v : Var} {k : Slot}

/-- A cell is given exactly if the variable exists. -/
@[simp] theorem cell_eq_ok {c : Cell w} : s.cell v = .ok c ↔ s.cells[v.val]? = some c := entry_eq_ok

/-- A slot is given exactly if it exists. -/
@[simp] theorem saved_eq_ok {a : Saved} : s.saved k = .ok a ↔ s.slots[k.val]? = some a := entry_eq_ok

/-- A domain is given exactly if a cell holds it. -/
theorem domain_eq_ok {d : Domain w} :
    s.domain v = .ok d ↔ ∃ c, s.cells[v.val]? = some c ∧ c.domain = d := by
  simp only [domain, bind_eq_ok, cell_eq_ok, pure_eq_ok]

/-- A list of positions is given exactly if a slot holds it. -/
theorem snapshot_eq_ok {value : List Nat} :
    s.snapshot k = .ok value ↔ ∃ a, s.slots[k.val]? = some a ∧ a.value = value := by
  simp only [snapshot, bind_eq_ok, saved_eq_ok, pure_eq_ok]

/-! ## The four writes -/

/-- **Narrowing a domain** leaves the store as it is, or replaces the domain by a smaller one,
stamps it with the level, marks it as pending, and notes what it was. -/
theorem setBounds_eq_ok {lo hi : Int} {b : Bool} (h : s.setBounds v lo hi = .ok (b, t)) :
    ∃ c d, s.cells[v.val]? = some c ∧ c.domain.restrict? lo hi = some d ∧
      (d = c.domain ∧ b = false ∧ t = s ∨
        d ≠ c.domain ∧ b = true ∧ t =
          { s with
            cells := s.cells.set v.val ⟨d, s.level, true⟩
            trail := s.note c.stamp (.domain v c.domain c.stamp) }) := by
  simp only [setBounds, bind_eq_ok, liftM_eq_ok, cell_eq_ok] at h
  obtain ⟨c, hc, h⟩ := h
  split at h
  · cases h
  · next d hd =>
    refine ⟨c, d, hc, hd, ?_⟩
    split at h <;> rename_i hdc <;> cases h
    · exact .inl ⟨hdc, rfl, rfl⟩
    · exact .inr ⟨hdc, rfl, rfl⟩

/-- Narrowing a domain writes no slot. -/
theorem slots_setBounds {lo hi : Int} {b : Bool} (h : s.setBounds v lo hi = .ok (b, t)) :
    t.slots = s.slots := by
  obtain ⟨c, d, -, -, ⟨-, -, rfl⟩ | ⟨-, -, rfl⟩⟩ := setBounds_eq_ok h
  · rfl
  · rfl

/-- Raising a lower bound is narrowing a domain. -/
theorem setBounds_of_setMin {lo : Int} {r : Bool × Store w} (h : s.setMin v lo = .ok r) :
    ∃ hi, s.setBounds v lo hi = .ok r := by
  simp only [setMin, bind_eq_ok] at h
  obtain ⟨d, -, h⟩ := h
  exact ⟨d.hi, h⟩

/-- Lowering an upper bound is narrowing a domain. -/
theorem setBounds_of_setMax {hi : Int} {r : Bool × Store w} (h : s.setMax v hi = .ok r) :
    ∃ lo, s.setBounds v lo hi = .ok r := by
  simp only [setMax, bind_eq_ok] at h
  obtain ⟨d, -, h⟩ := h
  exact ⟨d.lo, h⟩

/-- What writing a slot does, if it exists. -/
theorem setSnapshot_eq_ok {value : List Nat} :
    s.setSnapshot k value = .ok t ↔ ∃ a, s.slots[k.val]? = some a ∧ t =
      { s with
        slots := s.slots.set k.val ⟨value, s.level⟩
        trail := s.note a.stamp (.slot k a.value a.stamp) } := by
  simp only [setSnapshot, bind_eq_ok, saved_eq_ok, pure_eq_ok, @eq_comm _ t]

/-- What marking a variable does, if it exists. -/
theorem touch_eq_ok :
    s.touch v = .ok t ↔ ∃ c, s.cells[v.val]? = some c ∧
      t = { s with cells := s.cells.set v.val { c with pending := true } } := by
  simp only [touch, bind_eq_ok, cell_eq_ok, pure_eq_ok, @eq_comm _ t]

/-- One write to a store, at its current level. -/
inductive Write : Store w → Store w → Prop
  | bounds {s t : Store w} {v : Var} {lo hi : Int} {b : Bool}
      (h : s.setBounds v lo hi = .ok (b, t)) : Write s t
  | slot {s t : Store w} {k : Slot} {value : List Nat}
      (h : s.setSnapshot k value = .ok t) : Write s t
  | touch {s t : Store w} {v : Var} (h : s.touch v = .ok t) : Write s t
  | clear (s : Store w) : Write s s.clearPending

/-- Any number of writes. -/
abbrev Writes : Store w → Store w → Prop := Relation.ReflTransGen Write

end Store

/-! ## Candidates -/

namespace Candidates

variable {w : Width} {c : Candidates} {s t : Store w} {r : Nat} {value : List Nat}

/-- The candidates of a rectangle are what its slot holds. -/
theorem get_eq_ok :
    c.get s r = .ok value ↔
      ∃ k : Slot, c.slots[r]? = some k ∧ ∃ a, s.slots[k.val]? = some a ∧ a.value = value := by
  simp only [get, bind_eq_ok, entry_eq_ok, Store.snapshot_eq_ok]

/-- Candidates are replaced by some of them. -/
theorem replace_eq_ok (h : c.replace s r value = .ok t) :
    ∃ current k, c.get s r = .ok current ∧ (∀ j ∈ value, j ∈ current) ∧ c.slots[r]? = some k ∧
      s.setSnapshot k value = .ok t := by
  simp only [replace, bind_eq_ok] at h
  obtain ⟨current, hc, h⟩ := h
  split at h
  · simp only [bind_eq_ok] at h
    obtain ⟨_, h, _⟩ := h
    cases h
  · next hsub =>
    simp only [bind_eq_ok, entry_eq_ok] at h
    obtain ⟨k, hk, h⟩ := h
    simp only [List.all_eq_true, List.contains_iff_mem, Classical.not_not] at hsub
    exact ⟨current, k, hc, hsub, hk, h⟩

end Candidates
end Placement
