/-
# Writing does not change what backtracking restores

Only the first write of a variable or a slot at a level is noted, and a stamp decides
which write is the first. What makes this enough is an invariant of the current level
(`Store.Layered`): no stamp exceeds the level, and everything stamped with the level has
an entry in the log of the level. Under it, a write leaves the outcome of `backtrack`
exactly as it was (`Write.backtrack_eq`): either the write is noted, and its entry takes
it back, or an older entry of the same level overwrites it.

`Store.past n` is the store that `n` backtracks give. A property of a store that also
holds of all its pasts (`Store.Always`) is kept by writes, by opening a level and by
backtracking, if writes keep it at the present.
-/

import Placement.Proofs.Writing

namespace Placement

variable {w : Width}

/-- The variable, not pending. -/
def Cell.quiet (c : Cell w) : Cell w := { c with pending := false }

namespace Store

variable {s t u : Store w}

/-- Clearing what is pending makes every cell quiet. -/
theorem cells_clearPending (s : Store w) : s.clearPending.cells = s.cells.map Cell.quiet := rfl

/-- Clearing what is pending leaves the slots. -/
@[simp] theorem slots_clearPending (s : Store w) : s.clearPending.slots = s.slots := rfl

/-- Clearing what is pending leaves the trail. -/
@[simp] theorem trail_clearPending (s : Store w) : s.clearPending.trail = s.trail := rfl

/-- Clearing what is pending leaves the level. -/
@[simp] theorem level_clearPending (s : Store w) : s.clearPending.level = s.level := rfl

/-- The log of the current level. -/
def log (s : Store w) : List (Trail.Entry w) := s.trail.levels.headD []

/-- Two stores differ at most in what the entries restore, in what is pending and in their
trails. -/
structure AlikeBut (es : List (Trail.Entry w)) (s t : Store w) : Prop where
  cells : ∀ i, s.cells[i]?.map Cell.quiet = t.cells[i]?.map Cell.quiet ∨
    i < s.cells.length ∧ i < t.cells.length ∧ ∃ d n, Trail.Entry.domain ⟨i⟩ d n ∈ es
  slots : ∀ i, s.slots[i]? = t.slots[i]? ∨
    i < s.slots.length ∧ i < t.slots.length ∧ ∃ l n, Trail.Entry.slot ⟨i⟩ l n ∈ es

/-- Undoing an entry makes two stores alike in what the entry holds. -/
theorem AlikeBut.undo {e : Trail.Entry w} {es : List (Trail.Entry w)} (h : AlikeBut (e :: es) s t) :
    AlikeBut es (s.undo e) (t.undo e) := by
  cases e with
  | domain v d n =>
    refine ⟨fun i => ?_, fun i => ?_⟩
    · simp only [Store.undo, List.getElem?_modify, List.length_modify]
      rcases h.cells i with hi | ⟨hs, ht, d', n', hm⟩
      · left
        by_cases hv : v.val = i
        · cases hs : s.cells[i]? <;> cases ht : t.cells[i]? <;> simp_all [Cell.quiet]
        · simpa [hv] using hi
      · rcases List.mem_cons.1 hm with heq | hm
        · left
          cases heq
          simp [hs, ht, Cell.quiet]
        · exact .inr ⟨hs, ht, d', n', hm⟩
    · rcases h.slots i with hi | ⟨hs, ht, l, n', hm⟩
      · exact .inl hi
      · exact .inr ⟨hs, ht, l, n', by simpa using hm⟩
  | slot k l n =>
    refine ⟨fun i => ?_, fun i => ?_⟩
    · rcases h.cells i with hi | ⟨hs, ht, d, n', hm⟩
      · exact .inl hi
      · exact .inr ⟨hs, ht, d, n', by simpa using hm⟩
    · simp only [Store.undo, List.getElem?_set, List.length_set]
      rcases h.slots i with hi | ⟨hs, ht, l', n', hm⟩
      · left
        have hlen : i < s.slots.length ↔ i < t.slots.length := by
          have : s.slots.length ≤ i ↔ t.slots.length ≤ i := by
            rw [← List.getElem?_eq_none_iff, hi, List.getElem?_eq_none_iff]
          omega
        by_cases hk : k.val = i
        · simp [hk, hlen]
        · simpa [hk] using hi
      · rcases List.mem_cons.1 hm with heq | hm
        · left
          cases heq
          simp [hs, ht]
        · exact .inr ⟨hs, ht, l', n', hm⟩

/-- Entries restore alike what is alike but for them. -/
theorem AlikeBut.foldl_undo {es : List (Trail.Entry w)} (h : AlikeBut es s t) (x : Trail w) :
    { es.foldl Store.undo s with trail := x }.clearPending =
      { es.foldl Store.undo t with trail := x }.clearPending := by
  induction es generalizing s t with
  | nil =>
    have hc : s.cells.map Cell.quiet = t.cells.map Cell.quiet :=
      List.ext_getElem? fun i => by simpa using h.cells i
    have hs : s.slots = t.slots := List.ext_getElem? fun i => by simpa using h.slots i
    exact (congrArg (Store.mk · s.slots x) hc).trans (congrArg (Store.mk _ · x) hs)
  | cons e es ih => exact ih h.undo

/-- Backtracking from a level takes the entries of its log back. -/
theorem backtrack_eq {es : List (Trail.Entry w)} {older : List (List (Trail.Entry w))}
    (h : s.trail.levels = es :: older) :
    s.backtrack = (true, { es.foldl undo s with trail := ⟨older⟩ }.clearPending) := by
  unfold backtrack Trail.pop?
  rw [h]

/-- The log of an open level, and what lies under it. -/
theorem levels_eq_log (h : 0 < s.level) : ∃ older, s.trail.levels = s.log :: older := by
  unfold level Trail.depth at h
  unfold log
  cases hl : s.trail.levels with
  | nil => simp [hl] at h
  | cons es older => exact ⟨older, rfl⟩

/-! ## Noting -/

section Note

variable {n : Nat} {e : Trail.Entry w}

/-- An entry of an older stamp is added to the newest level of the trail. -/
theorem note_of_lt {older : List (List (Trail.Entry w))} (hn : n < s.level)
    (h : s.trail.levels = s.log :: older) : s.note n e = ⟨(e :: s.log) :: older⟩ := by
  unfold note
  rw [if_pos hn]
  unfold Trail.record
  rw [h]

/-- An entry stamped at the current level is not noted again. -/
theorem note_of_le (hn : s.level ≤ n) : s.note n e = s.trail := by
  unfold note
  rw [if_neg (by omega)]

/-- Noting an entry leaves the level. -/
theorem level_of_note (ht : t.trail = s.note n e) : t.level = s.level := by
  unfold level
  rw [ht]
  unfold note
  split
  · exact Trail.depth_record _ _
  · rfl

/-- Noting takes nothing from the log. -/
theorem mem_log_of_note (ht : t.trail = s.note n e) {e' : Trail.Entry w} (h : e' ∈ s.log) :
    e' ∈ t.log := by
  unfold log at *
  rw [ht]
  unfold note Trail.record
  split
  · split <;> rename_i hl <;> rw [hl] at h
    · simp at h
    · exact List.mem_cons_of_mem _ h
  · exact h

/-- What was stamped below the level is in the log once it is written. -/
theorem mem_log_of_lt (ht : t.trail = s.note n e) (hn : n < s.level) : e ∈ t.log := by
  obtain ⟨older, hlev⟩ := levels_eq_log (show 0 < s.level by omega)
  unfold log
  rw [ht, note_of_lt hn hlev]
  exact List.mem_cons_self

/-- **A noted write takes itself back; one that is not noted is overwritten on the way back.** -/
theorem backtrack_of_note (hl : 0 < s.level) (ht : t.trail = s.note n e)
    (fresh : n < s.level → AlikeBut s.log (t.undo e) s)
    (stale : s.level ≤ n → AlikeBut s.log t s) : t.backtrack = s.backtrack := by
  obtain ⟨older, hlev⟩ := levels_eq_log hl
  rw [backtrack_eq hlev]
  rcases Nat.lt_or_ge n s.level with hlt | hge
  · rw [backtrack_eq (by rw [ht, note_of_lt hlt hlev]), List.foldl_cons]
    exact congrArg (Prod.mk true) ((fresh hlt).foldl_undo _)
  · rw [backtrack_eq (by rw [ht, note_of_le hge]; exact hlev)]
    exact congrArg (Prod.mk true) ((stale hge).foldl_undo _)

end Note

/-! ## The invariant of a level -/

/-- No stamp exceeds the level, and all that is stamped with an open level is in its log. -/
structure Layered (s : Store w) : Prop where
  stamp_le : ∀ (i : Nat) (c : Cell w), s.cells[i]? = some c → c.stamp ≤ s.level
  noted : 0 < s.level → ∀ (i : Nat) (c : Cell w), s.cells[i]? = some c → c.stamp = s.level →
    ∃ d n, Trail.Entry.domain ⟨i⟩ d n ∈ s.log
  slot_stamp_le : ∀ (i : Nat) (a : Saved), s.slots[i]? = some a → a.stamp ≤ s.level
  slot_noted : 0 < s.level → ∀ (i : Nat) (a : Saved), s.slots[i]? = some a → a.stamp = s.level →
    ∃ l n, Trail.Entry.slot ⟨i⟩ l n ∈ s.log

/-- The empty store is layered. -/
theorem layered_empty : (empty : Store w).Layered where
  stamp_le i c h := by simp [empty] at h
  noted h := by simp [empty, level, Trail.depth, Trail.empty] at h
  slot_stamp_le i a h := by simp [empty] at h
  slot_noted h := by simp [empty, level, Trail.depth, Trail.empty] at h

/-- The invariant passes to a store with the same level and a longer log in which every stamp
is an old one or the level, and what is stamped anew with an open level is in the log. -/
theorem Layered.of_stamps (hs : s.Layered) (hlev : t.level = s.level)
    (hlog : ∀ e ∈ s.log, e ∈ t.log)
    (hcells : ∀ (i : Nat) (c' : Cell w), t.cells[i]? = some c' →
      (∃ c, s.cells[i]? = some c ∧ c.stamp = c'.stamp) ∨
        c'.stamp = s.level ∧ (0 < s.level → ∃ d n, Trail.Entry.domain ⟨i⟩ d n ∈ t.log))
    (hslots : ∀ (i : Nat) (a' : Saved), t.slots[i]? = some a' →
      (∃ a, s.slots[i]? = some a ∧ a.stamp = a'.stamp) ∨
        a'.stamp = s.level ∧ (0 < s.level → ∃ l n, Trail.Entry.slot ⟨i⟩ l n ∈ t.log)) :
    t.Layered := by
  refine ⟨fun i c' h => ?_, fun hl i c' h hc' => ?_, fun i a' h => ?_, fun hl i a' h ha' => ?_⟩
  · rw [hlev]
    rcases hcells i c' h with ⟨c, hc, he⟩ | ⟨he, -⟩
    · exact he ▸ hs.stamp_le i c hc
    · exact Nat.le_of_eq he
  · rw [hlev] at hl hc'
    rcases hcells i c' h with ⟨c, hc, he⟩ | ⟨-, hm⟩
    · obtain ⟨d, n, hm⟩ := hs.noted hl i c hc (he.trans hc')
      exact ⟨d, n, hlog _ hm⟩
    · exact hm hl
  · rw [hlev]
    rcases hslots i a' h with ⟨a, ha, he⟩ | ⟨he, -⟩
    · exact he ▸ hs.slot_stamp_le i a ha
    · exact Nat.le_of_eq he
  · rw [hlev] at hl ha'
    rcases hslots i a' h with ⟨a, ha, he⟩ | ⟨-, hm⟩
    · obtain ⟨l, n, hm⟩ := hs.slot_noted hl i a ha (he.trans ha')
      exact ⟨l, n, hlog _ hm⟩
    · exact hm hl

/-! ## One write -/

/-- The level stays, its invariant stays, and backtracking from an open level gives what it
gave. -/
structure Keeps (s t : Store w) : Prop where
  level_eq : t.level = s.level
  layered : t.Layered
  backtrack_eq : 0 < s.level → t.backtrack = s.backtrack

/-- A layered store keeps what it would restore. -/
theorem Keeps.refl (hs : s.Layered) : Keeps s s := ⟨rfl, hs, fun _ => rfl⟩

/-- What is kept twice is kept. -/
theorem Keeps.trans (h : Keeps s t) (h' : Keeps t u) : Keeps s u :=
  ⟨h'.level_eq.trans h.level_eq, h'.layered, fun hl =>
    (h'.backtrack_eq (by rw [h.level_eq]; exact hl)).trans (h.backtrack_eq hl)⟩

/-- Narrowing a domain keeps what would be restored. -/
theorem keeps_setBounds {v : Var} {lo hi : Int} {b : Bool} (hs : s.Layered)
    (h : s.setBounds v lo hi = .ok (b, t)) : Keeps s t := by
  obtain ⟨c, d, hc, -, ⟨-, -, rfl⟩ | ⟨-, -, rfl⟩⟩ := setBounds_eq_ok h
  · exact .refl hs
  have hst := hs.stamp_le _ _ hc
  obtain ⟨hv, rfl⟩ := List.getElem?_eq_some_iff.1 hc
  refine ⟨level_of_note rfl, hs.of_stamps (level_of_note rfl) (fun e he => mem_log_of_note rfl he)
    (fun i c' hi => ?_) (fun i a ha => .inl ⟨a, ha, rfl⟩), fun hl => ?_⟩
  · rw [List.getElem?_set] at hi
    split at hi
    · next hvi =>
      subst hvi
      cases hi
      refine .inr ⟨rfl, fun hl => ?_⟩
      rcases Nat.lt_or_ge s.cells[v.val].stamp s.level with hlt | hge
      · exact ⟨_, _, mem_log_of_lt rfl hlt⟩
      · obtain ⟨d', n, hm⟩ := hs.noted hl _ _ hc (by omega)
        exact ⟨d', n, mem_log_of_note rfl hm⟩
    · exact .inl ⟨c', hi, rfl⟩
  · refine backtrack_of_note hl rfl (fun _ => ⟨fun i => .inl ?_, fun i => .inl rfl⟩)
      fun hge => ⟨fun i => ?_, fun i => .inl rfl⟩
    · by_cases hi : v.val = i
      · subst hi
        simp [undo, hv, Cell.quiet]
      · simp [undo, hi]
    · by_cases hi : v.val = i
      · subst hi
        exact .inr ⟨by simpa using hv, hv, hs.noted hl _ _ hc (by omega)⟩
      · exact .inl (by simp [hi])

/-- Writing a slot keeps what would be restored. -/
theorem keeps_setSnapshot {k : Slot} {value : List Nat} (hs : s.Layered)
    (h : s.setSnapshot k value = .ok t) : Keeps s t := by
  obtain ⟨a, ha, rfl⟩ := setSnapshot_eq_ok.1 h
  have hst := hs.slot_stamp_le _ _ ha
  obtain ⟨hk, rfl⟩ := List.getElem?_eq_some_iff.1 ha
  refine ⟨level_of_note rfl, hs.of_stamps (level_of_note rfl) (fun e he => mem_log_of_note rfl he)
    (fun i c hc => .inl ⟨c, hc, rfl⟩) (fun i a' hi => ?_), fun hl => ?_⟩
  · rw [List.getElem?_set] at hi
    split at hi
    · next hki =>
      subst hki
      cases hi
      refine .inr ⟨rfl, fun hl => ?_⟩
      rcases Nat.lt_or_ge s.slots[k.val].stamp s.level with hlt | hge
      · exact ⟨_, _, mem_log_of_lt rfl hlt⟩
      · obtain ⟨l, n, hm⟩ := hs.slot_noted hl _ _ ha (by omega)
        exact ⟨l, n, mem_log_of_note rfl hm⟩
    · exact .inl ⟨a', hi, rfl⟩
  · refine backtrack_of_note hl rfl (fun _ => ⟨fun i => .inl rfl, fun i => .inl ?_⟩)
      fun hge => ⟨fun i => .inl rfl, fun i => ?_⟩
    · by_cases hi : k.val = i
      · subst hi
        simp [undo, hk]
      · simp [undo, hi]
    · by_cases hi : k.val = i
      · subst hi
        exact .inr ⟨by simpa using hk, hk, hs.slot_noted hl _ _ ha (by omega)⟩
      · exact .inl (by simp [hi])

/-- What is pending has no part in backtracking. -/
theorem keeps_of_quiet (hs : s.Layered) (htr : t.trail = s.trail) (hsl : t.slots = s.slots)
    (hc : t.cells.map Cell.quiet = s.cells.map Cell.quiet) : Keeps s t := by
  have hlev : t.level = s.level := congrArg Trail.depth htr
  have hlog : t.log = s.log := by unfold log; rw [htr]
  have hci : ∀ i : Nat, t.cells[i]?.map Cell.quiet = s.cells[i]?.map Cell.quiet := fun i => by
    simpa using congrArg (·[i]?) hc
  refine ⟨hlev, hs.of_stamps hlev (fun e he => by rw [hlog]; exact he) (fun i c' hi => ?_)
    (fun i a ha => .inl ⟨a, by rw [← hsl]; exact ha, rfl⟩), fun hl => ?_⟩
  · have := hci i
    rw [hi] at this
    obtain ⟨c, hc, he⟩ := Option.map_eq_some_iff.1 this.symm
    have hst : c.quiet.stamp = c'.quiet.stamp := congrArg Cell.stamp he
    exact .inl ⟨c, hc, hst⟩
  · obtain ⟨older, hlev⟩ := levels_eq_log hl
    rw [backtrack_eq hlev, backtrack_eq (by rw [htr]; exact hlev)]
    exact congrArg (Prod.mk true)
      (AlikeBut.foldl_undo ⟨fun i => .inl (hci i), fun i => .inl (by rw [hsl])⟩ _)

/-- **A write leaves the outcome of backtracking as it was.** -/
theorem Write.keeps (h : Write s t) (hs : s.Layered) : Keeps s t := by
  cases h with
  | bounds h => exact keeps_setBounds hs h
  | slot h => exact keeps_setSnapshot hs h
  | touch h =>
    obtain ⟨c, hc, rfl⟩ := touch_eq_ok.1 h
    obtain ⟨hv, rfl⟩ := List.getElem?_eq_some_iff.1 hc
    refine keeps_of_quiet hs rfl rfl ?_
    refine List.ext_getElem? fun i => ?_
    simp only [List.getElem?_map, List.getElem?_set]
    split
    · next hi => subst hi; simp [hv, Cell.quiet]
    · rfl
  | clear => exact keeps_of_quiet hs rfl rfl (by simp [cells_clearPending, Function.comp_def, Cell.quiet])

/-- **Writes keep what would be restored**, whatever their number. -/
theorem Writes.keeps (h : Writes s t) (hs : s.Layered) : Keeps s t := by
  induction h with
  | refl => exact .refl hs
  | tail _ hw ih => exact ih.trans (hw.keeps ih.layered)

/-! ## Levels -/

/-- At the root, backtracking leaves no level and only clears what is pending. -/
theorem backtrack_of_level_eq_zero (h : s.level = 0) : s.backtrack = (false, s.clearPending) := by
  unfold backtrack Trail.pop?
  unfold level Trail.depth at h
  rw [List.length_eq_zero_iff.1 h]

/-- Backtracking leaves one level, if there is one. -/
theorem level_backtrack (s : Store w) : s.backtrack.2.level = s.level - 1 := by
  rcases Nat.eq_zero_or_pos s.level with h0 | hl
  · rw [backtrack_of_level_eq_zero h0, level_clearPending, h0]
  · obtain ⟨older, hlev⟩ := levels_eq_log hl
    rw [backtrack_eq hlev]
    simp [level, Trail.depth, hlev]

/-- Nothing is pending after backtracking. -/
theorem hasChanges_backtrack (s : Store w) : s.backtrack.2.hasChanges = false := by
  unfold backtrack
  split <;> exact hasChanges_clearPending _

/-- A store without changes is not changed by clearing. -/
theorem clearPending_of_not_hasChanges (h : s.hasChanges = false) : s.clearPending = s := by
  have hc : s.cells.map Cell.quiet = s.cells.map id := by
    refine List.map_congr_left fun c hc => ?_
    have : c.pending = false := by simpa [hasChanges] using List.any_eq_false.1 h c hc
    simp [Cell.quiet, ← this]
  rw [List.map_id] at hc
  exact congrArg (Store.mk · s.slots s.trail) hc

/-- A layered store stays layered when a level is opened. -/
theorem Layered.pushLevel (hs : s.Layered) : s.pushLevel.Layered where
  stamp_le i c hc := Nat.le_succ_of_le (hs.stamp_le i c hc)
  noted _ i c hc h := by
    have := hs.stamp_le i c hc
    rw [level_pushLevel] at h
    omega
  slot_stamp_le i a ha := Nat.le_succ_of_le (hs.slot_stamp_le i a ha)
  slot_noted _ i a ha h := by
    have := hs.slot_stamp_le i a ha
    rw [level_pushLevel] at h
    omega

/-- The store that `n` backtracks give. -/
def past (s : Store w) : Nat → Store w
  | 0 => s
  | n + 1 => s.backtrack.2.past n

/-- The store and everything that backtracking can make of it have the property. -/
def Always (P : Store w → Prop) (s : Store w) : Prop := ∀ n ≤ s.level, P (s.past n)

namespace Always

variable {P : Store w → Prop}

/-- What always holds holds now. -/
theorem now (h : Always P s) : P s := h 0 (Nat.zero_le _)

/-- Where nothing is open there is no past. -/
theorem of_root (h0 : s.level = 0) (h : P s) : Always P s := fun n hn => by
  obtain rfl : n = 0 := by omega
  exact h

/-- The present and the past apart. -/
theorem of_backtrack (h : P s) (hpast : 0 < s.level → Always P s.backtrack.2) : Always P s := by
  intro n hn
  cases n with
  | zero => exact h
  | succ n => exact hpast (by omega) n (by rw [level_backtrack]; omega)

/-- What backtracking gives has the property too. -/
theorem tail (h : Always P s) (hl : 0 < s.level) : Always P s.backtrack.2 := fun n hn => by
  rw [level_backtrack] at hn
  exact h (n + 1) (by omega)

/-- **Writing leaves the past alone**, so the property must hold of the present only. -/
theorem keeps (h : Always P s) (hk : Keeps s t) (ht : P t) : Always P t := by
  intro n hn
  cases n with
  | zero => exact ht
  | succ n =>
    rw [hk.level_eq] at hn
    have := h (n + 1) hn
    rwa [past, ← hk.backtrack_eq (by omega)] at this

/-- What always holds still does at a new level, if it holds there and once nothing is pending. -/
theorem pushLevel (h : Always P s) (hs : s.Layered) (hc : P s.clearPending) (hp : P s.pushLevel) :
    Always P s.pushLevel := by
  intro n hn
  cases n with
  | zero => exact hp
  | succ n =>
    rw [past, backtrack_pushLevel]
    refine h.keeps ((Write.clear s).keeps hs) hc n ?_
    rw [level_pushLevel] at hn
    simpa using hn

/-- What always holds still does after a backtrack, at the root if it holds once nothing is pending. -/
theorem backtrack (h : Always P s) (hc : P s.clearPending) : Always P s.backtrack.2 := by
  rcases Nat.eq_zero_or_pos s.level with h0 | hl
  · rw [backtrack_of_level_eq_zero h0]
    exact .of_root (by simpa using h0) hc
  · exact h.tail hl

end Always

/-- A store that is layered at every depth stays so when a level is opened. -/
theorem always_layered_pushLevel (h : Always Layered s) : Always Layered s.pushLevel :=
  h.pushLevel h.now ((Write.clear s).keeps h.now).layered h.now.pushLevel

/-- A store that is layered at every depth stays so when a level is left. -/
theorem always_layered_backtrack (h : Always Layered s) : Always Layered s.backtrack.2 :=
  h.backtrack ((Write.clear s).keeps h.now).layered

/-- At the root, a variable may be created at any time. -/
theorem Layered.newVar (hs : s.Layered) (h0 : s.level = 0) (d : Domain w) : (s.newVar d).2.Layered where
  stamp_le i c hc := by
    simp only [Store.newVar, List.getElem?_append] at hc
    split at hc
    · exact hs.stamp_le i c hc
    · have := List.mem_of_getElem? hc
      simp only [List.mem_singleton] at this
      rw [this]
      exact Nat.le_refl _
  noted hl := absurd h0 (by have : 0 < s.level := hl; omega)
  slot_stamp_le := hs.slot_stamp_le
  slot_noted hl := absurd h0 (by have : 0 < s.level := hl; omega)

/-- At the root, slots may be created at any time. -/
theorem Layered.append_slots (hs : s.Layered) (h0 : s.level = 0) {as : List Saved}
    (has : ∀ a ∈ as, a.stamp = s.level) : ({ s with slots := s.slots ++ as } : Store w).Layered where
  stamp_le := hs.stamp_le
  noted hl := absurd h0 (by have : 0 < s.level := hl; omega)
  slot_stamp_le i a ha := by
    rw [List.getElem?_append] at ha
    split at ha
    · exact hs.slot_stamp_le i a ha
    · exact Nat.le_of_eq (has a (List.mem_of_getElem? ha))
  slot_noted hl := absurd h0 (by have : 0 < s.level := hl; omega)

end Store
end Placement
