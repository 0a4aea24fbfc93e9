/-
# Variables and slots created during search

What is created at a level outlives the level: backtracking shortens neither list. The new
variable or slot is stamped with the level it is created at, so once that level is left its
stamp lies above the current level, and when the level is opened again the first write is
taken for a second one and is not noted. That write stays (`Session.backtrack_keeps_write`).

This is the only way to lose a write. A variable or a slot whose stamp does not exceed the
level at which a level is opened comes back as it was (`Session.backtrack_gives_back`), even if
others are created and constraints are posted meanwhile. The invariant is one of a single
place (`Store.Recoverable`): it was not written since the level was opened and its stamp says
so, or the oldest of its entries in the log keeps what it held then. No invariant of the other
places is needed, so none has to survive the creation of a place. What was created at a level
that is still open has such a stamp (`Session.dated_of_rising`).
-/

import Placement.Proofs.Restoration

namespace Placement

variable {w : Width}

/-- What a store keeps and restores: variables and slots. -/
inductive Place where
  | var (v : Var)
  | slot (k : Slot)
deriving DecidableEq

namespace Trail.Entry

/-- What the entry restores. -/
def place : Entry w → Place
  | domain v _ _ => .var v
  | slot k _ _ => .slot k

/-- The stamp that the entry restores. -/
def since : Entry w → Nat
  | domain _ _ n => n
  | slot _ _ n => n

end Trail.Entry

namespace Store

variable {s t u : Store w} {p : Place} {e f : Trail.Entry w}

/-- What a place holds, as the entry that would restore it. -/
def held (s : Store w) : Place → Option (Trail.Entry w)
  | .var v => s.cells[v.val]?.map fun c => .domain v c.domain c.stamp
  | .slot k => s.slots[k.val]?.map fun a => .slot k a.value a.stamp

/-- What a place holds would be restored to that place. -/
theorem place_of_held (h : s.held p = some e) : e.place = p := by
  cases p <;> obtain ⟨_, -, rfl⟩ := Option.map_eq_some_iff.1 h <;> rfl

/-- Clearing what is pending leaves what places hold. -/
@[simp] theorem held_clearPending (s : Store w) (p : Place) : s.clearPending.held p = s.held p := by
  cases p <;> simp [held, cells_clearPending, Function.comp_def, Cell.quiet]

/-- Taking a write back changes the place of its entry, and no other. -/
theorem held_undo (s : Store w) (e : Trail.Entry w) (p : Place) :
    (s.undo e).held p = if e.place = p then (s.held p).map fun _ => e else s.held p := by
  cases e with
  | domain v d n =>
    cases p with
    | slot k => simp [undo, held, Trail.Entry.place]
    | var x =>
      by_cases hx : v = x
      · subst hx
        simp [undo, held, Trail.Entry.place, Function.comp_def]
      · have hne : v.val ≠ x.val := fun h => hx (congrArg Index.mk h)
        simp [undo, held, Trail.Entry.place, hx, hne]
  | slot k l n =>
    cases p with
    | var x => simp [undo, held, Trail.Entry.place]
    | slot x =>
      by_cases hx : k = x
      · subst hx
        cases hk : s.slots[k.val]? with
        | none => simp [undo, held, Trail.Entry.place, List.getElem?_eq_none_iff.1 hk]
        | some a =>
          obtain ⟨hlt, -⟩ := List.getElem?_eq_some_iff.1 hk
          simp [undo, held, Trail.Entry.place, hlt]
      · have hne : k.val ≠ x.val := fun h => hx (congrArg Index.mk h)
        simp [undo, held, Trail.Entry.place, hx, hne]

/-- Entries of other places leave a place alone. -/
theorem held_foldl_undo_of_ne {es : List (Trail.Entry w)} (h : ∀ e ∈ es, e.place ≠ p) (s : Store w) :
    (es.foldl undo s).held p = s.held p := by
  induction es generalizing s with
  | nil => rfl
  | cons e es ih =>
    rw [List.foldl_cons, ih (fun f hf => h f (List.mem_cons_of_mem _ hf)), held_undo,
      if_neg (h e List.mem_cons_self)]

/-- Undoing entries creates no place and drops none. -/
theorem isSome_held_foldl_undo (es : List (Trail.Entry w)) (s : Store w) :
    ((es.foldl undo s).held p).isSome = (s.held p).isSome := by
  induction es generalizing s with
  | nil => rfl
  | cons e es ih =>
    rw [List.foldl_cons, ih, held_undo]
    split <;> simp

/-- **The oldest entry of a place decides what it holds in the end.** -/
theorem held_foldl_undo {newer older : List (Trail.Entry w)} (hsome : (s.held e.place).isSome)
    (holder : ∀ f ∈ older, f.place ≠ e.place) :
    ((newer ++ e :: older).foldl undo s).held e.place = some e := by
  rw [List.foldl_append, List.foldl_cons, held_foldl_undo_of_ne holder, held_undo, if_pos rfl]
  rw [← isSome_held_foldl_undo newer] at hsome
  obtain ⟨f, hf⟩ := Option.isSome_iff_exists.1 hsome
  rw [hf, Option.map_some]

/-! ## The invariant of one place -/

/-- The entry keeps what its place held when the current level was opened: the place was not
written since, and its stamp says so, or the entry is the oldest of the place in the log. -/
def Recoverable (s : Store w) (e : Trail.Entry w) : Prop :=
  (s.held e.place = some e ∧ e.since < s.level ∧ ∀ f ∈ s.log, f.place ≠ e.place) ∨
    (s.held e.place).isSome ∧
      ∃ newer older, s.log = newer ++ e :: older ∧ ∀ f ∈ older, f.place ≠ e.place

/-- The place exists, and its stamp does not exceed the level. -/
def Dated (s : Store w) (p : Place) : Prop := ∃ e, s.held p = some e ∧ e.since ≤ s.level

/-- A dated place stays dated when a level is opened. -/
theorem Dated.pushLevel (h : s.Dated p) : s.pushLevel.Dated p := by
  obtain ⟨e, he, hle⟩ := h
  refine ⟨e, ?_, Nat.le_succ_of_le hle⟩
  cases p <;> exact he

/-- What a place holds after a level is left is what undoing its log gives. -/
theorem held_backtrack (h : 0 < s.level) (p : Place) :
    s.backtrack.2.held p = (s.log.foldl undo s).held p := by
  obtain ⟨older, hlevels⟩ := levels_eq_log h
  rw [backtrack_eq hlevels, held_clearPending]
  cases p <;> rfl

/-- **Backtracking gives a recoverable place back.** -/
theorem Recoverable.backtrack (h : s.Recoverable e) (hl : 0 < s.level) :
    s.backtrack.2.held e.place = some e := by
  rw [held_backtrack hl]
  rcases h with ⟨hheld, -, hlog⟩ | ⟨hsome, newer, older, hlog, holder⟩
  · rw [held_foldl_undo_of_ne hlog, hheld]
  · rw [hlog]
    exact held_foldl_undo hsome holder

/-- Where a level is opened, every place whose stamp does not exceed the level is recoverable. -/
theorem recoverable_pushLevel (h : s.held e.place = some e) (hle : e.since ≤ s.level) :
    s.pushLevel.Recoverable e := by
  refine .inl ⟨?_, Nat.lt_succ_of_le hle, fun f hf => absurd hf List.not_mem_nil⟩
  cases hp : e.place <;> rw [hp] at h <;> exact h

/-- The levels below the current one are as they were, no place is lost, and what was recoverable
still is. -/
structure Sustains (s t : Store w) : Prop where
  below : t.trail.levels.tail = s.trail.levels.tail
  level_eq : t.level = s.level
  dated : ∀ p, s.Dated p → t.Dated p
  exists_held : ∀ p, (s.held p).isSome → (t.held p).isSome
  recoverable : ∀ e, s.Recoverable e → t.Recoverable e

/-- A store sustains itself. -/
theorem Sustains.refl (s : Store w) : Sustains s s := ⟨rfl, rfl, fun _ h => h, fun _ h => h, fun _ h => h⟩

/-- What is sustained twice is sustained. -/
theorem Sustains.trans (h : Sustains s t) (h' : Sustains t u) : Sustains s u where
  below := h'.below.trans h.below
  level_eq := h'.level_eq.trans h.level_eq
  dated p hp := h'.dated p (h.dated p hp)
  exists_held p hp := h'.exists_held p (h.exists_held p hp)
  recoverable e he := h'.recoverable e (h.recoverable e he)

/-! ## Writes and creations -/

/-- Where the trail is as it was, all depends on what the places hold. -/
theorem sustains_of_trail (htrail : t.trail = s.trail)
    (hdated : ∀ p e, s.held p = some e → e.since ≤ s.level → t.held p = some e)
    (hsome : ∀ p, (s.held p).isSome → (t.held p).isSome) : Sustains s t := by
  have hlevel : t.level = s.level := congrArg Trail.depth htrail
  have hlog : t.log = s.log := congrArg (fun x : Trail w => x.levels.headD []) htrail
  refine ⟨congrArg (fun x : Trail w => x.levels.tail) htrail, hlevel, ?_, hsome, ?_⟩
  · rintro p ⟨e, he, hle⟩
    exact ⟨e, hdated p e he hle, hlevel ▸ hle⟩
  · rintro e (⟨he, hlt, hnone⟩ | ⟨he, hfirst⟩)
    · exact .inl ⟨hdated _ e he (Nat.le_of_lt hlt), hlevel ▸ hlt, hlog ▸ hnone⟩
    · exact .inr ⟨hsome _ he, hlog ▸ hfirst⟩

/-- A change that leaves the trail and all that exists as they are. -/
theorem sustains_of_held (htrail : t.trail = s.trail)
    (hheld : ∀ p e, s.held p = some e → t.held p = some e) : Sustains s t :=
  sustains_of_trail htrail (fun p e he _ => hheld p e he) fun p hp => by
    obtain ⟨e, he⟩ := Option.isSome_iff_exists.1 hp
    rw [hheld p e he, Option.isSome_some]

/-- Noting puts at most the one entry on the log, and nothing under it. -/
theorem levels_of_note {n : Nat} (h : t.trail = s.note n f) :
    t.trail.levels.tail = s.trail.levels.tail ∧
      (s.level ≤ n ∧ t.log = s.log ∨ n < s.level ∧ t.log = f :: s.log) := by
  rcases Nat.lt_or_ge n s.level with hlt | hge
  · obtain ⟨older, hlevels⟩ := levels_eq_log (show 0 < s.level by omega)
    rw [log, h, note_of_lt hlt hlevels, hlevels]
    exact ⟨rfl, .inr ⟨hlt, rfl⟩⟩
  · rw [log, h, note_of_le hge]
    exact ⟨rfl, .inl ⟨hge, rfl⟩⟩

/-- **A write at one place, noted as its stamp demands, keeps every place recoverable.** -/
theorem sustains_of_note (hf : s.held f.place = some f) (htrail : t.trail = s.note f.since f)
    (hother : ∀ p, p ≠ f.place → t.held p = s.held p)
    (hwritten : ∃ g, t.held f.place = some g ∧ g.since = s.level) : Sustains s t := by
  have hlevel : t.level = s.level := level_of_note htrail
  obtain ⟨hbelow, hlog⟩ := levels_of_note htrail
  obtain ⟨g, hg, hgl⟩ := hwritten
  have hsome : ∀ p, (s.held p).isSome → (t.held p).isSome := fun p hp => by
    by_cases hpf : p = f.place
    · rw [hpf, hg, Option.isSome_some]
    · rwa [hother p hpf]
  refine ⟨hbelow, hlevel, ?_, hsome, ?_⟩
  · rintro p ⟨e, he, hle⟩
    by_cases hpf : p = f.place
    · exact ⟨g, hpf ▸ hg, by omega⟩
    · exact ⟨e, (hother p hpf).trans he, hlevel ▸ hle⟩
  · rintro e (⟨he, hlt, hnone⟩ | ⟨he, newer, older, hfirst, holder⟩)
    · by_cases hef : e.place = f.place
      · -- the first write of the place since the level was opened: its stamp is old, so it is noted
        obtain rfl : e = f := Option.some.inj (he.symm.trans (hef ▸ hf))
        rcases hlog with ⟨hge, -⟩ | ⟨-, hlog⟩
        · exact absurd hlt (Nat.not_lt.2 hge)
        · exact .inr ⟨hsome _ (by rw [he, Option.isSome_some]), [], s.log, hlog, hnone⟩
      · refine .inl ⟨(hother _ hef).trans he, hlevel ▸ hlt, fun f' hf' => ?_⟩
        rcases hlog with ⟨-, hlog⟩ | ⟨-, hlog⟩ <;> rw [hlog] at hf'
        · exact hnone f' hf'
        · rcases List.mem_cons.1 hf' with rfl | hf'
          · exact fun h => hef h.symm
          · exact hnone f' hf'
    · rcases hlog with ⟨-, hlog⟩ | ⟨-, hlog⟩
      · exact .inr ⟨hsome _ he, newer, older, hlog.trans hfirst, holder⟩
      · exact .inr ⟨hsome _ he, f :: newer, older, by rw [hlog, hfirst, List.cons_append], holder⟩

/-- Narrowing a domain sustains. -/
theorem sustains_setBounds {v : Var} {lo hi : Int} {b : Bool} (h : s.setBounds v lo hi = .ok (b, t)) :
    Sustains s t := by
  obtain ⟨c, d, hc, -, ⟨-, -, rfl⟩ | ⟨-, -, rfl⟩⟩ := setBounds_eq_ok h
  · exact .refl _
  obtain ⟨hv, -⟩ := List.getElem?_eq_some_iff.1 hc
  refine sustains_of_note (f := .domain v c.domain c.stamp) (by simp [held, Trail.Entry.place, hc]) rfl
    (fun p hp => ?_) ⟨.domain v d s.level, by simp [held, Trail.Entry.place, hv], rfl⟩
  cases p with
  | slot k => rfl
  | var x =>
    have hne : v.val ≠ x.val := fun h => hp (congrArg (Place.var ⟨·⟩) h.symm)
    simp [held, hne]

/-- Writing a slot sustains. -/
theorem sustains_setSnapshot {k : Slot} {value : List Nat} (h : s.setSnapshot k value = .ok t) :
    Sustains s t := by
  obtain ⟨a, ha, rfl⟩ := setSnapshot_eq_ok.1 h
  obtain ⟨hk, -⟩ := List.getElem?_eq_some_iff.1 ha
  refine sustains_of_note (f := .slot k a.value a.stamp) (by simp [held, Trail.Entry.place, ha]) rfl
    (fun p hp => ?_) ⟨.slot k value s.level, by simp [held, Trail.Entry.place, hk], rfl⟩
  cases p with
  | var v => rfl
  | slot x =>
    have hne : k.val ≠ x.val := fun h => hp (congrArg (Place.slot ⟨·⟩) h.symm)
    simp [held, hne]

/-- Every write sustains. -/
theorem Write.sustains (h : Write s t) : Sustains s t := by
  cases h with
  | bounds h => exact sustains_setBounds h
  | slot h => exact sustains_setSnapshot h
  | touch h =>
    obtain ⟨c, hc, rfl⟩ := touch_eq_ok.1 h
    refine sustains_of_held rfl fun p e he => ?_
    cases p with
    | slot k => exact he
    | var x =>
      rw [← he]
      simp only [held, List.getElem?_set]
      split
      · next hx =>
        obtain ⟨hlt, rfl⟩ := List.getElem?_eq_some_iff.1 hc
        simp [← hx, hlt]
      · rfl
  | clear => exact sustains_of_held rfl fun p e he => (held_clearPending s p).trans he

/-- Writes sustain. -/
theorem Writes.sustains (h : Writes s t) : Sustains s t := by
  induction h with
  | refl => exact .refl s
  | tail _ hw ih => exact ih.trans hw.sustains

/-- Creating leaves what exists alone. -/
theorem sustains_of_append {cs : List (Cell w)} {as : List Saved} (hcells : t.cells = s.cells ++ cs)
    (hslots : t.slots = s.slots ++ as) (htrail : t.trail = s.trail) : Sustains s t := by
  refine sustains_of_held htrail fun p e he => ?_
  cases p <;> obtain ⟨x, hx, rfl⟩ := Option.map_eq_some_iff.1 he
  · rw [held, hcells, List.getElem?_append_left (List.getElem?_eq_some_iff.1 hx).1, hx, Option.map_some]
  · rw [held, hslots, List.getElem?_append_left (List.getElem?_eq_some_iff.1 hx).1, hx, Option.map_some]

/-! ## A level opened and left again -/

/-- If a level is opened and its places stay recoverable, backtracking gives back every place whose
stamp did not exceed the level. -/
theorem Sustains.held_backtrack (h : Sustains s.pushLevel t) (he : s.held p = some e)
    (hle : e.since ≤ s.level) : t.backtrack.2.held p = some e := by
  obtain rfl := place_of_held he
  exact (h.recoverable e (recoverable_pushLevel he hle)).backtrack (by rw [h.level_eq]; exact Nat.succ_pos _)

/-- **A level inside a level.** Places of the level around it that were not written there come back
as they were, and the log around is as it was; so they stay recoverable. -/
theorem sustains_branch (h : Sustains s.pushLevel t) : Sustains s t.backtrack.2 := by
  have hpos : 0 < t.level := by rw [h.level_eq]; exact Nat.succ_pos _
  refine sustains_of_trail ?_ (fun p e => h.held_backtrack) fun p hp => ?_
  · obtain ⟨older, hlevels⟩ := levels_eq_log hpos
    have hbelow := h.below
    rw [hlevels] at hbelow
    rw [backtrack_eq hlevels]
    exact congrArg Trail.mk hbelow
  · rw [Store.held_backtrack hpos, isSome_held_foldl_undo]
    exact h.exists_held p (by cases p <;> exact hp)

end Store

namespace Session

open Store (Sustains)

/-- Any operations in which every level that is opened is left again, and no other. -/
inductive Nested : List (Op w) → Prop
  | nil : Nested []
  | stay {op : Op w} {ops : List (Op w)} (hop : op.Stays) (h : Nested ops) : Nested (op :: ops)
  | branch {inner ops : List (Op w)} (hi : Nested inner) (h : Nested ops) :
      Nested (.pushLevel :: (inner ++ .backtrack :: ops))

/-- Every operation that stays at its level sustains. -/
theorem sustains_step (s : Session w) {op : Op w} (hop : op.Stays) :
    Sustains s.store (s.step op).2.store := by
  cases op using Op.kinds with
  | flat op hflat =>
    have hf := s.flows_of_flat_any hflat
    exact hf.changes.writes.sustains
  | newVar d => exact Store.sustains_of_append rfl (List.append_nil _).symm rfl
  | newSnapshot value => exact Store.sustains_of_append (List.append_nil _).symm rfl rfl
  | post d =>
    have hallot : Sustains s.store (s.store.allot d.rectangles.length) :=
      Store.sustains_of_append (List.append_nil _).symm rfl rfl
    rcases s.step_post d with ⟨t, ht, hst, -, -⟩ | ⟨hst, -, -⟩ <;> rw [hst]
    · exact hallot.trans (Store.touchAll_writes ht).sustains
    · exact hallot
  | impose d id =>
    rw [(s.step_impose d id).1]
    exact Store.sustains_of_append (List.append_nil _).symm rfl rfl
  | pushLevel => exact hop.elim
  | backtrack => exact hop.elim

/-- **Nested operations sustain**, whatever branches they open and leave. -/
theorem sustains_run {ops : List (Op w)} (h : Nested ops) (s : Session w) :
    Sustains s.store (s.run ops).store := by
  induction h generalizing s with
  | nil => exact .refl _
  | stay hop _ ih => exact (s.sustains_step hop).trans (ih _)
  | @branch inner ops _ _ ihi ih =>
    rw [run, run_append, run]
    have hinner : Sustains s.store (((s.step .pushLevel).2.run inner).step .backtrack).2.store :=
      Store.sustains_branch (ihi (s.step .pushLevel).2)
    exact hinner.trans (ih _)

/-- **Backtracking gives back what was not created in an abandoned level.** In any session, let a
level be opened, and let any operations follow in which inner levels are opened and left again:
writes, propagation, and the creation of variables, slots and constraints at every level. Then
backtracking leaves the level; every variable whose stamp did not exceed the level when it was
opened has the domain and the stamp that it had then, and every such slot its value and stamp. -/
theorem backtrack_gives_back (s : Session w) {ops : List (Op w)} (h : Nested ops) :
    let back := ((s.step .pushLevel).2.run ops).step .backtrack
    back.1 = .flag true ∧
      (∀ v n, s.store.stamp v = .ok n → n ≤ s.store.level →
        back.2.store.domain v = s.store.domain v ∧ back.2.store.stamp v = .ok n) ∧
      ∀ k a, s.store.saved k = .ok a → a.stamp ≤ s.store.level → back.2.store.saved k = .ok a := by
  intro back
  have hs : Sustains s.store.pushLevel ((s.step .pushLevel).2.run ops).store :=
    sustains_run h (s.step .pushLevel).2
  have hback : ∀ p e, s.store.held p = some e → e.since ≤ s.store.level →
      back.2.store.held p = some e := fun p e => hs.held_backtrack
  refine ⟨?_, fun v n hn hle => ?_, fun k a ha hle => ?_⟩
  · obtain ⟨older, hlevels⟩ := Store.levels_eq_log (by rw [hs.level_eq]; exact Nat.succ_pos _)
    exact congrArg (fun r => Answer.flag r.1) (Store.backtrack_eq hlevels)
  · simp only [Store.stamp, bind_eq_ok, Store.cell_eq_ok, pure_eq_ok] at hn
    obtain ⟨c, hc, rfl⟩ := hn
    have hheld := hback (.var v) _ (congrArg (Option.map _) hc) hle
    obtain ⟨c', hc', he⟩ := Option.map_eq_some_iff.1 hheld
    injection he with _ hd hn
    constructor
    · rw [Store.domain_eq_ok.2 ⟨c, hc, rfl⟩]
      exact Store.domain_eq_ok.2 ⟨c', hc', hd⟩
    · simp only [Store.stamp, bind_eq_ok, Store.cell_eq_ok, pure_eq_ok]
      exact ⟨c', hc', hn⟩
  · have hheld := hback (.slot k) _ (congrArg (Option.map _) (Store.saved_eq_ok.1 ha)) hle
    obtain ⟨a', ha', he⟩ := Option.map_eq_some_iff.1 hheld
    injection he with _ hv hn
    obtain rfl : a' = a := by cases a; cases a'; simp_all
    exact Store.saved_eq_ok.2 ha'

/-- A variable of the root and one created inside a branch, a slot, and inner branches in which more
is created: the first variable is narrowed at three levels and the slot is replaced. -/
theorem backtrack_gives_back_created :
    let digit : Domain .w8 := ⟨0, 9, by decide, by decide, by decide⟩
    let s := (empty : Session .w8).run [.newVar digit, .newSnapshot [7], .pushLevel, .setMin ⟨0⟩ 1]
    let inner : List (Op .w8) := [.newVar digit, .setMax ⟨1⟩ 4, .setMin ⟨0⟩ 3, .newSnapshot []]
    let branch := .setMin ⟨0⟩ 2 :: .setSnapshot ⟨0⟩ [] :: .newVar digit :: .pushLevel ::
      (inner ++ .backtrack :: [.setMax ⟨0⟩ 8])
    let back := (((s.step .pushLevel).2.run branch).step .backtrack).2
    back.store.domain ⟨0⟩ = s.store.domain ⟨0⟩ ∧ back.store.stamp ⟨0⟩ = .ok 1 ∧
      back.store.saved ⟨0⟩ = .ok ⟨[7], 0⟩ := by
  intro digit s inner branch back
  have hi : Nested inner := .stay trivial (.stay trivial (.stay trivial (.stay trivial .nil)))
  have hb : Nested branch :=
    .stay trivial (.stay trivial (.stay trivial (.branch hi (.stay trivial .nil))))
  obtain ⟨-, hvars, hslots⟩ := backtrack_gives_back s hb
  obtain ⟨hdomain, hstamp⟩ := hvars ⟨0⟩ 1 (by decide +kernel) (by decide +kernel)
  exact ⟨hdomain, hstamp, hslots ⟨0⟩ ⟨[7], 0⟩ (by decide +kernel) (by decide +kernel)⟩

/-- **A write that is not taken back.** A variable `0 … 9` is created in a level that is then
abandoned, and keeps the stamp 1. When that level is opened again, raising the variable to 5 is not
noted, so after backtracking it is still `5 … 9`. -/
theorem backtrack_keeps_write :
    let digit : Domain .w8 := ⟨0, 9, by decide, by decide, by decide⟩
    let s := (empty : Session .w8).run [.pushLevel, .newVar digit, .backtrack]
    let back := ((s.step .pushLevel).2.run [.setMin ⟨0⟩ 5]).step .backtrack
    s.store.domain ⟨0⟩ = .ok digit ∧ s.store.stamp ⟨0⟩ = .ok 1 ∧ s.store.level = 0 ∧
      back.1 = .flag true ∧ back.2.store.level = 0 ∧
      back.2.store.domain ⟨0⟩ = .ok ⟨5, 9, by decide, by decide, by decide⟩ := by
  decide +kernel

/-! ## What is created at a level that is still open -/

/-- A variable that was just created is dated. -/
theorem dated_newVar (s : Session w) (d : Domain w) :
    (s.step (.newVar d)).2.store.Dated (.var ⟨s.store.numVars⟩) :=
  ⟨.domain ⟨s.store.numVars⟩ d s.store.level, by
    simp [step, withStore, store, Store.newVar, Store.held, Store.numVars], Nat.le_refl _⟩

/-- A slot that was just created is dated. -/
theorem dated_newSnapshot (s : Session w) (value : List Nat) :
    (s.step (.newSnapshot value)).2.store.Dated (.slot ⟨s.store.slots.length⟩) :=
  ⟨.slot ⟨s.store.slots.length⟩ value s.store.level, by
    simp [step, withStore, store, Store.newSnapshot, Store.held], Nat.le_refl _⟩

/-- Operations that never leave the level they start at: some levels are opened and stay open, and
between them every level that is opened is left again. -/
inductive Rising : List (Op w) → Prop
  | nested {ops : List (Op w)} (h : Nested ops) : Rising ops
  | opened {ops rest : List (Op w)} (h : Nested ops) (hr : Rising rest) :
      Rising (ops ++ .pushLevel :: rest)

/-- **No stamp runs ahead while the level of creation is open.** A new variable or slot is dated, and
stays so until the level it was created at is left; until then, backtracking gives it back. -/
theorem dated_of_rising {ops : List (Op w)} (h : Rising ops) {s : Session w} {p : Place}
    (hp : s.store.Dated p) : (s.run ops).store.Dated p := by
  induction h generalizing s with
  | nested h => exact (sustains_run h s).dated p hp
  | @opened ops rest h _ ih =>
    rw [run_append, run]
    exact ih ((sustains_run h s).dated p hp).pushLevel

end Session
end Placement
