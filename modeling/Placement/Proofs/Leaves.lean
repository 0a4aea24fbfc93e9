/-
# Placed rectangles do not overlap

Two rectangles that have their places and still overlap bar each other
(`Rectangle.Placed.bars`), so neither of them is at rest unless it is passed over, and it is passed
over only if all of its variables were fixed before the current level. In that case the level has
not written them: what the log of a level restores is stamped with the level (`Store.Stamped`), so
backtracking leaves the two where they are (`Rectangle.Placed.backtrack`). In a disciplined run
nothing is pending in the store that backtracking gives, and all rectangles are at rest there. So
the argument goes down to the level at which the later of the two was put in its place, where it is
not passed over.
-/

import Placement.Proofs.Barriers

namespace Placement

open Store (Always)

variable {w : Width}

/-! ## Variables that a level has not written -/

namespace Store

variable {s t : Store w}

/-- Every variable that the log of the level restores is stamped with the level. -/
def Stamped (s : Store w) : Prop :=
  ∀ v d n, Trail.Entry.domain v d n ∈ s.log → ∀ c, s.cells[v.val]? = some c → c.stamp = s.level

/-- Noting adds one entry to the log at most. -/
theorem mem_log_note {n : Nat} {e e' : Trail.Entry w} (ht : t.trail = s.note n e) (h : e' ∈ t.log) :
    e' = e ∨ e' ∈ s.log := by
  unfold log at *
  rw [ht] at h
  unfold note Trail.record at h
  split at h
  · split at h
    · exact .inr h
    · next hl =>
      rw [hl]
      exact List.mem_cons.1 h
  · exact .inr h

namespace Stamped

/-- At the root there is no log. -/
theorem of_root (h0 : s.level = 0) : s.Stamped := by
  intro v d n he
  have hlevels : s.trail.levels = [] := List.length_eq_zero_iff.1 h0
  unfold log at he
  rw [hlevels] at he
  cases he

/-- Stamps and the log are as they were. -/
theorem of_stamps (h : s.Stamped) (htrail : t.trail = s.trail)
    (hcells : ∀ (i : Nat) (c' : Cell w), t.cells[i]? = some c' → ∃ c, s.cells[i]? = some c ∧ c.stamp = c'.stamp) :
    t.Stamped := by
  intro v d n he c' hc'
  obtain ⟨c, hc, hstamp⟩ := hcells _ c' hc'
  unfold log level at *
  rw [htrail] at he ⊢
  exact hstamp.symm.trans (h v d n he c hc)

/-- A level that was just opened has nothing to stamp. -/
theorem pushLevel (s : Store w) : s.pushLevel.Stamped := nofun

/-- **A write stamps what it notes.** -/
theorem write (h : s.Stamped) (hst : Write s t) : t.Stamped := by
  cases hst with
  | bounds hb =>
    obtain ⟨c, d, -, -, ⟨-, -, rfl⟩ | ⟨-, -, rfl⟩⟩ := setBounds_eq_ok hb
    · exact h
    intro v' d' n' he c' hc'
    rw [level_of_note rfl]
    dsimp only at hc'
    rw [List.getElem?_set] at hc'
    split at hc'
    · split at hc'
      · cases hc'
        rfl
      · cases hc'
    · next hne =>
      rcases mem_log_note rfl he with heq | he
      · cases heq
        exact absurd rfl hne
      · exact h v' d' n' he c' hc'
  | slot hx =>
    obtain ⟨a, -, rfl⟩ := setSnapshot_eq_ok.1 hx
    intro v d n he c hc
    rw [level_of_note rfl]
    exact h v d n ((mem_log_note rfl he).resolve_left nofun) c hc
  | touch hv =>
    obtain ⟨c, hc, rfl⟩ := touch_eq_ok.1 hv
    refine h.of_stamps rfl fun i c' hc' => ?_
    rw [List.getElem?_set] at hc'
    split at hc'
    · next hi =>
      split at hc'
      · cases hc'
        exact ⟨c, hi ▸ hc, rfl⟩
      · cases hc'
    · exact ⟨c', hc', rfl⟩
  | clear =>
    refine h.of_stamps rfl fun i c' hc' => ?_
    rw [cells_clearPending, List.getElem?_map] at hc'
    obtain ⟨c, hc, rfl⟩ := Option.map_eq_some_iff.1 hc'
    exact ⟨c, hc, rfl⟩

/-- Writes keep variables stamped. -/
theorem writes (h : s.Stamped) (hst : Writes s t) : t.Stamped := by
  induction hst with
  | refl => exact h
  | tail _ hw ih => exact ih.write hw

end Stamped

/-- Entries of other variables leave a variable alone. -/
theorem cell_foldl_undo {es : List (Trail.Entry w)} {i : Nat} (hes : ∀ d n, Trail.Entry.domain ⟨i⟩ d n ∉ es) :
    (es.foldl undo s).cells[i]? = s.cells[i]? := by
  induction es generalizing s with
  | nil => rfl
  | cons e es ih =>
    rw [List.foldl_cons, ih fun d n he => hes d n (List.mem_cons_of_mem _ he)]
    cases e with
    | domain v d n =>
      have hne : v.val ≠ i := fun hi => hes d n (by rw [← hi]; exact List.mem_cons_self)
      exact List.getElem?_modify_ne _ _ hne
    | slot => rfl

/-- **A variable stamped below the level stays as it is when the level is left.** -/
theorem Stamped.cell_backtrack (h : s.Stamped) {i : Nat} {c : Cell w} (hc : s.cells[i]? = some c)
    (hlt : c.stamp < s.level) : s.backtrack.2.cells[i]? = some c.quiet := by
  obtain ⟨older, hlevels⟩ := levels_eq_log (show 0 < s.level by omega)
  have hes : ∀ d n, Trail.Entry.domain ⟨i⟩ d n ∉ s.log := fun d n he => by
    have := h ⟨i⟩ d n he c hc
    omega
  rw [backtrack_eq hlevels]
  dsimp only
  rw [cells_clearPending, List.getElem?_map]
  dsimp only
  rw [cell_foldl_undo hes, hc]
  rfl

end Store

/-- Where all is created at the root, logs restore what is stamped with their level, those of the
levels below included. -/
theorem Session.always_stamped {s : Session w} (hs : s.Reached RootCreation) : Always Store.Stamped s.store := by
  induction hs with
  | start => exact .of_root rfl (.of_root rfl)
  | @step s op hr ha ih =>
    have hl := (always_layered hr).now
    cases op using Op.kinds with
    | flat op hop =>
      have hf := s.flows_of_flat_any hop
      exact ih.keeps (hf.changes.writes.keeps hl) (ih.now.writes hf.changes.writes)
    | newVar d => exact .of_root (ha trivial) (.of_root (ha trivial))
    | newSnapshot value => exact .of_root (ha trivial) (.of_root (ha trivial))
    | post d =>
      have h0 := (layered_post d hl (ha trivial)).2
      exact .of_root h0 (.of_root h0)
    | impose d id =>
      rw [(s.step_impose d id).1]
      exact .of_root (ha trivial) (.of_root (ha trivial))
    | pushLevel => exact ih.pushLevel hl (ih.now.write (.clear _)) (.pushLevel _)
    | backtrack => exact ih.backtrack (ih.now.write (.clear _))

/-! ## Placed rectangles -/

namespace Rectangle

variable {a b r : Rectangle} {s : Store w} {α : Var → Int}

/-- All variables of the rectangle are fixed, to the values that `α` gives them: its lengths are
positive, and its sides end within the width. -/
structure Placed (r : Rectangle) (s : Store w) (α : Var → Int) : Prop where
  fixed : ∀ v ∈ r.vars, ∃ d, s.domain v = .ok d ∧ d.lo = α v ∧ d.hi = α v
  pos : ∀ x ∈ r.sides, 0 < α x.length
  holds_stop : ∀ x ∈ r.sides, w.Holds (α x.origin + α x.length)

instance decidablePlaced (r : Rectangle) (s : Store w) (α : Var → Int) : Decidable (r.Placed s α) :=
  decidable_of_iff
    ((∀ v ∈ r.vars, (s.cells[v.val]?).any fun c => c.domain.lo = α v ∧ c.domain.hi = α v) ∧
      (∀ x ∈ r.sides, 0 < α x.length) ∧ ∀ x ∈ r.sides, w.Holds (α x.origin + α x.length)) <| by
    simp only [Option.any_eq_true, decide_eq_true_eq]
    constructor
    · rintro ⟨hfixed, hpos, hstop⟩
      refine ⟨fun v hv => ?_, hpos, hstop⟩
      obtain ⟨c, hc, hvalue⟩ := hfixed v hv
      exact ⟨c.domain, Store.domain_eq_ok.2 ⟨c, hc, rfl⟩, hvalue⟩
    · rintro ⟨hfixed, hpos, hstop⟩
      refine ⟨fun v hv => ?_, hpos, hstop⟩
      obtain ⟨d, hd, hvalue⟩ := hfixed v hv
      obtain ⟨c, hc, rfl⟩ := Store.domain_eq_ok.1 hd
      exact ⟨c, hc, hvalue⟩

/-- Along some dimension, one of two placed rectangles ends before the other begins. -/
def Separated (a b : Rectangle) (α : Var → Int) : Prop :=
  ∃ (i : Nat) (x y : Side), a.sides[i]? = some x ∧ b.sides[i]? = some y ∧
    (α x.origin + α x.length ≤ α y.origin ∨ α y.origin + α y.length ≤ α x.origin)

/-- Separation is mutual. -/
theorem Separated.symm (h : a.Separated b α) : b.Separated a α := by
  obtain ⟨i, x, y, hx, hy, hxy⟩ := h
  exact ⟨i, y, x, hy, hx, hxy.symm⟩

namespace Placed

/-- The variables of a placed rectangle exist. -/
theorem known (h : r.Placed s α) : r.Known s := fun v hv => by
  obtain ⟨d, hd, -⟩ := h.fixed v hv
  obtain ⟨c, hc, -⟩ := Store.domain_eq_ok.1 hd
  exact (List.getElem?_eq_some_iff.1 hc).1

/-- Both bounds of a variable of a placed rectangle are its value. -/
theorem dom_eq (h : r.Placed s α) {v : Var} (hv : v ∈ r.vars) :
    (s.dom v).lo = α v ∧ (s.dom v).hi = α v := by
  obtain ⟨d, hd, hlo, hhi⟩ := h.fixed v hv
  obtain ⟨c, hc, rfl⟩ := Store.domain_eq_ok.1 hd
  rw [Store.dom_of_cell hc]
  exact ⟨hlo, hhi⟩

/-- Both bounds of an origin of a placed rectangle are its value. -/
theorem origin_eq (h : r.Placed s α) {x : Side} (hx : x ∈ r.sides) :
    (s.dom x.origin).lo = α x.origin ∧ (s.dom x.origin).hi = α x.origin :=
  h.dom_eq (List.mem_append_left _ (List.mem_map.2 ⟨x, hx, rfl⟩))

/-- The least length of a side of a placed rectangle is its value. -/
theorem length_eq (h : r.Placed s α) {x : Side} (hx : x ∈ r.sides) : (s.look x).length.lo = α x.length :=
  (h.dom_eq (List.mem_append_right _ (List.mem_map.2 ⟨x, hx, rfl⟩))).1

/-- A placed rectangle covers all of its place. -/
theorem mandatory?_eq (h : r.Placed s α) {x : Side} (hx : x ∈ r.sides) :
    ∃ m : Span, (s.look x).mandatory? = some m ∧ m.start = α x.origin ∧ m.stop = α x.origin + α x.length := by
  have hpos := h.pos x hx
  unfold Extent.mandatory?
  rw [h.length_eq hx]
  unfold Store.look
  dsimp only
  rw [(h.origin_eq hx).1, (h.origin_eq hx).2]
  unfold Width.add
  rw [Width.clamp_of_holds (h.holds_stop x hx)]
  exact ⟨_, dif_pos (by omega), rfl, rfl⟩

/-- **Placed rectangles that nothing separates bar each other** from where the later of them begins. -/
theorem bars (ha : a.Placed s α) (hb : b.Placed s α) (hdim : a.dim = b.dim) (hsep : ¬ a.Separated b α)
    {i : Nat} {x y : Side} (hx : a.sides[i]? = some x) (hy : b.sides[i]? = some y) :
    Bars (b.view s) (a.view s) i (max (α x.origin) (α y.origin)) := by
  have hmeet : ∀ (j : Nat) (x y : Side), a.sides[j]? = some x → b.sides[j]? = some y →
      α y.origin < α x.origin + α x.length ∧ α x.origin < α y.origin + α y.length := by
    intro j x y hx hy
    by_contra hnot
    exact hsep ⟨j, x, y, hx, hy, by omega⟩
  refine ⟨?_, fun j hj _ => ?_⟩
  · obtain ⟨n, hn, hstart, hstop⟩ := hb.mandatory?_eq (List.mem_of_getElem? hy)
    have := hmeet i x y hx hy
    have := hb.pos y (List.mem_of_getElem? hy)
    refine ⟨_, n, by rw [b.view_getElem?, hy]; rfl, hn, Span.mem_iff.2 ?_⟩
    rw [hstart, hstop]
    omega
  · rw [a.length_view] at hj
    obtain ⟨x', hx'⟩ : ∃ x', a.sides[j]? = some x' := ⟨_, List.getElem?_eq_getElem hj⟩
    obtain ⟨y', hy'⟩ : ∃ y', b.sides[j]? = some y' := ⟨_, List.getElem?_eq_getElem (show j < b.dim by omega)⟩
    obtain ⟨m, hm, hm₁, hm₂⟩ := ha.mandatory?_eq (List.mem_of_getElem? hx')
    obtain ⟨n, hn, hn₁, hn₂⟩ := hb.mandatory?_eq (List.mem_of_getElem? hy')
    have := hmeet j x' y' hx' hy'
    have := ha.pos x' (List.mem_of_getElem? hx')
    have := hb.pos y' (List.mem_of_getElem? hy')
    refine ⟨_, m, _, n, by rw [a.view_getElem?, hx']; rfl, hm, by rw [b.view_getElem?, hy']; rfl, hn, ?_⟩
    unfold Span.Meets
    rw [hm₁, hm₂, hn₁, hn₂]
    omega

/-- A placed rectangle that was settled before the level keeps its place when the level is left. -/
theorem backtrack (h : r.Placed s α) (hset : r.Settled s) (hs : s.Stamped) : r.Placed s.backtrack.2 α := by
  refine ⟨fun v hv => ?_, h.pos, h.holds_stop⟩
  obtain ⟨d, hd, hvalue⟩ := h.fixed v hv
  obtain ⟨c, hc, rfl⟩ := Store.domain_eq_ok.1 hd
  have hback := hs.cell_backtrack hc (hset v hv c hc).2
  exact ⟨c.domain, Store.domain_eq_ok.2 ⟨_, hback, rfl⟩, hvalue⟩

end Placed

end Rectangle

namespace Disjoint

variable {d : Disjoint} {s : Store w} {i j : Nat} {a b : Rectangle} {α : Var → Int}

/-- **A placed rectangle at rest that is not passed over is separated from every other placed one.** -/
theorem Rests.separated (h : d.Rests s i) (hquiet : d.Quiet s) (hsound : d.Sound s)
    (ha : d.rectangles[i]? = some a) (hb : d.rectangles[j]? = some b) (hij : i ≠ j)
    (hpa : a.Placed s α) (hpb : b.Placed s α) (hset : ¬ a.Settled s) : a.Separated b α := by
  by_contra hsep
  have hdim := d.uniform a (List.mem_of_getElem? ha) b (List.mem_of_getElem? hb)
  have h0 : 0 < a.sides.length := List.length_pos_iff.2 a.sides_ne_nil
  have hx := List.getElem?_eq_getElem h0
  have hy := List.getElem?_eq_getElem (show 0 < b.dim by rwa [← hdim])
  have hmem := List.getElem_mem h0
  have hlength := hpa.length_eq hmem
  have hpos := hpa.pos _ hmem
  have hnn : a.Nonneg s := fun x hx => by
    have := hpa.pos x hx
    rw [hpa.length_eq hx]
    omega
  have hbarred := (h.not_barred hquiet hsound ha hnn hset hb hij.symm hx (by omega)
    (hpa.bars hpb hdim hsep hx hy)).1
  rw [(hpa.origin_eq hmem).1, hlength] at hbarred
  exact hsep ⟨0, _, _, hx, hy, by omega⟩

/-- **Placed rectangles are separated**, whatever the levels at which they were placed, if all
rectangles are at rest now and in every store that backtracking gives. -/
theorem separated_of_always
    (h : Always (fun u => (∀ k, d.Rests u k) ∧ d.Sound u ∧ u.Stamped) s) (hquiet : s.hasChanges = false)
    (ha : d.rectangles[i]? = some a) (hb : d.rectangles[j]? = some b) (hij : i ≠ j)
    (hpa : a.Placed s α) (hpb : b.Placed s α) : a.Separated b α := by
  -- on the level, since both may have been settled below it
  induction hn : s.level generalizing s with
  | zero =>
    obtain ⟨hrests, hsound, -⟩ := h.now
    refine (hrests i).separated (fun v _ => Store.not_pending_of_not_hasChanges hquiet v) hsound ha hb hij
      hpa hpb fun hset => ?_
    have := hset.level_pos hpa.known
    omega
  | succ n ih =>
    obtain ⟨hrests, hsound, hstamped⟩ := h.now
    have hq : d.Quiet s := fun v _ => Store.not_pending_of_not_hasChanges hquiet v
    by_cases hsa : a.Settled s
    · by_cases hsb : b.Settled s
      · refine ih (h.tail (by omega)) s.hasChanges_backtrack (hpa.backtrack hsa hstamped)
          (hpb.backtrack hsb hstamped) ?_
        rw [s.level_backtrack, hn, Nat.add_sub_cancel]
      · exact ((hrests j).separated hq hsound hb ha hij.symm hpb hpa hsb).symm
    · exact (hrests i).separated hq hsound ha hb hij hpa hpb hsa

end Disjoint

/-! ## Leaves of a search -/

namespace Session

variable {s : Session w}

/-- In a calm session all rectangles are at rest, now and after any backtracking, and so are their
candidates sound and the logs stamped. -/
theorem Calm.always (h : s.Calm false) {d : Disjoint} (hd : d ∈ s.engine.constraints) :
    Always (fun u => (∀ k, d.Rests u k) ∧ d.Sound u ∧ u.Stamped) s.store := by
  have hrests : Always (AtRest s.engine.constraints) s.store := .of_backtrack (h.now rfl) h.past
  have hsound := always_sound h.reached
  have hstamped := always_stamped (h.reached.mono fun _ _ ha => ha.1)
  intro n hn
  exact ⟨fun k => hrests n hn d hd k, hsound n hn d (List.mem_append_left _ hd), hstamped n hn⟩

/-- A propagation that ends well leaves a calm session, and nothing pending. -/
theorem Calm.propagate_done (h : s.Calm false) (hok : (s.step .propagate).1 = .done) :
    (s.step .propagate).2.Calm false ∧ (s.step .propagate).2.store.hasChanges = false := by
  have hcalm : (s.step .propagate).2.Calm (s.fails .propagate) := h.step rfl
  have hfails : s.fails .propagate = false := by
    unfold fails
    rw [hok]
    rfl
  rw [hfails] at hcalm
  refine ⟨hcalm, ?_⟩
  have hends := h.proper.propagate_rests (h.now rfl)
  unfold Ends at hends
  unfold Session.step acted at hok ⊢
  dsimp only at hok ⊢
  split at hends <;> rename_i hm <;> rw [hm] at hok ⊢
  · exact hends.2.2
  · cases hok

/-- **A leaf of a search is a placement.** After every disciplined run that ends with a propagation that
ends well, any two rectangles of a posted constraint that are placed are separated along some
dimension, whatever the levels at which their variables were fixed, and in whatever orders the
constraints sort the steps of one place. -/
theorem placed_separated {ops : List (Op w)}
    (hd : Disciplined false (empty : Session w) (ops ++ [.propagate]))
    (hok : ((empty.run ops).step .propagate).1 = .done) {p : Posted Disjoint}
    (hp : p ∈ ((empty.run ops).step .propagate).2.engine.posted) {i j : Nat} (hij : i ≠ j) {a b : Rectangle}
    (ha : p.propagator.rectangles[i]? = some a) (hb : p.propagator.rectangles[j]? = some b) {α : Var → Int}
    (hpa : a.Placed ((empty.run ops).step .propagate).2.store α)
    (hpb : b.Placed ((empty.run ops).step .propagate).2.store α) : a.Separated b α := by
  have hstart : (empty : Session w).Calm false :=
    ⟨.start, fun _ => nofun, fun hl => absurd hl (Nat.lt_irrefl 0)⟩
  obtain ⟨failed, hcalm, rfl⟩ := hstart.run hd
  obtain ⟨hcalm', hquiet⟩ := hcalm.propagate_done hok
  have halways := hcalm'.always (List.mem_map.2 ⟨p, hp, rfl⟩)
  exact Disjoint.separated_of_always halways hquiet ha hb hij hpa hpb

/-- Two squares placed at two different levels, seen from a third at which both are passed over. -/
theorem placed_separated_squares :
    let ops := squares ++ [.propagate, .pushLevel, .fix ⟨0⟩ 0, .propagate, .pushLevel, .fix ⟨1⟩ 4, .propagate, .pushLevel]
    let α : Var → Int := fun v => [0, 4, 0, 3].getD v.val 0
    ∃ p ∈ ((empty.run ops).step .propagate).2.engine.posted, ∃ a b, p.propagator.rectangles = [a, b] ∧
      a.Placed ((empty.run ops).step .propagate).2.store α ∧ a.Separated b α := by
  intro ops α
  have hd : Disciplined false empty (ops ++ [.propagate]) := by decide +kernel
  have hok : ((empty.run ops).step .propagate).1 = .done := by decide +kernel
  have hposted : ((empty.run ops).step .propagate).2.engine.posted ≠ [] := by decide +kernel
  have hplaced : ∀ p ∈ ((empty.run ops).step .propagate).2.engine.posted, p.propagator.rectangles.length = 2 ∧
      ∀ r ∈ p.propagator.rectangles, r.Placed ((empty.run ops).step .propagate).2.store α := by
    decide +kernel
  obtain ⟨p, hp⟩ := List.exists_mem_of_ne_nil _ hposted
  obtain ⟨hlength, hall⟩ := hplaced p hp
  obtain ⟨a, b, hab⟩ := List.length_eq_two.1 hlength
  rw [hab] at hall
  have ha := hall a (by simp)
  exact ⟨p, hp, a, b, hab, ha, placed_separated hd hok hp Nat.zero_ne_one (by rw [hab]; rfl) (by rw [hab]; rfl)
    ha (hall b (by simp))⟩

end Session
end Placement
