/-
# What narrowing can be at fault for

Where the slots of candidates are left to their constraints, narrowing is asked nothing that has no
answer, but for one thing: the running height of a profile may leave the width
(`Session.narrow_at_fault`). Three things are looked at apart from each other.

* A pass that does not end well has refuted the store, or a height left the width
  (`Disjoint.narrow_expected`); a pass that uses no profiles refutes.
* The lines of the report can be written. Only one of them reads the store, that of a rectangle with
  a length that may be negative, and its variables exist (`Disjoint.narrow_readable`).
* The capacity bound divides machine words (`Width.quotient?`). The envelope of rectangles of positive
  least lengths is in order (`Neighborhood.Stretch.Sane`), so the quotients exist and are those of the
  integers.
-/

import Placement.Proofs.Crowds
import Placement.Proofs.Envelope

namespace Placement

open Neighborhood

variable {w : Width} {α β : Type}

/-! ## Division of machine words -/

/-- The quotient of machine words, truncated toward zero; none if the divisor is zero or the quotient
leaves the width. -/
def Width.quotient? (w : Width) (x y : Int) : Option Int :=
  if y ≠ 0 ∧ w.Holds (x.tdiv y) then some (x.tdiv y) else none

/-- A word that is not negative can be divided by a positive one. -/
theorem Width.quotient?_of_nonneg {x y : Int} (hx : 0 ≤ x) (hholds : w.Holds x) (hy : 0 < y) :
    w.quotient? x y = some (x / y) := by
  have hle : x / y ≤ x := Int.ediv_le_self y hx
  have hnonneg : 0 ≤ x / y := Int.ediv_nonneg hx (Int.le_of_lt hy)
  have hquotient := w.holds_between w.holds_zero hholds hnonneg hle
  unfold quotient?
  rw [Int.tdiv_eq_ediv_of_nonneg hx]
  exact if_pos ⟨by omega, hquotient⟩

namespace Neighborhood

/-- A stretch of positive least length is in order. -/
def Stretch.Sane (d : Stretch) : Prop := 0 < d.minLength → d.start ≤ d.stop

/-- The extent of a sane stretch can be divided by its least length. -/
theorem Stretch.Sane.quotient?_eq {d : Stretch} (h : d.Sane) (hpos : 0 < d.minLength) :
    w.quotient? (w.sub d.stop d.start) d.minLength = some (w.sub d.stop d.start / d.minLength) := by
  have hle := h hpos
  have hnonneg : 0 ≤ w.sub d.stop d.start := by
    have := w.clamp_mono (show 0 ≤ d.stop - d.start by omega)
    rwa [Width.clamp_of_holds w.holds_zero] at this
  exact Width.quotient?_of_nonneg hnonneg (w.holds_clamp _) hpos

/-- A sane stretch stays sane when it is widened. -/
theorem Stretch.Sane.widen {d : Stretch} (h : d.Sane) (e : Extent w) : (d.widen e).Sane := by
  intro hpos
  simp only [Stretch.widen] at hpos ⊢
  have := h (by omega)
  omega

/-- The stretch of an extent of positive least length reaches from its earliest start to its latest stop. -/
theorem sane_ofExtent {e : Extent w} {x : Window} (h : Window.ofExtent e = .ok x) :
    Stretch.Sane ⟨x.reach.start, x.latestStop, x.minLength⟩ := by
  unfold Window.ofExtent at h
  rw [e.reach_eq] at h
  obtain rfl := Except.ok.inj h
  intro hpos
  have hlo : e.origin.lo ≤ e.origin.hi := e.origin.lo_le_hi
  have hhi : e.origin.hi ≤ e.latestStop := e.hi_le_add e.length.lo (Int.le_of_lt hpos)
  exact Int.le_trans hlo hhi

/-- The envelope of the focus alone is sane. -/
theorem sane_start {s : Store w} {r : Rectangle} {k : Nat} {f : Focus} (hf : focus s r k = .ok f) :
    ∀ d ∈ (Tally.start f).envelope, d.Sane := by
  unfold focus at hf
  obtain ⟨es, -, hf⟩ := bind_eq_ok.1 hf
  obtain ⟨ws, hws, hf⟩ := bind_eq_ok.1 hf
  obtain rfl := Except.ok.inj hf
  intro d hd
  obtain ⟨x, hx, rfl⟩ := List.mem_map.1 hd
  obtain ⟨i, hi⟩ := List.mem_iff_getElem?.1 hx
  obtain ⟨e, -, he⟩ := getElem?_of_mapM hws hi
  exact sane_ofExtent he

/-- Adding a neighbour keeps the envelope sane. -/
theorem sane_add {f : Focus} {t : Tally} (h : ∀ d ∈ t.envelope, d.Sane) (n : Neighbor w) :
    ∀ d ∈ (t.add f n).envelope, d.Sane := by
  rw [envelope_add]
  split
  · intro d hd
    obtain ⟨i, hi⟩ := List.mem_iff_getElem?.1 hd
    obtain ⟨c, e, hc, -, rfl⟩ := List.getElem?_zipWith_eq_some.1 hi
    exact (h c (List.mem_of_getElem? hc)).widen e
  · exact h

/-- **The envelope stays sane** through the visits of an analysis. -/
theorem sane_visits {s : Store w} {rectangles : List Rectangle} {changed : List Var} {f : Focus}
    {cs : List Nat} {t t' : Tally} (h : ∀ d ∈ t.envelope, d.Sane)
    (ht : cs.foldlM (visit s rectangles changed f) t = .ok t') : ∀ d ∈ t'.envelope, d.Sane := by
  induction cs generalizing t with
  | nil =>
    cases ht
    exact h
  | cons c cs ih =>
    rw [List.foldlM_cons] at ht
    obtain ⟨u, hu, ht⟩ := bind_eq_ok.1 ht
    refine ih ?_ ht
    unfold visit at hu
    split at hu
    · cases hu
      exact h
    · obtain ⟨b, -, hu⟩ := bind_eq_ok.1 hu
      obtain ⟨n?, -, hu⟩ := bind_eq_ok.1 hu
      obtain ⟨_, -, hu⟩ := bind_eq_ok.1 hu
      cases hu
      cases n? with
      | none => exact h
      | some n => exact sane_add h n

end Neighborhood

/-! ## The report of a pass -/

/-- The line of the event can be written, if it has one. -/
def Event.Readable (e : Event) : Prop := e.fault? = none

/-- However the computation ends, the events that it has reported are readable. -/
def Narrowing.Readable (m : Narrowing w α) : Prop :=
  ∀ p : Pass w, Ends m p (fun _ q => ∀ e ∈ q.events, e ∈ p.events ∨ e.Readable)
    fun _ q => ∀ e ∈ q.events, e ∈ p.events ∨ e.Readable

namespace Narrowing.Readable

/-- A value reports nothing. -/
theorem pure (a : α) : Readable (Pure.pure a : Narrowing w α) := fun _ _ he => .inl he

/-- A failure reports nothing. -/
theorem throw (e : Failure Inconsistency) : Readable (MonadExcept.throw e : Narrowing w α) :=
  fun _ _ he => .inl he

/-- An event that can be written may be reported. -/
theorem report {e : Event} (h : e.Readable) : Readable (Narrowing.report e : Narrowing w Unit) := by
  intro p e' he'
  rcases List.mem_cons.1 he' with rfl | he'
  · exact .inr h
  · exact .inl he'

/-- Reading the store reports nothing. -/
theorem read (f : Store w → Except Fault α) : Readable (Narrowing.read f) := fun p =>
  (ends_read f p).2 ⟨fun _ _ _ he => .inl he, fun _ _ _ he => .inl he⟩

/-- An update of the store reports nothing. -/
theorem update (f : Store w → Except Fault (Store w)) : Readable (Narrowing.update f) := fun p =>
  (ends_update f p _).2 ⟨fun _ _ _ he => .inl he, fun _ _ _ he => .inl he⟩

/-- Narrowing a domain reports nothing. -/
theorem setBounds (v : Var) (lo hi : Int) : Readable (Narrowing.setBounds v lo hi : Narrowing w Bool) :=
  fun p => (ends_setBounds v lo hi p _).2 ⟨fun _ _ _ _ he => .inl he, fun _ _ _ he => .inl he⟩

/-- What is reported after a readable report. -/
theorem after {p q : Pass w} (hq : ∀ e ∈ q.events, e ∈ p.events ∨ e.Readable) {m : Narrowing w α}
    (hm : Readable m) : Ends m q (fun _ q' => ∀ e ∈ q'.events, e ∈ p.events ∨ e.Readable)
      fun _ q' => ∀ e ∈ q'.events, e ∈ p.events ∨ e.Readable :=
  (hm q).mono (fun _ _ h e he => (h e he).elim (hq e) .inr) fun _ _ h e he => (h e he).elim (hq e) .inr

/-- A chain of parts whose events can be written reports such events only. -/
theorem bind {m : Narrowing w α} {f : α → Narrowing w β} (hm : Readable m) (hf : ∀ a, Readable (f a)) :
    Readable (m >>= f) := fun p =>
  (ends_bind m f p _ _).2 <| (hm p).mono (fun a _ hq => (hf a).after hq) fun _ _ h => h

/-- A handler whose events can be written reports such events only. -/
theorem tryCatch {m : Narrowing w α} {f : Failure Inconsistency → Narrowing w α} (hm : Readable m)
    (hf : ∀ e, Readable (f e)) : Readable (MonadExcept.tryCatch m f) := fun p =>
  (ends_tryCatch m f p _ _).2 <| (hm p).mono (fun _ _ h => h) fun e _ hq => (hf e).after hq

/-- Either choice reports events that can be written. -/
theorem ite {c : Prop} [Decidable c] {m m' : Narrowing w α} (hm : Readable m) (hm' : Readable m') :
    Readable (if c then m else m') := by
  split
  · exact hm
  · exact hm'

end Narrowing.Readable

namespace Tighten

open Narrowing (Readable)

/-- Tightening an origin reports events that can be written. -/
theorem readable_origin (v : Var) (length : Int) (regions : List Span) :
    Readable (origin v length regions : Narrowing w Nat) := by
  unfold origin
  refine .ite (.pure _) (.bind (.read _) fun d => ?_)
  dsimp only
  exact .ite (.bind (.report rfl) fun _ => .bind (.setBounds _ _ _) fun _ => .pure _) (.pure _)

/-- Tightening an origin against several regions reports events that can be written. -/
theorem readable_originAgainst (v : Var) (length : Int) (regions : List (Store w → Except Fault (List Span))) :
    Readable (originAgainst v length regions) := by
  induction regions with
  | nil => exact .pure _
  | cons f fs ih =>
    unfold originAgainst
    exact .bind (.read _) fun _ => .bind (readable_origin _ _ _) fun _ => .bind ih fun _ => .pure _

/-- Tightening along dimensions reports events that can be written. -/
theorem readable_dimensions (rectangles : List Rectangle) (k : Nat) (r : Rectangle) (found : Neighborhood)
    (mode : Mode) (is : List Nat) :
    Readable (dimensions rectangles k r found mode is : Narrowing w Nat) := by
  induction is with
  | nil => exact .pure _
  | cons i is ih =>
    unfold dimensions
    refine .bind (.read _) fun length => .ite ih (.bind (.read _) fun side => ?_)
    exact .bind (readable_originAgainst _ _ _) fun _ => .bind ih fun _ => .pure _

end Tighten

/-- A rectangle whose variables exist can be described. -/
theorem Rectangle.Known.describe_ok {r : Rectangle} {s : Store w} (h : r.Known s) :
    ∃ text, r.describe s = .ok text := by
  have horigins : ∀ v ∈ r.origins, s.domain v = .ok (s.dom v) := fun v hv =>
    Store.domain_eq (h v (List.mem_append_left _ hv))
  unfold describe
  rw [mapM_eq_map horigins, ok_bind, mapM_eq_map h.domain_length, ok_bind]
  exact ⟨_, rfl⟩

namespace Disjoint

open Narrowing (Readable)

variable {d : Disjoint} (changed : List Var)

/-- Tightening a rectangle reports events that can be written. -/
theorem readable_tighten (d : Disjoint) (k : Nat) (found : Neighborhood) :
    Readable (d.tighten k found : Narrowing w Unit) := by
  unfold tighten
  refine .bind (.tryCatch ?_ fun e => ?_) fun _ => .report rfl
  · unfold Tighten.rectangle
    exact .bind (.read _) fun _ => Tighten.readable_dimensions _ _ _ _ _ _
  · cases e with
    | fault c => exact .throw _
    | refuted c => exact .bind (.report rfl) fun _ => .throw _

/-- An analysis reports events that can be written. -/
theorem readable_inspect (d : Disjoint) (k : Nat) (candidates : List Nat) :
    Readable (d.inspect changed k candidates : Narrowing w Neighborhood) := by
  intro p
  unfold inspect
  rw [ends_bind, ends_get]
  cases analyze p.store d.rectangles k candidates changed with
  | ok found => exact Readable.pure found p
  | error e =>
    cases e with
    | fault c => exact Readable.throw (.fault c) p
    | refuted v =>
      have hreports : Readable (do
          Narrowing.report (.violated k v)
          Narrowing.report (.infeasible d.label k v.bound)
          throw (.refuted (.violated v.bound)) : Narrowing w Neighborhood) :=
        .bind (.report rfl) fun _ => .bind (.report rfl) fun _ => .throw _
      exact hreports p

/-- Revising a rectangle reports events that can be written. -/
theorem readable_revise (d : Disjoint) (k : Nat) (r : Rectangle) :
    Readable (d.revise changed k r : Narrowing w Unit) := by
  unfold revise
  refine .bind (.report rfl) fun _ => .bind (.read _) fun current => ?_
  refine .bind (d.readable_inspect changed k current) fun found => ?_
  have tail : Readable (d.tighten k found : Narrowing w Unit) := d.readable_tighten k found
  dsimp only
  split
  · split
    · exact .bind (.report rfl) fun _ => .bind (.update _) fun _ => tail
    · exact tail
  · exact .report rfl

/-- A visit of a rectangle whose variables exist reports readable events. -/
theorem ends_readable {k : Nat} {p : Pass w} (hk : ∀ r ∈ d.rectangles, r.Known p.store) :
    Ends (d.narrowRectangle changed k) p (fun _ q => ∀ e ∈ q.events, e ∈ p.events ∨ e.Readable)
      fun _ q => ∀ e ∈ q.events, e ∈ p.events ∨ e.Readable := by
  unfold narrowRectangle
  refine (ends_bind _ _ p _ _).2 ((Narrowing.ends_read _ p).2 ⟨fun r hr => ?_, fun _ _ _ he => .inl he⟩)
  have hknown := hk r (List.mem_of_getElem? (entry_eq_ok.1 hr))
  refine (ends_bind _ _ p _ _).2 ((Narrowing.ends_read _ p).2 ⟨fun negative _ => ?_, fun _ _ _ he => .inl he⟩)
  split
  · obtain ⟨text, htext⟩ := hknown.describe_ok
    have hreadable : Event.Readable (.negativeLength d.label k (.ok text)) := rfl
    rw [ends_bind, ends_get, htext]
    exact Readable.report hreadable p
  · have visit : Readable (do
        if ← Narrowing.read r.isSettled then Narrowing.report .settled
        else d.revise changed k r : Narrowing w Unit) :=
      .bind (.read _) fun _ => .ite (.report rfl) (d.readable_revise changed k r)
    exact visit p

/-- **The report of a pass can be written**, if the variables of the rectangles exist. -/
theorem narrow_readable {s : Store w} (hk : ∀ r ∈ d.rectangles, r.Known s) :
    ∀ e ∈ (d.narrow changed s).events, e.Readable := by
  have hpass : Ends (d.pass changed) ⟨s, []⟩ (fun _ q => ∀ e ∈ q.events, e.Readable)
      fun _ q => ∀ e ∈ q.events, e.Readable := by
    have visits : Ends (do
        Narrowing.report .pass
        (List.range d.rectangles.length).forM (d.narrowRectangle changed) : Narrowing w Unit) ⟨s, []⟩
        (fun _ q => ∀ e ∈ q.events, e.Readable) fun _ q => ∀ e ∈ q.events, e.Readable := by
      rw [ends_bind, Narrowing.ends_report]
      refine (Ends.forM_range (I := fun _ q => s.Shrinks q.store ∧ ∀ e ∈ q.events, e.Readable)
        ⟨.refl s, fun e he => ?_⟩ fun k _ q hq => ?_).mono (fun _ _ h => h.2) fun _ _ h => h
      · rw [List.mem_singleton.1 he]
        rfl
      · obtain ⟨hshrinks, hevents⟩ := hq
        have hvisit := ends_readable changed (k := k) fun r hr => hshrinks.known (hk r hr)
        refine (hvisit.and (d.ends_visited changed k q)).mono (fun _ q' h => ⟨?_, ?_⟩) fun _ q' h => ?_
        · exact hshrinks.trans h.2.drifts.shrinks
        · exact fun e he => (h.1 e he).elim (hevents e) fun h => h
        · exact fun e he => (h.1 e he).elim (hevents e) fun h => h
    unfold pass
    dsimp only
    split
    · exact nofun
    · exact visits
  unfold Ends at hpass
  unfold narrow Narrowing.runOn
  split at hpass <;> rename_i hm <;> rw [hm] <;>
    exact fun e he => hpass e (List.mem_reverse.1 he)

end Disjoint

/-! ## Every session -/

namespace Session

variable {s : Session w}

/-- **Narrowing is at fault for the heights of profiles only.** In every session that leaves the slots
of candidates to their constraints, whatever the domains and at whatever level things were created,
take a constraint that was posted or imposed by hand and whose variables exist, and any store of the
session, as it is or in the midst of a propagation. If narrowing it there, for any changed variables, is at
fault, then it uses profiles, and the running height of one, with the steps of one place in the order
of the constraint's sorter, left the width. Every line of its report
can be written; and wherever a pass comes to the capacity bound, the machine words are divided by
positive ones, and the quotients are those of the integers. -/
theorem narrow_at_fault (hs : s.Reached OwnSlots) {d : Disjoint} (hd : d.bare ∈ s.constraints)
    (hk : ∀ r ∈ d.rectangles, r.Known s.store) {t : Store w} (ht : Store.Acts s.constraints s.store t)
    (changed : List Var) :
    (∀ c, (d.narrow changed t).outcome = .error (.fault c) → c = .addOverflow ∧ d.mode ≠ .pairwise) ∧
    (∀ e ∈ (d.narrow changed t).events, e.fault? = none) ∧
    ∀ u, d.Steps t u → ∀ r k f (neighbors : List Nat) tally, focus u r k = .ok f →
      neighbors.foldlM (visit u d.rectangles changed f) (.start f) = .ok tally →
      tally.envelope.all (0 < ·.minLength) → ∀ e ∈ tally.envelope,
        w.quotient? (w.sub e.stop e.start) e.minLength = some (w.sub e.stop e.start / e.minLength) := by
  have hchanges : Store.Changes s.constraints (fun _ => False) s.store t := changes_of_acts ht
  have hkt : ∀ r ∈ d.rectangles, r.Known t := fun r hr => hchanges.writes.shrinks.known (hk r hr)
  have hready : ∀ u, d.Steps t u → d.Ready u := fun u hu =>
    (stash hs).ready_of_acts (owned hs) hd (ht.trans (hu.acts hd))
  refine ⟨fun c hc => ⟨?_, fun hmode => ?_⟩, Disjoint.narrow_readable changed hkt, fun u _ r k f neighbors tally hf htally hpos e he => ?_⟩
  · rcases Disjoint.narrow_expected hkt hready changed hc with ⟨_, hrefuted⟩ | hover
    · cases hrefuted
    · exact Failure.fault.inj hover
  · rcases Disjoint.narrow_of_uncrowded hkt hready (fun h => absurd hmode h) changed with hok | ⟨_, hrefuted⟩
    · cases hc.symm.trans hok
    · cases hc.symm.trans hrefuted
  · have hmin : 0 < e.minLength := by simpa using List.all_eq_true.1 hpos e he
    exact (sane_visits (sane_start hf) htally e he).quotient?_eq hmin

/-- Two squares created and posted below the root, whose profiles have room. -/
theorem narrow_at_fault_squares :
    let s := empty.run (.pushLevel :: squares)
    s.Reached OwnSlots ∧ s.constraints.length = 1 ∧ ∀ d ∈ s.constraints, d.bare ∈ s.constraints ∧
      (∀ r ∈ d.rectangles, r.Known s.store) ∧
      ∀ changed, (∀ c, (d.narrow changed s.store).outcome = .error (.fault c) →
          c = .addOverflow ∧ d.mode ≠ .pairwise) ∧
        ∀ e ∈ (d.narrow changed s.store).events, e.fault? = none := by
  intro s
  have hs : s.Reached OwnSlots := Reached.start.run (by decide +kernel)
  have hknown : ∀ d ∈ s.constraints, ∀ r ∈ d.rectangles, r.Known s.store := by decide +kernel
  refine ⟨hs, by decide +kernel, fun d hd => ?_⟩
  have hbare : d.bare ∈ s.constraints := (bare_of_mem hd).symm ▸ hd
  refine ⟨hbare, hknown d hd, fun changed => ?_⟩
  obtain ⟨hfault, hevents, -⟩ := narrow_at_fault hs hbare (hknown d hd) .refl changed
  exact ⟨hfault, hevents⟩

end Session
end Placement
