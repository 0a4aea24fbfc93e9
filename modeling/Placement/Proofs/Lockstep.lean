/-
# Two narrowings in lockstep

Two computations run in lockstep (`Lockstep`) if they end in the same way: with the same result in
states that `Q` relates, or with the same failure in states that `E` relates. A loop runs in lockstep
with another one over other numbers if each of its turns does.

What is read while a rectangle is tightened is read of the variables and never of the slots, and the
regions it is tightened against do not depend on the numbers of its neighbours
(`Tighten.regions_renumber`). So two constraints that hold the same rectangles under different
numbers tighten a rectangle in lockstep, in stores that have the same variables
(`Disjoint.lockstep_tighten`).
-/

import Placement.Proofs.Renumbering
import Placement.Proofs.Standstill

namespace Placement

/-! ## Computations that end alike -/

section General

variable {ε σ τ α β : Type}

/-- Two computations have ended in the same way: well, in states that `Q` relates, or with one failure,
in states that `E` relates. -/
inductive Lockstep (Q E : σ → τ → Prop) : EStateM.Result ε σ α → EStateM.Result ε τ α → Prop
  | ok (a : α) {s : σ} {t : τ} (h : Q s t) : Lockstep Q E (.ok a s) (.ok a t)
  | error (e : ε) {s : σ} {t : τ} (h : E s t) : Lockstep Q E (.error e s) (.error e t)

namespace Lockstep

variable {Q Q' E E' : σ → τ → Prop} {s : σ} {t : τ}

/-- The relations between the final states may be weakened. -/
theorem mono {x : EStateM.Result ε σ α} {y : EStateM.Result ε τ α} (h : Lockstep Q E x y)
    (hQ : ∀ s t, Q s t → Q' s t) (hE : ∀ s t, E s t → E' s t) : Lockstep Q' E' x y := by
  cases h with
  | ok a h => exact .ok a (hQ _ _ h)
  | error e h => exact .error e (hE _ _ h)

/-- **Chains run in lockstep if their parts do.** -/
theorem bind {m : EStateM ε σ α} {m' : EStateM ε τ α} {f : α → EStateM ε σ β} {f' : α → EStateM ε τ β}
    (hm : Lockstep Q E (m s) (m' t)) (hf : ∀ a s t, Q s t → Lockstep Q' E (f a s) (f' a t)) :
    Lockstep Q' E ((m >>= f) s) ((m' >>= f') t) := by
  show Lockstep Q' E (EStateM.bind m f s) (EStateM.bind m' f' t)
  unfold EStateM.bind
  generalize m s = x, m' t = y at hm
  cases hm with
  | ok a h => exact hf a _ _ h
  | error e h => exact .error e h

/-- What each of two computations does alone, and what they do in lockstep. -/
theorem and_ends {m : EStateM ε σ α} {m' : EStateM ε τ α} {P : σ → Prop} {P' : τ → Prop}
    (h : Lockstep Q E (m s) (m' t)) (hm : Ends m s (fun _ s' => P s') fun _ _ => True)
    (hm' : Ends m' t (fun _ t' => P' t') fun _ _ => True) :
    Lockstep (fun s t => Q s t ∧ P s ∧ P' t) E (m s) (m' t) := by
  unfold Ends at hm hm'
  generalize m s = x, m' t = y at h hm hm'
  cases h with
  | ok a h => exact .ok a ⟨h, hm, hm'⟩
  | error e h => exact .error e h

section Loops

variable {f : Nat → EStateM ε σ Unit} {f' : Nat → EStateM ε τ Unit} {as as' bs bs' : List Nat}

/-- **A loop runs in lockstep with the loop over other numbers**, if every turn hands on to the next
what the next one needs. -/
theorem forM_range' {φ : Nat → Nat} {R : Nat → σ → τ → Prop} {first count last : Nat}
    (hlast : first + count = last)
    (step : ∀ k, first ≤ k → k < last → ∀ s t, R k s t → Lockstep (R (k + 1)) E (f k s) (f' (φ k) t))
    (h : R first s t) :
    Lockstep (R last) E ((List.range' first count).forM f s)
      (((List.range' first count).map φ).forM f' t) := by
  induction count generalizing first s t with
  | zero =>
    obtain rfl : first = last := hlast
    exact .ok () h
  | succ count ih =>
    rw [List.range'_succ, List.map_cons]
    refine (step first (Nat.le_refl _) (by omega) s t h).bind fun _ _ _ h' => ?_
    exact ih (by omega) (fun k hk => step k (by omega)) h'

/-- One loop after another. -/
theorem forM_append (ha : Lockstep Q E (as.forM f s) (as'.forM f' t))
    (hb : ∀ s t, Q s t → Lockstep Q' E (bs.forM f s) (bs'.forM f' t)) :
    Lockstep Q' E ((as ++ bs).forM f s) ((as' ++ bs').forM f' t) := by
  have happend : (as ++ bs).forM f = as.forM f >>= fun _ => bs.forM f := List.forM_append
  have happend' : (as' ++ bs').forM f' = as'.forM f' >>= fun _ => bs'.forM f' := List.forM_append
  rw [happend, happend']
  exact ha.bind fun _ => hb

/-- One loop waits while the other one takes a turn that ends well. -/
theorem forM_cons_right {a : Nat} (ha : Ends (f' a) t (fun _ t' => Q s t') fun _ _ => False)
    (has : ∀ t', Q s t' → Lockstep Q' E (as.forM f s) (as'.forM f' t')) :
    Lockstep Q' E (as.forM f s) ((a :: as').forM f' t) := by
  show Lockstep Q' E (as.forM f s) (EStateM.bind (f' a) (fun _ => as'.forM f') t)
  unfold Ends at ha
  unfold EStateM.bind
  generalize f' a t = y at ha
  cases y with
  | ok _ t' => exact has t' ha
  | error _ _ => exact ha.elim

end Loops

end Lockstep

end General

variable {w : Width}

/-! ## Stores with the same variables -/

/-- The stores are at the same level and have the same variables. Their slots may differ. -/
structure Store.Agrees (s t : Store w) : Prop where
  cells : t.cells = s.cells
  level : t.level = s.level

namespace Store.Agrees

variable {s t u : Store w}

/-- A store agrees with itself. -/
theorem refl (s : Store w) : s.Agrees s := ⟨rfl, rfl⟩

/-- Agreement of stores carries over. -/
theorem trans (h : s.Agrees t) (h' : t.Agrees u) : s.Agrees u :=
  ⟨h'.cells.trans h.cells, h'.level.trans h.level⟩

/-- Agreement of stores is mutual. -/
theorem symm (h : s.Agrees t) : t.Agrees s := ⟨h.cells.symm, h.level.symm⟩

variable (h : s.Agrees t)

include h

/-- A store that agrees has shrunk by nothing. -/
theorem shrinks : s.Shrinks t := .of_domains [] (by rw [h.cells, List.append_nil])

/-- Stores that agree both have changes, or neither. -/
theorem hasChanges_eq : t.hasChanges = s.hasChanges := by
  unfold Store.hasChanges
  rw [h.cells]

/-- Stores that agree have the same changed variables. -/
theorem changed_eq : t.changed = s.changed := by
  unfold Store.changed Store.vars Store.numVars
  rw [h.cells]

/-- Stores that agree have the same domains. -/
theorem domain_eq : t.domain = s.domain := by
  funext v
  unfold Store.domain Store.cell
  rw [h.cells]

/-- Stores that agree have the same extents. -/
theorem extent_eq (r : Rectangle) : r.extent t = r.extent s := by
  funext i
  unfold Rectangle.extent Store.extent
  rw [h.domain_eq]

/-- Stores that agree have the same least lengths. -/
theorem minLength_eq (r : Rectangle) : r.minLength t = r.minLength s := by
  funext i
  unfold Rectangle.minLength
  rw [h.domain_eq]

end Store.Agrees

namespace Narrowing

variable {α : Type} {x x' : List Saved} {p p' : Pass w}

/-- A computation that begins with a reading. -/
theorem read_bind {β : Type} {f : Store w → Except Fault α} {a : α} (h : f p.store = .ok a)
    (g : α → Narrowing w β) : (read f >>= g) p = g a p := by
  have hread : read f p = .ok a p := by
    unfold read
    rw [get_bind, h]
    rfl
  show EStateM.bind (read f) g p = g a p
  unfold EStateM.bind
  rw [hread]

/-- A computation that begins with an update. -/
theorem update_bind {β : Type} {f : Store w → Except Fault (Store w)} {s : Store w} (h : f p.store = .ok s)
    (g : Unit → Narrowing w β) : (update f >>= g) p = g () ⟨s, p.events⟩ := by
  have hupdate : update f p = .ok () ⟨s, p.events⟩ := read_bind h _
  show EStateM.bind (update f) g p = _
  unfold EStateM.bind
  rw [hupdate]

/-- After a report, a chain goes on with the event noted. -/
theorem report_bind {β : Type} (e : Event) (g : Unit → Narrowing w β) :
    (report e >>= g) p = g () ⟨p.store, e :: p.events⟩ := rfl

/-- The stores agree, and their slots are the given ones. -/
structure Beside (x x' : List Saved) (p p' : Pass w) : Prop where
  agrees : p.store.Agrees p'.store
  left : p.store.slots = x
  right : p'.store.slots = x'

/-- A reading of the variables. -/
theorem lockstep_read {f : Store w → Except Fault α} (hf : ∀ s t : Store w, s.Agrees t → f t = f s)
    (h : Beside x x' p p') : Lockstep (Beside x x') (Beside x x') (read f p) (read f p') := by
  unfold read
  rw [get_bind, get_bind, hf _ _ h.agrees]
  cases f p.store with
  | ok a => exact .ok a h
  | error c => exact .error _ h

/-- Narrowing a domain runs in lockstep. -/
theorem lockstep_setBounds (v : Var) (lo hi : Int) (h : Beside x x' p p') :
    Lockstep (Beside x x') (Beside x x') (setBounds v lo hi p) (setBounds v lo hi p') := by
  have hcell : p'.store.cell v = p.store.cell v := by
    unfold Store.cell
    rw [h.agrees.cells]
  unfold setBounds
  rw [get_bind, get_bind]
  unfold Store.setBounds
  rw [hcell]
  rcases p.store.cell v with c | c
  · exact .error _ h
  · simp only [liftM_ok_bind]
    cases c.domain.restrict? lo hi with
    | none => exact .error _ h
    | some d =>
      by_cases hd : d = c.domain
      · simp only [if_pos hd]
        exact .ok _ ⟨h.agrees, h.left, h.right⟩
      · simp only [if_neg hd]
        refine .ok _ ⟨⟨?_, ?_⟩, h.left, h.right⟩
        · show p'.store.cells.set v.val ⟨d, p'.store.level, true⟩ = p.store.cells.set v.val ⟨d, p.store.level, true⟩
          rw [h.agrees.cells, h.agrees.level]
        · exact (Store.level_of_note rfl).trans (h.agrees.level.trans (Store.level_of_note rfl).symm)

end Narrowing

/-! ## Tightening -/

namespace Tighten

open Narrowing (Beside)

variable {x x' : List Saved} {p p' : Pass w}

/-- Tightening an origin runs in lockstep. -/
theorem lockstep_origin (v : Var) (length : Int) (regions : List Span) (h : Beside x x' p p') :
    Lockstep (Beside x x') (Beside x x') (origin v length regions p) (origin v length regions p') := by
  unfold origin
  split
  · exact .ok _ h
  · refine (Narrowing.lockstep_read (fun s t hst => congrFun hst.domain_eq v) h).bind fun d q q' hq => ?_
    dsimp only
    generalize (if d.lo < raise w length d.lo regions then 1 else 0) +
      (if lower w length d.hi regions.reverse < d.hi then 1 else 0) = moved
    split
    · rw [Narrowing.report_bind, Narrowing.report_bind]
      refine (Narrowing.lockstep_setBounds v _ _ ?_).bind fun _ _ _ h => .ok _ h
      exact ⟨hq.agrees, hq.left, hq.right⟩
    · exact .ok _ hq

/-- Tightening an origin against regions of the variables runs in lockstep. -/
theorem lockstep_originAgainst (v : Var) (length : Int) {fs : List (Store w → Except Fault (List Span))}
    (hfs : ∀ f ∈ fs, ∀ s t : Store w, s.Agrees t → f t = f s) (h : Beside x x' p p') :
    Lockstep (Beside x x') (Beside x x') (originAgainst v length fs p) (originAgainst v length fs p') := by
  induction fs generalizing p p' with
  | nil => exact .ok _ h
  | cons f fs ih =>
    obtain ⟨hf, hfs⟩ := List.forall_mem_cons.1 hfs
    unfold originAgainst
    refine (Narrowing.lockstep_read hf h).bind fun regions q q' hq => ?_
    refine (lockstep_origin v length regions hq).bind fun m u u' hu => ?_
    exact (ih hfs hu).bind fun n _ _ h => .ok _ h

variable {rectangles rectangles' : List Rectangle} {k : Nat} {r : Rectangle} {found : Neighborhood} {mode : Mode}

/-- Regions are computed from the variables. -/
theorem regions_agree (hr : rectangles[k]? = some r) {i : Nat} {f : Store w → Except Fault (List Span)}
    (hf : f ∈ regions rectangles k r found mode i) {s t : Store w} (h : s.Agrees t) : f t = f s := by
  rcases mem_regions.1 hf with rfl | ⟨sorter, -, -, j, -, rfl⟩
  · exact Region.ofUsed_congr (h.extent_eq r) i _
  · exact Region.ofProfile_congr hr (h.extent_eq r) (fun _ _ q _ => h.extent_eq q) i j sorter

/-- Tightening a rectangle runs in lockstep. -/
theorem lockstep_dimensions (hr : rectangles[k]? = some r) (is : List Nat) (h : Beside x x' p p') :
    Lockstep (Beside x x') (Beside x x') (dimensions rectangles k r found mode is p)
      (dimensions rectangles k r found mode is p') := by
  induction is generalizing p p' with
  | nil => exact .ok _ h
  | cons i is ih =>
    unfold dimensions
    refine (Narrowing.lockstep_read (fun s t hst => congrFun (hst.minLength_eq r) i) h).bind fun length q q' hq => ?_
    split
    · exact ih hq
    · refine (Narrowing.lockstep_read (fun _ _ _ => rfl) hq).bind fun side u u' hu => ?_
      refine (lockstep_originAgainst side.origin length (fun f hf s t => regions_agree hr hf) hu).bind
        fun m _ _ hu => ?_
      exact (ih hu).bind fun n _ _ h => .ok _ h

/-! ## Under other numbers -/

variable {φ : Nat → Nat}

/-- Used space is where it is, under whatever number. -/
theorem ofUsed_renumber (s : Store w) (r : Rectangle) (i : Nat) (used : List Used) :
    Region.ofUsed s r i (used.map fun u => ⟨φ u.neighbor, u.boxes⟩) = Region.ofUsed s r i used := by
  have hblocking : Region.blocking s r i (used.map fun u => ⟨φ u.neighbor, u.boxes⟩) =
      Region.blocking s r i used := by
    induction used with
    | nil => rfl
    | cons u us ih =>
      have hblocks : Region.blocks s r i ⟨φ u.neighbor, u.boxes⟩ = Region.blocks s r i u := rfl
      rw [List.map_cons]
      unfold Region.blocking
      rw [hblocks, ih]
  unfold Region.ofUsed
  rw [hblocking]

/-- What candidates add to a profile does not depend on their numbers. -/
theorem contributions_renumber {ks : List Nat} (hks : ∀ m ∈ ks, rectangles'[φ m]? = rectangles[m]?)
    (s : Store w) (i j : Nat) (sweep reach : Span) (points : List (Nat × Int)) :
    Region.contributions s rectangles' i j sweep reach points (ks.map φ) =
      Region.contributions s rectangles i j sweep reach points ks := by
  induction ks with
  | nil => rfl
  | cons m ks ih =>
    obtain ⟨hm, hks⟩ := List.forall_mem_cons.1 hks
    have hentry : entry rectangles' (φ m) = entry rectangles m := by
      unfold entry
      rw [hm]
    rw [List.map_cons]
    unfold Region.contributions
    rw [hentry, ih hks]

/-- A region of full profiles does not depend on the numbers of the rectangles. -/
theorem ofProfile_renumber (hk : rectangles'[φ k]? = rectangles[k]?) {ks : List Nat}
    (hks : ∀ m ∈ ks, rectangles'[φ m]? = rectangles[m]?) (s : Store w) (i j : Nat)
    (sorter : Sorter Step.place) :
    Region.ofProfile s rectangles' (φ k) i j (ks.map φ) sorter =
      Region.ofProfile s rectangles k i j ks sorter := by
  have hentry : entry rectangles' (φ k) = entry rectangles k := by
    unfold entry
    rw [hk]
  unfold Region.ofProfile
  simp only [hentry, contributions_renumber hks]

/-- **The regions that a rectangle is tightened against do not depend on the numbers of its
neighbours.** -/
theorem regions_renumber (hk : rectangles'[φ k]? = rectangles[k]?)
    (hfound : ∀ m ∈ found.profiled, rectangles'[φ m]? = rectangles[m]?) (r : Rectangle) (mode : Mode) (i : Nat) :
    (regions rectangles' (φ k) r (found.renumber φ) mode i : List (Store w → Except Fault (List Span))) =
      regions rectangles k r found mode i := by
  have hnone : (found.renumber φ).profiled = [] ↔ found.profiled = [] := by simp [Neighborhood.renumber]
  have hused : (fun s : Store w => Region.ofUsed s r i (found.renumber φ).used) =
      fun s => Region.ofUsed s r i found.used := funext fun s => ofUsed_renumber s r i found.used
  have hprofiled : ∀ sorter, (fun (j : Nat) (s : Store w) =>
      Region.ofProfile s rectangles' (φ k) i j (found.renumber φ).profiled sorter) =
      fun j s => Region.ofProfile s rectangles k i j found.profiled sorter := fun sorter =>
    funext fun j => funext fun s => ofProfile_renumber hk hfound s i j sorter
  unfold regions
  rw [hused]
  simp only [hnone, hprofiled]

/-- How a rectangle is tightened does not depend on the numbers of its neighbours. -/
theorem dimensions_renumber (hk : rectangles'[φ k]? = rectangles[k]?)
    (hfound : ∀ m ∈ found.profiled, rectangles'[φ m]? = rectangles[m]?) (r : Rectangle) (mode : Mode)
    (is : List Nat) :
    (dimensions rectangles' (φ k) r (found.renumber φ) mode is : Narrowing w Nat) =
      dimensions rectangles k r found mode is := by
  induction is with
  | nil => rfl
  | cons i is ih =>
    unfold dimensions
    rw [ih, regions_renumber hk hfound]

end Tighten

/-- How a constraint fails if its analysis does. -/
def Failure.rejected : Failure Violation → Failure Inconsistency
  | .fault c => .fault c
  | .refuted v => .refuted (.violated v.bound)

/-! ## Constraints with the same rectangles -/

namespace Disjoint

open Narrowing (Beside)

variable {d d' : Disjoint} {φ : Nat → Nat} {k : Nat} {r : Rectangle} {x x' : List Saved} {p p' : Pass w}

/-- How tightening a rectangle ends is how tightening it along all dimensions ends; the rest is
reported. -/
theorem tighten_eq (hr : d.rectangles[k]? = some r) (found : Neighborhood) (p : Pass w) :
    d.tighten k found p =
      match Tighten.dimensions d.rectangles k r found d.mode (List.range r.dim) p with
      | .ok moved q => .ok () ⟨q.store, .tightened moved :: q.events⟩
      | .error (.fault c) q => .error (.fault c) q
      | .error (.refuted c) q => .error (.refuted c) ⟨q.store, .stuck d.label k c :: q.events⟩ := by
  have hrectangle : Tighten.rectangle d.rectangles k found d.mode p =
      Tighten.dimensions d.rectangles k r found d.mode (List.range r.dim) p :=
    Narrowing.read_bind (entry_eq_ok.2 hr) _
  have hcatch : ∀ (m : Narrowing w Nat) (f : Failure Inconsistency → Narrowing w Nat),
      tryCatch m f p = match m p with
        | .ok a q => .ok a q
        | .error e q => f e q := fun m f => by
    show EStateM.tryCatch m f p = _
    delta EStateM.tryCatch
    cases m p <;> rfl
  show EStateM.bind (tryCatch _ _) _ p = _
  unfold EStateM.bind
  rw [hcatch, hrectangle]
  cases Tighten.dimensions d.rectangles k r found d.mode (List.range r.dim) p with
  | ok moved q => rfl
  | error e q =>
    cases e with
    | fault c => rfl
    | refuted c => rfl

/-- **Two constraints that hold the same rectangles under different numbers tighten them in
lockstep.** -/
theorem lockstep_tighten (hmode : d'.mode = d.mode) (hr : d.rectangles[k]? = some r)
    (hk : d'.rectangles[φ k]? = d.rectangles[k]?) {found : Neighborhood}
    (hfound : ∀ m ∈ found.profiled, d'.rectangles[φ m]? = d.rectangles[m]?) (h : Beside x x' p p') :
    Lockstep (Beside x x') (Beside x x') (d.tighten k found p)
      (d'.tighten (φ k) (found.renumber φ) p') := by
  have hdimensions : Lockstep (Beside x x') (Beside x x')
      (Tighten.dimensions d.rectangles k r found d.mode (List.range r.dim) p)
      (Tighten.dimensions d.rectangles k r found d.mode (List.range r.dim) p') :=
    Tighten.lockstep_dimensions hr (List.range r.dim) h
  rw [tighten_eq hr, tighten_eq (hk.trans hr), hmode, Tighten.dimensions_renumber hk hfound]
  generalize Tighten.dimensions d.rectangles k r found d.mode (List.range r.dim) p = a,
    Tighten.dimensions d.rectangles k r found d.mode (List.range r.dim) p' = b at hdimensions
  cases hdimensions with
  | ok moved hq => exact .ok () ⟨hq.agrees, hq.left, hq.right⟩
  | error e hq =>
    cases e with
    | fault c => exact .error _ hq
    | refuted c => exact .error _ ⟨hq.agrees, hq.left, hq.right⟩

/-! ## A visit as an equation -/

section Visit

variable {changed : List Var} {cs : List Nat} {found : Neighborhood}

/-- A rectangle that is not passed over is revised. -/
theorem narrowRectangle_eq (hr : d.rectangles[k]? = some r) (hk : r.Known p.store) (hnn : r.Nonneg p.store)
    (hset : ¬ r.Settled p.store) : d.narrowRectangle changed k p = d.revise changed k r p := by
  obtain ⟨b, hb, hiff⟩ := hk.hasNegativeLength_iff
  obtain ⟨b', hb', hiff'⟩ := hk.isSettled_iff
  obtain rfl : b = false := hiff.2 hnn
  obtain rfl : b' = false := by simpa using fun h => hset (hiff'.1 h)
  unfold narrowRectangle
  rw [Narrowing.read_bind (entry_eq_ok.2 hr), Narrowing.read_bind hb]
  exact Narrowing.read_bind hb' _

/-- After an analysis that refutes nothing, a chain goes on with what it found. -/
theorem inspect_bind (ha : analyze p.store d.rectangles k cs changed = .ok found)
    (g : Neighborhood → Narrowing w Unit) : (d.inspect changed k cs >>= g) p = g found p := by
  show EStateM.bind (d.inspect changed k cs) g p = g found p
  have hinspect : d.inspect changed k cs p = .ok found p := by
    unfold inspect
    rw [get_bind, ha]
    rfl
  unfold EStateM.bind
  rw [hinspect]

/-- A rectangle whose analysis fails is left as it is. -/
theorem revise_failed (hc : d.candidates.get p.store k = .ok cs) {e : Failure Violation}
    (ha : analyze p.store d.rectangles k cs changed = .error e) :
    ∃ events, d.revise changed k r p = .error e.rejected ⟨p.store, events⟩ := by
  have hinspect : ∃ events, d.inspect changed k cs ⟨p.store, .analyzed :: p.events⟩ =
      .error e.rejected ⟨p.store, events⟩ := by
    unfold inspect
    rw [get_bind, ha]
    cases e with
    | fault c => exact ⟨_, rfl⟩
    | refuted v => exact ⟨_, rfl⟩
  obtain ⟨events, hinspect⟩ := hinspect
  refine ⟨events, ?_⟩
  unfold revise
  rw [Narrowing.report_bind, Narrowing.read_bind hc]
  show EStateM.bind (d.inspect changed k cs) _ _ = _
  unfold EStateM.bind
  rw [hinspect]

/-- A rectangle for which nothing has changed is left as it is. -/
theorem revise_idle (hc : d.candidates.get p.store k = .ok cs)
    (ha : analyze p.store d.rectangles k cs changed = .ok found) (hidle : ¬ found.Matters r changed cs) :
    ∃ events, d.revise changed k r p = .ok () ⟨p.store, events⟩ := by
  unfold Neighborhood.Matters at hidle
  unfold revise
  rw [Narrowing.report_bind, Narrowing.read_bind hc,
    inspect_bind (p := ⟨p.store, .analyzed :: p.events⟩) ha, if_neg hidle]
  exact ⟨_, rfl⟩

/-- Any other rectangle gets the candidates that its analysis has found, and is tightened. -/
theorem revise_tight (hc : d.candidates.get p.store k = .ok cs)
    (ha : analyze p.store d.rectangles k cs changed = .ok found) (hmatters : found.Matters r changed cs) :
    ∃ t events, p.store.Agrees t ∧ d.candidates.get t k = .ok found.overlapping ∧
      d.revise changed k r p = d.tighten k found ⟨t, events⟩ := by
  have hsub := (overlapping_of_analyze ha).1
  unfold Neighborhood.Matters at hmatters
  unfold revise
  rw [Narrowing.report_bind, Narrowing.read_bind hc,
    inspect_bind (p := ⟨p.store, .analyzed :: p.events⟩) ha, if_pos hmatters]
  dsimp only
  by_cases hlen : found.overlapping.length ≠ cs.length
  · obtain ⟨t, ht⟩ := Candidates.replace_ok hc fun j hj => hsub.subset hj
    obtain ⟨_, x, -, -, hx, hset⟩ := Candidates.replace_eq_ok ht
    rw [if_pos hlen, Narrowing.report_bind, Narrowing.update_bind ht]
    refine ⟨t, _, ?_, (Candidates.get_of_setSnapshot hset).trans (if_pos hx), rfl⟩
    obtain ⟨a, -, rfl⟩ := Store.setSnapshot_eq_ok.1 hset
    exact ⟨rfl, Store.level_of_note rfl⟩
  · rw [if_neg hlen]
    refine ⟨p.store, _, ⟨rfl, rfl⟩, ?_, rfl⟩
    rw [hsub.eq_of_length (Classical.not_not.1 hlen)]
    exact hc

end Visit

/-- Passes that run in lockstep say how two narrowings end. -/
theorem narrow_of_lockstep {s s' : Store w} {changed changed' : List Var} {Q E : Store w → Store w → Prop}
    (h : Lockstep (fun q q' => Q q.store q'.store) (fun q q' => E q.store q'.store)
      (d.pass changed ⟨s, []⟩) (d'.pass changed' ⟨s', []⟩)) :
    (d'.narrow changed' s').outcome = (d.narrow changed s).outcome ∧
      ((d.narrow changed s).outcome = .ok () → Q (d.narrow changed s).store (d'.narrow changed' s').store) ∧
      ∀ e, (d.narrow changed s).outcome = .error e →
        E (d.narrow changed s).store (d'.narrow changed' s').store := by
  unfold narrow Narrowing.runOn
  dsimp only
  generalize d.pass changed ⟨s, []⟩ = x, d'.pass changed' ⟨s', []⟩ = y at h
  cases h with
  | ok a h => exact ⟨rfl, fun _ => h, nofun⟩
  | error e h => exact ⟨rfl, nofun, fun _ _ => h⟩

end Disjoint
end Placement
