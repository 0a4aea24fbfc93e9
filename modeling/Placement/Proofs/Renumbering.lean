/-
# Rectangles under other numbers

An analysis uses the position of a rectangle to find it and to name it in what it reports, and for
nothing else. So if the rectangles are kept at other positions, the analysis finds the same
neighbours, or the same violation, under their new numbers (`analyze_renumber`).

Some more things do not matter to an analysis: what is kept at positions it is not given, whether the
focus itself is among those it is given (`analyze_erase_focus`), and, provided that the focus fits
into its own reach, the candidates whose reach does not meet that of the focus (`analyze_of_seen`).
Without the proviso they do matter, since the common area bound is tested after each of them.
-/

import Placement.Proofs.CachedCandidates

namespace Placement

variable {w : Width}

/-- What an analysis says of its neighbours, under new numbers. -/
def Neighborhood.renumber (φ : Nat → Nat) (found : Neighborhood) : Neighborhood where
  overlapping := found.overlapping.map φ
  used := found.used.map fun u => ⟨φ u.neighbor, u.boxes⟩
  profiled := found.profiled.map φ
  changed := found.changed

namespace Neighborhood

variable (φ : Nat → Nat)

/-- A focus under a new number. -/
def Focus.renumber (f : Focus) : Focus := { f with index := φ f.index }

/-- A neighbour under a new number. -/
def Neighbor.renumber (n : Neighbor w) : Neighbor w := { n with index := φ n.index }

/-- The sums over the same neighbours under new numbers. -/
def Tally.renumber (t : Tally) : Tally := { t with found := t.found.renumber φ }

/-- What is found is renumbered neighbour by neighbour. -/
theorem renumber_add (found : Neighborhood) (n : Neighbor w) :
    (found.add n).renumber φ = (found.renumber φ).add (n.renumber φ) := by
  have hused : (n.renumber φ).isUsed = n.isUsed := rfl
  have hprofiled : (n.renumber φ).isProfiled = n.isProfiled := rfl
  unfold add renumber
  rw [hused, hprofiled]
  cases n.isUsed <;> cases n.isProfiled <;> simp [Neighbor.renumber, Neighbor.boxes]

/-- The sums are renumbered neighbour by neighbour. -/
theorem Tally.renumber_add (f : Focus) (t : Tally) (n : Neighbor w) :
    (t.add f n).renumber φ = (t.renumber φ).add (f.renumber φ) (n.renumber φ) := by
  have hsolid : (n.renumber φ).solid = n.solid := rfl
  have hfound := Neighborhood.renumber_add φ t.found n
  unfold Tally.add
  rw [hsolid]
  cases n.solid with
  | true => exact congrArg (Tally.mk · _ _ _ _) hfound
  | false => exact congrArg (Tally.mk · _ _ _ _) hfound

section Analysis

variable {φ} {s : Store w} {rectangles rectangles' : List Rectangle} {changed changed' : List Var}

/-- Whether a rectangle is a neighbour of the focus does not depend on the numbers. -/
theorem neighbor?_renumber {r : Rectangle} (h : r.touches changed' = r.touches changed) (f : Focus) (j : Nat) :
    neighbor? s changed' (f.renumber φ) r (φ j) =
      (neighbor? s changed f r j).map (Option.map (Neighbor.renumber φ)) := by
  have hwindows : (f.renumber φ).windows = f.windows := rfl
  unfold neighbor?
  rw [hwindows, h]
  rcases meeting? s f.windows r.sides with _ | (_ | es)
  · rfl
  · rfl
  · rcases r.hasZeroExtent s with _ | (_ | _)
    · rfl
    · rcases r.minArea s with _ | area
      · rfl
      · rfl
    · rfl

/-- One visit under new numbers. -/
theorem visit_renumber {f : Focus} {j : Nat} (hj : rectangles'[φ j]? = rectangles[j]?)
    (hfocus : φ j = φ f.index ↔ j = f.index)
    (htouches : ∀ r, rectangles[j]? = some r → r.touches changed' = r.touches changed) (t : Tally) :
    visit s rectangles' changed' (f.renumber φ) (t.renumber φ) (φ j) =
      (visit s rectangles changed f t j).map (Tally.renumber φ) := by
  have hindex : (f.renumber φ).index = φ f.index := rfl
  have hcheck : ∀ u : Tally, (do (u.renumber φ).checkCommonArea w (f.renumber φ); pure (u.renumber φ)) =
      (do u.checkCommonArea w f; pure u).map (Tally.renumber φ) := fun u => by
    have hsame : (u.renumber φ).checkCommonArea w (f.renumber φ) = u.checkCommonArea w f := rfl
    rw [hsame]
    cases u.checkCommonArea w f with
    | ok _ => rfl
    | error _ => rfl
  unfold visit
  by_cases hf : j = f.index
  · rw [if_pos hf, if_pos (hindex ▸ hfocus.2 hf)]
    rfl
  · rw [if_neg hf, if_neg (hindex ▸ fun h => hf (hfocus.1 h))]
    cases hr : rectangles[j]? with
    | none =>
      unfold entry
      rw [hj, hr]
      rfl
    | some r =>
      rw [entry_eq_ok.2 hr, entry_eq_ok.2 (hj.trans hr), liftM_ok_bind, liftM_ok_bind,
        neighbor?_renumber (htouches r hr)]
      rcases neighbor? s changed f r j with _ | (_ | n)
      · rfl
      · exact hcheck t
      · refine (congrArg (fun u : Tally => do u.checkCommonArea w (f.renumber φ); pure u) ?_).trans
          (hcheck (t.add f n))
        exact (Tally.renumber_add φ f t n).symm

/-- The visits of renumbered positions are the renumbered visits. -/
theorem visits_renumber {f : Focus} {cs : List Nat} (hcs : ∀ j ∈ cs, rectangles'[φ j]? = rectangles[j]?)
    (hfocus : ∀ j ∈ cs, φ j = φ f.index ↔ j = f.index)
    (htouches : ∀ j ∈ cs, ∀ r, rectangles[j]? = some r → r.touches changed' = r.touches changed) (t : Tally) :
    (cs.map φ).foldlM (visit s rectangles' changed' (f.renumber φ)) (t.renumber φ) =
      (cs.foldlM (visit s rectangles changed f) t).map (Tally.renumber φ) := by
  induction cs generalizing t with
  | nil => rfl
  | cons j cs ih =>
    obtain ⟨hj, hcs⟩ := List.forall_mem_cons.1 hcs
    obtain ⟨hfj, hfocus⟩ := List.forall_mem_cons.1 hfocus
    obtain ⟨htj, htouches⟩ := List.forall_mem_cons.1 htouches
    rw [List.map_cons, List.foldlM_cons, List.foldlM_cons, visit_renumber hj hfj htj]
    cases visit s rectangles changed f t j with
    | error e => rfl
    | ok u => exact ih hcs hfocus htouches u

/-- The focus on a rectangle depends on its number in its position only. -/
theorem focus_renumber (r : Rectangle) (k : Nat) : focus s r (φ k) = (focus s r k).map (Focus.renumber φ) := by
  unfold focus
  rcases r.extents s with _ | es
  · rfl
  · simp only [ok_bind]
    rcases es.mapM Window.ofExtent with _ | ws
    · rfl
    · rfl

end Analysis
end Neighborhood

section Analysis

variable {φ : Nat → Nat} {s : Store w} {rectangles rectangles' : List Rectangle} {changed changed' : List Var}
  {k : Nat} {cs : List Nat}

/-- **An analysis does not depend on the numbers of the rectangles.** -/
theorem analyze_renumber (hcs : ∀ j ∈ k :: cs, rectangles'[φ j]? = rectangles[j]?)
    (hfocus : ∀ j ∈ cs, φ j = φ k ↔ j = k)
    (htouches : ∀ j ∈ cs, ∀ r, rectangles[j]? = some r → r.touches changed' = r.touches changed) :
    analyze s rectangles' (φ k) (cs.map φ) changed' =
      (analyze s rectangles k cs changed).map (Neighborhood.renumber φ) := by
  obtain ⟨hk, hcs⟩ := List.forall_mem_cons.1 hcs
  unfold analyze
  cases hr : rectangles[k]? with
  | none =>
    unfold entry
    rw [hk, hr]
    rfl
  | some r =>
    rw [entry_eq_ok.2 hr, entry_eq_ok.2 (hk.trans hr), liftM_ok_bind, liftM_ok_bind,
      Neighborhood.focus_renumber]
    cases hf : Neighborhood.focus s r k with
    | error c => rfl
    | ok f =>
      have hindex : f.index = k := Neighborhood.index_focus hf
      have hvisits := Neighborhood.visits_renumber (f := f) (s := s) hcs (by rwa [hindex]) htouches (.start f)
      show ((cs.map φ).foldlM (Neighborhood.visit s rectangles' changed' (f.renumber φ))
        ((Neighborhood.Tally.start f).renumber φ) >>= _) = _
      rw [hvisits, liftM_ok_bind]
      rcases cs.foldlM (Neighborhood.visit s rectangles changed f) (.start f) with _ | t
      · rfl
      · have henvelope : (t.renumber φ).checkEnvelope w (f.renumber φ) = t.checkEnvelope w f := rfl
        simp only [Except.map, ok_bind, henvelope]
        by_cases hpos : 0 < t.solids
        · rw [if_pos hpos, if_pos (show 0 < (t.renumber φ).solids from hpos)]
          cases t.checkEnvelope w f with
          | ok _ => rfl
          | error _ => rfl
        · rw [if_neg hpos, if_neg (show ¬ 0 < (t.renumber φ).solids from hpos)]
          rfl

/-- **An analysis passes over the focus itself.** -/
theorem analyze_erase_focus (s : Store w) (rectangles : List Rectangle) (k : Nat) (cs : List Nat)
    (changed : List Var) :
    analyze s rectangles k (cs.filter (· ≠ k)) changed = analyze s rectangles k cs changed := by
  have hvisits : ∀ (f : Neighborhood.Focus) (t : Neighborhood.Tally),
      (cs.filter (· ≠ f.index)).foldlM (Neighborhood.visit s rectangles changed f) t =
        cs.foldlM (Neighborhood.visit s rectangles changed f) t := by
    intro f
    induction cs with
    | nil => exact fun _ => rfl
    | cons j cs ih =>
      intro t
      rw [List.filter_cons, List.foldlM_cons]
      by_cases hj : j = f.index
      · have hskip : Neighborhood.visit s rectangles changed f t j = .ok t := if_pos hj
        rw [if_neg (by simpa using hj), hskip]
        exact ih t
      · rw [if_pos (by simpa using hj), List.foldlM_cons]
        exact congrArg _ (funext ih)
  unfold analyze
  rcases entry rectangles k with _ | r
  · rfl
  · rw [liftM_ok_bind, liftM_ok_bind]
    cases hf : Neighborhood.focus s r k with
    | error c => rfl
    | ok f => rw [liftM_ok_bind, liftM_ok_bind, ← Neighborhood.index_focus hf, hvisits]

end Analysis

/-! ## Candidates that are not seen -/

namespace Neighborhood

/-- The focus fits into its own reach. -/
def Focus.Fits (w : Width) (f : Focus) : Prop := (Tally.start f).checkCommonArea w f = .ok ()

/-- Turns without a sight change nothing, if the bound holds before them. -/
theorem turns_reduceOption {f : Focus} {sights : List (Option (Neighbor w))} {t : Tally}
    (h : t.checkCommonArea w f = .ok ()) :
    sights.foldlM (Tally.turn f) t = (sights.reduceOption.map some).foldlM (Tally.turn f) t := by
  induction sights generalizing t with
  | nil => rfl
  | cons n? sights ih =>
    cases n? with
    | none =>
      have hturn : t.turn f (none : Option (Neighbor w)) = .ok t := by
        simp only [Tally.turn, h]
      rw [List.foldlM_cons, hturn, List.reduceOption_cons_of_none]
      exact ih h
    | some n =>
      rw [List.reduceOption_cons_of_some, List.map_cons, List.foldlM_cons, List.foldlM_cons]
      cases hturn : t.turn f (some n) with
      | error e => rfl
      | ok u =>
        refine ih ?_
        unfold Tally.turn at hturn
        dsimp only at hturn
        split at hturn <;> cases hturn
        assumption

section Seen

variable {s : Store w} {rectangles : List Rectangle} {changed : List Var} {k : Nat} {r : Rectangle}

/-- **An analysis is one turn per neighbour that it sees and a test at the end**, if the focus fits into
its own reach. -/
theorem analyze_eq_turns (hr : rectangles[k]? = some r) (hknown : r.Known s)
    (hfits : (Focus.of k (r.view s)).Fits w) {cs : List Nat} (hcs : Readable s rectangles r cs)
    (hk : ∀ j ∈ cs, j ≠ k) :
    analyze s rectangles k cs changed =
      ((seen s rectangles changed (r.view s) cs).map some).foldlM (Tally.turn (Focus.of k (r.view s)))
        (.start (Focus.of k (r.view s))) >>= Tally.close w (Focus.of k (r.view s)) := by
  rw [analyze_of_readable hr hknown hcs hk, turns_reduceOption hfits, reduceOption_map_sight]

/-- **An analysis depends on its candidates only through those it sees**, if the focus fits into its own
reach. -/
theorem analyze_of_seen (hu : Uniform rectangles s) (hr : rectangles[k]? = some r)
    (hfits : (Focus.of k (r.view s)).Fits w) {cs cs' : List Nat}
    (hcs : ∀ j ∈ cs, j < rectangles.length ∧ j ≠ k) (hcs' : ∀ j ∈ cs', j < rectangles.length ∧ j ≠ k)
    (h : seen s rectangles changed (r.view s) cs' = seen s rectangles changed (r.view s) cs) :
    analyze s rectangles k cs' changed = analyze s rectangles k cs changed := by
  have hmem := List.mem_of_getElem? hr
  rw [analyze_eq_turns hr (hu.known r hmem) hfits (hu.readable hmem fun j hj => (hcs j hj).1) fun j hj => (hcs j hj).2,
    analyze_eq_turns hr (hu.known r hmem) hfits (hu.readable hmem fun j hj => (hcs' j hj).1) fun j hj => (hcs' j hj).2,
    h]

end Seen

end Neighborhood
end Placement
