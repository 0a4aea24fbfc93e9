/-
# An analysis as a function of views

For rectangles whose variables exist, `analyze` reads nothing but their views and which of
them changed. `Neighborhood.sight` is what it sees of a candidate; the analysis is one turn
per sight and a test at the end (`analyze_of_readable`), so equal sights give equal analyses. What it
finds is a list of neighbours (`Neighborhood.ofNeighbors`), and when it refutes, a volume
bound is violated by the neighbours of some initial part of the candidates
(`Neighborhood.turns_error`).
-/

import Placement.Proofs.Reading
import Mathlib.Data.List.Induction
import Mathlib.Data.List.ReduceOption

namespace Placement
namespace Neighborhood

variable {w : Width}

/-! ## The focus -/

/-- One dimension of the focus. -/
def Window.of (e : Extent w) : Window := ⟨e.span, e.latestStop, e.length.lo⟩

/-- The focus on a rectangle with the given extents. -/
def Focus.of (k : Nat) (es : List (Extent w)) : Focus where
  index := k
  windows := es.map Window.of
  volume := w.product (es.map fun e => e.span.length w)
  area := w.product (es.map fun e => max e.length.lo 0)

/-- The focus on a known rectangle is made of what the rectangle shows. -/
theorem focus_eq {r : Rectangle} {s : Store w} (h : r.Known s) (k : Nat) :
    focus s r k = .ok (Focus.of k (r.view s)) := by
  have hw : (r.view s).mapM Window.ofExtent = .ok ((r.view s).map Window.of) :=
    mapM_eq_map fun e _ => by
      unfold Window.ofExtent
      rw [e.reach_eq]
      rfl
  unfold focus
  rw [h.extents_eq]
  refine bind_eq_ok.2 ⟨_, rfl, bind_eq_ok.2 ⟨_, hw, ?_⟩⟩
  rw [List.map_map]
  rfl

/-! ## What is seen of a candidate -/

/-- The reaches meet along every dimension. -/
def meet : List (Extent w) → List (Extent w) → Bool
  | d :: ds, e :: es => d.span.Meets e.span && meet ds es
  | _, _ => true

/-- The test on two lists of extents compares them pairwise. -/
theorem meet_iff {ds es : List (Extent w)} (h : ds.length = es.length) :
    meet ds es = true ↔ List.Forall₂ (fun d e => d.span.Meets e.span) ds es := by
  induction ds generalizing es with
  | nil =>
    cases es with
    | nil => simp [meet]
    | cons e es => simp at h
  | cons d ds ih =>
    cases es with
    | nil => simp at h
    | cons e es => simp [meet, ih (by simpa using h)]

/-- A neighbour with the given extents. -/
def Neighbor.of (j : Nat) (es : List (Extent w)) (changed : Bool) : Neighbor w where
  index := j
  extents := es
  solid := !es.any fun e => e.length.lo ≤ 0
  area := if (!es.any fun e => e.length.lo ≤ 0) then w.product (es.map fun e => max e.length.lo 0) else 0
  changed

/-- A known rectangle meets the windows if its extents meet them, and then shows those. -/
theorem meeting?_eq {q : Rectangle} {s : Store w} (h : q.Known s) {es : List (Extent w)}
    {sides : List Side} (hsub : ∀ side ∈ sides, side ∈ q.sides) (hlen : es.length = sides.length) :
    meeting? s (es.map Window.of) sides =
      .ok (if meet es (sides.map s.look) then some (sides.map s.look) else none) := by
  induction es generalizing sides with
  | nil =>
    obtain rfl := List.length_eq_zero_iff.1 hlen.symm
    rfl
  | cons e es ih =>
    cases sides with
    | nil => simp at hlen
    | cons side sides =>
      rw [List.map_cons, meeting?]
      rw [h.extent_eq_look (hsub side List.mem_cons_self)]
      refine bind_eq_ok.2 ⟨_, rfl, bind_eq_ok.2 ⟨_, Extent.reach_eq _, ?_⟩⟩
      rw [ih (fun x hx => hsub x (List.mem_cons_of_mem _ hx)) (by simpa using hlen), List.map_cons, meet]
      by_cases hm : e.span.Meets (s.look side).span
      · cases hrest : meet es (sides.map s.look)
        · simp [Window.of, hm, bind, Except.bind, pure, Except.pure]
        · simp [Window.of, hm, bind, Except.bind, pure, Except.pure]
      · simp [Window.of, hm, pure, Except.pure]

/-- A known rectangle is a neighbour of the focus if its extents meet those of the focus. -/
theorem neighbor?_eq {q : Rectangle} {s : Store w} (h : q.Known s) (es : List (Extent w))
    (hlen : es.length = q.dim) (changed : List Var) (k j : Nat) :
    neighbor? s changed (Focus.of k es) q j =
      .ok (if meet es (q.view s) then some (Neighbor.of j (q.view s) (q.touches changed)) else none) := by
  unfold neighbor?
  rw [show (Focus.of k es).windows = es.map Window.of from rfl, meeting?_eq h (fun _ hx => hx) hlen,
    ok_bind]
  change _ = Except.ok (if meet es (q.sides.map s.look) then _ else none)
  cases hm : meet es (q.sides.map s.look) with
  | false => rfl
  | true =>
    simp only [if_true, h.hasZeroExtent_eq, h.minArea_eq, bind, Except.bind, pure, Except.pure]
    unfold Neighbor.of
    cases (q.view s).any fun e => decide (e.length.lo ≤ 0) <;> rfl

/-- What an analysis sees of the candidate at position `j`, if its reach meets the reach of a focus with
the extents `es`. -/
def sight (s : Store w) (rectangles : List Rectangle) (changed : List Var) (es : List (Extent w))
    (j : Nat) : Option (Neighbor w) :=
  match rectangles[j]? with
  | none => none
  | some q => if meet es (q.view s) then some (Neighbor.of j (q.view s) (q.touches changed)) else none

/-! ## One turn per candidate -/

/-- One turn of an analysis. -/
def Tally.turn (f : Focus) (t : Tally) (n? : Option (Neighbor w)) : Except (Failure Violation) Tally :=
  let t := match n? with
    | none => t
    | some n => t.add f n
  match t.checkCommonArea w f with
  | .ok () => .ok t
  | .error e => .error e

/-- The end of an analysis. -/
def Tally.close (w : Width) (f : Focus) (t : Tally) : Except (Failure Violation) Neighborhood :=
  if 0 < t.solids then
    match t.checkEnvelope w f with
    | .ok () => .ok t.found
    | .error e => .error e
  else .ok t.found

/-- A bound on the envelope that is not kept refutes. -/
theorem Tally.checkEnvelope_refutes {f : Focus} {t : Tally} {e : Failure Violation}
    (h : t.checkEnvelope w f = .error e) : ∃ v, e = .refuted v := by
  unfold checkEnvelope at h
  dsimp only at h
  split at h
  · exact ⟨_, (Except.error.inj h).symm⟩
  · split at h
    · split at h
      · exact ⟨_, (Except.error.inj h).symm⟩
      · cases h
    · cases h

/-- The rectangles have their variables and the same dimensions. -/
structure Uniform (rectangles : List Rectangle) (s : Store w) : Prop where
  known : ∀ r ∈ rectangles, r.Known s
  dim_eq : ∀ a ∈ rectangles, ∀ b ∈ rectangles, a.dim = b.dim

variable {s : Store w} {rectangles : List Rectangle} {changed : List Var} {k : Nat} {r : Rectangle}

/-- At each of the positions is a rectangle with the dimensions of `r`, and all its variables exist. -/
def Readable (s : Store w) (rectangles : List Rectangle) (r : Rectangle) (cs : List Nat) : Prop :=
  ∀ j ∈ cs, ∃ q, rectangles[j]? = some q ∧ q.Known s ∧ q.dim = r.dim

/-- In a uniform list, every rectangle can read those at any positions of the list. -/
theorem Uniform.readable (hu : Uniform rectangles s) (hr : r ∈ rectangles) {cs : List Nat}
    (hcs : ∀ j ∈ cs, j < rectangles.length) : Readable s rectangles r cs := fun j hj =>
  have hmem := List.getElem_mem (hcs j hj)
  ⟨_, List.getElem?_eq_getElem (hcs j hj), hu.known _ hmem, hu.dim_eq _ hmem r hr⟩

/-- Rectangles that can be read stay readable as the store shrinks. -/
theorem Readable.shrinks {t : Store w} {cs : List Nat} (h : Readable s rectangles r cs) (hst : s.Shrinks t) :
    Readable t rectangles r cs := fun j hj =>
  (h j hj).imp fun _ ⟨hq, hknown, hdim⟩ => ⟨hq, hst.known hknown, hdim⟩

/-- A visit of another rectangle is a turn with what the focus sees there. -/
theorem visit_eq {j : Nat} {q : Rectangle} (hq : rectangles[j]? = some q) (hknown : q.Known s)
    (hdim : q.dim = r.dim) (hjk : j ≠ k) (t : Tally) :
    visit s rectangles changed (Focus.of k (r.view s)) t j =
      t.turn (Focus.of k (r.view s)) (sight s rectangles changed (r.view s) j) := by
  have hn := neighbor?_eq hknown (r.view s) (by rw [r.length_view, hdim]) changed k j
  unfold visit sight
  rw [if_neg (show j ≠ (Focus.of k (r.view s)).index from hjk), hq, entry_eq_ok.2 hq, liftM_ok_bind,
    hn, liftM_ok_bind]
  dsimp only
  generalize (if meet (r.view s) (q.view s) then _ else _) = n?
  have hcheck : ∀ u : Tally, (do u.checkCommonArea w (Focus.of k (r.view s)); pure u) =
      match u.checkCommonArea w (Focus.of k (r.view s)) with
      | .ok () => .ok u
      | .error e => .error e := fun u => by
    cases u.checkCommonArea w (Focus.of k (r.view s)) <;> rfl
  cases n? with
  | none => exact hcheck t
  | some n => exact hcheck (t.add _ n)

/-- **An analysis is one turn per sight and a test at the end.** -/
theorem analyze_of_readable (hr : rectangles[k]? = some r) (hknown : r.Known s) {cs : List Nat}
    (hcs : Readable s rectangles r cs) (hk : ∀ j ∈ cs, j ≠ k) :
    analyze s rectangles k cs changed =
      (cs.map (sight s rectangles changed (r.view s))).foldlM (Tally.turn (Focus.of k (r.view s)))
        (.start (Focus.of k (r.view s))) >>= Tally.close w (Focus.of k (r.view s)) := by
  have hfold : ∀ t, cs.foldlM (visit s rectangles changed (Focus.of k (r.view s))) t =
      (cs.map (sight s rectangles changed (r.view s))).foldlM (Tally.turn (Focus.of k (r.view s))) t := by
    induction cs with
    | nil => exact fun _ => rfl
    | cons j cs ih =>
      intro t
      obtain ⟨⟨q, hq, hknown, hdim⟩, hcs⟩ := List.forall_mem_cons.1 hcs
      obtain ⟨hj, hk⟩ := List.forall_mem_cons.1 hk
      rw [List.map_cons, List.foldlM_cons, List.foldlM_cons, visit_eq hq hknown hdim hj]
      exact congrArg _ (funext fun u => ih hcs hk u)
  unfold analyze
  rw [entry_eq_ok.2 hr, liftM_ok_bind, focus_eq hknown, liftM_ok_bind, hfold]
  refine congrArg _ (funext fun t => ?_)
  unfold Tally.close
  split
  · cases t.checkEnvelope w (Focus.of k (r.view s)) <;> rfl
  · rfl

/-- An analysis is a loop of turns over what the focus sees, and the bounds on the envelope. -/
theorem analyze_eq (hu : Uniform rectangles s) (hr : rectangles[k]? = some r) {cs : List Nat}
    (hcs : ∀ j ∈ cs, j < rectangles.length ∧ j ≠ k) :
    analyze s rectangles k cs changed =
      (cs.map (sight s rectangles changed (r.view s))).foldlM (Tally.turn (Focus.of k (r.view s)))
        (.start (Focus.of k (r.view s))) >>= Tally.close w (Focus.of k (r.view s)) :=
  have hmem := List.mem_of_getElem? hr
  analyze_of_readable hr (hu.known r hmem) (hu.readable hmem fun j hj => (hcs j hj).1) fun j hj => (hcs j hj).2

/-! ## What is found -/

/-- What the given neighbours make up. -/
def ofNeighbors (ns : List (Neighbor w)) : Neighborhood where
  overlapping := ns.map Neighbor.index
  used := (ns.filter Neighbor.isUsed).map fun n => ⟨n.index, n.boxes⟩
  profiled := (ns.filter Neighbor.isProfiled).map Neighbor.index
  changed := ns.any fun n => n.changed && (n.isUsed || n.isProfiled)

/-- One more neighbour is added to what is found. -/
theorem ofNeighbors_concat (ns : List (Neighbor w)) (n : Neighbor w) :
    ofNeighbors (ns ++ [n]) = (ofNeighbors ns).add n := by
  unfold ofNeighbors add
  cases hu : n.isUsed <;> cases hp : n.isProfiled <;> simp [hu, hp]

/-- The tally after some neighbours. -/
def tally (f : Focus) (ns : List (Neighbor w)) : Tally := ns.foldl (Tally.add f) (.start f)

/-- One more neighbour is added to the sums. -/
theorem tally_concat (f : Focus) (ns : List (Neighbor w)) (n : Neighbor w) :
    tally f (ns ++ [n]) = (tally f ns).add f n := by
  unfold tally
  rw [List.foldl_append]
  rfl

/-- The sums take down a neighbour as what is found does. -/
theorem found_add (f : Focus) (t : Tally) (n : Neighbor w) : (t.add f n).found = t.found.add n := by
  unfold Tally.add
  dsimp only
  split <;> rfl

/-- What the sums have found are their neighbours. -/
theorem found_tally (f : Focus) (ns : List (Neighbor w)) : (tally f ns).found = ofNeighbors ns := by
  induction ns using List.reverseRecOn with
  | nil => rfl
  | append_singleton ns n ih => rw [tally_concat, found_add, ih, ofNeighbors_concat]

/-- Turns that end well have counted every sight. -/
theorem turns_ok {f : Focus} {sights : List (Option (Neighbor w))} (ns : List (Neighbor w)) {t : Tally}
    (h : sights.foldlM (Tally.turn f) (tally f ns) = .ok t) :
    t = tally f (ns ++ sights.reduceOption) := by
  induction sights generalizing ns with
  | nil =>
    cases h
    rw [List.reduceOption_nil, List.append_nil]
  | cons n? sights ih =>
    rw [List.foldlM_cons] at h
    obtain ⟨u, hu, h⟩ := bind_eq_ok.1 h
    unfold Tally.turn at hu
    dsimp only at hu
    split at hu
    · cases n? with
      | none =>
        cases hu
        exact ih _ h
      | some n =>
        cases hu
        change sights.foldlM (Tally.turn f) ((tally f ns).add f n) = .ok t at h
        rw [← tally_concat] at h
        rw [ih _ h, List.reduceOption_cons_of_some, List.append_assoc]
        rfl
    · cases hu

/-- Turns that refute have found a bound violated by the first few neighbours. -/
theorem turns_error {f : Focus} {sights : List (Option (Neighbor w))} (ns : List (Neighbor w))
    {e : Failure Violation} (h : sights.foldlM (Tally.turn f) (tally f ns) = .error e) :
    ∃ ms, ms.Sublist sights.reduceOption ∧ (tally f (ns ++ ms)).checkCommonArea w f = .error e := by
  induction sights generalizing ns with
  | nil => cases h
  | cons n? sights ih =>
    rw [List.foldlM_cons] at h
    rcases bind_eq_error.1 h with h | ⟨u, hu, h⟩
    · unfold Tally.turn at h
      dsimp only at h
      split at h
      · cases h
      · next e' he =>
        cases h
        cases n? with
        | none => exact ⟨[], List.nil_sublist _, by rw [List.append_nil]; exact he⟩
        | some n =>
          change ((tally f ns).add f n).checkCommonArea w f = .error e at he
          rw [← tally_concat] at he
          exact ⟨[n], by simp [List.reduceOption_cons_of_some], he⟩
    · unfold Tally.turn at hu
      dsimp only at hu
      split at hu
      · cases n? with
        | none =>
          cases hu
          obtain ⟨ms, hms, he⟩ := ih _ h
          exact ⟨ms, hms, he⟩
        | some n =>
          cases hu
          change sights.foldlM (Tally.turn f) ((tally f ns).add f n) = .error e at h
          rw [← tally_concat] at h
          obtain ⟨ms, hms, he⟩ := ih _ h
          rw [List.append_assoc] at he
          exact ⟨n :: ms, by simpa [List.reduceOption_cons_of_some] using hms, he⟩
      · cases hu

/-- The neighbours that an analysis of the rectangle with the extents `es` sees among `cs`. -/
def seen (s : Store w) (rectangles : List Rectangle) (changed : List Var) (es : List (Extent w))
    (cs : List Nat) : List (Neighbor w) := cs.filterMap (sight s rectangles changed es)

/-- What is seen at all positions, without the gaps, are the neighbours seen. -/
theorem reduceOption_map_sight (s : Store w) (rectangles : List Rectangle) (changed : List Var)
    (es : List (Extent w)) (cs : List Nat) :
    (cs.map (sight s rectangles changed es)).reduceOption = seen s rectangles changed es cs := by
  unfold List.reduceOption seen
  rw [List.filterMap_map]
  rfl

/-- A neighbour that is seen is one of the rectangles, and its reach meets that of the focus. -/
theorem sight_eq_some {es : List (Extent w)} {j : Nat} {n : Neighbor w}
    (h : sight s rectangles changed es j = some n) :
    ∃ q, rectangles[j]? = some q ∧ meet es (q.view s) = true ∧
      n = Neighbor.of j (q.view s) (q.touches changed) := by
  unfold sight at h
  split at h
  · cases h
  · next q hq =>
    split at h
    · next hm => exact ⟨q, hq, hm, (Option.some.inj h).symm⟩
    · cases h

/-- The positions of the neighbours seen are some of those looked at, in order. -/
theorem index_seen_sublist (s : Store w) (rectangles : List Rectangle) (changed : List Var)
    (es : List (Extent w)) (cs : List Nat) :
    ((seen s rectangles changed es cs).map Neighbor.index).Sublist cs := by
  induction cs with
  | nil => exact .refl _
  | cons j cs ih =>
    unfold seen at ih ⊢
    cases hj : sight s rectangles changed es j with
    | none =>
      rw [List.filterMap_cons_none hj]
      exact ih.cons _
    | some n =>
      obtain ⟨q, -, -, rfl⟩ := sight_eq_some hj
      rw [List.filterMap_cons_some hj]
      exact ih.cons_cons _

/-- **An analysis that ends well finds the neighbours it sees.** -/
theorem analyze_ok (hu : Uniform rectangles s) (hr : rectangles[k]? = some r) {cs : List Nat}
    (hcs : ∀ j ∈ cs, j < rectangles.length ∧ j ≠ k) {found : Neighborhood}
    (h : analyze s rectangles k cs changed = .ok found) :
    found = ofNeighbors (seen s rectangles changed (r.view s) cs) := by
  rw [analyze_eq hu hr hcs] at h
  obtain ⟨t, ht, h⟩ := bind_eq_ok.1 h
  have htally := turns_ok [] ht
  rw [List.nil_append, reduceOption_map_sight] at htally
  have hfound : found = t.found := by
    unfold Tally.close at h
    split at h
    · split at h <;> cases h
      rfl
    · cases h
      rfl
  rw [hfound, htally, found_tally]

/-- **An analysis that does not end well has found a violated bound**: the common area bound of some
of the neighbours it sees, or a bound on the envelope of all of them. -/
theorem analyze_error (hu : Uniform rectangles s) (hr : rectangles[k]? = some r) {cs : List Nat}
    (hcs : ∀ j ∈ cs, j < rectangles.length ∧ j ≠ k) {e : Failure Violation}
    (h : analyze s rectangles k cs changed = .error e) :
    (∃ ms, ms.Sublist (seen s rectangles changed (r.view s) cs) ∧
      (tally (Focus.of k (r.view s)) ms).checkCommonArea w (Focus.of k (r.view s)) = .error e) ∨
    0 < (tally (Focus.of k (r.view s)) (seen s rectangles changed (r.view s) cs)).solids ∧
      (tally (Focus.of k (r.view s)) (seen s rectangles changed (r.view s) cs)).checkEnvelope w
        (Focus.of k (r.view s)) = .error e := by
  rw [analyze_eq hu hr hcs] at h
  rcases bind_eq_error.1 h with h | ⟨t, ht, h⟩
  · obtain ⟨ms, hms, he⟩ := turns_error [] h
    rw [reduceOption_map_sight] at hms
    exact .inl ⟨ms, hms, he⟩
  · have htally := turns_ok [] ht
    rw [List.nil_append, reduceOption_map_sight] at htally
    rw [← htally]
    unfold Tally.close at h
    split at h
    · next hpos =>
      split at h
      · cases h
      · next e' he =>
        cases h
        exact .inr ⟨hpos, he⟩
    · cases h

end Neighborhood
end Placement
