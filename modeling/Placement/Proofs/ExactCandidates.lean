/-
# Candidates are exact once a pass changes nothing

Sound candidates may hold too much: a candidate stays listed until an analysis sees that it lies
apart. A pass that changes no domain has analysed every rectangle that it did not pass over, in
the very domains that it leaves behind, and an analysis of sound candidates keeps just those
whose reaches meet that of the rectangle (`Disjoint.ExactAt`).

Whether the list was replaced does not matter: an analysis that kept as many candidates as there
were kept them all. Neither does what the pass wrote before or after, as long as the domains are
in the end what they were at first, for then they were so all along (`Disjoint.Confined.still`).
-/

import Placement.Proofs.Confinement
import Placement.Proofs.Drift
import Placement.Proofs.SharedStores

namespace Placement

variable {w : Width}

/-! ## What a visit reads -/

/-- Domains depend on the variables only. -/
theorem Store.domain_of_cells {s t : Store w} (h : t.cells = s.cells) (v : Var) : t.domain v = s.domain v := by
  unfold domain cell
  rw [h]

namespace Rectangle

variable {r : Rectangle} {s t : Store w}

/-- The test for negative lengths does not accept a rectangle without any. -/
theorem hasNegativeLength_ne_true (h : r.Nonneg s) : r.hasNegativeLength s ≠ .ok true := by
  intro htrue
  obtain ⟨l, hl, hneg⟩ := exists_of_anyM_eq_true htrue
  obtain ⟨x, hx, rfl⟩ := List.mem_map.1 hl
  obtain ⟨d, hd, hlt⟩ := bind_eq_ok.1 hneg
  obtain ⟨c, hc, rfl⟩ := Store.domain_eq_ok.1 hd
  have hle : 0 ≤ (s.dom x.length).lo := h x hx
  rw [Store.dom_of_cell hc] at hle
  have : c.domain.lo < 0 := by simpa using hlt
  omega

/-- A rectangle that is found settled is settled. -/
theorem settled_of_isSettled (h : r.isSettled s = .ok true) : r.Settled s := by
  intro v hv c hc
  have hread := forall_of_allM_eq_true h v hv
  rw [Store.cell_eq_ok.2 hc, ok_bind] at hread
  simpa using hread

/-- Reaches depend on the variables only. -/
theorem reach_of_cells (r : Rectangle) (h : t.cells = s.cells) (i : Nat) : r.reach t i = r.reach s i := by
  unfold reach extent Store.extent
  simp only [Store.domain_of_cells h]

/-- Whether reaches meet depends on the variables only. -/
theorem reachesMeet_of_cells {a b : Rectangle} (h : t.cells = s.cells) :
    a.ReachesMeet b t ↔ a.ReachesMeet b s := by
  unfold ReachesMeet
  simp only [reach_of_cells _ h]

/-- Whether a rectangle is settled depends on the variables and the level only. -/
theorem settled_of_cells (h : t.cells = s.cells) (hl : t.level = s.level) : r.Settled t ↔ r.Settled s := by
  unfold Settled
  rw [h, hl]

end Rectangle

namespace Disjoint

variable {d : Disjoint} {changed : List Var} {k : Nat} {r : Rectangle} {s t u : Store w}

/-! ## Domains that end as they began -/

/-- A variable that loses no value in two steps is as it was after the first. -/
theorem CellKept.still {v : Var} {l l' : Nat} {c c' c'' : Cell w} (h : d.CellKept v l c c')
    (h' : d.CellKept v l' c' c'') (he : c''.domain = c.domain) : c' = c := by
  cases h with
  | same => rfl
  | narrowed hv hne hw =>
    -- What lost values does not get them back.
    cases h' with
    | same => exact absurd he hne
    | narrowed _ hne' hw' =>
      dsimp only at he hne' hw'
      subst he
      exact absurd (hw'.antisymm hw) hne'

/-- **No domain moves and comes back**: if the domains end as they began, the variables are as they
were at every moment between. -/
theorem Confined.still (h : d.Confined s t) (h' : d.Confined t u)
    (hdomain : ∀ v, u.domain v = s.domain v) : t.cells = s.cells := by
  refine List.ext_getElem h.numVars fun i hi hi' => ?_
  have hs := List.getElem?_eq_getElem hi'
  have ht := List.getElem?_eq_getElem hi
  have hu := List.getElem?_eq_getElem (Nat.lt_of_lt_of_eq hi h'.numVars.symm)
  have hsame := hdomain ⟨i⟩
  rw [Store.domain_eq_ok.2 ⟨_, hs, rfl⟩, Store.domain_eq_ok.2 ⟨_, hu, rfl⟩, Except.ok.injEq] at hsame
  exact (h.cells i _ _ hs ht).still (h'.cells i _ _ ht hu) hsame

/-! ## Exact candidates -/

/-- The positions `cs` are ascending, and they are those of the other rectangles whose reaches meet that
of the rectangle `r` at position `k` along every dimension. -/
structure Exact (d : Disjoint) (s : Store w) (k : Nat) (r : Rectangle) (cs : List Nat) : Prop where
  pairwise : cs.Pairwise (· < ·)
  mem_iff : ∀ j, j ∈ cs ↔ j ≠ k ∧ ∃ b, d.rectangles[j]? = some b ∧ r.ReachesMeet b s

/-- The candidates of the rectangle `r` at position `k` are exact. -/
def ExactAt (d : Disjoint) (s : Store w) (k : Nat) (r : Rectangle) : Prop :=
  ∃ cs, d.candidates.get s k = .ok cs ∧ d.Exact s k r cs

/-- **An analysis of sound candidates keeps the exact ones.** -/
theorem exact_of_analyze {cs : List Nat} (h : d.SoundAt s k cs) (hr : d.rectangles[k]? = some r)
    {found : Neighborhood} (hf : analyze s d.rectangles k cs changed = .ok found) :
    d.Exact s k r found.overlapping := by
  have hsound := h.analyze hf
  obtain ⟨-, -, hmeet⟩ := overlapping_of_analyze hf
  refine ⟨(Candidates.pairwise_others _ _).sublist hsound.sublist, fun j => ⟨fun hj => ?_, ?_⟩⟩
  · obtain ⟨hjk, a, b, ha, hb, hab⟩ := hmeet j hj
    obtain rfl := Option.some.inj (hr.symm.trans ha)
    exact ⟨hjk, b, hb, hab⟩
  · rintro ⟨hjk, b, hb, hab⟩
    by_contra hnot
    obtain ⟨a, b', ha, hb', hapart⟩ := hsound.apart j (List.getElem?_eq_some_iff.1 hb).1 hjk hnot
    obtain rfl := Option.some.inj (hr.symm.trans ha)
    obtain rfl := Option.some.inj (hb.symm.trans hb')
    exact hapart.not_reachesMeet hab

/-- Exact candidates stay exact while the variables stay. -/
theorem Exact.of_cells {cs : List Nat} (h : d.Exact s k r cs) (hc : t.cells = s.cells) : d.Exact t k r cs := by
  refine ⟨h.pairwise, fun j => ?_⟩
  simp only [Rectangle.reachesMeet_of_cells hc]
  exact h.mem_iff j

/-! ## One visit -/

/-- Tightening writes no slot. -/
theorem slots_tighten (d : Disjoint) (k : Nat) (found : Neighborhood) (p : Pass w) :
    Ends (d.tighten k found) p (fun _ q => q.store.slots = p.store.slots) fun _ _ => True := by
  have hmoves := d.moves_tighten k found (R := fun s t : Store w => t.slots = s.slots)
    fun _ _ _ _ _ _ _ _ _ h => Store.slots_setBounds h
  refine (hmoves p).mono (fun _ q hq => ?_) fun _ _ _ => trivial
  generalize q.store = t at hq
  induction hq with
  | refl => rfl
  | tail _ hst ih => exact hst.trans ih

/-- Revising a rectangle leaves it with what an analysis of the store it began in kept. -/
theorem exact_revise {p : Pass w} (hr : d.rectangles[k]? = some r) (hsound : d.Sound p.store) :
    Ends (d.revise changed k r) p
      (fun _ q => ∃ cs, d.candidates.get q.store k = .ok cs ∧ d.Exact p.store k r cs) fun _ _ => True := by
  obtain ⟨cs, hcs, hs⟩ := hsound k (List.getElem?_eq_some_iff.1 hr).1
  refine ends_revise hcs (fun found ha => ?_) fun _ _ _ _ _ _ => trivial
  have hexact := exact_of_analyze hs hr ha
  -- as many candidates as there were are all of them
  have hall : found.overlapping.length = cs.length → found.overlapping = cs :=
    (overlapping_of_analyze ha).1.eq_of_length
  refine ⟨fun hidle q hq => ?_, fun _ q hq => ?_⟩
  · rw [Neighborhood.Matters, not_or, not_not] at hidle
    rw [hq]
    exact ⟨cs, hcs, hall hidle.1 ▸ hexact⟩
  · have hget : d.candidates.get q.store k = .ok found.overlapping := by
      rcases hq with ⟨hlen, hq⟩ | ⟨-, hq⟩
      · rw [hq, hall hlen, hcs]
      · obtain ⟨_, x, -, -, hx, hset⟩ := Candidates.replace_eq_ok hq
        rw [Candidates.get_of_setSnapshot hset, if_pos hx]
    refine (d.slots_tighten k found q).mono (fun _ q' hq' => ?_) fun _ _ _ => trivial
    exact ⟨_, (Candidates.get_congr hq').trans hget, hexact⟩

/-- **A visit that changes no domain leaves exact candidates**, unless it passes the rectangle over. -/
theorem exact_narrowRectangle {p : Pass w} (hr : d.rectangles[k]? = some r) (hsound : d.Sound p.store) :
    Ends (d.narrowRectangle changed k) p
      (fun _ q => q.store.cells = p.store.cells → r.Nonneg p.store → ¬ r.Settled p.store →
        d.ExactAt q.store k r) fun _ _ => True := by
  unfold narrowRectangle
  refine (ends_bind _ _ p _ _).2 ((Narrowing.ends_read _ p).2 ⟨fun r' hr' => ?_, fun _ _ => trivial⟩)
  rw [entry_eq_ok, hr] at hr'
  cases hr'
  refine (ends_bind _ _ p _ _).2 ((Narrowing.ends_read _ p).2 ⟨fun negative hneg => ?_, fun _ _ => trivial⟩)
  cases negative with
  | true => exact fun _ hnn => absurd hneg (Rectangle.hasNegativeLength_ne_true hnn)
  | false =>
    refine (ends_bind _ _ p _ _).2 ((Narrowing.ends_read _ p).2 ⟨fun settled hset => ?_, fun _ _ => trivial⟩)
    cases settled with
    | true => exact fun _ _ hnot => absurd (Rectangle.settled_of_isSettled hset) hnot
    | false =>
      refine (exact_revise hr hsound).mono (fun _ q hq hcells _ _ => ?_) fun _ _ h => h
      obtain ⟨cs, hcs, hexact⟩ := hq
      exact ⟨cs, hcs, hexact.of_cells hcells⟩

/-! ## A pass -/

/-- Counters do not matter. -/
theorem Sound.of_bare (h : d.bare.Sound s) : d.Sound s := fun k hk => by
  obtain ⟨cs, hcs, hs⟩ := h k hk
  exact ⟨cs, hcs, hs.sublist, hs.apart⟩

/-- A constraint with sound candidates is ready. -/
theorem Sound.ready (h : d.Sound s) : d.Ready s := fun k hk => by
  obtain ⟨cs, hcs, hs⟩ := h k hk
  exact ⟨cs, hcs, hs.sublist⟩

/-- What the visits of the first `n` rectangles hand on: the store came from the first one by steps of
the pass, and if no domain has changed, what was not passed over has exact candidates. -/
structure Settles (d : Disjoint) (s : Store w) (n : Nat) (t : Store w) : Prop where
  steps : d.Steps s t
  exact : (∀ v, t.domain v = s.domain v) → ∀ k < n, ∀ r, d.rectangles[k]? = some r → r.Nonneg s →
    ¬ r.Settled s → d.ExactAt t k r

/-- **A visit hands on what the visits before it did**, and settles its own rectangle. -/
theorem settles_narrowRectangle {n : Nat} {p : Pass w} (hn : n < d.rectangles.length)
    (hnodup : d.candidates.slots.Nodup) (hsound : ∀ u, d.Steps s u → d.Sound u)
    (h : d.Settles s n p.store) :
    Ends (d.narrowRectangle changed n) p (fun _ q => d.Settles s (n + 1) q.store) fun _ _ => True := by
  have hr := List.getElem?_eq_getElem hn
  refine ((d.steps_narrowRectangle changed n p).and ((d.ends_visited changed n p).and
    (exact_narrowRectangle hr (hsound _ h.steps)))).mono (fun _ q hq => ?_) fun _ _ _ => trivial
  obtain ⟨hsteps, hvisited, hexact⟩ := hq
  refine ⟨h.steps.trans hsteps, fun hstill k hk r hrk hnn hnot => ?_⟩
  have hconfined := Confined.of_steps h.steps
  have hp : p.store.cells = s.cells := hconfined.still (.of_steps hsteps) hstill
  have hq : q.store.cells = s.cells :=
    Confined.still (.of_steps (h.steps.trans hsteps)) (.refl d q.store) hstill
  rcases Nat.lt_succ_iff_lt_or_eq.1 hk with hlt | rfl
  · obtain ⟨cs, hcs, hex⟩ := h.exact (Store.domain_of_cells hp) k hlt r hrk hnn hnot
    exact ⟨cs, (hvisited.get_eq hnodup (Nat.ne_of_lt hlt)).trans hcs, hex.of_cells (hq.trans hp.symm)⟩
  · obtain rfl := Option.some.inj (hr.symm.trans hrk)
    refine hexact (hq.trans hp.symm) ?_ ?_
    · exact (Rectangle.nonneg_congr (Rectangle.view_of_cells _ hp)).2 hnn
    · exact fun hset => hnot ((Rectangle.settled_of_cells hp hconfined.level).1 hset)

/-- **A pass that changes no domain leaves exact candidates**, if candidates are sound throughout. -/
theorem exactAt_narrow (hnodup : d.candidates.slots.Nodup) (hsound : ∀ u, d.Steps s u → d.Sound u)
    (hok : (d.narrow changed s).outcome = .ok ())
    (hstill : ∀ v, (d.narrow changed s).store.domain v = s.domain v) (hr : d.rectangles[k]? = some r)
    (hnn : r.Nonneg s) (hnot : ¬ r.Settled s) : d.ExactAt (d.narrow changed s).store k r := by
  have hpass : Ends (d.pass changed) ⟨s, []⟩ (fun _ q => d.Settles s d.rectangles.length q.store)
      fun _ _ => True :=
    ends_pass (I := fun n q => d.Settles s n q.store) (hsound s .refl).ready
      (fun q hq => by rw [hq]; exact ⟨.refl, fun _ k hk => absurd hk (Nat.not_lt_zero k)⟩)
      fun n hn q h => settles_narrowRectangle hn hnodup hsound h
  have hsettles := (narrow_of_ends (Q := d.Settles s d.rectangles.length) (E := fun _ _ => True) hpass).1 hok
  exact hsettles.exact hstill k (List.getElem?_eq_some_iff.1 hr).1 r hr hnn hnot

end Disjoint

/-! ## Sessions -/

namespace Session

variable {s : Session w}

/-- Throughout a propagation, the constraints of a session have sound candidates. -/
theorem sound_of_acts (hs : s.Reached fun s op => RootDeclaration s op ∧ OwnSlots s op) {d : Disjoint}
    (hd : d.bare ∈ s.constraints) {t : Store w} (ht : Store.Acts s.constraints s.store t) : d.Sound t := by
  have hchanges : Store.Changes s.constraints (fun _ => False) s.store t := changes_of_acts ht
  exact (((throughout_sound hs).now.sound _ hd).changes (owned hs) nofun hd hchanges).of_bare

/-- **Candidates are exact once a pass changes nothing.** In every session where variables and
constraints are declared at the root and slots of candidates are written by their constraints only,
whatever else was done and however it ended, and in the midst of a propagation too: if a pass of a
constraint, for any changed variables and any order of the steps of one place, ends well and changes
no domain, then the cached list of each rectangle that has no negative least length and was not
fixed before the level is ascending and holds just the positions of the other rectangles whose
reaches meet its own along every dimension. -/
theorem cached_candidates_exact (hs : s.Reached fun s op => RootDeclaration s op ∧ OwnSlots s op)
    {d : Disjoint} (hd : d.bare ∈ s.constraints) {t : Store w} (ht : Store.Acts s.constraints s.store t)
    {changed : List Var} (hok : (d.narrow changed t).outcome = .ok ())
    (hstill : ∀ v, (d.narrow changed t).store.domain v = t.domain v) {k : Nat} {r : Rectangle}
    (hr : d.rectangles[k]? = some r) (hnn : r.Nonneg (d.narrow changed t).store)
    (hnot : ¬ r.Settled (d.narrow changed t).store) :
    ∃ cached, d.candidates.get (d.narrow changed t).store k = .ok cached ∧ cached.Pairwise (· < ·) ∧
      ∀ j, j ∈ cached ↔ j ≠ k ∧ ∃ b, d.rectangles[j]? = some b ∧
        r.ReachesMeet b (d.narrow changed t).store := by
  have hconfined : d.Confined t (d.narrow changed t).store := .of_steps (d.narrow_steps changed t)
  have hcells := hconfined.still (.refl d _) hstill
  have hsound : ∀ u, d.Steps t u → d.Sound u := fun u hu => sound_of_acts hs hd (ht.trans (hu.acts hd))
  have hnodup : d.bare.candidates.slots.Nodup := (owned hs).nodup hd
  obtain ⟨cached, hget, hexact⟩ := d.exactAt_narrow hnodup hsound hok hstill hr
    ((Rectangle.nonneg_congr (r.view_of_cells hcells)).1 hnn)
    fun hset => hnot ((Rectangle.settled_of_cells hcells hconfined.level).2 hset)
  exact ⟨cached, hget, hexact.pairwise, hexact.mem_iff⟩

/-- The square of `squares` whose left edge is the variable `v`. -/
def squareAt (v : Var) : Rectangle := ⟨[⟨v, ⟨3⟩⟩, ⟨⟨2⟩, ⟨3⟩⟩], List.cons_ne_nil _ _⟩

/-- The constraint that `squares` posts. -/
def squaresPosted : Disjoint where
  id := some ⟨0⟩
  rectangles := [squareAt ⟨0⟩, squareAt ⟨1⟩]
  mode := .profile (.stable _)
  candidates := ⟨[⟨0⟩, ⟨1⟩]⟩
  statistics := .zero
  uniform := by decide

/-- A slot is created at level 1 and kept after its level is left; later, a pass for the left edge of
one square changes nothing, and the candidates of the other square are exact. -/
theorem cached_candidates_exact_squares :
    let s := empty.run (squares ++ [.pushLevel, .newSnapshot [5], .backtrack, .pushLevel,
      .setSnapshot ⟨2⟩ [6], .setMax ⟨0⟩ 3, .propagate])
    let u := (squaresPosted.narrow [⟨0⟩] s.store).store
    ∃ cached, squaresPosted.candidates.get u 1 = .ok cached ∧ cached.Pairwise (· < ·) ∧
      ∀ j, j ∈ cached ↔ j ≠ 1 ∧ ∃ b, squaresPosted.rectangles[j]? = some b ∧
        (squareAt ⟨1⟩).ReachesMeet b u := by
  intro s u
  have hs : s.Reached fun s op => RootDeclaration s op ∧ OwnSlots s op :=
    Reached.start.run (by decide +kernel)
  have hd : squaresPosted.bare ∈ s.constraints := List.mem_singleton.2 rfl
  have hcells : u.cells = s.store.cells := by decide +kernel
  refine cached_candidates_exact hs hd .refl (by decide +kernel) (Store.domain_of_cells hcells) rfl ?_ ?_
  · unfold Rectangle.Nonneg
    decide +kernel
  · intro hset
    have hfixed := (hset ⟨1⟩ (by decide) _ rfl).1
    exact absurd hfixed (by decide +kernel)

/-- **A list written by hand stays.** Where someone else empties the slot of the first square, a pass
ends well and changes nothing, and the list is still empty, although the first square may be moved and
its reaches meet those of the second along both dimensions. -/
theorem empty_candidates_of_hand_written :
    let s := empty.run (squares ++ [.setSnapshot ⟨0⟩ []])
    let u := (squaresPosted.narrow [] s.store).store
    s.Reached RootDeclaration ∧ squaresPosted.bare ∈ s.constraints ∧
      (squaresPosted.narrow [] s.store).outcome = .ok () ∧ (∀ v, u.domain v = s.store.domain v) ∧
      squaresPosted.rectangles = [squareAt ⟨0⟩, squareAt ⟨1⟩] ∧ (squareAt ⟨0⟩).Nonneg u ∧
      ¬ (squareAt ⟨0⟩).Settled u ∧ (squareAt ⟨0⟩).ReachesMeet (squareAt ⟨1⟩) u ∧
      squaresPosted.candidates.get u 0 = .ok [] ∧
      ¬ squaresPosted.ExactAt u 0 (squareAt ⟨0⟩) := by
  intro s u
  have hcells : u.cells = s.store.cells := by decide +kernel
  have hget : squaresPosted.candidates.get u 0 = .ok [] := by decide +kernel
  have hmeet : (squareAt ⟨0⟩).ReachesMeet (squareAt ⟨1⟩) u := by
    rintro (_ | _ | i) hi
    · exact ⟨_, _, rfl, rfl, by decide +kernel⟩
    · exact ⟨_, _, rfl, rfl, by decide +kernel⟩
    · exact absurd hi (by simp [squareAt, Rectangle.dim])
  refine ⟨Reached.start.run (by decide +kernel), List.mem_singleton.2 rfl, by decide +kernel,
    Store.domain_of_cells hcells, rfl, ?_, fun hset => ?_, hmeet, hget, ?_⟩
  · unfold Rectangle.Nonneg
    decide +kernel
  · have hfixed := (hset ⟨0⟩ (by decide) _ rfl).1
    exact absurd hfixed (by decide +kernel)
  · rintro ⟨cs, hcs, hexact⟩
    obtain rfl := Except.ok.inj (hget.symm.trans hcs)
    exact List.not_mem_nil ((hexact.mem_iff 1).2 ⟨by decide, squareAt ⟨1⟩, rfl, hmeet⟩)

end Session
end Placement
