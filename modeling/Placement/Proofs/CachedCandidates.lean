/-
# The cached candidates are always enough

For each rectangle of a constraint, the store holds the candidates that may still overlap it.
`Disjoint.Sound` says what can be relied on: they are an ascending choice of the other
rectangles, and a rectangle that is not among them lies apart (`Rectangle.Apart`): along
some dimension its reach does not meet the reach of the first.

Domains only shrink, and so do reaches, so rectangles that lie apart stay apart. An analysis
drops a candidate only when it lies apart at that moment. Backtracking brings back older
domains together with the candidates that were sound for them, so the invariant is one of
the store and of all its pasts (`Store.Always`).
-/

import Placement.Proofs.Analysis
import Placement.Proofs.Ownership
import Placement.Proofs.Restoration

namespace Placement

variable {w : Width}

/-! ## Rectangles that lie apart -/

/-- The extent along a side can be read exactly if both variables exist. -/
theorem Store.extent_eq_ok {s : Store w} {side : Side} {e : Extent w} :
    s.extent side = .ok e ↔
      (side.origin.val < s.cells.length ∧ side.length.val < s.cells.length) ∧ e = s.look side := by
  constructor
  · intro h
    unfold extent at h
    obtain ⟨o, ho, h⟩ := bind_eq_ok.1 h
    obtain ⟨l, hl, h⟩ := bind_eq_ok.1 h
    obtain ⟨c, hc, rfl⟩ := domain_eq_ok.1 ho
    obtain ⟨c', hc', rfl⟩ := domain_eq_ok.1 hl
    refine ⟨⟨(List.getElem?_eq_some_iff.1 hc).1, (List.getElem?_eq_some_iff.1 hc').1⟩, ?_⟩
    cases h
    unfold look
    rw [dom_of_cell hc, dom_of_cell hc']
  · rintro ⟨⟨ho, hl⟩, rfl⟩
    unfold extent
    rw [domain_eq ho, domain_eq hl]
    rfl

/-- As the store shrinks, an extent that can be read shrinks with it. -/
theorem Store.Shrinks.extent {s t : Store w} (h : Shrinks s t) {side : Side} {e : Extent w}
    (he : s.extent side = .ok e) : ∃ e', t.extent side = .ok e' ∧ e'.Within e := by
  obtain ⟨hlt, rfl⟩ := extent_eq_ok.1 he
  have hle := h.length_le
  exact ⟨_, extent_eq_ok.2 ⟨by omega, rfl⟩, h.within _ hlt.1, h.within _ hlt.2⟩

namespace Rectangle

/-- Along some dimension, the reaches of two rectangles do not meet. -/
def Apart (a b : Rectangle) (s : Store w) : Prop :=
  ∃ i x y, a.reach s i = .ok x ∧ b.reach s i = .ok y ∧ ¬ x.Meets y

/-- Along every dimension of the first, the reaches of two rectangles meet. -/
def ReachesMeet (a b : Rectangle) (s : Store w) : Prop :=
  ∀ i < a.dim, ∃ x y, a.reach s i = .ok x ∧ b.reach s i = .ok y ∧ x.Meets y

/-- A reach along a dimension is the span of the extent of that side. -/
theorem reach_eq_ok {r : Rectangle} {s : Store w} {i : Nat} {x : Span} :
    r.reach s i = .ok x ↔ ∃ side e, r.sides[i]? = some side ∧ s.extent side = .ok e ∧ e.span = x := by
  simp only [reach, extent, side, bind_eq_ok, entry_eq_ok, Extent.reach_eq, Except.ok.injEq]
  constructor
  · rintro ⟨e, ⟨side, hside, he⟩, hx⟩
    exact ⟨side, e, hside, he, hx⟩
  · rintro ⟨side, e, hside, he, hx⟩
    exact ⟨e, ⟨side, hside, he⟩, hx⟩

/-- Rectangles that lie apart do not have reaches that meet along every dimension. -/
theorem Apart.not_reachesMeet {a b : Rectangle} {s : Store w} (h : a.Apart b s) : ¬ a.ReachesMeet b s := by
  intro hmeet
  obtain ⟨i, x, y, hx, hy, hxy⟩ := h
  obtain ⟨side, _, hside, -, -⟩ := reach_eq_ok.1 hx
  obtain ⟨x', y', hx', hy', hm⟩ := hmeet i (List.getElem?_eq_some_iff.1 hside).1
  obtain rfl := Except.ok.inj (hx.symm.trans hx')
  obtain rfl := Except.ok.inj (hy.symm.trans hy')
  exact hxy hm

/-- A reach only loses points. -/
theorem reach_of_shrinks {r : Rectangle} {s t : Store w} (h : s.Shrinks t) {i : Nat} {x : Span}
    (hx : r.reach s i = .ok x) : ∃ y, r.reach t i = .ok y ∧ ∀ p ∈ y, p ∈ x := by
  obtain ⟨side, e, hside, he, rfl⟩ := reach_eq_ok.1 hx
  obtain ⟨e', he', hw⟩ := h.extent he
  exact ⟨_, reach_eq_ok.2 ⟨side, e', hside, he', rfl⟩, fun p hp => hw.mem_span hp⟩

/-- **What lies apart stays apart** as domains shrink. -/
theorem Apart.shrinks {a b : Rectangle} {s t : Store w} (h : a.Apart b s) (hst : s.Shrinks t) :
    a.Apart b t := by
  obtain ⟨i, x, y, hx, hy, hxy⟩ := h
  obtain ⟨x', hx', hsubx⟩ := reach_of_shrinks hst hx
  obtain ⟨y', hy', hsuby⟩ := reach_of_shrinks hst hy
  refine ⟨i, x', y', hx', hy', fun hm => hxy ?_⟩
  obtain ⟨p, hpx, hpy⟩ := Span.meets_iff.1 hm
  exact Span.meets_iff.2 ⟨p, hsubx p hpx, hsuby p hpy⟩

end Rectangle

/-! ## What an analysis drops -/

namespace Neighborhood

variable {s : Store w} {f : Focus}

/-- The windows of the focus are its reaches. -/
theorem reach_of_focus {r : Rectangle} {k i : Nat} {x : Window} (hf : focus s r k = .ok f)
    (hx : f.windows[i]? = some x) : r.reach s i = .ok x.reach := by
  unfold focus at hf
  obtain ⟨es, hes, hf⟩ := bind_eq_ok.1 hf
  obtain ⟨ws, hws, hf⟩ := bind_eq_ok.1 hf
  cases hf
  obtain ⟨e, he, hw⟩ := getElem?_of_mapM hws hx
  obtain ⟨side, hside, hse⟩ := getElem?_of_mapM hes he
  unfold Window.ofExtent at hw
  rw [Extent.reach_eq] at hw
  refine Rectangle.reach_eq_ok.2 ⟨side, e, hside, hse, ?_⟩
  exact congrArg Window.reach (Except.ok.inj hw)

/-- The focus has a window along each of its dimensions. -/
theorem exists_window {r : Rectangle} {k i : Nat} (hf : focus s r k = .ok f) (hi : i < r.dim) :
    ∃ x, f.windows[i]? = some x := by
  unfold focus at hf
  obtain ⟨es, hes, hf⟩ := bind_eq_ok.1 hf
  obtain ⟨ws, hws, hf⟩ := bind_eq_ok.1 hf
  cases hf
  have hlen : r.sides.length = ws.length :=
    (mapM_eq_ok.1 hes).length_eq.trans (mapM_eq_ok.1 hws).length_eq
  exact ⟨_, List.getElem?_eq_getElem (hlen ▸ hi)⟩

/-- The focus is at its position. -/
theorem index_focus {r : Rectangle} {k : Nat} (hf : focus s r k = .ok f) : f.index = k := by
  unfold focus at hf
  obtain ⟨es, -, hf⟩ := bind_eq_ok.1 hf
  obtain ⟨ws, -, hf⟩ := bind_eq_ok.1 hf
  cases hf
  rfl

/-- A neighbour that does not meet the windows has a reach that does not meet one of them. -/
theorem exists_of_meeting?_eq_none {windows : List Window} {sides : List Side}
    (h : meeting? s windows sides = .ok none) :
    ∃ (i : Nat) (x : Window) (side : Side) (e : Extent w), windows[i]? = some x ∧
      sides[i]? = some side ∧ s.extent side = .ok e ∧ ¬ x.reach.Meets e.span := by
  induction windows generalizing sides with
  | nil => cases h
  | cons x xs ih =>
    cases sides with
    | nil => cases h
    | cons side sides =>
      unfold meeting? at h
      obtain ⟨e, he, h⟩ := bind_eq_ok.1 h
      rw [Extent.reach_eq] at h
      obtain ⟨y, hy, h⟩ := bind_eq_ok.1 h
      cases hy
      split at h
      · obtain ⟨rest, hrest, h⟩ := bind_eq_ok.1 h
        cases rest with
        | some es => cases h
        | none =>
          obtain ⟨i, x', side', e', hx', hside', he', hm⟩ := ih hrest
          exact ⟨i + 1, x', side', e', by simpa using hx', by simpa using hside', he', hm⟩
      · next hm => exact ⟨0, x, side, e, rfl, rfl, he, hm⟩

/-- A neighbour that meets the windows has reaches that meet all of them. -/
theorem forall_of_meeting?_eq_some {windows : List Window} {sides : List Side} {es : List (Extent w)}
    (h : meeting? s windows sides = .ok (some es)) {i : Nat} {x : Window} (hx : windows[i]? = some x) :
    ∃ (side : Side) (e : Extent w), sides[i]? = some side ∧ s.extent side = .ok e ∧ x.reach.Meets e.span := by
  induction windows generalizing sides es i with
  | nil => cases hx
  | cons y xs ih =>
    cases sides with
    | nil => cases h
    | cons side sides =>
      unfold meeting? at h
      obtain ⟨e, he, h⟩ := bind_eq_ok.1 h
      rw [Extent.reach_eq] at h
      obtain ⟨_, hspan, h⟩ := bind_eq_ok.1 h
      cases hspan
      split at h
      · next hm =>
        obtain ⟨rest, hrest, h⟩ := bind_eq_ok.1 h
        cases rest with
        | none => cases h
        | some es' =>
          cases i with
          | zero =>
            cases hx
            exact ⟨side, e, rfl, he, hm⟩
          | succ i => simpa using ih hrest (by simpa using hx)
      · cases h

/-- Reaches that meet all windows of the focus meet its reaches. -/
theorem reachesMeet_of_meeting? {a b : Rectangle} {k : Nat} (hf : focus s a k = .ok f) {es : List (Extent w)}
    (h : meeting? s f.windows b.sides = .ok (some es)) : a.ReachesMeet b s := by
  intro i hi
  obtain ⟨x, hx⟩ := exists_window hf hi
  obtain ⟨side, e, hside, he, hm⟩ := forall_of_meeting?_eq_some h hx
  exact ⟨_, _, reach_of_focus hf hx, Rectangle.reach_eq_ok.2 ⟨side, e, hside, he, rfl⟩, hm⟩

/-- What a visit does: it passes over the focus, drops a rectangle that lies apart, or keeps one whose
reaches meet those of the focus. -/
theorem visit_eq_ok {rectangles : List Rectangle} {changed : List Var} {a : Rectangle} {k j : Nat}
    (hf : focus s a k = .ok f) {t t' : Tally}
    (h : visit s rectangles changed f t j = .ok t') :
    t'.found.overlapping = t.found.overlapping ∧
        (j = k ∨ ∃ b, rectangles[j]? = some b ∧ a.Apart b s) ∨
      t'.found.overlapping = t.found.overlapping ++ [j] ∧ j ≠ k ∧
        ∃ b, rectangles[j]? = some b ∧ a.ReachesMeet b s := by
  unfold visit at h
  split at h
  · next hj =>
    cases h
    exact .inl ⟨rfl, .inl (hj.trans (index_focus hf))⟩
  · next hj =>
    obtain ⟨b, hb, h⟩ := bind_eq_ok.1 h
    obtain ⟨n?, hn, h⟩ := bind_eq_ok.1 h
    obtain ⟨_, -, h⟩ := bind_eq_ok.1 h
    rw [liftM_eq_ok] at hb hn
    rw [entry_eq_ok] at hb
    unfold neighbor? at hn
    obtain ⟨es?, hes, hn⟩ := bind_eq_ok.1 hn
    cases es? with
    | none =>
      cases hn
      cases h
      obtain ⟨i, x, side, e, hx, hside, he, hm⟩ := exists_of_meeting?_eq_none hes
      refine .inl ⟨rfl, .inr ⟨b, hb, i, x.reach, e.span, reach_of_focus hf hx, ?_, hm⟩⟩
      exact Rectangle.reach_eq_ok.2 ⟨side, e, hside, he, rfl⟩
    | some es =>
      obtain ⟨zero, -, hn⟩ := bind_eq_ok.1 hn
      obtain ⟨n, rfl, hindex⟩ : ∃ n, n? = some n ∧ n.index = j := by
        dsimp only at hn
        split at hn <;> obtain ⟨area, -, hn⟩ := bind_eq_ok.1 hn <;> cases hn <;> exact ⟨_, rfl, rfl⟩
      cases h
      exact .inr ⟨by rw [found_add, ← hindex]; rfl, fun hjk => hj (hjk.trans (index_focus hf).symm), b, hb,
        reachesMeet_of_meeting? hf hes⟩

/-- The visits keep some of the positions, whose reaches meet those of the focus, and drop only what
lies apart. -/
theorem overlapping_of_visits {rectangles : List Rectangle} {changed : List Var} {a : Rectangle}
    {k : Nat} (hf : focus s a k = .ok f) {cs : List Nat} {t t' : Tally}
    (h : cs.foldlM (visit s rectangles changed f) t = .ok t') :
    ∃ kept, t'.found.overlapping = t.found.overlapping ++ kept ∧ kept.Sublist cs ∧
      (∀ j ∈ cs, j ∉ kept → j = k ∨ ∃ b, rectangles[j]? = some b ∧ a.Apart b s) ∧
      ∀ j ∈ kept, j ≠ k ∧ ∃ b, rectangles[j]? = some b ∧ a.ReachesMeet b s := by
  induction cs generalizing t with
  | nil =>
    cases h
    exact ⟨[], by simp, .refl _, nofun, nofun⟩
  | cons c cs ih =>
    rw [List.foldlM_cons] at h
    obtain ⟨u, hu, h⟩ := bind_eq_ok.1 h
    obtain ⟨kept, hkept, hsub, hdrop, hmeet⟩ := ih h
    rcases visit_eq_ok hf hu with ⟨he, hc⟩ | ⟨he, hc⟩
    · refine ⟨kept, by rw [hkept, he], hsub.cons _, fun j hj hnot => ?_, hmeet⟩
      rcases List.mem_cons.1 hj with rfl | hj
      · exact hc
      · exact hdrop j hj hnot
    · refine ⟨c :: kept, by rw [hkept, he, List.append_assoc]; rfl, hsub.cons_cons _, fun j hj hnot => ?_,
        List.forall_mem_cons.2 ⟨hc, hmeet⟩⟩
      rw [List.mem_cons, not_or] at hnot
      exact hdrop j ((List.mem_cons.1 hj).resolve_left hnot.1) hnot.2

end Neighborhood

/-- **An analysis drops only what lies apart**, and keeps only what meets the focus. -/
theorem overlapping_of_analyze {s : Store w} {rectangles : List Rectangle} {k : Nat} {cs : List Nat}
    {changed : List Var} {found : Neighborhood}
    (h : analyze s rectangles k cs changed = .ok found) :
    found.overlapping.Sublist cs ∧
      (∀ j ∈ cs, j ∉ found.overlapping → j = k ∨ ∃ a b, rectangles[k]? = some a ∧
        rectangles[j]? = some b ∧ a.Apart b s) ∧
      ∀ j ∈ found.overlapping, j ≠ k ∧ ∃ a b, rectangles[k]? = some a ∧ rectangles[j]? = some b ∧
        a.ReachesMeet b s := by
  unfold analyze at h
  obtain ⟨a, ha, h⟩ := bind_eq_ok.1 h
  obtain ⟨f, hf, h⟩ := bind_eq_ok.1 h
  obtain ⟨t, ht, h⟩ := bind_eq_ok.1 h
  rw [liftM_eq_ok] at ha hf
  rw [entry_eq_ok] at ha
  obtain ⟨kept, hkept, hsub, hdrop, hmeet⟩ := Neighborhood.overlapping_of_visits hf ht
  have hfound : found.overlapping = kept := by
    have : found = t.found := by
      split at h
      · obtain ⟨_, -, h⟩ := bind_eq_ok.1 h
        exact (Except.ok.inj h).symm
      · exact (Except.ok.inj h).symm
    rw [this, hkept]
    rfl
  rw [hfound]
  refine ⟨hsub, fun j hj hnot => (hdrop j hj hnot).imp_right ?_, fun j hj => ?_⟩
  · rintro ⟨b, hb, hab⟩
    exact ⟨a, b, ha, hb, hab⟩
  · obtain ⟨hjk, b, hb, hab⟩ := hmeet j hj
    exact ⟨hjk, a, b, ha, hb, hab⟩

/-! ## Sound candidates -/

namespace Disjoint

/-- The positions `cs` are some of the other rectangles, ascending, and every other rectangle that is
not among them lies apart from the one at position `k`. -/
structure SoundAt (d : Disjoint) (s : Store w) (k : Nat) (cs : List Nat) : Prop where
  sublist : cs.Sublist (Candidates.others d.rectangles.length k)
  apart : ∀ j < d.rectangles.length, j ≠ k → j ∉ cs →
    ∃ a b, d.rectangles[k]? = some a ∧ d.rectangles[j]? = some b ∧ a.Apart b s

/-- Every rectangle has sound candidates. -/
def Sound (d : Disjoint) (s : Store w) : Prop :=
  ∀ k < d.rectangles.length, ∃ cs, d.candidates.get s k = .ok cs ∧ d.SoundAt s k cs

variable {d : Disjoint} {s t : Store w}

/-- Sound candidates stay sound as the store shrinks. -/
theorem SoundAt.shrinks {k : Nat} {cs : List Nat} (h : d.SoundAt s k cs) (hst : s.Shrinks t) :
    d.SoundAt t k cs := by
  refine ⟨h.sublist, fun j hj hjk hnot => ?_⟩
  obtain ⟨a, b, ha, hb, hab⟩ := h.apart j hj hjk hnot
  exact ⟨a, b, ha, hb, hab.shrinks hst⟩

/-- What an analysis keeps of sound candidates is sound. -/
theorem SoundAt.analyze {k : Nat} {cs : List Nat} (h : d.SoundAt s k cs) {changed : List Var}
    {found : Neighborhood} (hf : analyze s d.rectangles k cs changed = .ok found) :
    d.SoundAt s k found.overlapping := by
  obtain ⟨hsub, hdrop, -⟩ := overlapping_of_analyze hf
  refine ⟨hsub.trans h.sublist, fun j hj hjk hnot => ?_⟩
  by_cases hcs : j ∈ cs
  · exact (hdrop j hcs hnot).resolve_left hjk
  · exact h.apart j hj hjk hcs

/-- Candidates stay sound as the store shrinks, if they can still be read. -/
theorem Sound.of_get (h : d.Sound s) (hst : s.Shrinks t)
    (hg : ∀ k cs, d.candidates.get s k = .ok cs → d.candidates.get t k = .ok cs) : d.Sound t := by
  intro k hk
  obtain ⟨cs, hcs, hs⟩ := h k hk
  exact ⟨cs, hg k cs hcs, hs.shrinks hst⟩

/-- Candidates stay sound as the store shrinks, if no slot changes. -/
theorem Sound.of_slots (h : d.Sound s) (hst : s.Shrinks t) (hslots : t.slots = s.slots) : d.Sound t :=
  h.of_get hst fun _ _ hcs => (Candidates.get_congr hslots).trans hcs

/-- **One change of the store keeps sound candidates sound.** -/
theorem Sound.change {ds : List Disjoint} {count : Nat} {free : Slot → Prop} (h : d.Sound s)
    (ho : Owned ds count) (hfree : ∀ x, free x → ∀ d ∈ ds, x ∉ d.candidates.slots) (hd : d ∈ ds)
    (hst : Store.Change ds free s t) : d.Sound t := by
  intro k hk
  obtain ⟨cs, hcs, hs⟩ := h k hk
  rcases Candidates.get_of_change ho hfree hst hd k with hsame | ⟨-, current, changed, found, hc, ha, hnew⟩
  · exact ⟨cs, hsame.trans hcs, hs.shrinks hst.write.shrinks⟩
  · rw [hcs] at hc
    cases hc
    exact ⟨_, hnew, (hs.analyze ha).shrinks hst.write.shrinks⟩

/-- A run of changes keeps sound candidates sound. -/
theorem Sound.changes {ds : List Disjoint} {count : Nat} {free : Slot → Prop} (h : d.Sound s)
    (ho : Owned ds count) (hfree : ∀ x, free x → ∀ d ∈ ds, x ∉ d.candidates.slots) (hd : d ∈ ds)
    (hst : Store.Changes ds free s t) : d.Sound t := by
  induction hst with
  | refl => exact h
  | tail _ hc ih => exact ih.change ho hfree hd hc

/-- Appending slots leaves the candidates as they are. -/
theorem Sound.append_slots (h : d.Sound s) (as : List Saved) :
    d.Sound { s with slots := s.slots ++ as } := by
  refine h.of_get (.of_domains [] (List.append_nil _).symm) fun k cs hcs => ?_
  obtain ⟨x, hx, a, ha, rfl⟩ := Candidates.get_eq_ok.1 hcs
  refine Candidates.get_eq_ok.2 ⟨x, hx, a, ?_, rfl⟩
  rw [List.getElem?_append_left (List.getElem?_eq_some_iff.1 ha).1]
  exact ha

/-- A constraint that was just imposed has all other rectangles as candidates. -/
theorem get_imposed (d : Disjoint) (id : ConstraintId) (s : Store w) {k : Nat}
    (hk : k < d.rectangles.length) :
    (d.imposed id s).bare.candidates.get (s.allot d.rectangles.length) k =
      .ok (Candidates.others d.rectangles.length k) := by
  have hx := (slots_imposed d id s (x := ⟨s.slots.length + k⟩)).2 ⟨hk, rfl⟩
  refine Candidates.get_eq_ok.2 ⟨_, hx, ⟨Candidates.others d.rectangles.length k, s.level⟩, ?_, rfl⟩
  change (s.slots ++ _)[s.slots.length + k]? = _
  rw [List.getElem?_append_right (Nat.le_add_right ..), Nat.add_sub_cancel_left, List.getElem?_map,
    List.getElem?_range hk]
  rfl

/-- **A constraint that was just imposed has sound candidates**: all others. -/
theorem sound_imposed (d : Disjoint) (id : ConstraintId) (s : Store w) :
    (d.imposed id s).bare.Sound (s.allot d.rectangles.length) := by
  intro k hk
  refine ⟨_, get_imposed d id s hk, .refl _, fun j hj hjk hnot => absurd ?_ hnot⟩
  exact List.mem_filter.2 ⟨List.mem_range.2 hj, by simpa using hjk⟩

end Disjoint

/-! ## Every session -/

namespace Session

open Store (Always)

variable {s : Session w}

/-- What is reached under a rule is reached under a weaker one. -/
theorem Reached.mono {allowed allowed' : Session w → Op w → Prop} (hs : s.Reached allowed)
    (h : ∀ s op, allowed s op → allowed' s op) : s.Reached allowed' := by
  induction hs with
  | start => exact .start
  | step _ ha ih => exact .step ih (h _ _ ha)

/-- All constraints of a session have sound candidates in a store. -/
def AllSound (s : Session w) (t : Store w) : Prop := ∀ d ∈ s.constraints, d.Sound t

/-- **One operation at its level keeps candidates sound**, those of a constraint that it adds
included. -/
theorem allSound_step {allowed : Session w → Op w → Prop} (hr : s.Reached allowed) {op : Op w}
    (hop : op.Stays) (hown : OwnSlots s op) (h : s.AllSound s.store) :
    (s.step op).2.AllSound (s.step op).2.store := by
  cases op using Op.kinds with
  | flat op hflat =>
    have hf := flows_of_flat_own hflat hown
    intro d hd
    rw [hf.constraints_eq] at hd
    exact (h d hd).changes (owned hr) (fun _ h => h) hd hf.changes
  | newVar e => exact fun d hd => (h d hd).of_slots (.of_domains [e] (List.map_append ..)) rfl
  | newSnapshot value => exact fun d hd => (h d hd).append_slots _
  | post d =>
    have hold : ∀ e ∈ s.constraints, e.Sound (s.store.allot d.rectangles.length) := fun e he =>
      (h e he).append_slots _
    intro e he
    rcases s.step_post d with ⟨t, ht, hs, hp, hloose⟩ | ⟨hs, hp, hloose⟩
    · have hslots := congrArg Store.slots (Store.touchAll_eq_ok ht).2
      have hshrinks := (Store.touchAll_writes ht).shrinks
      rw [hs]
      rcases (mem_constraints_post hp hloose e).1 he with he | rfl
      · exact (hold e he).of_slots hshrinks hslots
      · exact (d.sound_imposed _ _).of_slots hshrinks hslots
    · rw [constraints_of_posted_eq hp hloose] at he
      rw [hs]
      exact hold e he
  | impose d id =>
    obtain ⟨hs, hp, hloose⟩ := s.step_impose d id
    intro e he
    rw [hs]
    rcases (mem_constraints_impose hp hloose e).1 he with he | rfl
    · exact (h e he).append_slots _
    · exact d.sound_imposed id s.store
  | pushLevel => exact hop.elim
  | backtrack => exact hop.elim

/-- **Where all is created at the root and slots are left to their constraints, candidates are
sound**, now and after any backtracking. -/
theorem always_sound (hs : s.Reached fun s op => RootCreation s op ∧ OwnSlots s op) :
    Always s.AllSound s.store := by
  induction hs with
  | start => exact .of_root rfl nofun
  | @step s op hr ha ih =>
    have hl := (always_layered (hr.mono fun _ _ h => h.1)).now
    have hstep : op.Stays → (s.step op).2.AllSound (s.step op).2.store := fun hop =>
      allSound_step hr hop ha.2 ih.now
    cases op using Op.kinds with
    | flat op hop =>
      have hf := s.flows_of_flat_any hop
      have hsound : (s.step op).2.AllSound = s.AllSound := by
        unfold AllSound
        rw [hf.constraints_eq]
      rw [hsound] at hstep ⊢
      exact ih.keeps (hf.changes.writes.keeps hl) (hstep hop.stays)
    | newVar e => exact .of_root (ha.1 trivial) (hstep trivial)
    | newSnapshot value => exact .of_root (ha.1 trivial) (hstep trivial)
    | post d => exact .of_root (layered_post d hl (ha.1 trivial)).2 (hstep trivial)
    | impose d id => exact .of_root (by rw [(s.step_impose d id).1]; exact ha.1 trivial) (hstep trivial)
    | pushLevel =>
      refine ih.pushLevel hl (fun d hd => ?_) fun d hd => ?_
      · exact (ih.now d hd).of_slots (Store.Write.clear _).shrinks rfl
      · exact (ih.now d hd).of_slots (.of_domains [] (List.append_nil _).symm) rfl
    | backtrack =>
      exact ih.backtrack fun d hd => (ih.now d hd).of_slots (Store.Write.clear _).shrinks rfl

/-- **The cached candidates are a sound choice.** In every session where all is created at the root
and slots of candidates are written by their constraints only, whatever else was done and
however it ended: the cached list of each rectangle of each constraint is strictly ascending,
holds positions of other rectangles only, and leaves out a rectangle only if, along some
dimension, its reach does not meet the reach of the first. -/
theorem cached_candidates_sound (hs : s.Reached fun s op => RootCreation s op ∧ OwnSlots s op)
    {d : Disjoint} (hd : d ∈ s.constraints) {k : Nat} (hk : k < d.rectangles.length) :
    ∃ cached, d.candidates.get s.store k = .ok cached ∧ cached.Pairwise (· < ·) ∧
      (∀ j ∈ cached, j < d.rectangles.length ∧ j ≠ k) ∧
      ∀ j < d.rectangles.length, j ≠ k → j ∉ cached →
        ∃ a b, d.rectangles[k]? = some a ∧ d.rectangles[j]? = some b ∧ a.Apart b s.store := by
  obtain ⟨cached, hget, hsound⟩ := (always_sound hs).now d hd k hk
  refine ⟨cached, hget, ?_, fun j hj => ?_, hsound.apart⟩
  · exact (Candidates.pairwise_others _ _).sublist hsound.sublist
  · exact Candidates.mem_others.1 (hsound.sublist.subset hj)

/-- Two squares, one of them left of the other at a level of its own: each has lost the other as a
candidate, and they do lie apart. -/
theorem cached_candidates_sound_squares :
    let s := empty.run (squares ++ [.pushLevel, .fix ⟨0⟩ 0, .setMin ⟨1⟩ 3, .propagate])
    s.constraints.length = 1 ∧ ∀ d ∈ s.constraints, d.candidates.get s.store 0 = .ok [] ∧
      ∃ a b, d.rectangles[0]? = some a ∧ d.rectangles[1]? = some b ∧ a.Apart b s.store := by
  intro s
  have hs : s.Reached fun s op => RootCreation s op ∧ OwnSlots s op :=
    Reached.start.run (by decide +kernel)
  have hd : ∀ d ∈ s.constraints, d.candidates.get s.store 0 = .ok [] ∧ 1 < d.rectangles.length := by
    decide +kernel
  refine ⟨by decide +kernel, fun d hmem => ⟨(hd d hmem).1, ?_⟩⟩
  have hlen := (hd d hmem).2
  obtain ⟨cached, hget, -, -, hapart⟩ := cached_candidates_sound hs hmem (Nat.lt_of_succ_lt hlen)
  rw [(hd d hmem).1] at hget
  cases hget
  exact hapart 1 hlen (by decide) List.not_mem_nil

end Session
end Placement
