/-
# What is read from a store

A rectangle whose variables all exist (`Rectangle.Known`) is read without a fault, and all that
is ever read of it, its stamps apart, are its extents (`Rectangle.view`). The lemmas below give
the value of every reading as a function of the view, so later arguments are about lists of
extents and not about a store.

Writes only shrink domains (`Store.Shrinks`), and a shrinking domain moves every reading one
way: the reach loses points, the mandatory part gains points, the least length grows.
-/

import Placement.Neighborhood
import Placement.Proofs.Writing
import Mathlib.Data.List.Forall2

namespace Placement

variable {w : Width}

/-! ## Loops that may fail -/

section Loops

variable {α β ε : Type}

/-- A loop that succeeds has succeeded at every entry. -/
theorem mapM_eq_ok {f : α → Except ε β} {as : List α} {bs : List β} :
    as.mapM f = .ok bs ↔ List.Forall₂ (fun a b => f a = .ok b) as bs := by
  induction as generalizing bs with
  | nil => cases bs <;> simp
  | cons a as ih =>
    rw [List.mapM_cons, bind_eq_ok]
    constructor
    · rintro ⟨b, hb, h⟩
      obtain ⟨bs', hbs, h⟩ := bind_eq_ok.1 h
      cases h
      exact .cons hb (ih.1 hbs)
    · rintro (_ | ⟨hb, hbs⟩)
      exact ⟨_, hb, bind_eq_ok.2 ⟨_, ih.2 hbs, rfl⟩⟩

/-- What a loop gave at a position, it gave for the entry at that position. -/
theorem getElem?_of_mapM {f : α → Except ε β} {as : List α} {bs : List β} (h : as.mapM f = .ok bs)
    {i : Nat} {b : β} (hb : bs[i]? = some b) : ∃ a, as[i]? = some a ∧ f a = .ok b := by
  obtain ⟨hi, rfl⟩ := List.getElem?_eq_some_iff.1 hb
  obtain ⟨hlen, hget⟩ := List.forall₂_iff_get.1 (mapM_eq_ok.1 h)
  exact ⟨_, List.getElem?_eq_getElem (by omega), hget i (by omega) hi⟩

/-- Mapping a function that never fails is mapping its values. -/
theorem mapM_eq_map {f : α → Except ε β} {g : α → β} {as : List α} (h : ∀ a ∈ as, f a = .ok (g a)) :
    as.mapM f = .ok (as.map g) :=
  mapM_eq_ok.2 (List.forall₂_map_right_iff.2 (List.forall₂_same.2 h))

/-- A search with a test that never fails is the search with its answers. -/
theorem anyM_eq_any {f : α → Except ε Bool} {p : α → Bool} {as : List α}
    (h : ∀ a ∈ as, f a = .ok (p a)) : as.anyM f = .ok (as.any p) := by
  induction as with
  | nil => rfl
  | cons a as ih =>
    rw [List.anyM_cons, h a List.mem_cons_self, List.any_cons]
    cases p a with
    | true => rfl
    | false => exact ih fun b hb => h b (List.mem_cons_of_mem _ hb)

/-- A search that succeeds has found an entry that passes. -/
theorem exists_of_anyM_eq_true {f : α → Except ε Bool} {as : List α} (h : as.anyM f = .ok true) :
    ∃ a ∈ as, f a = .ok true := by
  induction as with
  | nil => cases h
  | cons a as ih =>
    rw [List.anyM_cons] at h
    obtain ⟨b, hb, h⟩ := bind_eq_ok.1 h
    cases b with
    | true => exact ⟨a, List.mem_cons_self, hb⟩
    | false =>
      obtain ⟨x, hx, hfx⟩ := ih h
      exact ⟨x, List.mem_cons_of_mem _ hx, hfx⟩

/-- Where a check of all entries succeeds, every entry passes. -/
theorem forall_of_allM_eq_true {f : α → Except ε Bool} {as : List α} (h : as.allM f = .ok true) :
    ∀ a ∈ as, f a = .ok true := by
  induction as with
  | nil => exact nofun
  | cons a as ih =>
    rw [List.allM_cons] at h
    obtain ⟨b, hb, h⟩ := bind_eq_ok.1 h
    cases b with
    | true => exact List.forall_mem_cons.2 ⟨hb, ih h⟩
    | false => cases h

/-- A test of all entries that cannot fail says whether every entry passes. -/
theorem allM_ok {f : α → Except ε Bool} {as : List α} (h : ∀ a ∈ as, ∃ b, f a = .ok b) :
    ∃ b, as.allM f = .ok b ∧ (b = true ↔ ∀ a ∈ as, f a = .ok true) := by
  induction as with
  | nil => exact ⟨true, rfl, by simp⟩
  | cons a as ih =>
    obtain ⟨b, hb⟩ := h a List.mem_cons_self
    obtain ⟨c, hc, hiff⟩ := ih fun x hx => h x (List.mem_cons_of_mem _ hx)
    rw [List.allM_cons, hb]
    cases b with
    | true => exact ⟨c, hc, by rw [hiff]; simp [hb]⟩
    | false => exact ⟨false, rfl, by simp [hb]⟩

/-- If the test of an entry says whether `P` holds of it, that of all entries says whether `P` holds of
all. -/
theorem allM_iff {f : α → Except ε Bool} {P : α → Prop} {as : List α}
    (h : ∀ a ∈ as, ∃ b, f a = .ok b ∧ (b = true ↔ P a)) :
    ∃ b, as.allM f = .ok b ∧ (b = true ↔ ∀ a ∈ as, P a) := by
  obtain ⟨b, hb, hiff⟩ := allM_ok fun a ha => (h a ha).imp fun _ hb => hb.1
  refine ⟨b, hb, hiff.trans (forall₂_congr fun a ha => ?_)⟩
  obtain ⟨c, hc, hP⟩ := h a ha
  rw [hc, Except.ok.injEq, hP]

end Loops

/-! ## The reach of an extent -/

namespace Extent

/-- The reach, which every extent has. -/
def span (e : Extent w) : Span where
  start := e.origin.lo
  stop := if e.length.hi ≤ 0 then e.origin.lo else w.add e.origin.hi e.length.hi
  start_le_stop := by
    split
    · exact Int.le_refl _
    · next h =>
      have := e.origin.lo_le_hi
      have := e.hi_le_add e.length.hi (by omega)
      omega

/-- The reach of an extent is never at fault. -/
theorem reach_eq (e : Extent w) : e.reach = .ok e.span := by
  obtain ⟨x, hx, hstart, hstop⟩ := e.reach_eq_ok
  rw [hx, Span.ext (s := x) (t := e.span) hstart hstop]

end Extent

/-- The domain with one value. -/
def Domain.single (x : Int) (h : w.Holds x) : Domain w := ⟨x, x, Int.le_refl x, h, h⟩

/-- The store at the root that has a variable for each of the given domains. -/
def Store.ofDomains (ds : List (Domain w)) : Store w := ds.foldl (fun s d => (s.newVar d).2) .empty

/-- The store at the root whose variables have the given bounds, less bounds of no domain. -/
def Store.ofBounds (bounds : List (Int × Int)) : Store w :=
  .ofDomains (bounds.filterMap fun b => (Domain.make w b.1 b.2).toOption)

/-- Zero is a value of every width. -/
theorem Width.holds_zero (w : Width) : w.Holds 0 := w.holds_of_small (by decide) (by decide)

namespace Store

/-! ## The domain of a variable that exists -/

/-- The domain of a variable. A missing variable has the domain `0 … 0` here. -/
def dom (s : Store w) (v : Var) : Domain w :=
  match s.cells[v.val]? with
  | some c => c.domain
  | none => .single 0 w.holds_zero

/-- The domain of a variable that exists is the one in its cell. -/
theorem dom_of_cell {s : Store w} {v : Var} {c : Cell w} (h : s.cells[v.val]? = some c) :
    s.dom v = c.domain := by
  unfold dom
  rw [h]

/-- The domain of a variable that exists can be read. -/
theorem domain_eq {s : Store w} {v : Var} (h : v.val < s.cells.length) : s.domain v = .ok (s.dom v) := by
  have hc := List.getElem?_eq_getElem h
  rw [dom_of_cell hc]
  exact domain_eq_ok.2 ⟨_, hc, rfl⟩

/-- What the store knows of one side. -/
def look (s : Store w) (side : Side) : Extent w := ⟨s.dom side.origin, s.dom side.length⟩

end Store

/-! ## A rectangle whose variables exist -/

namespace Rectangle

/-- All variables of the rectangle exist. -/
def Known (r : Rectangle) (s : Store w) : Prop := ∀ v ∈ r.vars, v.val < s.cells.length

instance decidableKnown (r : Rectangle) (s : Store w) : Decidable (r.Known s) :=
  inferInstanceAs (Decidable (∀ v ∈ r.vars, _))

/-- The extents of the rectangle. -/
def view (r : Rectangle) (s : Store w) : List (Extent w) := r.sides.map s.look

/-- A rectangle shows one extent per dimension. -/
@[simp] theorem length_view (r : Rectangle) (s : Store w) : (r.view s).length = r.dim :=
  List.length_map ..

variable {r : Rectangle} {s : Store w} {i : Nat}

/-- The origins of a known rectangle exist. -/
theorem Known.origin (h : r.Known s) {side : Side} (hs : side ∈ r.sides) :
    side.origin.val < s.cells.length :=
  h _ (List.mem_append_left _ (List.mem_map.2 ⟨side, hs, rfl⟩))

/-- The lengths of a known rectangle exist. -/
theorem Known.length (h : r.Known s) {side : Side} (hs : side ∈ r.sides) :
    side.length.val < s.cells.length :=
  h _ (List.mem_append_right _ (List.mem_map.2 ⟨side, hs, rfl⟩))

/-- Along every side, the extent of a known rectangle can be read. -/
theorem Known.extent_eq_look (h : r.Known s) {side : Side} (hs : side ∈ r.sides) :
    s.extent side = .ok (s.look side) := by
  unfold Store.extent
  rw [Store.domain_eq (h.origin hs), Store.domain_eq (h.length hs)]
  rfl

/-- The extents of a known rectangle are what it shows. -/
theorem Known.extents_eq (h : r.Known s) : r.extents s = .ok (r.view s) :=
  mapM_eq_map fun _ hs => h.extent_eq_look hs

/-- What a rectangle shows along a dimension is the extent of that side. -/
theorem view_getElem? (r : Rectangle) (s : Store w) (i : Nat) :
    (r.view s)[i]? = r.sides[i]?.map s.look := List.getElem?_map ..

/-- The extent along a dimension is an entry of the view. -/
theorem Known.extent_eq (h : r.Known s) {e : Extent w} (he : (r.view s)[i]? = some e) :
    r.extent s i = .ok e := by
  rw [view_getElem?, Option.map_eq_some_iff] at he
  obtain ⟨side, hside, rfl⟩ := he
  unfold extent Rectangle.side
  rw [entry_eq_ok.2 hside]
  exact h.extent_eq_look (List.mem_of_getElem? hside)

/-- The mandatory part of a known rectangle along a dimension is that of its extent. -/
theorem Known.mandatory?_eq (h : r.Known s) {e : Extent w} (he : (r.view s)[i]? = some e) :
    r.mandatory? s i = .ok e.mandatory? := by
  unfold mandatory?
  rw [h.extent_eq he]
  rfl

/-- The least length of a known rectangle along a dimension is that of its extent. -/
theorem Known.minLength_eq (h : r.Known s) {e : Extent w} (he : (r.view s)[i]? = some e) :
    r.minLength s i = .ok e.length.lo := by
  rw [view_getElem?, Option.map_eq_some_iff] at he
  obtain ⟨side, hside, rfl⟩ := he
  unfold minLength Rectangle.side
  refine bind_eq_ok.2 ⟨side, entry_eq_ok.2 hside, bind_eq_ok.2 ⟨_, ?_, rfl⟩⟩
  exact Store.domain_eq (h.length (List.mem_of_getElem? hside))

/-- The domains of all lengths of a known rectangle can be read. -/
theorem Known.domain_length (h : r.Known s) : ∀ l ∈ r.lengths, s.domain l = .ok (s.dom l) :=
  fun l hl => Store.domain_eq (h l (List.mem_append_right _ hl))

/-- A known rectangle has a zero extent if some least length is not positive. -/
theorem Known.hasZeroExtent_eq (h : r.Known s) :
    r.hasZeroExtent s = .ok ((r.view s).any fun e => e.length.lo ≤ 0) := by
  have hl : r.hasZeroExtent s = .ok (r.lengths.any fun l => (s.dom l).lo ≤ 0) :=
    anyM_eq_any fun l hl => by rw [h.domain_length l hl]; rfl
  rw [hl, lengths, view, List.any_map, List.any_map]
  rfl

/-- A known rectangle has a negative length if some least length is negative. -/
theorem Known.hasNegativeLength_eq (h : r.Known s) :
    r.hasNegativeLength s = .ok ((r.view s).any fun e => e.length.lo < 0) := by
  have hl : r.hasNegativeLength s = .ok (r.lengths.any fun l => (s.dom l).lo < 0) :=
    anyM_eq_any fun l hl => by rw [h.domain_length l hl]; rfl
  rw [hl, lengths, view, List.any_map, List.any_map]
  rfl

/-- The least area of a known rectangle is the product of its least lengths, negative ones taken as
zero. -/
theorem Known.minArea_eq (h : r.Known s) :
    r.minArea s = .ok (w.product ((r.view s).map fun e => max e.length.lo 0)) := by
  unfold minArea
  rw [mapM_eq_map h.domain_length, view, lengths, List.map_map, List.map_map]
  refine congrArg (fun l => Except.ok (w.product l)) ?_
  rw [List.map_map]
  rfl

end Rectangle

/-! ## Domains that shrink -/

/-- The domain is part of another one. -/
def Domain.Within (d e : Domain w) : Prop := e.lo ≤ d.lo ∧ d.hi ≤ e.hi

/-- Every domain is a part of itself. -/
theorem Domain.Within.refl (d : Domain w) : d.Within d := ⟨Int.le_refl _, Int.le_refl _⟩

/-- A part of a part of a domain is a part of it. -/
theorem Domain.Within.trans {d e f : Domain w} (h : d.Within e) (h' : e.Within f) : d.Within f :=
  ⟨Int.le_trans h'.1 h.1, Int.le_trans h.2 h'.2⟩

/-- Domains that are parts of each other are equal. -/
theorem Domain.Within.antisymm {d e : Domain w} (h : d.Within e) (h' : e.Within d) : d = e := by
  obtain ⟨lo, hi, _, _, _⟩ := d
  obtain ⟨lo', hi', _, _, _⟩ := e
  obtain rfl : lo = lo' := Int.le_antisymm h'.1 h.1
  obtain rfl : hi = hi' := Int.le_antisymm h.2 h'.2
  rfl

/-- Restricting a domain leaves a part of it. -/
theorem Domain.within_of_restrict? {d e : Domain w} {lo hi : Int} (h : d.restrict? lo hi = some e) :
    e.Within d := by
  have hlo := (mem_restrict? h e.lo).1 ⟨Int.le_refl _, e.lo_le_hi⟩
  have hhi := (mem_restrict? h e.hi).1 ⟨e.lo_le_hi, Int.le_refl _⟩
  exact ⟨hlo.1.1, hhi.1.2⟩

/-- Origin and length are parts of those of another extent. -/
structure Extent.Within (d e : Extent w) : Prop where
  origin : d.origin.Within e.origin
  length : d.length.Within e.length

/-- **A reach only loses points.** -/
theorem Extent.Within.mem_span {d e : Extent w} (h : d.Within e) {p : Int} (hp : p ∈ d.span) :
    p ∈ e.span := by
  obtain ⟨⟨holo, hohi⟩, ⟨hllo, hlhi⟩⟩ := h
  rw [Span.mem_iff] at hp ⊢
  obtain ⟨hstart, hstop⟩ := hp
  simp only [span] at hstart hstop ⊢
  have hmono := w.clamp_mono (Int.add_le_add hohi hlhi)
  refine ⟨Int.le_trans holo hstart, ?_⟩
  rw [if_neg (by split at hstop <;> omega)]
  split at hstop
  · omega
  · exact Int.lt_of_lt_of_le hstop hmono

/-- **A mandatory part only gains points.** -/
theorem Extent.Within.mandatory? {d e : Extent w} (h : d.Within e) {m : Span}
    (hm : e.mandatory? = some m) :
    ∃ n, d.mandatory? = some n ∧ n.start ≤ m.start ∧ m.stop ≤ n.stop := by
  obtain ⟨⟨holo, hohi⟩, ⟨hllo, hlhi⟩⟩ := h
  unfold Extent.mandatory? Span.make? at hm ⊢
  split at hm
  · next hle =>
    cases hm
    have hmono := w.clamp_mono (Int.add_le_add holo hllo)
    have hle' : d.origin.hi ≤ w.add d.origin.lo d.length.lo :=
      Int.le_trans hohi (Int.le_trans hle hmono)
    rw [dif_pos hle']
    exact ⟨_, rfl, hohi, hmono⟩
  · cases hm

/-- A mandatory part only grows as extents shrink. -/
theorem Extent.mandatory?_of_within {ds es : List (Extent w)} (h : List.Forall₂ Extent.Within ds es) {j : Nat}
    {e : Extent w} {m : Span} (he : es[j]? = some e) (hm : e.mandatory? = some m) :
    ∃ d n, ds[j]? = some d ∧ d.mandatory? = some n ∧ ∀ p ∈ m, p ∈ n := by
  obtain ⟨hlen, hget⟩ := List.forall₂_iff_get.1 h
  obtain ⟨hj, rfl⟩ := List.getElem?_eq_some_iff.1 he
  obtain ⟨n, hn, hstart, hstop⟩ := (hget j (hlen ▸ hj) hj).mandatory? hm
  refine ⟨_, n, List.getElem?_eq_getElem (hlen ▸ hj), hn, fun p hp => ?_⟩
  exact ⟨Int.le_trans hstart hp.1, Int.lt_of_lt_of_le hp.2 hstop⟩

namespace Store

variable {s t u : Store w}

/-- The variables still exist, with domains that are parts of the old ones. -/
structure Shrinks (s t : Store w) : Prop where
  length_le : s.cells.length ≤ t.cells.length
  within : ∀ v : Var, v.val < s.cells.length → (t.dom v).Within (s.dom v)

/-- Every store has shrunk to itself. -/
theorem Shrinks.refl (s : Store w) : Shrinks s s := ⟨Nat.le_refl _, fun _ _ => .refl _⟩

/-- Shrinking twice is shrinking. -/
theorem Shrinks.trans (h : Shrinks s t) (h' : Shrinks t u) : Shrinks s u :=
  ⟨Nat.le_trans h.length_le h'.length_le, fun v hv =>
    (h'.within v (Nat.lt_of_lt_of_le hv h.length_le)).trans (h.within v hv)⟩

/-- A rectangle that is known stays known. -/
theorem Shrinks.known (h : Shrinks s t) {r : Rectangle} (hr : r.Known s) : r.Known t :=
  fun v hv => Nat.lt_of_lt_of_le (hr v hv) h.length_le

/-- The extent of a known rectangle along a side only shrinks. -/
theorem Shrinks.look (h : Shrinks s t) {r : Rectangle} (hr : r.Known s) {side : Side}
    (hs : side ∈ r.sides) : (t.look side).Within (s.look side) :=
  ⟨h.within _ (hr.origin hs), h.within _ (hr.length hs)⟩

/-- Variables that exist keep their domains. -/
theorem Shrinks.of_domains (more : List (Domain w))
    (h : t.cells.map Cell.domain = s.cells.map Cell.domain ++ more) : Shrinks s t := by
  refine ⟨?_, fun v hv => ?_⟩
  · have := congrArg List.length h
    simp only [List.length_map, List.length_append] at this
    omega
  · have hget : t.cells[v.val]?.map Cell.domain = s.cells[v.val]?.map Cell.domain := by
      have := congrArg (·[v.val]?) h
      rwa [List.getElem?_append_left (by simpa using hv), List.getElem?_map, List.getElem?_map] at this
    rw [List.getElem?_eq_getElem hv] at hget
    obtain ⟨c, hc, hdom⟩ := Option.map_eq_some_iff.1 hget
    rw [dom_of_cell hc, dom_of_cell (List.getElem?_eq_getElem hv), hdom]
    exact .refl _

/-- Where one cell is replaced, the other domains stay. -/
theorem dom_set {s : Store w} {v : Var} (hv : v.val < s.cells.length) (c : Cell w) (tr : Trail w)
    (x : Var) : dom { s with cells := s.cells.set v.val c, trail := tr } x =
      if x = v then c.domain else s.dom x := by
  unfold dom
  dsimp only
  rw [List.getElem?_set]
  by_cases hx : x = v
  · subst hx
    simp [hv]
  · have : v.val ≠ x.val := fun h => hx (by cases x; cases v; exact congrArg _ h.symm)
    rw [if_neg this, if_neg hx]

/-- Clearing what is pending leaves all domains. -/
@[simp] theorem dom_clearPending (s : Store w) (v : Var) : s.clearPending.dom v = s.dom v := by
  unfold dom clearPending
  dsimp only
  rw [List.getElem?_map]
  cases s.cells[v.val]? <;> rfl

/-- Narrowing a domain shrinks the store. -/
theorem shrinks_setBounds {v : Var} {lo hi : Int} {b : Bool} (h : s.setBounds v lo hi = .ok (b, t)) :
    Shrinks s t := by
  obtain ⟨c, d, hc, hd, ⟨-, -, rfl⟩ | ⟨-, -, rfl⟩⟩ := setBounds_eq_ok h
  · exact .refl _
  obtain ⟨hv, -⟩ := List.getElem?_eq_some_iff.1 hc
  refine ⟨Nat.le_of_eq (List.length_set ..).symm, fun x _ => ?_⟩
  rw [dom_set hv]
  split
  · next hx =>
    subst hx
    rw [dom_of_cell hc]
    exact Domain.within_of_restrict? hd
  · exact .refl _

/-- **Writes shrink domains.** -/
theorem Write.shrinks (h : Write s t) : Shrinks s t := by
  cases h with
  | bounds h => exact shrinks_setBounds h
  | slot h =>
    obtain ⟨a, -, rfl⟩ := setSnapshot_eq_ok.1 h
    exact .of_domains [] (List.append_nil _).symm
  | touch h =>
    obtain ⟨c, hc, rfl⟩ := touch_eq_ok.1 h
    obtain ⟨hv, rfl⟩ := List.getElem?_eq_some_iff.1 hc
    refine .of_domains [] ((List.ext_getElem? fun i => ?_).trans (List.append_nil _).symm)
    simp only [List.getElem?_map, List.getElem?_set]
    split
    · next hi => subst hi; simp [hv]
    · rfl
  | clear =>
    refine .of_domains [] (Eq.trans ?_ (List.append_nil _).symm)
    simp [clearPending, Function.comp_def]

/-- Any sequence of writes shrinks the store. -/
theorem Writes.shrinks (h : Writes s t) : Shrinks s t := by
  induction h with
  | refl => exact .refl _
  | tail _ hw ih => exact ih.trans hw.shrinks

end Store
end Placement
