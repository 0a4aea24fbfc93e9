/-
# Boxes of lattice points

A box is one half-open interval per dimension, given by its two ends; it is empty if the ends
of some dimension are not in order. Its volume is the number of its lattice points
(`Box.card_cells`), so everything that is said of volumes reduces to counting points:

* boxes without a common point that lie in one box have volumes that add up to at most its
  volume (`Box.sum_volume_le`);
* a saturating product of lengths is the volume, cut off at the end of the width
  (`Box.product_eq_clamp_volume`), and a saturating sum is at most the sum.
-/

import Placement.Width
import Mathlib.Algebra.BigOperators.Group.List.Basic
import Mathlib.Algebra.Order.BigOperators.Group.List
import Mathlib.Data.Finset.NAry
import Mathlib.Data.List.Forall2
import Mathlib.Data.Finset.Range
import Mathlib.Tactic.Linarith

namespace Placement

/-! ## Saturating arithmetic on what is not negative -/

namespace Width

variable {w : Width} {x y : Int}

/-- Clamping leaves values at or above zero there. -/
theorem clamp_nonneg (h : 0 ≤ x) : 0 ≤ w.clamp x := by
  have := w.clamp_mono h
  rwa [clamp_of_holds (w.holds_of_small (by decide) (by decide))] at this

/-- Clamping does not raise a value that is not negative. -/
theorem clamp_le_self (h : 0 ≤ x) : w.clamp x ≤ x := by
  cases w with
  | word top _ => simp only [clamp]; split <;> (try split) <;> omega
  | unbounded => exact le_refl x

/-- A clamped factor does not change a clamped product. -/
theorem clamp_clamp_mul (hx : 0 ≤ x) (hy : 0 ≤ y) : w.clamp (w.clamp x * y) = w.clamp (x * y) := by
  cases w with
  | unbounded => rfl
  | word top htop =>
    rcases le_or_gt x top with hle | hgt
    · rw [clamp_of_holds (show (word top htop).Holds x from ⟨by omega, hle⟩)]
    · have hx' : (word top htop).clamp x = top := by
        simp only [clamp]
        split <;> omega
      rw [hx']
      rcases hy.eq_or_lt with rfl | hy
      · simp
      · have h₁ : top ≤ top * y := le_mul_of_one_le_right (by omega) hy
        have h₂ : x ≤ x * y := le_mul_of_one_le_right hx hy
        simp only [clamp]
        repeat' split
        all_goals omega

/-- **A saturating product is the product, cut off at the end of the width.** -/
theorem product_eq_clamp {xs : List Int} (h : ∀ x ∈ xs, 0 ≤ x) : w.product xs = w.clamp xs.prod := by
  -- the running product is always the clamped product of what was multiplied
  have run : ∀ a : Int, 0 ≤ a → xs.foldl w.mul (w.clamp a) = w.clamp (a * xs.prod) := by
    induction xs with
    | nil => intro a _; simp
    | cons x xs ih =>
      intro a ha
      have hx := h x List.mem_cons_self
      rw [List.foldl_cons, List.prod_cons, ← mul_assoc, mul, clamp_clamp_mul ha hx]
      exact ih (fun y hy => h y (List.mem_cons_of_mem _ hy)) (a * x) (mul_nonneg ha hx)
  have := run 1 (by decide)
  rwa [clamp_of_holds (w.holds_of_small (by decide) (by decide)), one_mul] at this

end Width

/-- Lists that are related entry by entry have a partner for every entry. -/
theorem exists_of_forall₂ {α β : Type} {R : α → β → Prop} {as : List α} {bs : List β}
    (h : List.Forall₂ R as bs) {a : α} (ha : a ∈ as) : ∃ b ∈ bs, R a b := by
  induction h with
  | nil => cases ha
  | cons hab _ ih =>
    rcases List.mem_cons.1 ha with rfl | ha
    · exact ⟨_, List.mem_cons_self, hab⟩
    · obtain ⟨b, hb, hR⟩ := ih ha
      exact ⟨b, List.mem_cons_of_mem _ hb, hR⟩

/-- A product without negative factors is not negative. -/
theorem prod_nonneg_of_forall {xs : List Int} (h : ∀ x ∈ xs, 0 ≤ x) : 0 ≤ xs.prod := by
  induction xs with
  | nil => decide
  | cons x xs ih =>
    rw [List.prod_cons]
    exact mul_nonneg (h x List.mem_cons_self) (ih fun y hy => h y (List.mem_cons_of_mem _ hy))

/-- A product of factors that are not negative grows with each of them. -/
theorem prod_le_prod_of_forall₂ {xs ys : List Int} (h : List.Forall₂ (fun x y => 0 ≤ x ∧ x ≤ y) xs ys) :
    (∀ x ∈ xs, 0 ≤ x) ∧ xs.prod ≤ ys.prod := by
  induction h with
  | nil => exact ⟨nofun, le_refl _⟩
  | @cons x y xs ys hxy _ ih =>
    refine ⟨List.forall_mem_cons.2 ⟨hxy.1, ih.1⟩, ?_⟩
    rw [List.prod_cons, List.prod_cons]
    exact mul_le_mul hxy.2 ih.2 (prod_nonneg_of_forall ih.1) (le_trans hxy.1 hxy.2)

/-! ## Boxes -/

/-- One half-open interval `[s.1, s.2)` per dimension. -/
abbrev Box := List (Int × Int)

namespace Box

/-- The integers of an interval. -/
def points (s : Int × Int) : Finset Int :=
  (Finset.range (s.2 - s.1).toNat).image fun n : Nat => s.1 + n

/-- The points of a side are those from its start to before its stop. -/
theorem mem_points {s : Int × Int} {x : Int} : x ∈ points s ↔ s.1 ≤ x ∧ x < s.2 := by
  unfold points
  rw [Finset.mem_image]
  constructor
  · rintro ⟨n, hn, rfl⟩
    rw [Finset.mem_range] at hn
    omega
  · intro h
    exact ⟨(x - s.1).toNat, Finset.mem_range.2 (by omega), by omega⟩

/-- A side has as many points as it is long, and none if it is not. -/
theorem card_points (s : Int × Int) : (points s).card = (s.2 - s.1).toNat := by
  unfold points
  have hinj : Function.Injective fun n : Nat => s.1 + n := fun m n h => by
    dsimp only at h
    omega
  rw [Finset.card_image_of_injective _ hinj, Finset.card_range]

/-- The lattice points of a box. -/
def cells : Box → Finset (List Int)
  | [] => {[]}
  | s :: b => Finset.image₂ List.cons (points s) (cells b)

/-- A cell lies in a box if its coordinates lie in its sides. -/
theorem mem_cells {b : Box} {p : List Int} :
    p ∈ cells b ↔ List.Forall₂ (fun x (s : Int × Int) => s.1 ≤ x ∧ x < s.2) p b := by
  induction b generalizing p with
  | nil => simp [cells]
  | cons s b ih =>
    rw [cells, Finset.mem_image₂, List.forall₂_cons_right_iff]
    constructor
    · rintro ⟨x, hx, q, hq, rfl⟩
      exact ⟨x, q, mem_points.1 hx, ih.1 hq, rfl⟩
    · rintro ⟨x, q, hx, hq, rfl⟩
      exact ⟨x, mem_points.2 hx, q, ih.2 hq, rfl⟩

/-- The cells of a box of one side are the points of that side. -/
theorem mem_cells_single {s : Int × Int} {p : List Int} :
    p ∈ cells [s] ↔ ∃ x, p = [x] ∧ s.1 ≤ x ∧ x < s.2 := by
  rw [mem_cells, List.forall₂_cons_right_iff]
  constructor
  · rintro ⟨x, q, hx, hq, rfl⟩
    cases hq
    exact ⟨x, rfl, hx⟩
  · rintro ⟨x, rfl, hx⟩
    exact ⟨x, [], hx, .nil, rfl⟩

/-- The number of lattice points. -/
def volume (b : Box) : Int := (b.map fun s => max 0 (s.2 - s.1)).prod

/-- A volume is not negative. -/
theorem volume_nonneg (b : Box) : 0 ≤ volume b :=
  prod_nonneg_of_forall fun x hx => by
    obtain ⟨s, -, rfl⟩ := List.mem_map.1 hx
    exact le_max_left _ _

/-- **A saturating product of lengths is the volume of a box with these lengths**, cut off at the end
of the width. -/
theorem product_eq_clamp_volume {β : Type} {w : Width} {xs : List β} {f : β → Int} {b : β → Int × Int}
    (h : ∀ x ∈ xs, f x = max 0 ((b x).2 - (b x).1)) :
    w.product (xs.map f) = w.clamp (volume (xs.map b)) := by
  have hmap : (xs.map b).map (fun s => max 0 (s.2 - s.1)) = xs.map f := by
    rw [List.map_map]
    exact List.map_congr_left fun x hx => (h x hx).symm
  rw [volume, hmap, Width.product_eq_clamp]
  intro y hy
  obtain ⟨x, hx, rfl⟩ := List.mem_map.1 hy
  rw [h x hx]
  exact le_max_left _ _

/-- The volume of a box of one side is the length of that side. -/
theorem volume_single (s : Int × Int) : volume [s] = max 0 (s.2 - s.1) := by
  rw [volume, List.map_singleton, List.prod_singleton]

/-- **The volume of a box is the number of its cells.** -/
theorem card_cells (b : Box) : ((cells b).card : Int) = volume b := by
  induction b with
  | nil => rfl
  | cons s b ih =>
    have hinj : Function.Injective2 (List.cons : Int → List Int → List Int) := fun _ _ _ _ h => by
      injection h with h₁ h₂
      exact ⟨h₁, h₂⟩
    rw [cells, Finset.card_image₂ hinj, volume, List.map_cons, List.prod_cons, Nat.cast_mul, ih,
      card_points, Int.toNat_eq_max, max_comm]
    rfl

/-- The two boxes have no common point. -/
def Clear (b c : Box) : Prop := ∀ p ∈ cells b, p ∉ cells c

/-- Parts of two boxes without a common cell have none either. -/
theorem Clear.mono {b c b' c' : Box} (h : Clear b c) (hb : cells b' ⊆ cells b) (hc : cells c' ⊆ cells c) :
    Clear b' c' := fun p hp hq => h p (hb hp) (hc hq)

/-- **Boxes without common points in one box have at most its volume.** -/
theorem sum_volume_le {c : Box} {bs : List Box} (hdis : bs.Pairwise Clear)
    (hsub : ∀ b ∈ bs, cells b ⊆ cells c) : (bs.map volume).sum ≤ volume c := by
  -- the boxes of a list together have as many points as their volumes say
  have union : ∃ u : Finset (List Int), (u.card : Int) = (bs.map volume).sum ∧
      ∀ p, p ∈ u ↔ ∃ b ∈ bs, p ∈ cells b := by
    clear hsub
    induction bs with
    | nil => exact ⟨∅, rfl, by simp⟩
    | cons b bs ih =>
      obtain ⟨hb, hbs⟩ := List.pairwise_cons.1 hdis
      obtain ⟨u, hcard, hmem⟩ := ih hbs
      refine ⟨(cells b).disjUnion u (Finset.disjoint_left.2 fun p hp hu => ?_), ?_, fun p => ?_⟩
      · obtain ⟨b', hb', hp'⟩ := (hmem p).1 hu
        exact hb b' hb' p hp hp'
      · rw [Finset.card_disjUnion, Nat.cast_add, card_cells, hcard, List.map_cons, List.sum_cons]
      · rw [Finset.mem_disjUnion, hmem]
        simp
  obtain ⟨u, hcard, hmem⟩ := union
  rw [← hcard, ← card_cells]
  refine Int.ofNat_le.2 (Finset.card_le_card fun p hp => ?_)
  obtain ⟨b, hb, hpb⟩ := (hmem p).1 hp
  exact hsub b hb hpb

/-- As many different points lie in a box at most as its volume says. -/
theorem length_le_volume {c : Box} {ps : List (List Int)} (hnd : ps.Nodup)
    (hsub : ∀ p ∈ ps, p ∈ cells c) : (ps.length : Int) ≤ volume c := by
  rw [← card_cells, ← List.toFinset_card_of_nodup hnd]
  exact Int.ofNat_le.2 (Finset.card_le_card fun p hp => hsub p (List.mem_toFinset.1 hp))

/-- The common part of two boxes. -/
def inter (b c : Box) : Box := List.zipWith (fun s t => (max s.1 t.1, min s.2 t.2)) b c

/-- The cells of an intersection are the common cells. -/
theorem mem_inter {b c : Box} (h : b.length = c.length) {p : List Int} :
    p ∈ cells (inter b c) ↔ p ∈ cells b ∧ p ∈ cells c := by
  simp only [mem_cells]
  induction b generalizing c p with
  | nil =>
    obtain rfl := List.length_eq_zero_iff.1 h.symm
    simp [inter]
  | cons s b ih =>
    cases c with
    | nil => simp at h
    | cons t c =>
      cases p with
      | nil => simp [inter]
      | cons x p =>
        have := ih (c := c) (p := p) (by simpa using h)
        simp only [inter, List.zipWith_cons_cons, List.forall₂_cons, max_le_iff, lt_min_iff] at this ⊢
        rw [this]
        tauto

/-- A box whose intervals are parts of those of another is part of it. -/
theorem cells_subset {b c : Box}
    (h : List.Forall₂ (fun s t : Int × Int => ∀ x, s.1 ≤ x → x < s.2 → t.1 ≤ x ∧ x < t.2) b c) :
    cells b ⊆ cells c := by
  intro p hp
  rw [mem_cells] at hp ⊢
  induction h generalizing p with
  | nil => exact hp
  | cons hst _ ih =>
    obtain ⟨x, q, hx, hq, rfl⟩ := List.forall₂_cons_right_iff.1 hp
    exact .cons (hst x hx.1 hx.2) (ih hq)

end Box
end Placement
