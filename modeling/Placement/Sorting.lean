/-
# Sorting by a key

A `Sorter` sorts lists by an integer key. It carries the proofs that it permutes and
that it sorts, and says nothing else: in which order elements of equal key come out is
its own affair, so what is proved of every sorter holds of stable and unstable sorts
alike.

Insertion sort is the stable one: elements of equal key keep their order. Both of its
recursions follow the list, so a sorted list is also computed inside a proof.
-/

namespace Placement

variable {α : Type}

/-- Inserts `a` before the first element of a larger or equal key. -/
def insertOn (key : α → Int) (a : α) : List α → List α
  | [] => [a]
  | b :: bs => if key a ≤ key b then a :: b :: bs else b :: insertOn key a bs

/-- Sorts by `key`, ascending. -/
def sortOn (key : α → Int) : List α → List α
  | [] => []
  | a :: as => insertOn key a (sortOn key as)

/-- Inserting adds one element. -/
theorem insertOn_perm (key : α → Int) (a : α) (as : List α) :
    (insertOn key a as).Perm (a :: as) := by
  induction as with
  | nil => exact .refl _
  | cons b bs ih =>
    simp only [insertOn]
    split
    · exact .refl _
    · exact (ih.cons b).trans (.swap a b bs)

/-- Sorting by insertion permutes. -/
theorem sortOn_perm (key : α → Int) (as : List α) : (sortOn key as).Perm as := by
  induction as with
  | nil => exact .refl _
  | cons a as ih => exact (insertOn_perm key a _).trans (ih.cons a)

/-- A sorted list stays sorted when an element is inserted. -/
theorem pairwise_insertOn (key : α → Int) (a : α) {as : List α}
    (h : as.Pairwise (fun x y => key x ≤ key y)) :
    (insertOn key a as).Pairwise (fun x y => key x ≤ key y) := by
  induction as with
  | nil => simp [insertOn]
  | cons b bs ih =>
    obtain ⟨hb, hbs⟩ := List.pairwise_cons.1 h
    simp only [insertOn]
    split
    · next hab =>
      refine List.pairwise_cons.2 ⟨fun x hx => ?_, h⟩
      rcases List.mem_cons.1 hx with rfl | hx
      · exact hab
      · exact Int.le_trans hab (hb x hx)
    · next hab =>
      refine List.pairwise_cons.2 ⟨fun x hx => ?_, ih hbs⟩
      rcases List.mem_cons.1 ((insertOn_perm key a bs).mem_iff.1 hx) with rfl | hx
      · omega
      · exact hb x hx

/-- Sorting by insertion sorts. -/
theorem pairwise_sortOn (key : α → Int) (as : List α) :
    (sortOn key as).Pairwise (fun x y => key x ≤ key y) := by
  induction as with
  | nil => exact .nil
  | cons a as ih => exact pairwise_insertOn key a ih

/-- A way to sort lists by a key, with any order among elements of equal key. -/
structure Sorter (key : α → Int) where
  sort : List α → List α
  perm : ∀ as, (sort as).Perm as
  sorted : ∀ as, (sort as).Pairwise fun a b => key a ≤ key b

/-- Insertion sort: elements of equal key keep their order. -/
def Sorter.stable (key : α → Int) : Sorter key := ⟨sortOn key, sortOn_perm key, pairwise_sortOn key⟩

end Placement
