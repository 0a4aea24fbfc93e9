/-
# The canonical form of a union of intervals

`merge` turns a list of intervals into the ascending list of its maximal
stretches: empty intervals go, the rest is sorted by start, and neighbours that
meet or touch are joined (`compact`).

They are joined in the array that holds them: one index reads, and one that never
catches up with it writes. So no interval is overwritten before it is read, and
the outcome is that of joining along the list (`compact_eq_coalesce`).
-/

import Placement.Span
import Placement.Sorting

namespace Placement
namespace Span

/-- Joins `first` with the intervals of `rest` as long as they meet or touch. -/
def coalesceFrom (first : Span) : List Span → List Span
  | [] => [first]
  | next :: rest =>
    match first.join? next with
    | some joined => coalesceFrom joined rest
    | none => first :: coalesceFrom next rest

/-- Joins neighbours that meet or touch. -/
def coalesce : List Span → List Span
  | [] => []
  | first :: rest => coalesceFrom first rest

/-- Intervals on the way to being joined in one array: those in the cells before `write` are done, the one
at `write` may still grow, and those from `read` on have not been read. -/
structure Compaction where
  cells : Array Span
  write : Nat
  read : Nat
  write_lt_read : write < read
  read_le_size : read ≤ cells.size

namespace Compaction

/-- The cell that is written exists. -/
theorem write_lt_size (c : Compaction) : c.write < c.cells.size :=
  Nat.lt_of_lt_of_le c.write_lt_read c.read_le_size

/-- The interval that may still grow. -/
def current (c : Compaction) : Span :=
  have := c.write_lt_size
  c.cells[c.write]

/-- Reads the next interval: the current one grows by it, or is done and gives way to it. -/
def advance (c : Compaction) (hread : c.read < c.cells.size) : Compaction :=
  have hwrite := c.write_lt_read
  match c.current.join? c.cells[c.read] with
  | some joined =>
    ⟨c.cells.set c.write joined, c.write, c.read + 1, by omega, by rw [Array.size_set]; omega⟩
  | none =>
    ⟨c.cells.set (c.write + 1) c.cells[c.read], c.write + 1, c.read + 1, by omega,
      by rw [Array.size_set]; omega⟩

/-- One step reads one cell. -/
@[simp] theorem read_advance (c : Compaction) (hread : c.read < c.cells.size) :
    (c.advance hread).read = c.read + 1 := by
  unfold advance
  split <;> rfl

/-- No step changes the number of cells. -/
@[simp] theorem size_advance (c : Compaction) (hread : c.read < c.cells.size) :
    (c.advance hread).cells.size = c.cells.size := by
  unfold advance
  split <;> simp

/-- Reads the `n` intervals that are left, and drops the cells after the last one written. -/
def finish : (n : Nat) → (c : Compaction) → c.read + n = c.cells.size → List Span
  | 0, c, _ => c.cells.toList.take (c.write + 1)
  | n + 1, c, h => finish n (c.advance (by omega)) (by rw [read_advance, size_advance]; omega)

/-- What joining the intervals along the list gives: those that are done, and the current one joined with
the unread ones. -/
def outcome (c : Compaction) : List Span :=
  c.cells.toList.take c.write ++ coalesceFrom c.current (c.cells.toList.drop c.read)

/-- The cells that are done, and the current one. -/
theorem take_succ_write (c : Compaction) :
    c.cells.toList.take (c.write + 1) = c.cells.toList.take c.write ++ [c.current] :=
  (List.take_append_getElem c.write_lt_size).symm

/-- **Reading an interval does not change the outcome**, since no cell is written before it is read. -/
theorem outcome_advance (c : Compaction) (hread : c.read < c.cells.size) :
    (c.advance hread).outcome = c.outcome := by
  have hwrite := c.write_lt_read
  have hnext : c.cells.toList.drop c.read = c.cells[c.read] :: c.cells.toList.drop (c.read + 1) :=
    List.drop_eq_getElem_cons hread
  unfold outcome advance
  rw [hnext, coalesceFrom]
  cases hj : c.current.join? c.cells[c.read] with
  | some joined =>
    dsimp only [current]
    rw [Array.toList_set, List.take_set_of_le (Nat.le_refl _), List.drop_set_of_lt (by omega),
      Array.getElem_set_self]
  | none =>
    dsimp only [current]
    rw [Array.toList_set, List.take_set_of_le (Nat.le_refl _), List.drop_set_of_lt (by omega),
      Array.getElem_set_self, take_succ_write, List.append_assoc]
    rfl

/-- The loop over the cells that are left ends with the outcome. -/
theorem finish_eq_outcome (n : Nat) (c : Compaction) (h : c.read + n = c.cells.size) :
    finish n c h = c.outcome := by
  induction n generalizing c with
  | zero =>
    have hread : c.cells.toList.drop c.read = [] := List.drop_eq_nil_of_le (Nat.le_of_eq h.symm)
    rw [finish, outcome, hread, take_succ_write]
    rfl
  | succ n ih => rw [finish, ih, outcome_advance]

end Compaction

/-- Joins neighbours that meet or touch, in place. -/
def compact : List Span → List Span
  | [] => []
  | first :: rest =>
    Compaction.finish rest.length ⟨(first :: rest).toArray, 0, 1, Nat.zero_lt_one, Nat.succ_pos _⟩
      (Nat.add_comm ..)

/-- **Joining in place is joining from the left.** -/
theorem compact_eq_coalesce (spans : List Span) : compact spans = coalesce spans := by
  cases spans with
  | nil => rfl
  | cons first rest =>
    rw [compact, Compaction.finish_eq_outcome]
    rfl

/-- The maximal stretches covered by `spans`, ascending. -/
def merge (spans : List Span) : List Span :=
  compact (sortOn Span.start (spans.filter fun s => ¬ s.IsEmpty))

/-- Merging is sorting the spans that are not empty and joining from the left. -/
theorem merge_eq_coalesce (spans : List Span) :
    merge spans = coalesce (sortOn Span.start (spans.filter fun s => ¬ s.IsEmpty)) :=
  compact_eq_coalesce _

end Span

/-- Some interval of the list contains the point. -/
def Covered (spans : List Span) (p : Int) : Prop := ∃ s ∈ spans, p ∈ s

instance (spans : List Span) (p : Int) : Decidable (Covered spans p) :=
  inferInstanceAs (Decidable (∃ s ∈ spans, p ∈ s))

namespace Span

/-- Joining from the left onto a first span covers the points of all. -/
theorem covered_coalesceFrom (first : Span) (rest : List Span) (p : Int) :
    Covered (coalesceFrom first rest) p ↔ p ∈ first ∨ Covered rest p := by
  induction rest generalizing first with
  | nil => simp [coalesceFrom, Covered]
  | cons next rest ih =>
    simp only [coalesceFrom]
    split
    · next joined h =>
      rw [ih, mem_join? h]
      simp [Covered, or_assoc]
    · next h =>
      have := ih next
      simp only [Covered, List.mem_cons, exists_eq_or_imp] at this ⊢
      rw [this]

/-- Joining from the left covers the same points. -/
theorem covered_coalesce (spans : List Span) (p : Int) :
    Covered (coalesce spans) p ↔ Covered spans p := by
  cases spans with
  | nil => rfl
  | cons first rest =>
    rw [coalesce, covered_coalesceFrom]
    simp [Covered]

/-- Neither their order nor empty intervals matter to the points that intervals cover. -/
theorem covered_of_perm {sorted spans : List Span} (h : sorted.Perm (spans.filter fun s => ¬ s.IsEmpty))
    (p : Int) : Covered sorted p ↔ Covered spans p := by
  simp only [Covered, h.mem_iff, List.mem_filter, decide_eq_true_eq]
  refine ⟨fun ⟨s, ⟨hs, _⟩, hp⟩ => ⟨s, hs, hp⟩, fun ⟨s, hs, hp⟩ => ⟨s, ⟨hs, ?_⟩, hp⟩⟩
  exact fun h => isEmpty_iff.1 h p hp

/-- **Merging keeps the covered points.** -/
theorem covered_merge (spans : List Span) (p : Int) :
    Covered (merge spans) p ↔ Covered spans p := by
  rw [merge_eq_coalesce, covered_coalesce, covered_of_perm (sortOn_perm _ _)]

end Span
end Placement
