/-
# Half-open intervals

`Span` is the interval `[start, stop)` of integers. Two spans meet when they share
a point, so touching spans do not meet and an empty span meets nothing; they join
when they meet or touch.
-/

import Placement.Width

namespace Placement

/-- The half-open interval `[start, stop)`. -/
structure Span where
  start : Int
  stop : Int
  start_le_stop : start ≤ stop

namespace Span

/-- Spans of the same ends are equal. -/
theorem ext {s t : Span} (h₁ : s.start = t.start) (h₂ : s.stop = t.stop) : s = t := by
  cases s; cases t; cases h₁; cases h₂; rfl

instance : DecidableEq Span := fun s t =>
  decidable_of_iff (s.start = t.start ∧ s.stop = t.stop)
    ⟨fun h => ext h.1 h.2, fun h => h ▸ ⟨rfl, rfl⟩⟩

/-- The interval `[start, stop)`, or `none` if it is inverted. -/
def make? (start stop : Int) : Option Span :=
  if h : start ≤ stop then some ⟨start, stop, h⟩ else none

/-- A span that is made has the ends it is made of. -/
theorem make?_eq_some {start stop : Int} {s : Span} (h : make? start stop = some s) :
    s.start = start ∧ s.stop = stop := by
  simp only [make?] at h
  split at h
  · obtain rfl := Option.some.inj h
    exact ⟨rfl, rfl⟩
  · cases h

/-- The interval `[start, stop)`, which must not be inverted. -/
def make (start stop : Int) : Except Fault Span :=
  if h : start ≤ stop then .ok ⟨start, stop, h⟩ else .error .invertedSpan

/-- A span whose ends are in order is made without fault. -/
theorem make_of_le {start stop : Int} (h : start ≤ stop) : make start stop = .ok ⟨start, stop, h⟩ :=
  dif_pos h

/-- The empty interval at zero. -/
def zero : Span := ⟨0, 0, by decide⟩

/-- A point lies in the interval. -/
instance : Membership Int Span := ⟨fun s p => s.start ≤ p ∧ p < s.stop⟩

/-- A span holds its start and not its stop. -/
theorem mem_iff {s : Span} {p : Int} : p ∈ s ↔ s.start ≤ p ∧ p < s.stop := Iff.rfl

instance (p : Int) (s : Span) : Decidable (p ∈ s) := inferInstanceAs (Decidable (_ ∧ _))

/-- The number of points, clamped to the width. -/
def length (w : Width) (s : Span) : Int := w.sub s.stop s.start

/-- The interval has no point. -/
def IsEmpty (s : Span) : Prop := s.start = s.stop

instance (s : Span) : Decidable s.IsEmpty := inferInstanceAs (Decidable (_ = _))

/-- A span is empty exactly if it holds no point. -/
theorem isEmpty_iff {s : Span} : s.IsEmpty ↔ ∀ p, p ∉ s := by
  refine ⟨fun h p hp => ?_, fun h => ?_⟩
  · simp only [IsEmpty] at h; simp only [mem_iff] at hp; omega
  · have := s.start_le_stop
    have := h s.start
    simp only [mem_iff] at this
    simp only [IsEmpty]; omega

/-- The two intervals share a point. -/
def Meets (s t : Span) : Prop := max s.start t.start < min s.stop t.stop

instance (s t : Span) : Decidable (s.Meets t) := inferInstanceAs (Decidable (_ < _))

/-- Two spans meet exactly if they share a point. -/
theorem meets_iff {s t : Span} : s.Meets t ↔ ∃ p, p ∈ s ∧ p ∈ t := by
  simp only [Meets, mem_iff]
  refine ⟨fun h => ⟨max s.start t.start, by omega, by omega⟩, ?_⟩
  rintro ⟨p, _, _⟩
  omega

/-- The common part of two intervals that meet. -/
def inter? (s t : Span) : Option Span :=
  if h : max s.start t.start < min s.stop t.stop then
    some ⟨max s.start t.start, min s.stop t.stop, Int.le_of_lt h⟩
  else none

/-- A common part is not empty, and goes from the later start to the earlier stop. -/
theorem inter?_eq_some {s t u : Span} (h : s.inter? t = some u) :
    u.start < u.stop ∧ u.start = max s.start t.start ∧ u.stop = min s.stop t.stop := by
  simp only [inter?] at h
  split at h
  · obtain rfl := Option.some.inj h
    exact ⟨‹_›, rfl, rfl⟩
  · cases h

/-- The number of common points. -/
def overlap (w : Width) (s t : Span) : Int :=
  match s.inter? t with
  | some u => u.length w
  | none => 0

/-- The least interval that covers two intervals that meet or touch. -/
def join? (s t : Span) : Option Span :=
  if max s.start t.start ≤ min s.stop t.stop then
    some ⟨min s.start t.start, max s.stop t.stop,
      Int.le_trans (Int.min_le_left ..) (Int.le_trans s.start_le_stop (Int.le_max_left ..))⟩
  else none

/-- A joined span holds the points of both. -/
theorem mem_join? {s t u : Span} (h : s.join? t = some u) (p : Int) : p ∈ u ↔ p ∈ s ∨ p ∈ t := by
  have hs := s.start_le_stop
  have ht := t.start_le_stop
  simp only [join?] at h
  split at h
  · obtain rfl := Option.some.inj h
    simp only [mem_iff]
    omega
  · cases h

/-- Intervals are ordered by start, then by end. -/
protected def compare (s t : Span) : Ordering :=
  (Ord.compare s.start t.start).then (Ord.compare s.stop t.stop)

instance : Ord Span := ⟨Span.compare⟩

/-- The text of an interval, `[2, 7)`. -/
def text (s : Span) : String := s!"[{s.start}, {s.stop})"

end Span
end Placement
