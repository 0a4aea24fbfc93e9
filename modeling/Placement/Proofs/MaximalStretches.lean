/-
# Merged intervals depend on their points alone

Intervals are in canonical form (`Span.Canonical`) if none is empty and they ascend with a gap between
any two. They then outline the function that is one on the points they cover and zero elsewhere
(`Span.Canonical.outlines`), and since a function has one outline only, no other intervals in canonical
form cover the same points (`Span.Canonical.unique`).

Joining intervals sorted by start gives the canonical form, in whatever order those of equal start
stand (`Span.canonical_compact`). So the order cannot be seen in what merging gives, and neither can
duplicates, nesting or empty intervals (`Span.merge_canonical`).
-/

import Placement.Proofs.FeasibleOrigins
import Placement.Proofs.StepFunctions

namespace Placement
namespace Span

/-- Intervals that are not empty, in ascending order and with a gap between any two. -/
structure Canonical (spans : List Span) : Prop where
  nonempty : ∀ s ∈ spans, ¬ s.IsEmpty
  apart : spans.Pairwise fun s t => s.stop < t.start

/-- An interval that is not empty starts before it stops. -/
theorem start_lt_stop {s : Span} (h : ¬ s.IsEmpty) : s.start < s.stop :=
  Int.lt_iff_le_and_ne.2 ⟨s.start_le_stop, h⟩

/-- The stretches of height one over the intervals. -/
def raised (spans : List Span) : List Segment := spans.map fun s => ⟨s, 1⟩

/-- Intervals can be read off their stretches. -/
theorem raised_injective : Function.Injective raised :=
  List.map_injective_iff.2 fun _ _ h => congrArg Segment.span h

namespace Canonical

variable {spans others : List Span}

/-- **Intervals in canonical form outline the points that they cover.** -/
theorem outlines (h : Canonical spans) :
    Profile.Outlines (fun p => if Covered spans p then 1 else 0) (raised spans) where
  nonempty := by
    intro g hg
    obtain ⟨s, hs, rfl⟩ := List.mem_map.1 hg
    exact start_lt_stop (h.nonempty s hs)
  ne_zero := by
    intro g hg
    obtain ⟨s, -, rfl⟩ := List.mem_map.1 hg
    exact Int.one_ne_zero
  ascending := by
    refine List.pairwise_map.2 (h.apart.imp fun {s t} hgap => ⟨Int.le_of_lt hgap, fun htouch => ?_⟩)
    exact absurd htouch (Int.ne_of_lt hgap)
  height := by
    intro g hg p hp
    obtain ⟨s, hs, rfl⟩ := List.mem_map.1 hg
    exact if_pos ⟨s, hs, hp⟩
  complete := by
    intro p hne
    obtain ⟨s, hs, hp⟩ : Covered spans p := by
      by_contra hout
      exact hne (if_neg hout)
    exact ⟨⟨s, 1⟩, List.mem_map_of_mem hs, hp⟩

/-- **Only one list in canonical form covers given points.** -/
theorem unique (h : Canonical spans) (h' : Canonical others)
    (hsame : ∀ p, Covered spans p ↔ Covered others p) : spans = others := by
  have houtline := h'.outlines
  simp only [← hsame] at houtline
  exact raised_injective (h.outlines.unique houtline)

end Canonical

/-- **Joining intervals sorted by start gives the canonical form.** -/
theorem canonical_compact {sorted : List Span} (hne : ∀ s ∈ sorted, ¬ s.IsEmpty)
    (hsorted : sorted.Pairwise fun s t => s.start ≤ t.start) : Canonical (compact sorted) := by
  rw [compact_eq_coalesce]
  exact ⟨not_isEmpty_coalesce hne, pairwise_coalesce hsorted⟩

/-- Merging gives the canonical form. -/
theorem canonical_merge (spans : List Span) : Canonical (merge spans) :=
  ⟨not_isEmpty_merge spans, pairwise_merge spans⟩

/-- Intervals that are not empty have their ends in the width if all their points lie in intervals of the
width. -/
theorem fits_of_covered {w : Width} {spans others : List Span} (hfits : ∀ s ∈ spans, s.Fits w)
    (hne : ∀ s ∈ others, ¬ s.IsEmpty) (hsub : ∀ p, Covered others p → Covered spans p) :
    ∀ s ∈ others, s.Fits w := by
  intro s hs
  have hlt := start_lt_stop (hne s hs)
  -- the first and the last point of the interval
  obtain ⟨g, hg, hfirst₁, hfirst₂⟩ := hsub s.start ⟨s, hs, Int.le_refl _, hlt⟩
  obtain ⟨k, hk, hlast₁, hlast₂⟩ := hsub (s.stop - 1) ⟨s, hs, by omega, by omega⟩
  obtain ⟨hg₁, hg₂⟩ := hfits g hg
  obtain ⟨hk₁, hk₂⟩ := hfits k hk
  exact ⟨w.holds_between hg₁ hg₂ hfirst₁ (by omega), w.holds_between hk₁ hk₂ (by omega) (by omega)⟩

/-- **Merging gives a canonical form.** Whatever order the intervals of equal start are sorted in, joining
them in place gives the same list. It holds no empty interval, each interval stops before the next one
starts, and together they cover the points that the given intervals cover. So two lists merge into the same
one exactly if they cover the same points, and merging again changes nothing. No end leaves a width that
holds all ends of the given intervals. -/
theorem merge_canonical (spans : List Span) :
    (∀ sorted : List Span, sorted.Perm (spans.filter fun s => ¬ s.IsEmpty) →
      sorted.Pairwise (fun s t => s.start ≤ t.start) → compact sorted = merge spans) ∧
    (∀ s ∈ merge spans, ¬ s.IsEmpty) ∧
    (merge spans).Pairwise (fun s t => s.stop < t.start) ∧
    (∀ p, Covered (merge spans) p ↔ Covered spans p) ∧
    (∀ others : List Span, merge others = merge spans ↔ ∀ p, Covered others p ↔ Covered spans p) ∧
    merge (merge spans) = merge spans ∧
    ∀ w : Width, (∀ s ∈ spans, s.Fits w) → ∀ s ∈ merge spans, s.Fits w := by
  have hmerge := canonical_merge spans
  have hcovered := covered_merge spans
  refine ⟨fun sorted hperm hsorted => ?_, hmerge.nonempty, hmerge.apart, hcovered, fun others => ⟨?_, ?_⟩,
    ?_, fun w hfits => ?_⟩
  · have hne : ∀ s ∈ sorted, ¬ s.IsEmpty := fun s hs => by
      simpa using (List.mem_filter.1 (hperm.mem_iff.1 hs)).2
    refine (canonical_compact hne hsorted).unique hmerge fun p => ?_
    rw [compact_eq_coalesce, covered_coalesce, covered_of_perm hperm, hcovered]
  · intro heq p
    rw [← covered_merge others, heq, hcovered]
  · intro hsame
    refine (canonical_merge others).unique hmerge fun p => ?_
    rw [covered_merge, hcovered, hsame]
  · exact (canonical_merge _).unique hmerge (covered_merge _)
  · exact fits_of_covered hfits hmerge.nonempty fun p => (hcovered p).1

/-- The order of the intervals that start together does not matter: `[0, 6)` may come before or after
`[0, 3)`, which is nested in it and given twice. -/
theorem merge_canonical_tied :
    let short : Span := ⟨0, 3, by decide⟩
    let long : Span := ⟨0, 6, by decide⟩
    let next : Span := ⟨6, 9, by decide⟩
    let merged := merge [next, short, long, ⟨12, 12, by decide⟩, short]
    compact [short, short, long, next] = merged ∧ compact [long, short, short, next] = merged ∧
      merged = [⟨0, 9, by decide⟩] := by
  intro short long next merged
  obtain ⟨horder, -⟩ := merge_canonical [next, short, long, ⟨12, 12, by decide⟩, short]
  exact ⟨horder _ (by decide) (by decide), horder _ (by decide) (by decide), by decide⟩

end Span
end Placement
