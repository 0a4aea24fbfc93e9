/-
# A pending variable has lost a value

A step of a constraint marks a variable as pending only when it takes a value from its domain. So
after any number of steps, either nothing more is pending than before, or the domains together
have fewer values to lose (`Disjoint.Steps.progress`): that is why the rounds of a propagation end
before their limit.
-/

import Placement.Proofs.Passes

namespace Placement

variable {w : Width}

namespace Store

variable {s t u : Store w}

/-- No value was gained, and if something is pending that was not before, a value was lost. -/
structure Progress (s t : Store w) : Prop where
  slack_le : t.slack ≤ s.slack
  pending : t.hasChanges = true → s.hasChanges = true ∨ t.slack < s.slack

/-- Staying as it is counts as progress. -/
theorem Progress.refl (s : Store w) : Progress s s := ⟨Nat.le_refl _, .inl⟩

/-- Progress carries over. -/
theorem Progress.trans (h : Progress s t) (h' : Progress t u) : Progress s u := by
  refine ⟨Nat.le_trans h'.slack_le h.slack_le, fun hu => ?_⟩
  have := h'.slack_le
  have := h.slack_le
  rcases h'.pending hu with ht | hlt
  · rcases h.pending ht with hs | hlt
    · exact .inl hs
    · exact .inr (by omega)
  · exact .inr (by omega)

/-- Replacing a domain by one with less to lose. -/
theorem foldr_slack_set {cells : List (Cell w)} {i : Nat} {c d : Cell w} (hc : cells[i]? = some c)
    (hd : d.domain.slack < c.domain.slack) :
    (cells.set i d).foldr (fun c n => c.domain.slack + n) 0 <
      cells.foldr (fun c n => c.domain.slack + n) 0 := by
  induction cells generalizing i with
  | nil => cases hc
  | cons b cells ih =>
    cases i with
    | zero =>
      cases hc
      simp only [List.set_cons_zero, List.foldr_cons]
      omega
    | succ i =>
      have := ih (i := i) (by simpa using hc)
      simp only [List.set_cons_succ, List.foldr_cons]
      omega

/-- Clearing what is pending leaves all values to lose. -/
theorem slack_clearPending (s : Store w) : s.clearPending.slack = s.slack := by
  unfold slack clearPending
  rw [List.foldr_map]

/-- Narrowing a domain is progress: what it makes pending has lost a value. -/
theorem progress_setBounds {v : Var} {lo hi : Int} {b : Bool} (h : s.setBounds v lo hi = .ok (b, t)) :
    Progress s t := by
  obtain ⟨c, d, hc, hd, ⟨-, -, rfl⟩ | ⟨hne, -, rfl⟩⟩ := setBounds_eq_ok h
  · exact .refl _
  · have hlt := foldr_slack_set (d := ⟨d, s.level, true⟩) hc (Domain.slack_lt_of_restrict? hd hne)
    exact ⟨Nat.le_of_lt hlt, fun _ => .inr hlt⟩

end Store

/-- **A step that makes a variable pending takes a value from it.** -/
theorem Disjoint.Step.progress {d : Disjoint} {s t : Store w} (h : d.Step s t) : s.Progress t := by
  cases h with
  | narrow _ _ h => exact Store.progress_setBounds h
  | shrink _ _ h =>
    obtain ⟨_, _, _, _, _, h⟩ := Candidates.replace_eq_ok h
    obtain ⟨a, -, rfl⟩ := Store.setSnapshot_eq_ok.1 h
    exact ⟨Nat.le_refl _, .inl⟩

/-- The steps of a constraint are progress. -/
theorem Disjoint.Steps.progress {d : Disjoint} {s t : Store w} (h : d.Steps s t) : s.Progress t := by
  induction h with
  | refl => exact .refl _
  | tail _ hw ih => exact ih.trans hw.progress

end Placement
