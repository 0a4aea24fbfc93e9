/-
# Where a computation ends

A pass over rectangles and an engine are computations on a state that may end early, and
what was written before a failure stays written. `Ends m s Q E` says where `m` ends when
it starts in `s`: with a result and a state in `Q`, or with a failure and a state in `E`.

Each way of building a computation has one equation for it. A statement about a
computation is proved along its text: rewrite with the equations of its steps, and
use what is known of the functions it calls through `Ends.mono`.
-/

import Placement.Engine

namespace Placement

variable {ε σ α β : Type}

/-! ## Computations that begin with a known step -/

/-- Reading the state and going on is going on with the state. -/
theorem get_bind (f : σ → EStateM ε σ β) (s : σ) : (get >>= f) s = f s s := rfl

/-- Writing the state and going on is going on in the new state. -/
theorem set_bind (t : σ) (f : PUnit → EStateM ε σ β) (s : σ) : (set t >>= f) s = f ⟨⟩ t := rfl

/-! ## Where computations end -/

/-- Started in `s`, the computation ends with a result in `Q` or with a failure in `E`. -/
def Ends (m : EStateM ε σ α) (s : σ) (Q : α → σ → Prop) (E : ε → σ → Prop) : Prop :=
  match m s with
  | .ok a t => Q a t
  | .error e t => E e t

instance {m : EStateM ε σ α} {s : σ} {Q : α → σ → Prop} {E : ε → σ → Prop} [∀ a t, Decidable (Q a t)]
    [∀ e t, Decidable (E e t)] : Decidable (Ends m s Q E) :=
  match h : m s with
  | .ok a t => decidable_of_iff (Q a t) (by rw [Ends, h])
  | .error e t => decidable_of_iff (E e t) (by rw [Ends, h])

/-- What a computation ends with may be weakened. -/
theorem Ends.mono {m : EStateM ε σ α} {s : σ} {Q Q' : α → σ → Prop} {E E' : ε → σ → Prop}
    (h : Ends m s Q E) (hQ : ∀ a t, Q a t → Q' a t) (hE : ∀ e t, E e t → E' e t) :
    Ends m s Q' E' := by
  unfold Ends at *
  split at h
  · exact hQ _ _ h
  · exact hE _ _ h

/-- Two facts about where a computation ends hold together. -/
theorem Ends.and {m : EStateM ε σ α} {s : σ} {Q Q' : α → σ → Prop} {E E' : ε → σ → Prop}
    (h : Ends m s Q E) (h' : Ends m s Q' E') :
    Ends m s (fun a t => Q a t ∧ Q' a t) (fun e t => E e t ∧ E' e t) := by
  unfold Ends at *
  split at h <;> rename_i hm <;> rw [hm] at h' <;> exact ⟨h, h'⟩

/-- Where a computation ends whose result is known. -/
theorem ends_iff_of_ok {m : EStateM ε σ α} {s t : σ} {a : α} (hm : m s = .ok a t) {Q : α → σ → Prop}
    {E : ε → σ → Prop} : Ends m s Q E ↔ Q a t := by
  unfold Ends
  rw [hm]

/-- A computation that cannot fail has a result. -/
theorem Ends.exists_ok {m : EStateM ε σ α} {s : σ} {Q : α → σ → Prop} (h : Ends m s Q fun _ _ => False) :
    ∃ a t, m s = .ok a t ∧ Q a t := by
  unfold Ends at h
  split at h
  · next a t hm => exact ⟨a, t, hm, h⟩
  · exact h.elim

/-- A value ends with itself, in the same state. -/
@[simp] theorem ends_pure (a : α) (s : σ) (Q : α → σ → Prop) (E : ε → σ → Prop) :
    Ends (pure a) s Q E ↔ Q a s := Iff.rfl

/-- A failure ends with itself, in the same state. -/
@[simp] theorem ends_throw (e : ε) (s : σ) (Q : α → σ → Prop) (E : ε → σ → Prop) :
    Ends (throw e) s Q E ↔ E e s := Iff.rfl

/-- Reading ends with the state. -/
@[simp] theorem ends_get (s : σ) (Q : σ → σ → Prop) (E : ε → σ → Prop) :
    Ends get s Q E ↔ Q s s := Iff.rfl

/-- Writing ends in the state that is written. -/
@[simp] theorem ends_set (t s : σ) (Q : PUnit → σ → Prop) (E : ε → σ → Prop) :
    Ends (set t) s Q E ↔ Q ⟨⟩ t := Iff.rfl

/-- A modification ends in the modified state. -/
@[simp] theorem ends_modify (f : σ → σ) (s : σ) (Q : PUnit → σ → Prop) (E : ε → σ → Prop) :
    Ends (modify f) s Q E ↔ Q ⟨⟩ (f s) := Iff.rfl

/-- **Two computations in turn**: the second goes on from wherever the first ends. -/
@[simp] theorem ends_bind (m : EStateM ε σ α) (f : α → EStateM ε σ β) (s : σ)
    (Q : β → σ → Prop) (E : ε → σ → Prop) :
    Ends (m >>= f) s Q E ↔ Ends m s (fun a t => Ends (f a) t Q E) E := by
  unfold Ends
  have hbind : (m >>= f) s = EStateM.bind m f s := rfl
  rw [hbind]
  unfold EStateM.bind
  cases m s <;> rfl

/-- A handler goes on where the computation fails. -/
@[simp] theorem ends_tryCatch (m : EStateM ε σ α) (f : ε → EStateM ε σ α) (s : σ)
    (Q : α → σ → Prop) (E : ε → σ → Prop) :
    Ends (tryCatch m f) s Q E ↔ Ends m s Q (fun e t => Ends (f e) t Q E) := by
  have hcatch : tryCatch m f s = EStateM.tryCatch m f s := rfl
  unfold Ends
  rw [hcatch]
  delta EStateM.tryCatch
  cases m s <;> rfl

/-- **A loop over the positions below `n`.** What every turn hands on to the next holds at the
end; what holds of every failure of a turn holds of a failure of the loop. -/
theorem Ends.forM_range {f : Nat → EStateM ε σ Unit} {n : Nat} {s : σ} {I : Nat → σ → Prop}
    {E : ε → σ → Prop} (h0 : I 0 s)
    (step : ∀ k < n, ∀ t, I k t → Ends (f k) t (fun _ u => I (k + 1) u) E) :
    Ends ((List.range n).forM f) s (fun _ t => I n t) E := by
  -- the loop over `k … n - 1`, from a state that the first `k` turns have left
  have loop : ∀ m k t, k + m = n → I k t →
      Ends ((List.range' k m).forM f) t (fun _ u => I n u) E := by
    intro m
    induction m with
    | zero =>
      intro k t hk ht
      obtain rfl : k = n := by omega
      exact ht
    | succ m ih =>
      intro k t hk ht
      rw [List.range'_succ]
      change Ends (f k >>= fun _ => (List.range' (k + 1) m).forM f) t _ E
      rw [ends_bind]
      exact (step k (by omega) t ht).mono (fun _ u hu => ih (k + 1) u (by omega) hu) fun _ _ he => he
  rw [List.range_eq_range']
  exact loop n 0 s (by omega) h0

/-! ## Passes -/

namespace Narrowing

variable {w : Width} {Q : α → Pass w → Prop} {E : Failure Inconsistency → Pass w → Prop}

/-- A report is put before the events so far. -/
@[simp] theorem ends_report (e : Event) (p : Pass w) (Q : Unit → Pass w → Prop) :
    Ends (report e) p Q E ↔ Q () { p with events := e :: p.events } := Iff.rfl

/-- What is read from the store is a value or a fault. -/
theorem ends_read (f : Store w → Except Fault α) (p : Pass w) :
    Ends (read f) p Q E ↔
      (∀ a, f p.store = .ok a → Q a p) ∧ ∀ c, f p.store = .error c → E (.fault c) p := by
  simp only [read, ends_bind, ends_get]
  cases h : f p.store with
  | ok a => simp
  | error c => simp

/-- An update of the store succeeds or is a fault. -/
theorem ends_update (f : Store w → Except Fault (Store w)) (p : Pass w)
    (Q : Unit → Pass w → Prop) :
    Ends (update f) p Q E ↔
      (∀ s, f p.store = .ok s → Q () { p with store := s }) ∧
        ∀ c, f p.store = .error c → E (.fault c) p := by
  simp only [update, ends_bind, ends_read, ends_modify]

/-- Narrowing within a pass is narrowing its store, where a refutation ends the pass. -/
theorem ends_setBounds (v : Var) (lo hi : Int) (p : Pass w) (Q : Bool → Pass w → Prop) :
    Ends (setBounds v lo hi) p Q E ↔
      (∀ b s, p.store.setBounds v lo hi = .ok (b, s) → Q b { p with store := s }) ∧
        ∀ e, p.store.setBounds v lo hi = .error e → E e p := by
  simp only [setBounds, ends_bind, ends_get]
  cases h : p.store.setBounds v lo hi with
  | ok r =>
    obtain ⟨b, s⟩ := r
    simp only [ends_bind, ends_modify, ends_pure, Except.ok.injEq, Prod.mk.injEq, reduceCtorEq,
      false_implies, implies_true, and_true]
    exact ⟨fun hQ _ _ hb => hb.1 ▸ hb.2 ▸ hQ, fun hQ => hQ b s ⟨rfl, rfl⟩⟩
  | error e => simp

end Narrowing

/-! ## Engines

What an engine counts and reports never decides what it does, so the facts below speak of
its store and its posted propagators only. -/

namespace Engine

variable {w : Width} {π : Type} [Propagator π] {E : Failure Inconsistency → Engine w π → Prop}

/-- A propagator that watches no changed variable is left alone. -/
theorem wake_idle {changed : List Var} {k : Nat} {g : Engine w π}
    (h : ∀ p, g.posted[k]? = some p → p.watched.any changed.contains = false) :
    wake changed k g = .ok () g := by
  unfold wake
  rw [get_bind]
  cases hp : g.posted[k]? with
  | none => rfl
  | some p =>
    dsimp only
    rw [if_neg (by rw [h p hp]; decide)]
    rfl

/-- A propagator that watches a changed variable narrows the store, and ends as its narrowing
does. -/
theorem wake_woken {changed : List Var} {k : Nat} {g : Engine w π} {p : Posted π}
    (hp : g.posted[k]? = some p) (hw : p.watched.any changed.contains = true) :
    ∃ g' : Engine w π, g'.store = (Propagator.narrow p.propagator changed g.store).store ∧
      g'.posted =
        g.posted.set k ⟨(Propagator.narrow p.propagator changed g.store).propagator, p.watched⟩ ∧
      wake changed k g = match (Propagator.narrow p.propagator changed g.store).outcome with
        | .ok () => .ok () g'
        | .error e => .error e g' := by
  unfold wake
  rw [get_bind, hp]
  dsimp only
  rw [if_pos hw]
  cases ho : (Propagator.narrow p.propagator changed g.store).outcome with
  | ok u => exact ⟨_, rfl, rfl, rfl⟩
  | error e =>
    cases e with
    | fault c => exact ⟨_, rfl, rfl, rfl⟩
    | refuted c => exact ⟨_, rfl, rfl, rfl⟩

/-- The propagator at position `k` is left alone, or its narrowing is what happens. -/
theorem ends_wake {changed : List Var} {k : Nat} {g : Engine w π} {Q : Unit → Engine w π → Prop}
    (idle : (∀ p, g.posted[k]? = some p → p.watched.any changed.contains = false) → Q () g)
    (woken : ∀ p, g.posted[k]? = some p → p.watched.any changed.contains = true → ∀ g' : Engine w π,
      g'.store = (Propagator.narrow p.propagator changed g.store).store →
      g'.posted =
        g.posted.set k ⟨(Propagator.narrow p.propagator changed g.store).propagator, p.watched⟩ →
      ((Propagator.narrow p.propagator changed g.store).outcome = .ok () → Q () g') ∧
        ∀ e, (Propagator.narrow p.propagator changed g.store).outcome = .error e → E e g') :
    Ends (wake changed k) g Q E := by
  by_cases h : ∃ p, g.posted[k]? = some p ∧ p.watched.any changed.contains = true
  · obtain ⟨p, hp, hw⟩ := h
    obtain ⟨g', hs, hg, he⟩ := wake_woken hp hw
    obtain ⟨ok, error⟩ := woken p hp hw g' hs hg
    unfold Ends
    rw [he]
    cases ho : (Propagator.narrow p.propagator changed g.store).outcome with
    | ok u => exact ok ho
    | error e => exact error e ho
  · have hi : ∀ p, g.posted[k]? = some p → p.watched.any changed.contains = false := fun p hp => by
      simpa using fun hw => h ⟨p, hp, hw⟩
    unfold Ends
    rw [wake_idle hi]
    exact idle hi

/-- A round takes what is pending and wakes the propagators in turn. -/
theorem ends_round {g : Engine w π} {Q : Unit → Engine w π → Prop}
    (h : ∀ g' : Engine w π, g'.store = g.store.clearPending → g'.posted = g.posted →
      Ends ((List.range g.posted.length).forM (wake g.store.changed)) g' Q E) :
    Ends round g Q E := by
  unfold round
  rw [ends_bind, ends_get]
  exact h _ rfl rfl

/-- **The rounds of a propagation.** What a round hands on to the rounds that are left holds at
the end, where nothing is pending. -/
theorem ends_rounds {I : Nat → Engine w π → Prop}
    (step : ∀ n g, I (n + 1) g → g.store.hasChanges = true → Ends round g (fun _ g' => I n g') E)
    (stop : ∀ g, I 0 g → g.store.hasChanges = true → E (.fault .roundLimit) g) {limit : Nat}
    {g : Engine w π} (h : I limit g) :
    Ends (rounds limit) g (fun _ g' => (∃ n, I n g') ∧ g'.store.hasChanges = false) E := by
  induction limit generalizing g with
  | zero =>
    unfold rounds
    rw [ends_bind, ends_get]
    split
    · next hc => exact stop g h hc
    · next hc => exact ⟨⟨0, h⟩, by simpa using hc⟩
  | succ limit ih =>
    unfold rounds
    rw [ends_bind, ends_get]
    split
    · next hc =>
      rw [ends_bind]
      exact (step limit g h hc).mono (fun _ _ h => ih h) fun _ _ h => h
    · next hc => exact ⟨⟨limit + 1, h⟩, by simpa using hc⟩

/-- A propagation is its rounds, from an engine that has only counted. -/
theorem ends_propagate {g : Engine w π} {Q : Unit → Engine w π → Prop}
    (h : ∀ g' : Engine w π, g'.store = g.store → g'.posted = g.posted →
      Ends (rounds (g.store.slack + 1)) g' Q E) : Ends propagate g Q E := by
  unfold propagate
  rw [ends_bind]
  exact h _ rfl rfl

end Engine
end Placement
