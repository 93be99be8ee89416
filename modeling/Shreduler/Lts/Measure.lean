import Shreduler.Lts.Basic

/-!
This module contains rules for transition systems with a measure that goes down: one for all the steps
that change the state, and one for a goal to which some step always leads.
-/

namespace Lts

variable {σ : Type u} {ε : Type v} {step : σ → ε → Option σ} {J : σ → Prop} {measure : σ → Nat}

section Changes

variable [DecidableEq σ]

/-- The number of steps in the run of the events from `s` that change the state. -/
def changes (step : σ → ε → Option σ) (s : σ) : List ε → Nat
  | [] => 0
  | e :: es =>
    match step s e with
    | some s' => (if s' = s then 0 else 1) + changes step s' es
    | none => 0

/--
If each step leaves the state as it is or makes the measure smaller, then no more steps of a run change the
state than the measure is large.
-/
theorem changes_le_of_decreasing
    (hstep : ∀ s e s', J s → step s e = some s' → J s' ∧ (s' = s ∨ measure s' < measure s))
    {s : σ} (hinit : J s) (es : List ε) : changes step s es ≤ measure s := by
  induction es generalizing s with
  | nil => exact Nat.zero_le _
  | cons e es ih =>
    unfold changes
    split
    . next s' h =>
      obtain ⟨hkeeps, hdecreases⟩ := hstep s e s' hinit h
      have hrest := ih hkeeps
      cases hdecreases with
      | inl hsame =>
        rw [if_pos hsame, Nat.zero_add]
        exact hsame ▸ hrest
      | inr hlt =>
        split <;> omega
    . exact Nat.zero_le _

end Changes

theorem exists_run_of_decreasing {G : σ → Prop}
    (hstep : ∀ s, J s → ¬ G s → ∃ e s', step s e = some s' ∧ J s' ∧ measure s' < measure s) {s : σ}
    (hinit : J s) : ∃ es s', run step s es = some s' ∧ J s' ∧ G s' ∧ es.length ≤ measure s := by
  induction hn : measure s using Nat.strongRecOn generalizing s with
  | ind n ih =>
    by_cases hgoal : G s
    . exact ⟨[], s, rfl, hinit, hgoal, Nat.zero_le _⟩
    . obtain ⟨e, s₁, h₁, hkeeps, hlt⟩ := hstep s hinit hgoal
      obtain ⟨es, s', hrun, hJ, hG, hlength⟩ := ih (measure s₁) (hn ▸ hlt) hkeeps rfl
      refine ⟨e :: es, s', ?_, hJ, hG, ?_⟩
      . rw [run_cons_of_step h₁, hrun]
      . rw [List.length_cons]
        omega

end Lts
