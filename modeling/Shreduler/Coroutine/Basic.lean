import Shreduler.Lts.Basic
import Mathlib.Logic.Function.Basic

/-!
This module contains symmetric coroutines: one of them is active, and it may start a new one, hand control
over to any that is parked, or end and hand over for good.
-/

namespace Coroutine

inductive Status where
  | unborn
  | active
  | parked
  | dead
  deriving DecidableEq, Repr

inductive Move (ι : Type u) where
  | create (f g : ι)
  | transfer (f g : ι)
  | exit (f g : ι)
  deriving DecidableEq, Repr

abbrev State (ι : Type u) := ι → Status

variable {ι : Type u} [DecidableEq ι]

def handOver (s : State ι) (f : ι) (status : Status) (g : ι) : State ι :=
  Function.update (Function.update s f status) g .active

def step (s : State ι) : Move ι → Option (State ι)
  | .create f g =>
    if s f = .active ∧ s g = .unborn then some (handOver s f .parked g) else none
  | .transfer f g =>
    if s f = .active ∧ s g = .parked then some (handOver s f .parked g) else none
  | .exit f g =>
    if s f = .active ∧ s g = .parked then some (handOver s f .dead g) else none

def Single (s : State ι) : Prop := ∃ f, ∀ g, s g = .active ↔ g = f

variable {s s' : State ι}

theorem step_cases {m : Move ι} (h : step s m = some s')
    : ∃ f g status, s f = .active ∧ s g ≠ .active ∧ s g ≠ .dead ∧ status ≠ .active ∧
        status ≠ .unborn ∧ s' = handOver s f status g := by
  cases m with
  | create f g =>
    simp only [step, Option.ite_none_right_eq_some, Option.some.injEq] at h
    obtain ⟨⟨hf, hg⟩, rfl⟩ := h
    exact ⟨f, g, .parked, hf, by simp [hg], by simp [hg], by simp, by simp, rfl⟩
  | transfer f g =>
    simp only [step, Option.ite_none_right_eq_some, Option.some.injEq] at h
    obtain ⟨⟨hf, hg⟩, rfl⟩ := h
    exact ⟨f, g, .parked, hf, by simp [hg], by simp [hg], by simp, by simp, rfl⟩
  | exit f g =>
    simp only [step, Option.ite_none_right_eq_some, Option.some.injEq] at h
    obtain ⟨⟨hf, hg⟩, rfl⟩ := h
    exact ⟨f, g, .dead, hf, by simp [hg], by simp [hg], by simp, by simp, rfl⟩

theorem Single.step (h : Single s) {m : Move ι} (hstep : Coroutine.step s m = some s')
    : Single s' := by
  obtain ⟨f, hf⟩ := h
  obtain ⟨f', g, status, hactive, hne, -, hstatus, -, rfl⟩ := step_cases hstep
  have heq := (hf f').mp hactive
  subst heq
  refine ⟨g, ?_⟩
  intro k
  unfold handOver
  by_cases hkg : k = g
  . simp [hkg]
  . rw [Function.update_of_ne hkg]
    by_cases hkf : k = f'
    . simp [hkf, hstatus]
      rintro rfl
      exact hkg hkf
    . rw [Function.update_of_ne hkf, hf k]
      simp [hkf, hkg]

theorem dead_of_step {m : Move ι} (hstep : step s m = some s') {k : ι} (h : s k = .dead)
    : s' k = .dead := by
  obtain ⟨f, g, status, hactive, -, hdead, -, -, rfl⟩ := step_cases hstep
  have hkg : k ≠ g := by
    rintro rfl
    exact hdead h
  have hkf : k ≠ f := by
    rintro rfl
    rw [hactive] at h
    contradiction
  rw [handOver, Function.update_of_ne hkg, Function.update_of_ne hkf, h]

/-- Control stays in one place, and the dead stay dead. -/
theorem single_of_run {ms : List (Move ι)} (hinit : Single s) (hrun : Lts.run step s ms = some s')
    : Single s' ∧ ∀ k, s k = .dead → s' k = .dead := by
  apply Lts.invariant (J := fun s' => Single s' ∧ ∀ k, s k = .dead → s' k = .dead) ?_ ?_ hrun
  . intro s₁ m s₂ h hstep
    exact ⟨h.1.step hstep, fun k hk => dead_of_step hstep (h.2 k hk)⟩
  . exact ⟨hinit, fun _ hk => hk⟩

end Coroutine
