import Shreduler.Lts.Basic
import Mathlib.Logic.Function.Basic

/-!
This module contains refinements between transition systems: a state of the concrete one shows a state
of the abstract one, and each of its steps shows finitely many abstract events. It also contains
families of independent transition systems, as targets of refinements.
-/

namespace Lts

section Refines

variable {σ : Type u} {ε : Type v} {σ' : Type w} {ε' : Type x}

/-- The abstract events that the run of the events from `s` shows. -/
def trace (step : σ → ε → Option σ) (obs : σ → ε → σ → List ε') (s : σ) : List ε → List ε'
  | [] => []
  | e :: es =>
    match step s e with
    | some s' => obs s e s' ++ trace step obs s' es
    | none => []

/--
The invariant `J` is kept, and where it holds, each step is a run of the abstract transition system over
the events it shows.
-/
structure Refines (step : σ → ε → Option σ) (step' : σ' → ε' → Option σ') (J : σ → Prop)
    (abs : σ → σ') (obs : σ → ε → σ → List ε') : Prop where
  keeps : ∀ s e s', J s → step s e = some s' → J s'
  simulates : ∀ s e s', J s → step s e = some s' → run step' (abs s) (obs s e s') = some (abs s')

variable {step : σ → ε → Option σ} {step' : σ' → ε' → Option σ'} {J : σ → Prop} {abs : σ → σ'}
  {obs : σ → ε → σ → List ε'}

@[simp]
theorem trace_nil (s : σ) : trace step obs s [] = [] := rfl

theorem trace_cons_of_step {s s' : σ} {e : ε} (h : step s e = some s') (es : List ε)
    : trace step obs s (e :: es) = obs s e s' ++ trace step obs s' es := by
  simp [trace, h]

theorem trace_append_of_run {s s' : σ} {es : List ε} (h : run step s es = some s') (es' : List ε)
    : trace step obs s (es ++ es') = trace step obs s es ++ trace step obs s' es' := by
  induction es generalizing s with
  | nil =>
    simp only [run_nil, Option.some.injEq] at h
    rw [h, List.nil_append, trace_nil, List.nil_append]
  | cons e es ih =>
    obtain ⟨s₁, hstep, h⟩ := run_cons_eq_some.mp h
    rw [List.cons_append, trace_cons_of_step hstep, trace_cons_of_step hstep, ih h, List.append_assoc]

theorem trace_append_singleton {s s' s'' : σ} {es : List ε} {e : ε} (h : run step s es = some s')
    (hstep : step s' e = some s'')
    : trace step obs s (es ++ [e]) = trace step obs s es ++ obs s' e s'' := by
  rw [trace_append_of_run h, trace_cons_of_step hstep, trace_nil, List.append_nil]

theorem forall_mem_trace {C : σ → ε → Prop} {P : ε' → Prop}
    (hkeeps : ∀ s e s', J s → step s e = some s' → J s')
    (hobs : ∀ s e s', J s → C s e → step s e = some s' → ∀ e' ∈ obs s e s', P e') {s : σ} {es : List ε}
    (hinit : J s) (halong : Along step C s es) : ∀ e' ∈ trace step obs s es, P e' := by
  induction es generalizing s with
  | nil => simp
  | cons e es ih =>
    cases hstep : step s e with
    | none => simp [trace, hstep]
    | some s₁ =>
      obtain ⟨hC, htail⟩ := halong s₁ hstep
      rw [trace_cons_of_step hstep]
      intro e' hmem
      cases List.mem_append.mp hmem with
      | inl hmem => exact hobs s e s₁ hinit hC hstep e' hmem
      | inr hmem => exact ih (hkeeps s e s₁ hinit hstep) htail e' hmem

theorem Refines.run (h : Refines step step' J abs obs) {s s' : σ} {es : List ε} (hinit : J s)
    (hrun : run step s es = some s')
    : Lts.run step' (abs s) (trace step obs s es) = some (abs s') := by
  induction es generalizing s with
  | nil =>
    simp only [run_nil, Option.some.injEq] at hrun
    rw [hrun, trace_nil, run_nil]
  | cons e es ih =>
    obtain ⟨s₁, hstep, hrun⟩ := run_cons_eq_some.mp hrun
    rw [trace_cons_of_step hstep, run_append_of_run (h.simulates s e s₁ hinit hstep)]
    exact ih (h.keeps s e s₁ hinit hstep) hrun

end Refines

section Family

variable {τ : Type u} {σ : Type v} {ε : Type w} [DecidableEq τ]

/-- A family of independent copies of one transition system: an event moves the copy it names. -/
def family (step : σ → ε → Option σ) (s : τ → σ) (e : τ × ε) : Option (τ → σ) :=
  (step (s e.1) e.2).map (Function.update s e.1)

def project (t : τ) (es : List (τ × ε)) : List ε :=
  es.filterMap fun e => if e.1 = t then some e.2 else none

variable {step : σ → ε → Option σ} {s s' : τ → σ}

@[simp]
theorem project_nil (t : τ) : project t ([] : List (τ × ε)) = [] := rfl

theorem mem_project {t : τ} {e : ε} {es : List (τ × ε)} : e ∈ project t es ↔ (t, e) ∈ es := by
  simp only [project, List.mem_filterMap, Option.ite_none_right_eq_some, Option.some.injEq]
  constructor
  . intro h
    obtain ⟨⟨t', e'⟩, hmem, ht, he⟩ := h
    subst ht he
    exact hmem
  . intro h
    exact ⟨(t, e), h, rfl, rfl⟩

theorem family_eq_some {e : τ × ε}
    : family step s e = some s' ↔ ∃ x, step (s e.1) e.2 = some x ∧ Function.update s e.1 x = s' := by
  simp [family]

theorem family_of_step {t : τ} {e : ε} {x : σ} (h : step (s t) e = some x)
    : family step s (t, e) = some (Function.update s t x) := by
  simp [family, h]

theorem run_project {es : List (τ × ε)} (h : run (family step) s es = some s') (t : τ)
    : run step (s t) (project t es) = some (s' t) := by
  induction es generalizing s with
  | nil =>
    simp only [run_nil, Option.some.injEq] at h
    rw [h, project_nil, run_nil]
  | cons e es ih =>
    obtain ⟨s₁, hstep, h⟩ := run_cons_eq_some.mp h
    obtain ⟨x, hx, rfl⟩ := family_eq_some.mp hstep
    have hrest := ih h
    by_cases ht : e.1 = t
    . subst ht
      rw [Function.update_self] at hrest
      simp only [project, List.filterMap_cons, if_true]
      rw [run_cons_of_step hx]
      exact hrest
    . rw [Function.update_of_ne (Ne.symm ht)] at hrest
      simp only [project, List.filterMap_cons, if_neg ht]
      exact hrest

end Family

end Lts
