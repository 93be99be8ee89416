import Shreduler.Lts.Refinement

/-!
This module contains promises: whoever makes one waits for an outcome that someone else keeps it with. The
outcome is collected once, by nobody but the owner of the promise, and a promise may get lost.
-/

namespace Promise

variable {ι : Type u} {α : Type v}

inductive Slot (ι : Type u) (α : Type v) where
  | unmade
  | pending (owner : ι)
  -- The owner has been warned, and nothing can go wrong with the promise anymore before it is kept.
  | warned (owner : ι)
  | kept (owner : ι) (outcome : α)
  | spent
  deriving DecidableEq

inductive Action (ι : Type u) (α : Type v) where
  | make (owner : ι)
  | warn (owner : ι)
  | keep (outcome : α)
  | collect (owner : ι) (outcome : α)
  | lose
  deriving DecidableEq

def step [DecidableEq ι] [DecidableEq α] : Slot ι α → Action ι α → Option (Slot ι α)
  | .unmade, .make owner => some (.pending owner)
  | .pending owner, .warn owner' => if owner' = owner then some (.warned owner) else none
  | .pending owner, .keep outcome => some (.kept owner outcome)
  | .warned owner, .keep outcome => some (.kept owner outcome)
  | .pending _, .lose => some .spent
  | .kept owner outcome, .collect owner' outcome' =>
    if owner' = owner ∧ outcome' = outcome then some .spent else none
  | .kept _ _, .lose => some .spent
  | _, _ => none

/-- What has happened to a promise in the given state. -/
inductive History : Slot ι α → List (Action ι α) → Prop where
  | unmade : History .unmade []
  | pending (owner : ι) : History (.pending owner) [.make owner]
  | warned (owner : ι) : History (.warned owner) [.make owner, .warn owner]
  | kept (owner : ι) (outcome : α) : History (.kept owner outcome) [.make owner, .keep outcome]
  | keptWarned (owner : ι) (outcome : α)
    : History (.kept owner outcome) [.make owner, .warn owner, .keep outcome]
  | collected {owner : ι} {outcome : α} {es : List (Action ι α)}
    (hkept : History (.kept owner outcome) es) : History .spent (es ++ [.collect owner outcome])
  | lost {slot : Slot ι α} {es : List (Action ι α)} (hslot : History slot es)
    (hlost : ∀ owner, slot ≠ .warned owner) (hspent : slot ≠ .spent) : History .spent (es ++ [.lose])

def Collected (owner : ι) (outcome : α) (es : List (Action ι α)) : Prop :=
  es = [.make owner, .keep outcome, .collect owner outcome] ∨
    es = [.make owner, .warn owner, .keep outcome, .collect owner outcome]

theorem Collected.owner_eq {owner owner' : ι} {outcome : α} {es : List (Action ι α)}
    (h : Collected owner outcome es) (hmem : .make owner' ∈ es) : owner' = owner := by
  cases h with
  | inl h => simpa [h] using hmem
  | inr h => simpa [h] using hmem

theorem Collected.outcome_eq {owner : ι} {outcome outcome' : α} {es : List (Action ι α)}
    (h : Collected owner outcome es) (hmem : .keep outcome' ∈ es) : outcome' = outcome := by
  cases h with
  | inl h => simpa [h] using hmem
  | inr h => simpa [h] using hmem

theorem Collected.mem_keep {owner : ι} {outcome : α} {es : List (Action ι α)}
    (h : Collected owner outcome es) : .keep outcome ∈ es := by
  cases h with
  | inl h => simp [h]
  | inr h => simp [h]

theorem History.not_collect {slot : Slot ι α} {es : List (Action ι α)} (h : History slot es)
    (hspent : slot ≠ .spent) (owner : ι) (outcome : α) : .collect owner outcome ∉ es := by
  cases h <;> simp_all

theorem History.collected_of_mem {slot : Slot ι α} {es : List (Action ι α)} (h : History slot es)
    {owner : ι} {outcome : α} (hmem : .collect owner outcome ∈ es)
    : slot = .spent ∧ Collected owner outcome es := by
  cases h with
  | collected hkept =>
    refine ⟨rfl, ?_⟩
    have hlast := (List.mem_append.mp hmem).resolve_left (hkept.not_collect (by simp) owner outcome)
    simp only [List.mem_singleton, Action.collect.injEq] at hlast
    obtain ⟨rfl, rfl⟩ := hlast
    cases hkept with
    | kept => exact .inl rfl
    | keptWarned => exact .inr rfl
  | lost hslot hlost hspent =>
    have hlast := (List.mem_append.mp hmem).resolve_left (hslot.not_collect hspent owner outcome)
    simp at hlast
  | _ => simp at hmem

theorem History.collected_of_spent {es : List (Action ι α)} (h : History .spent es) (hlose : .lose ∉ es)
    : ∃ owner outcome, Collected owner outcome es := by
  cases h with
  | @collected owner outcome _ hkept =>
    refine ⟨owner, outcome, ?_⟩
    cases hkept with
    | kept => exact .inl rfl
    | keptWarned => exact .inr rfl
  | lost => simp at hlose

theorem History.not_warn {owner : ι} {es : List (Action ι α)} (h : History (.pending owner) es)
    (owner' : ι) : .warn owner' ∉ es := by
  cases h
  simp

theorem History.warned_of_mem {slot : Slot ι α} {es : List (Action ι α)} (h : History slot es)
    {owner : ι} (hmem : .warn owner ∈ es) : ∃ rest, es = .make owner :: .warn owner :: rest := by
  induction h with
  | unmade | pending | kept => simp at hmem
  | warned | keptWarned =>
    simp only [List.mem_cons, reduceCtorEq, Action.warn.injEq, List.not_mem_nil, or_false,
      false_or] at hmem
    subst hmem
    exact ⟨_, rfl⟩
  | collected hkept ih =>
    obtain ⟨rest, heq⟩ := ih ((List.mem_append.mp hmem).resolve_right (by simp))
    exact ⟨_, by rw [heq, List.cons_append, List.cons_append]⟩
  | lost hslot hlost hspent ih =>
    obtain ⟨rest, heq⟩ := ih ((List.mem_append.mp hmem).resolve_right (by simp))
    exact ⟨_, by rw [heq, List.cons_append, List.cons_append]⟩

variable [DecidableEq ι] [DecidableEq α]

theorem step_spent (e : Action ι α) : step .spent e = none := by
  cases e <;> rfl

theorem spent_of_run {slot : Slot ι α} {es : List (Action ι α)} (h : Lts.run step .spent es = some slot)
    : slot = .spent := by
  cases es with
  | nil =>
    injection h with h
    exact h.symm
  | cons e es =>
    obtain ⟨slot', hstep, -⟩ := Lts.run_cons_eq_some.mp h
    rw [step_spent] at hstep
    contradiction

theorem pending_of_warn {slot slot' : Slot ι α} {owner : ι} (h : step slot (.warn owner) = some slot')
    : slot = .pending owner := by
  cases slot with
  | pending owner' =>
    simp only [step, Option.ite_none_right_eq_some] at h
    rw [h.1]
  | _ => simp [step] at h

theorem kept_of_collect {slot slot' : Slot ι α} {owner : ι} {outcome : α}
    (h : step slot (.collect owner outcome) = some slot') : slot = .kept owner outcome := by
  cases slot with
  | kept owner' outcome' =>
    simp only [step, Option.ite_none_right_eq_some] at h
    rw [h.1.1, h.1.2]
  | _ => simp [step] at h

theorem History.step {slot slot' : Slot ι α} {es : List (Action ι α)} {e : Action ι α}
    (h : History slot es) (hstep : step slot e = some slot') : History slot' (es ++ [e]) := by
  unfold Promise.step at hstep
  split at hstep
  . injection hstep with hstep
    subst hstep
    cases h
    exact .pending _
  . simp only [Option.ite_none_right_eq_some, Option.some.injEq] at hstep
    obtain ⟨rfl, rfl⟩ := hstep
    cases h
    exact .warned _
  . injection hstep with hstep
    subst hstep
    cases h
    exact .kept _ _
  . injection hstep with hstep
    subst hstep
    cases h
    exact .keptWarned _ _
  . injection hstep with hstep
    subst hstep
    exact .lost h (by simp) (by simp)
  . simp only [Option.ite_none_right_eq_some, Option.some.injEq] at hstep
    obtain ⟨⟨rfl, rfl⟩, rfl⟩ := hstep
    exact .collected h
  . injection hstep with hstep
    subst hstep
    exact .lost h (by simp) (by simp)
  . contradiction

theorem history_of_run {slot : Slot ι α} {es : List (Action ι α)}
    (h : Lts.run step .unmade es = some slot) : History slot es := by
  apply Lts.run_induction (Q := fun es slot => History slot es) .unmade ?_ h
  intro es e s₁ s₂ _ hhistory hstep
  exact hhistory.step hstep

abbrev Ledger (τ : Type w) (ι : Type u) (α : Type v) := τ → Slot ι α

variable {τ : Type w} [DecidableEq τ]

theorem history_project {ledger : Ledger τ ι α} {es : List (τ × Action ι α)}
    (hrun : Lts.run (Lts.family step) (fun _ => .unmade) es = some ledger) (t : τ)
    : History (ledger t) (Lts.project t es) :=
  history_of_run (Lts.run_project hrun t)

/-- A collected outcome is the one that the promise was kept with, and that is all that ever happened. -/
theorem collected_of_run {ledger : Ledger τ ι α} {es : List (τ × Action ι α)}
    (hrun : Lts.run (Lts.family step) (fun _ => .unmade) es = some ledger) {t : τ} {owner : ι}
    {outcome : α} (hmem : (t, .collect owner outcome) ∈ es)
    : ledger t = .spent ∧ Collected owner outcome (Lts.project t es) := by
  apply (history_project hrun t).collected_of_mem
  apply Lts.mem_project.mpr hmem

end Promise
