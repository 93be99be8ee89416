import Mathlib.Data.List.Basic
import Mathlib.Data.List.Induction

/-!
This module contains runs of a partial step function over a list of events, together with the rules
that carry facts about a single step over to all states of a run.
-/

namespace Lts

variable {σ : Type u} {ε : Type v} (step : σ → ε → Option σ)

/--
Perform the events of a list in order, `none` if one of them is not enabled.
-/
def run (s : σ) : List ε → Option σ
  | [] => some s
  | e :: es =>
    match step s e with
    | some s' => run s' es
    | none => none

/--
`P` holds in every state that the run of the events from `s` goes through, `s` included.
-/
def Always (P : σ → Prop) (s : σ) : List ε → Prop
  | [] => P s
  | e :: es => P s ∧ ∀ s', step s e = some s' → Always P s' es

/--
Every step that the run of the events from `s` takes meets `C` in the state it is taken in.
-/
def Along (C : σ → ε → Prop) (s : σ) : List ε → Prop
  | [] => True
  | e :: es => ∀ s', step s e = some s' → C s e ∧ Along C s' es

/--
Some step that the run of the events from `s` takes meets `C` in the state it is taken in.
-/
def Sometime (C : σ → ε → Prop) (s : σ) : List ε → Prop
  | [] => False
  | e :: es => ∃ s', step s e = some s' ∧ (C s e ∨ Sometime C s' es)

/--
Every step that the run of the events from `s` takes and that meets `C` is followed by one that meets
`D`.
-/
def Leads (C D : σ → ε → Prop) (s : σ) : List ε → Prop
  | [] => True
  | e :: es => ∀ s', step s e = some s' → (C s e → Sometime step D s' es) ∧ Leads C D s' es

def Bounded (s : σ) : Prop := ∃ n, ∀ es s', run step s es = some s' → es.length ≤ n

variable {step}

@[simp]
theorem run_nil (s : σ) : run step s [] = some s := rfl

theorem run_cons_of_step {s s' : σ} {e : ε} (h : step s e = some s') (es : List ε)
    : run step s (e :: es) = run step s' es := by
  simp [run, h]

theorem run_singleton {s s' : σ} {e : ε} (h : step s e = some s') : run step s [e] = some s' := by
  rw [run_cons_of_step h, run_nil]

theorem run_cons_eq_some {s s'' : σ} {e : ε} {es : List ε}
    : run step s (e :: es) = some s'' ↔ ∃ s', step s e = some s' ∧ run step s' es = some s'' := by
  simp only [run]
  split
  . next h => simp [h]
  . next h => simp [h]

theorem run_append_of_run {s s' : σ} {es : List ε} (h : run step s es = some s') (es' : List ε)
    : run step s (es ++ es') = run step s' es' := by
  induction es generalizing s with
  | nil =>
    simp only [run_nil, Option.some.injEq] at h
    rw [h, List.nil_append]
  | cons e es ih =>
    obtain ⟨s₁, hstep, h⟩ := run_cons_eq_some.mp h
    rw [List.cons_append, run_cons_of_step hstep, ih h]

theorem run_append_of_none {s : σ} {es : List ε} (h : run step s es = none) (es' : List ε)
    : run step s (es ++ es') = none := by
  induction es generalizing s with
  | nil => contradiction
  | cons e es ih =>
    rw [List.cons_append]
    unfold run at h ⊢
    split at h
    . next hstep => exact ih h
    . rfl

theorem run_append_singleton {s s' s'' : σ} {es : List ε} {e : ε} (h : run step s es = some s')
    (hstep : step s' e = some s'') : run step s (es ++ [e]) = some s'' := by
  rw [run_append_of_run h, run_cons_of_step hstep, run_nil]

theorem run_induction {Q : List ε → σ → Prop} {s : σ} (hnil : Q [] s)
    (hstep : ∀ es e s₁ s₂, run step s es = some s₁ → Q es s₁ → step s₁ e = some s₂ →
      Q (es ++ [e]) s₂)
    {es : List ε} {s' : σ} (hrun : run step s es = some s') : Q es s' := by
  induction es using List.reverseRecOn generalizing s' with
  | nil =>
    simp only [run_nil, Option.some.injEq] at hrun
    exact hrun ▸ hnil
  | append_singleton es e ih =>
    cases hinit : run step s es with
    | none => exact absurd hrun (by rw [run_append_of_none hinit]; simp)
    | some s₁ =>
      rw [run_append_of_run hinit, run_cons_eq_some] at hrun
      obtain ⟨s₂, h₂, hrun⟩ := hrun
      simp only [run_nil, Option.some.injEq] at hrun
      exact hrun ▸ hstep es e s₁ s₂ hinit (ih hinit) h₂

theorem always_iff_take {P : σ → Prop} {s : σ} {es : List ε}
    : Always step P s es ↔ ∀ k s', run step s (es.take k) = some s' → P s' := by
  induction es generalizing s with
  | nil => simp [Always]
  | cons e es ih =>
    simp only [Always, ih]
    constructor
    . rintro ⟨hs, htail⟩ k s' hrun
      cases k with
      | zero =>
        simp only [List.take_zero, run_nil, Option.some.injEq] at hrun
        exact hrun ▸ hs
      | succ k =>
        rw [List.take_succ_cons, run_cons_eq_some] at hrun
        obtain ⟨s₁, hstep, hrun⟩ := hrun
        exact htail s₁ hstep k s' hrun
    . intro h
      refine ⟨h 0 s rfl, ?_⟩
      intro s₁ hstep k s' hrun
      apply h (k + 1) s'
      rw [List.take_succ_cons, run_cons_of_step hstep]
      exact hrun

theorem Always.last {P : σ → Prop} {s s' : σ} {es : List ε} (h : Always step P s es)
    (hrun : run step s es = some s') : P s' := by
  apply always_iff_take.mp h es.length s'
  rw [List.take_length]
  exact hrun

theorem forall_step_iff {s s' : σ} {e : ε} (h : step s e = some s') {P : σ → Prop}
    : (∀ s'', step s e = some s'' → P s'') ↔ P s' := by
  simp [h]

theorem along_cons_of_step {C : σ → ε → Prop} {s s' : σ} {e : ε} (h : step s e = some s')
    (es : List ε) : Along step C s (e :: es) ↔ C s e ∧ Along step C s' es := by
  simp [Along, h]

theorem Along.last {C : σ → ε → Prop} {s s' s'' : σ} {es : List ε} {e : ε}
    (h : Along step C s (es ++ [e])) (hrun : run step s es = some s') (hstep : step s' e = some s'')
    : C s' e := by
  induction es generalizing s with
  | nil =>
    simp only [run_nil, Option.some.injEq] at hrun
    subst hrun
    exact (h s'' hstep).1
  | cons e₁ es ih =>
    obtain ⟨s₁, h₁, hrun⟩ := run_cons_eq_some.mp hrun
    exact ih (h s₁ h₁).2 hrun

theorem along_iff_append {C : σ → ε → Prop} {s : σ} {es : List ε}
    : Along step C s es ↔ ∀ pre e post s' s'', es = pre ++ e :: post → run step s pre = some s' →
        step s' e = some s'' → C s' e := by
  induction es generalizing s with
  | nil => simp [Along]
  | cons e es ih =>
    simp only [Along, ih]
    constructor
    . intro h pre e' post s' s'' heq hrun hstep
      cases pre with
      | nil =>
        simp only [run_nil, Option.some.injEq] at hrun
        subst hrun
        injection heq with he
        subst he
        exact (h s'' hstep).1
      | cons e₁ pre =>
        injection heq with he heq
        subst he
        obtain ⟨s₁, h₁, hrun⟩ := run_cons_eq_some.mp hrun
        exact (h s₁ h₁).2 pre e' post s' s'' heq hrun hstep
    . intro h s₁ h₁
      refine ⟨h [] e es s s₁ rfl rfl h₁, ?_⟩
      intro pre e' post s' s'' heq hrun hstep
      refine h (e :: pre) e' post s' s'' ?_ ?_ hstep
      . rw [heq, List.cons_append]
      . rw [run_cons_of_step h₁, hrun]

theorem along_iff_take {C : σ → ε → Prop} {s : σ} {es : List ε}
    : Along step C s es ↔ ∀ k s', run step s (es.take k) = some s' →
        ∀ e ∈ es[k]?, ∀ s'', step s' e = some s'' → C s' e := by
  rw [along_iff_append]
  constructor
  . intro h k s' hrun e he s'' hstep
    obtain ⟨hlt, rfl⟩ := List.getElem?_eq_some_iff.mp he
    refine h (es.take k) es[k] (es.drop (k + 1)) s' s'' ?_ hrun hstep
    rw [← List.drop_eq_getElem_cons hlt, List.take_append_drop]
  . intro h pre e post s' s'' heq hrun hstep
    subst heq
    refine h pre.length s' ?_ e ?_ s'' hstep
    . rw [List.take_left' rfl, hrun]
    . simp

theorem Along.and {C D : σ → ε → Prop} {s : σ} {es : List ε} (hC : Along step C s es)
    (hD : Along step D s es) : Along step (fun s e => C s e ∧ D s e) s es := by
  induction es generalizing s with
  | nil => trivial
  | cons e es ih =>
    intro s' h
    exact ⟨⟨(hC s' h).1, (hD s' h).1⟩, ih (hC s' h).2 (hD s' h).2⟩

theorem Along.append_left {C : σ → ε → Prop} {s : σ} {es es' : List ε}
    (h : Along step C s (es ++ es')) : Along step C s es := by
  rw [along_iff_append] at h ⊢
  intro pre e post s' s'' heq
  apply h pre e (post ++ es') s' s''
  rw [heq, List.append_assoc, List.cons_append]

theorem along_of_forall {C : σ → ε → Prop} {es : List ε} (h : ∀ e ∈ es, ∀ s, C s e) (s : σ)
    : Along step C s es := by
  rw [along_iff_append]
  rintro pre e post s' - rfl - -
  exact h e (List.mem_append_right pre (.head post)) s'

instance Along.decidable {C : σ → ε → Prop} [∀ s e, Decidable (C s e)]
    : (s : σ) → (es : List ε) → Decidable (Along step C s es)
  | _, [] => .isTrue trivial
  | s, e :: es =>
    match h : step s e with
    | none => .isTrue fun s' h' => by simp [h] at h'
    | some s' =>
      have : Decidable (Along step C s' es) := Along.decidable s' es
      decidable_of_iff (C s e ∧ Along step C s' es) (along_cons_of_step h es).symm

theorem not_always_of_run {P : σ → Prop} {Q : σ → Bool} {s : σ} {es : List ε}
    (hrun : (run step s es).any Q) (hQ : ∀ s, Q s → ¬ P s) : ¬ Always step P s es := by
  intro halways
  cases hs' : run step s es with
  | none => simp [hs'] at hrun
  | some s' =>
    rw [hs', Option.any_some] at hrun
    exact hQ s' hrun (halways.last hs')

theorem bounded_of_stuck {s : σ} (h : ∀ e, step s e = none) : Bounded step s := by
  refine ⟨0, ?_⟩
  intro es s' hrun
  cases es with
  | nil => exact Nat.le_refl 0
  | cons e es =>
    obtain ⟨s₁, hstep, -⟩ := run_cons_eq_some.mp hrun
    rw [h e] at hstep
    contradiction

/--
A relation that the skipped events keep on the left, and the others on both sides, carries a run over to
the run without the skipped events.
-/
theorem exists_run_filter {R : σ → σ → Prop} {keep : ε → Bool}
    (hskip : ∀ s₁ s₂ e s₁', R s₁ s₂ → keep e = false → step s₁ e = some s₁' → R s₁' s₂)
    (hkeep : ∀ s₁ s₂ e s₁', R s₁ s₂ → keep e → step s₁ e = some s₁' →
      ∃ s₂', step s₂ e = some s₂' ∧ R s₁' s₂')
    {s₁ s₂ s₁' : σ} {es : List ε} (hR : R s₁ s₂) (hrun : run step s₁ es = some s₁')
    : ∃ s₂', run step s₂ (es.filter keep) = some s₂' ∧ R s₁' s₂' := by
  induction es generalizing s₁ s₂ with
  | nil =>
    simp only [run_nil, Option.some.injEq] at hrun
    exact ⟨s₂, rfl, hrun ▸ hR⟩
  | cons e es ih =>
    obtain ⟨s, hstep, hrun⟩ := run_cons_eq_some.mp hrun
    cases he : keep e with
    | false =>
      rw [List.filter_cons_of_neg (by simp [he])]
      exact ih (hskip s₁ s₂ e s hR he hstep) hrun
    | true =>
      obtain ⟨s', hstep', hR⟩ := hkeep s₁ s₂ e s hR he hstep
      rw [List.filter_cons_of_pos he, run_cons_of_step hstep']
      exact ih hR hrun

section Invariant

variable {J P : σ → Prop} {C : σ → ε → Prop}

theorem invariant {s s' : σ} {es : List ε}
    (hstep : ∀ s e s', J s → step s e = some s' → J s') (hinit : J s)
    (hrun : run step s es = some s') : J s' := by
  induction es generalizing s with
  | nil =>
    simp only [run_nil, Option.some.injEq] at hrun
    exact hrun ▸ hinit
  | cons e es ih =>
    obtain ⟨s₁, h₁, hrun⟩ := run_cons_eq_some.mp hrun
    exact ih (hstep s e s₁ hinit h₁) hrun

theorem Along.always {s : σ} {es : List ε}
    (hstep : ∀ s e s', J s → C s e → step s e = some s' → J s') (hJP : ∀ s, J s → P s)
    (hinit : J s) (halong : Along step C s es) : Always step P s es := by
  induction es generalizing s with
  | nil => exact hJP s hinit
  | cons e es ih =>
    refine ⟨hJP s hinit, ?_⟩
    intro s₁ h₁
    obtain ⟨hC, htail⟩ := halong s₁ h₁
    exact ih (hstep s e s₁ hinit hC h₁) htail

theorem always_of_invariant {s : σ} {es : List ε}
    (hstep : ∀ s e s', J s → step s e = some s' → J s') (hJP : ∀ s, J s → P s) (hinit : J s)
    : Always step P s es := by
  apply Along.always (J := J) (C := fun _ _ => True)
  . exact fun s e s' hJ _ h => hstep s e s' hJ h
  . exact hJP
  . exact hinit
  . exact along_of_forall (fun _ _ _ => trivial) s

theorem Along.invariant {s s' : σ} {es : List ε}
    (hstep : ∀ s e s', J s → C s e → step s e = some s' → J s') (hinit : J s)
    (halong : Along step C s es) (hrun : run step s es = some s') : J s' :=
  Always.last (Along.always hstep (fun _ h => h) hinit halong) hrun

theorem exists_run_of_progress (hprogress : ∀ s, J s → ∃ e s', step s e = some s' ∧ J s') {s : σ}
    (hinit : J s) (n : Nat) : ∃ es s', run step s es = some s' ∧ es.length = n := by
  induction n generalizing s with
  | zero => exact ⟨[], s, rfl, rfl⟩
  | succ n ih =>
    obtain ⟨e, s₁, hstep, hJ⟩ := hprogress s hinit
    obtain ⟨es, s', hrun, hlength⟩ := ih hJ
    exact ⟨e :: es, s', by rw [run_cons_of_step hstep, hrun], by rw [List.length_cons, hlength]⟩

theorem not_bounded_of_progress (hprogress : ∀ s, J s → ∃ e s', step s e = some s' ∧ J s') {s : σ}
    (hinit : J s) : ¬ Bounded step s := by
  rintro ⟨n, hbound⟩
  obtain ⟨es, s', hrun, hlength⟩ := exists_run_of_progress hprogress hinit (n + 1)
  have := hbound es s' hrun
  omega

theorem sometime_iff {s s' : σ} {es : List ε} (hstep : ∀ s e s', J s → step s e = some s' → J s')
    (hiff : ∀ s e s', J s → step s e = some s' → (P s' ↔ P s ∨ C s e)) (hinit : J s)
    (hrun : run step s es = some s') : P s' ↔ P s ∨ Sometime step C s es := by
  induction es generalizing s with
  | nil =>
    simp only [run_nil, Option.some.injEq] at hrun
    simp [hrun, Sometime]
  | cons e es ih =>
    obtain ⟨s₁, h₁, hrun⟩ := run_cons_eq_some.mp hrun
    rw [ih (hstep s e s₁ hinit h₁) hrun, hiff s e s₁ hinit h₁, or_assoc]
    simp [Sometime, h₁]

theorem not_iff_leads {D : σ → ε → Prop} {s s' : σ} {es : List ε}
    (hstep : ∀ s e s', J s → step s e = some s' → J s')
    (hiff : ∀ s e s', J s → step s e = some s' → (P s' ↔ C s e ∨ P s ∧ ¬ D s e)) (hinit : J s)
    (hrun : run step s es = some s')
    : ¬ P s' ↔ (P s → Sometime step D s es) ∧ Leads step C D s es := by
  induction es generalizing s with
  | nil =>
    simp only [run_nil, Option.some.injEq] at hrun
    simp [hrun, Sometime, Leads]
  | cons e es ih =>
    obtain ⟨s₁, h₁, hrun⟩ := run_cons_eq_some.mp hrun
    rw [ih (hstep s e s₁ hinit h₁) hrun, hiff s e s₁ hinit h₁]
    simp only [Sometime, Leads, h₁, Option.some.injEq, exists_eq_left', forall_eq']
    tauto

theorem Along.congr {D K : σ → ε → Prop} {s : σ} {es : List ε}
    (hstep : ∀ s e s', J s → K s e → step s e = some s' → J s')
    (hiff : ∀ s e s', J s → K s e → step s e = some s' → (C s e ↔ D s e)) (hinit : J s)
    (halong : Along step K s es) : Along step C s es ↔ Along step D s es := by
  induction es generalizing s with
  | nil => exact Iff.rfl
  | cons e es ih =>
    refine forall_congr' fun s₁ => forall_congr' fun h₁ => ?_
    obtain ⟨hK, htail⟩ := halong s₁ h₁
    rw [hiff s e s₁ hinit hK h₁, ih (hstep s e s₁ hinit hK h₁) htail]

theorem along_congr {D : σ → ε → Prop} {s : σ} {es : List ε}
    (hstep : ∀ s e s', J s → step s e = some s' → J s')
    (hiff : ∀ s e s', J s → step s e = some s' → (C s e ↔ D s e)) (hinit : J s)
    : Along step C s es ↔ Along step D s es := by
  apply Along.congr (J := J) (K := fun _ _ => True)
  . exact fun s e s' hJ _ h => hstep s e s' hJ h
  . exact fun s e s' hJ _ h => hiff s e s' hJ h
  . exact hinit
  . exact along_of_forall (fun _ _ _ => trivial) s

theorem Along.imp {D : σ → ε → Prop} {s : σ} {es : List ε}
    (hstep : ∀ s e s', J s → C s e → step s e = some s' → J s')
    (himp : ∀ s e s', J s → C s e → step s e = some s' → D s e) (hinit : J s)
    (halong : Along step C s es) : Along step D s es := by
  refine (Along.congr hstep ?_ hinit halong).mp halong
  intro s e s' hJ hC h
  exact iff_of_true hC (himp s e s' hJ hC h)

/--
If a step that misses the condition leaves `P` at once, then the condition is exact: `P` holds
throughout a run if and only if all of its steps meet it.
-/
theorem always_iff_along {s : σ} {es : List ε}
    (hstep : ∀ s e s', J s → C s e → step s e = some s' → J s') (hJP : ∀ s, J s → P s)
    (hexact : ∀ s e s', J s → step s e = some s' → P s' → C s e) (hinit : J s)
    : Always step P s es ↔ Along step C s es := by
  constructor
  . intro halways
    induction es generalizing s with
    | nil => trivial
    | cons e es ih =>
      intro s₁ h₁
      have htail := halways.2 s₁ h₁
      have hP : P s₁ := by
        cases es with
        | nil => exact htail
        | cons => exact htail.1
      have hC := hexact s e s₁ hinit h₁ hP
      exact ⟨hC, ih (hstep s e s₁ hinit hC h₁) htail⟩
  . exact Along.always hstep hJP hinit

end Invariant

end Lts
