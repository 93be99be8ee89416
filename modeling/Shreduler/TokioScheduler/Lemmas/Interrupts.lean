import Shreduler.TokioScheduler.Impl.Interrupts
import Shreduler.TokioScheduler.Lemmas.Clock
import Shreduler.Lts.Refinement

/-!
This module proves that the scheduler with the interrupts of its thread refines the scheduler, that no
interrupt gets lost, and when `run` takes notice of it.
-/

namespace Shreduler
namespace Interrupts

variable {s s' : State} {e : Event}

/-! ### What a step does -/

inductive Check (s : State) : Option Error × State → Prop where
  | finds {p : Pending} {pending : List Pending} (hpending : s.pending = p :: pending)
    : Check s (some p.error, { s with pending })
  | stays : Check s (none, { s with nextTick := some (s.nextTick.getD s.scheduler.now) })
  | ticks {tick : Instant} (hpending : s.pending = []) (htick : tick ≤ s.scheduler.now + period)
    : Check s (none, { s with nextTick := some tick })

theorem ticks_of_empty (hpending : s.pending = []) (tick : Instant) (fired : Nat)
    : ∃ tick', s.ticks tick fired = (none, { s with nextTick := some tick' }) ∧
        (tick' = tick ∨ tick' ≤ s.scheduler.now + period) := by
  induction fired generalizing tick with
  | zero => exact ⟨tick, rfl, .inl rfl⟩
  | succ fired ih =>
    rw [State.ticks]
    split
    . next hover =>
      obtain ⟨tick', hticks, hnext⟩ := ih (tick + period)
      split
      . next heq => simp [hpending] at heq
      . refine ⟨tick', hticks, .inr ?_⟩
        obtain rfl | hnext := hnext
        . exact Nat.add_le_add_right (le_of_timerOver hover) period
        . exact hnext
    . exact ⟨tick, rfl, .inl rfl⟩

theorem checkInterrupts_check (s : State) (fired : Nat) : Check s (s.checkInterrupts fired) := by
  unfold State.checkInterrupts
  cases hpending : s.pending with
  | nil =>
    obtain ⟨tick, hticks, rfl | htick⟩ :=
      ticks_of_empty hpending (s.nextTick.getD s.scheduler.now) fired
    . exact hticks ▸ .stays
    . exact hticks ▸ .ticks hpending htick
  | cons p pending =>
    cases fired with
    | zero => exact .stays
    | succ fired =>
      rw [State.ticks]
      split
      . split
        . next heq => exact .finds heq
        . next heq => simp [hpending] at heq
      . exact .stays

inductive Outcome (s : State) : Event → State → Prop where
  | raise (error : Error)
    : Outcome s (.raise error) { s with pending := s.pending ++ [⟨error, s.scheduler.now⟩] }
  | take {p : Pending} {pending : List Pending} (hpending : s.pending = p :: pending)
    : Outcome s .take { s with pending }
  | scheduler {e : Shreduler.Event} {scheduler : Shreduler.State} (hstep : s.scheduler.step e = some scheduler)
    : Outcome s (.scheduler e) { s with scheduler }
  | noticed {joinNext : JoinNext} {checksFirst : Bool} {fired : Nat} {p : Pending} {pending : List Pending}
    {scheduler : Shreduler.State} (hpending : s.pending = p :: pending)
    (hinterrupt : s.scheduler.step (.interrupt p.error) = some scheduler)
    : Outcome s (.select joinNext checksFirst fired) { scheduler, pending, nextTick := none }
  | joined {joinNext : JoinNext} {checksFirst : Bool} {fired : Nat} {e : Shreduler.Event} {scheduler : Shreduler.State}
    (hevent : joinNext.event = some e) (hjoin : s.scheduler.step e = some scheduler)
    : Outcome s (.select joinNext checksFirst fired) { s with scheduler, nextTick := none }
  | waits {joinNext : JoinNext} {checksFirst : Bool} {fired : Nat} {s' : State} (hcheck : Check s (none, s'))
    (hevent : joinNext.event = none) : Outcome s (.select joinNext checksFirst fired) s'

theorem outcome_of_check {joinNext : JoinNext} {checksFirst : Bool} {fired : Nat}
    {result : Option Error × State} (hcheck : Check s result)
    (hstep : State.afterCheck joinNext.event result = some s')
    : Outcome s (.select joinNext checksFirst fired) s' := by
  have hwaits {nextTick : Option Instant} (hcheck : Check s (none, { s with nextTick }))
      (hstep : State.afterCheck joinNext.event (none, { s with nextTick }) = some s')
      : Outcome s (.select joinNext checksFirst fired) s' := by
    cases hevent : joinNext.event with
    | none =>
      rw [hevent] at hstep
      obtain rfl := Option.some.inj hstep
      exact .waits hcheck hevent
    | some e =>
      rw [hevent] at hstep
      obtain ⟨scheduler, hjoin, rfl⟩ := Option.map_eq_some_iff.mp hstep
      exact .joined hevent hjoin
  cases hcheck with
  | finds hpending =>
    obtain ⟨scheduler, hinterrupt, rfl⟩ := Option.map_eq_some_iff.mp hstep
    exact .noticed hpending hinterrupt
  | stays => exact hwaits .stays hstep
  | ticks hpending htick => exact hwaits (.ticks hpending htick) hstep

theorem select_outcome {joinNext : JoinNext} {checksFirst : Bool} {fired : Nat}
    (hstep : s.select joinNext checksFirst fired = some s')
    : Outcome s (.select joinNext checksFirst fired) s' := by
  unfold State.select at hstep
  split at hstep
  . split at hstep
    . next e hevent =>
      obtain ⟨scheduler, hjoin, rfl⟩ := Option.map_eq_some_iff.mp hstep
      exact .joined hevent hjoin
    . exact outcome_of_check (checkInterrupts_check s fired) hstep
  . contradiction

theorem step_outcome (hstep : step s e = some s') : Outcome s e s' := by
  cases e with
  | raise error =>
    obtain rfl := Option.some.inj hstep
    exact .raise error
  | take =>
    simp only [step, State.take, Option.ite_none_right_eq_some] at hstep
    obtain ⟨-, hstep⟩ := hstep
    split at hstep
    . next hpending =>
      obtain rfl := Option.some.inj hstep
      exact .take hpending
    . contradiction
  | select => exact select_outcome hstep
  | scheduler e =>
    simp only [step, State.schedulerStep] at hstep
    split at hstep
    . contradiction
    . contradiction
    . contradiction
    . obtain ⟨scheduler, hscheduler, rfl⟩ := Option.map_eq_some_iff.mp hstep
      exact .scheduler hscheduler

/-! ### The refinement -/

def selected (s : State) (joinNext : JoinNext) (s' : State) : List Shreduler.Event :=
  match s.pending with
  | p :: _ => if s'.pending = s.pending then joinNext.event.toList else [.interrupt p.error]
  | [] => joinNext.event.toList

def shown (s : State) (e : Event) (s' : State) : List Shreduler.Event :=
  match e with
  | .raise _ | .take => []
  | .select joinNext _ _ => selected s joinNext s'
  | .scheduler e => [e]

theorem selected_of_same (hpending : s'.pending = s.pending) (joinNext : JoinNext)
    : selected s joinNext s' = joinNext.event.toList := by
  unfold selected
  split
  . rw [if_pos hpending]
  . rfl

theorem Check.same {result : Option Error × State} (h : Check s result) (hnone : result.1 = none)
    : result.2.scheduler = s.scheduler ∧ result.2.pending = s.pending := by
  cases h with
  | stays | ticks => exact ⟨rfl, rfl⟩
  | finds => contradiction

theorem refines_scheduler
    : Lts.Refines step Shreduler.State.step (fun _ => True) (·.scheduler) shown where
  keeps _ _ _ _ _ := trivial
  simulates s e s' _ hstep := by
    cases step_outcome hstep with
    | raise | take => rfl
    | scheduler hscheduler => exact Lts.run_singleton hscheduler
    | noticed hpending hinterrupt =>
      simp only [shown, selected, hpending]
      rw [if_neg (List.cons_ne_self _ _).symm]
      exact Lts.run_singleton hinterrupt
    | joined hevent hjoin =>
      dsimp only [shown]
      rw [selected_of_same (by rfl), hevent]
      exact Lts.run_singleton hjoin
    | waits hcheck hevent =>
      obtain ⟨hscheduler, hpending⟩ := hcheck.same rfl
      dsimp only [shown]
      rw [selected_of_same hpending, hevent]
      exact congrArg some hscheduler.symm

theorem run_schedulerEvents {es : List Event} (hrun : Lts.run step .new es = some s)
    : Lts.run Shreduler.State.step .new (Lts.trace step shown .new es) = some s.scheduler :=
  refines_scheduler.run trivial hrun

/-! ### The interrupts of a run -/

def raised (_ : State) (e : Event) (_ : State) : List Error :=
  match e with
  | .raise error => [error]
  | _ => []

def noticed (s : State) (e : Event) (s' : State) : List Error :=
  match e with
  | .take | .select .. => (s.pending.take (s.pending.length - s'.pending.length)).map (·.error)
  | .raise _ | .scheduler _ => []

structure Prompt (s : State) : Prop where
  tick : ∀ tick, s.nextTick = some tick → tick ≤ s.scheduler.now + period
  pending : ∀ tick, s.nextTick = some tick → ∀ p ∈ s.pending,
    tick ≤ p.raisedAt + period ∨ tick ≤ s.scheduler.now

theorem Prompt.new : Prompt .new where
  tick := by simp [State.new]
  pending := by simp [State.new]

theorem Prompt.step (h : Prompt s) (hstep : Interrupts.step s e = some s') : Prompt s' := by
  cases step_outcome hstep with
  | raise error =>
    refine ⟨h.tick, ?_⟩
    intro tick htick p hp
    cases List.mem_append.mp hp with
    | inl hp => exact h.pending tick htick p hp
    | inr hp =>
      rw [List.mem_singleton.mp hp]
      exact .inl (h.tick tick htick)
  | take hpending =>
    refine ⟨h.tick, ?_⟩
    intro tick htick p hp
    apply h.pending tick htick
    rw [hpending]
    exact List.mem_cons_of_mem _ hp
  | scheduler hscheduler =>
    have hnow := Shreduler.State.now_le_of_step hscheduler
    constructor
    . intro tick htick
      exact Nat.le_trans (h.tick tick htick) (Nat.add_le_add_right hnow period)
    . intro tick htick p hp
      exact (h.pending tick htick p hp).imp_right fun hle => Nat.le_trans hle hnow
  | noticed | joined => exact ⟨by simp, by simp⟩
  | waits hcheck =>
    cases hcheck with
    | stays =>
      cases htick : s.nextTick with
      | none =>
        -- the interval starts now
        constructor
        . intro tick htick
          obtain rfl := Option.some.inj htick
          exact Nat.le_add_right _ _
        . intro tick htick p hp
          obtain rfl := Option.some.inj htick
          exact .inr (Nat.le_refl _)
      | some tick =>
        rw [Option.getD_some, ← htick]
        exact h
    | ticks hpending htick =>
      constructor
      . intro tick' htick'
        obtain rfl := Option.some.inj htick'
        exact htick
      . intro tick' htick' p hp
        rw [hpending] at hp
        contradiction

theorem pending_of_step (hstep : step s e = some s')
    : s.pending.map (·.error) ++ raised s e s' = noticed s e s' ++ s'.pending.map (·.error) := by
  cases step_outcome hstep with
  | raise error => simp [raised, noticed]
  | take hpending => simp [raised, noticed, hpending]
  | scheduler => simp [raised, noticed]
  | noticed hpending => simp [raised, noticed, hpending]
  | joined => simp [raised, noticed]
  | waits hcheck =>
    obtain ⟨-, hpending⟩ := hcheck.same rfl
    dsimp only at hpending
    simp [raised, noticed, hpending]

/-! ### The check -/

end Interrupts
end Shreduler
