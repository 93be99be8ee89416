import Shreduler.TokioScheduler.Lemmas.Deadlines
import Shreduler.TokioScheduler.Lemmas.Run

/-!
This module proves what is final: a task that an interrupt found pending, and the end of the runtime.
-/

namespace Shreduler
namespace State

variable {s s' : State} {t : TaskId}

structure Cancelled (t : TaskId) (s : State) : Prop where
  wf : Wf s
  owned : Owned s
  lt : t < s.nextTask
  status : ∀ task ∈ s.tasks, task.id = t → task.status = .aborted ∨ task.status = .joinError
  silent : ∀ g payload, (g, payload) ∈ s.handed → payload.origin ≠ .task t ∧ payload.origin ≠ .timeout t

namespace Cancelled

theorem step (h : Cancelled t s) {e : Event} (hstep : State.step s e = some s') : Cancelled t s' := by
  obtain ⟨s'', heffect, houtcome⟩ := (step_sound h.wf hstep).outcome
  refine ⟨h.wf.step hstep, h.owned.step h.wf hstep, ?_, ?_, ?_⟩
  . exact Nat.lt_of_lt_of_le h.lt (nextTask_le_of_step h.wf h.owned hstep)
  . intro task' hmem hid
    by_cases hpoll : ∃ env, e = .poll t env
    . obtain ⟨env, rfl⟩ := hpoll
      obtain ⟨task, htask, holder⟩ | ⟨g, future, hnew⟩ := older_of_step h.wf h.owned hstep hmem
      . have hid₀ : task.id = t := holder.id.trans hid
        have hfind := hid₀ ▸ findTask_of_mem h.owned.nodup htask
        have hpending : task.status ≠ .pending := by
          cases h.status task htask hid₀ with
          | inl haborted => simp [haborted]
          | inr herror => simp [herror]
        exact .inr (cancelled_of_poll h.owned.nodup hstep hfind hpending hmem hid).2
      . rw [hnew] at hid
        exact absurd hid (Nat.ne_of_gt h.lt)
    . rw [houtcome.tasks] at hmem
      obtain ⟨task, htask, hid₀, -, -, hstatus⟩ :=
        heffect.task_frame h.owned h.lt (fun env he => hpoll ⟨env, he⟩) hmem hid
      have hold := h.status task htask hid₀
      obtain hsame | haborted | hpolling := hstatus
      . rw [hsame]
        exact hold
      . exact .inl haborted
      . simp [hpolling] at hold
  . intro g payload hmem
    have hhanded : s'.handed = s''.handed := by
      simp only [State.handed, houtcome.control, houtcome.returns]
    rw [hhanded] at hmem
    obtain hsub | ⟨g', payload', hcons, hloop, hcontrol, -, -⟩ := heffect.handed
    . exact h.silent g payload (hsub.subset hmem)
    . rw [hcons] at hmem
      cases hmem with
      | tail _ hmem => exact h.silent g payload hmem
      | head =>
        obtain hsame | ⟨g', horigin⟩ | ⟨task, htask, horigin, hready, -⟩ |
            ⟨task, htask, horigin, -, hpending⟩ := heffect.control_transfer hcontrol
        . rw [hloop.2] at hsame
          contradiction
        . simp [horigin]
        . rw [horigin]
          refine ⟨?_, by simp⟩
          intro heq
          injection heq with hid
          have := h.status task htask hid
          simp [hready] at this
        . rw [horigin]
          refine ⟨by simp, ?_⟩
          intro heq
          injection heq with hid
          have := h.status task htask hid
          simp [hpending] at this

theorem interrupt (hreach : Reachable s) {error : Error} {task : Task} (hmem : task ∈ s.tasks)
    (hpending : task.status = .pending) (hstep : State.step s (.interrupt error) = some s')
    : Cancelled task.id s' := by
  obtain ⟨howned, -⟩ := hreach.numbered
  obtain ⟨es, hrun⟩ := hreach
  have hdelivered := delivered_of_run hrun
  have hwf := hdelivered.accountable.wf
  have hfind := findTask_of_mem howned.nodup hmem
  have hhistory := Promise.history_project (letters_keep_promises hrun) task.id
  rw [promises_of_findTask howned hfind, Task.promise, hpending] at hhistory
  refine ⟨hwf.step hstep, howned.step hwf hstep, ?_, ?_, ?_⟩
  . exact Nat.lt_of_lt_of_le (howned.lt task hmem) (nextTask_le_of_step hwf howned hstep)
  . intro task' hmem' hid
    simp only [State.step, Option.ite_none_right_eq_some, Option.some.injEq] at hstep
    obtain ⟨-, rfl⟩ := hstep
    obtain ⟨task₀, hmem₀, rfl⟩ := List.mem_map.mp hmem'
    have hid₀ : task₀.id = task.id := by
      rw [← hid]
      split <;> rfl
    rw [findTask_unique howned.nodup hfind hmem₀ hid₀, if_pos hpending]
    exact .inl rfl
  . intro g payload hg
    have hold : (g, payload) ∈ s.handed := by
      simp only [State.step, Option.ite_none_right_eq_some, Option.some.injEq] at hstep
      obtain ⟨-, rfl⟩ := hstep
      exact hg
    have hletter := hdelivered.letter g payload hold
    constructor
    . intro horigin
      simp only [letterOf, horigin] at hletter
      have hmem := Lts.mem_project.mpr (hletter _ (.head _))
      exact hhistory.not_collect (by simp) g payload.result hmem
    . intro horigin
      simp only [letterOf, horigin] at hletter
      exact hhistory.not_warn g (Lts.mem_project.mpr (hletter _ (.head _)))

end Cancelled

/--
No fiber ever hears of a task that is pending when an interrupt ends `run`: neither by its output nor by
the exception of a timeout.
-/
theorem interrupt_cancels {error : Error} {task : Task} (hreach : Reachable s) (hmem : task ∈ s.tasks)
    (hpending : task.status = .pending) (hstep : step s (.interrupt error) = some s') (es : List Event)
    : Lts.Always step
        (fun s'' => ∀ g payload, (g, payload) ∈ s''.handed →
          payload.origin ≠ .task task.id ∧ payload.origin ≠ .timeout task.id)
        s' es := by
  apply Lts.always_of_invariant (J := Cancelled task.id) ?_ (fun _ h => h.silent)
  . exact Cancelled.interrupt hreach hmem hpending hstep
  . intro s e s' h hstep
    exact h.step hstep

theorem interrupt_cancels_read
    : ∃ s s', Lts.run step .new [.fiber, .hook .ioRead, .switch, .run] = some s ∧
        step s (.interrupt (newBaseError "interrupted")) = some s' ∧
        Lts.Always step
          (fun s'' => ∀ g payload, (g, payload) ∈ s''.handed →
            payload.origin ≠ .task 0 ∧ payload.origin ≠ .timeout 0)
          s' [.run, .poll 0 {}, .join 0] :=
  ⟨_, _, rfl, rfl,
    @interrupt_cancels _ _ _ { id := 0, fiber := 1, future := .external, status := .pending }
      ⟨[.fiber, .hook .ioRead, .switch, .run], rfl⟩ (.head _) rfl rfl _⟩

/-! ### After `close` -/

def IdleIfClosed (s : State) : Prop := s.runtime = false → s.runLoop = .idle

theorem IdleIfClosed.step (hwf : Wf s) (h : IdleIfClosed s) {e : Event}
    (hstep : State.step s e = some s') : IdleIfClosed s' := by
  intro hclosed
  cases loopStep hwf hstep with
  | stays hevent hidle hruntime => exact hidle.mpr (h (hruntime ▸ hclosed))
  | starts hroot hruntime hloop hruntime' =>
    rw [hruntime'] at hclosed
    contradiction
  | returns hreturns hidle => exact hidle

theorem idle_of_closed (hreach : Reachable s) (hclosed : s.runtime = false) : s.runLoop = .idle := by
  obtain ⟨es, hrun⟩ := hreach
  have h : Wf s ∧ IdleIfClosed s := by
    apply Lts.invariant (J := fun s => Wf s ∧ IdleIfClosed s) ?_ ⟨.new, fun _ => rfl⟩ hrun
    intro s e s' h hstep
    exact ⟨h.1.step hstep, h.2.step h.1 hstep⟩
  exact h.2 hclosed

structure Closed (s₀ s : State) : Prop where
  accountable : Accountable s
  runtime : s.runtime = false
  runLoop : s.runLoop = .idle
  handed : s.handed.Sublist s₀.handed
  spent : ∀ t, s₀.nextTask ≤ t → t < s.nextTask → s.promises t = .spent

theorem Closed.step {s₀ : State} (h : Closed s₀ s) {e : Event} (hstep : State.step s e = some s')
    : Closed s₀ s' := by
  have hwf := h.accountable.wf
  have howned := h.accountable.owned
  obtain ⟨s'', heffect, houtcome⟩ := (step_sound hwf hstep).outcome
  have hloop : s'.runtime = false ∧ s'.runLoop = .idle := by
    cases loopStep hwf hstep with
    | stays hevent hidle hruntime => exact ⟨hruntime.trans h.runtime, hidle.mpr h.runLoop⟩
    | starts hroot hruntime =>
      rw [h.runtime] at hruntime
      contradiction
    | @returns result hreturns hidle hclosing hresult hok herror =>
      refine ⟨?_, hidle⟩
      by_cases hresult : result = .ok ()
      . simp [hok hresult, h.runtime]
      . rw [herror hresult, h.runtime]
  refine ⟨h.accountable.step hstep, hloop.1, hloop.2, ?_, ?_⟩
  . have hhanded : s'.handed = s''.handed := by
      simp only [State.handed, houtcome.control, houtcome.returns]
    rw [hhanded]
    obtain hsub | ⟨g, payload, -, hjoin, -⟩ := heffect.handed
    . exact hsub.trans h.handed
    . rw [AtJoinNext, h.runLoop] at hjoin
      simp at hjoin
  . intro t hle hlt
    have hrun := Lts.run_project (refines_promises.simulates s e s' h.accountable hstep) t
    by_cases hold : t < s.nextTask
    . rw [h.spent t hle hold] at hrun
      exact Promise.spent_of_run hrun
    . -- a call that is made now is cancelled on the spot
      have hnext : s'.nextTask ≠ s.nextTask := by
        rintro heq
        exact hold (heq ▸ hlt)
      obtain ⟨f, future, hf, hfuture, hsucc, -⟩ := spawned_of_step hwf howned hstep hnext
      have ht : t = s.nextTask := by
        rw [hsucc] at hlt
        exact Nat.le_antisymm (Nat.le_of_lt_succ hlt) (Nat.le_of_not_lt hold)
      have hunmade : s.promises s.nextTask = .unmade := if_neg (Nat.lt_irrefl _)
      rw [Contract.mail_of_spawned hf hfuture, madeBy, if_neg hnext, h.runtime, ht, hunmade] at hrun
      simp only [Lts.project, Bool.false_eq_true, if_false, if_true, List.filterMap_cons,
        List.filterMap_nil] at hrun
      rw [ht]
      injection hrun with hrun
      exact hrun.symm

/--
When the runtime is gone, it is gone for good: `run` does nothing anymore, every call that is made later
is cancelled on the spot, and the event loop hands over nothing to any fiber.
-/
theorem closed_for_good (hreach : Reachable s) (hclosed : s.runtime = false) (es : List Event)
    : Lts.Always step
        (fun s' => s'.runtime = false ∧ s'.runLoop = .idle ∧ s'.handed.Sublist s.handed ∧
          ∀ task ∈ s'.tasks, s.nextTask ≤ task.id → task.status = .joinError)
        s es := by
  have hidle := idle_of_closed hreach hclosed
  have hinit : Closed s s := by
    obtain ⟨es, hrun⟩ := hreach
    refine ⟨(delivered_of_run hrun).accountable, hclosed, hidle, List.Sublist.refl _, ?_⟩
    intro t hle hlt
    exact absurd hlt (Nat.not_lt.mpr hle)
  apply Lts.always_of_invariant (J := Closed s) ?_ ?_ hinit
  . intro s₁ e s₂ h hstep
    exact h.step hstep
  . intro s' h
    refine ⟨h.runtime, h.runLoop, h.handed, ?_⟩
    intro task hmem hle
    have howned := h.accountable.owned
    have hspent := h.spent task.id hle (howned.lt task hmem)
    rw [promises_of_findTask howned (findTask_of_mem howned.nodup hmem), Task.promise] at hspent
    split at hspent
    all_goals first | contradiction | assumption

theorem closed_for_good_fiber
    : ∃ s, Lts.run step .new [.close, .joinNone] = some s ∧
        Lts.Always step
          (fun s' => s'.runtime = false ∧ s'.runLoop = .idle ∧ s'.handed.Sublist s.handed ∧
            ∀ task ∈ s'.tasks, s.nextTask ≤ task.id → task.status = .joinError)
          s [.fiber, .hook .ioRead, .switch, .run] :=
  ⟨_, rfl, closed_for_good ⟨[.close, .joinNone], rfl⟩ rfl _⟩

end State
end Shreduler
