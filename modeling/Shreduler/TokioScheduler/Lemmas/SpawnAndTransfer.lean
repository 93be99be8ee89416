import Shreduler.TokioScheduler.Lemmas.BlockAgreement
import Shreduler.TokioScheduler.Lemmas.Run

/-!
This module proves when a `spawn_and_transfer` that fails leaves nothing behind, and what becomes of
what it leaves behind otherwise.
-/

namespace Shreduler
namespace State

variable {s s' : State} {f : FiberId} {t : TaskId}

def HandsOver (t : TaskId) (s : State) : Prop :=
  ∃ f result, s.control = .transfer f ⟨result, .task t⟩ ∨ s.control = .transfer f ⟨result, .timeout t⟩

/--
The step from `s` to `s'` resumes or raises into a fiber on account of the task: also into the root fiber,
by making `run` return an error.
-/
def ActsFor (t : TaskId) (s : State) (e : Event) (s' : State) : Prop :=
  HandsOver t s' ∨
    e = .join t ∧ RunReturns s e s' ∧ ∃ error, s'.runResult = some (.error error)

/--
If the call of `spawn_and_transfer` by the fiber `f` fails at once, then the join set is what it was, and
no later run acts on account of a task that the call has added.
-/
def FailsAtomically (s : State) (f : FiberId) (future : Future) : Prop :=
  ∀ error s', s.spawnAndTransfer f future = (.error error, s') →
    s'.futuresToRun = s.futuresToRun ∧
      ∀ t, s.nextTask ≤ t → t < s'.nextTask → ∀ es,
        Lts.Along step (fun s e => ∀ s', step s e = some s' → ¬ ActsFor t s e s') s' es

/-! ### What a failed call of the root fiber leaves behind -/

structure Leftover (t : TaskId) (s : State) : Prop where
  wf : Wf s
  owned : Owned s
  lt : t < s.nextTask
  task : ∀ task ∈ s.tasks, task.id = t → task.fiber = rootFiber ∧ task.isTimeout = false
  silent : ¬ HandsOver t s

theorem Effect.control_timeout {e : Event} (h : Effect s e s') {result : Result Value}
    (hcontrol : s'.control = .transfer f ⟨result, .timeout t⟩)
    : s.control = .transfer f ⟨result, .timeout t⟩ ∨
        ∃ task ∈ s.tasks, task.id = t ∧ task.isTimeout := by
  obtain hold | ⟨_, hfiber⟩ | ⟨_, -, htask, -⟩ | ⟨task, hmem, htimeout, hisTimeout, -⟩ :=
    h.control_transfer hcontrol
  . exact .inl hold
  . contradiction
  . contradiction
  . injection htimeout with htimeout
    exact .inr ⟨task, hmem, htimeout.symm, hisTimeout⟩

namespace Leftover

theorem step (h : Leftover t s) {e : Event} (hstep : State.step s e = some s') : Leftover t s' where
  wf := h.wf.step hstep
  owned := h.owned.step h.wf hstep
  lt := Nat.lt_of_lt_of_le h.lt (nextTask_le_of_step h.wf h.owned hstep)
  task task' hmem hid := by
    obtain ⟨task, htask, holder⟩ | ⟨f, future, rfl⟩ := older_of_step h.wf h.owned hstep hmem
    . obtain ⟨hroot, htimeout⟩ := h.task task htask (holder.id.trans hid)
      exact ⟨holder.fiber.trans hroot, holder.isTimeout htimeout⟩
    . exact absurd (hid ▸ h.lt) (Nat.lt_irrefl _)
  silent := by
    obtain ⟨s'', heffect, houtcome⟩ := (step_sound h.wf hstep).outcome
    rintro ⟨f, result, hcontrol | hcontrol⟩
    . rw [houtcome.control] at hcontrol
      obtain hold | ⟨task, hmem, hid, -, hne⟩ := heffect.control_task hcontrol
      . exact h.silent ⟨f, result, .inl hold⟩
      . exact hne (h.task task hmem hid).1
    . rw [houtcome.control] at hcontrol
      obtain hold | ⟨task, hmem, hid, htimeout⟩ := heffect.control_timeout hcontrol
      . exact h.silent ⟨f, result, .inr hold⟩
      . rw [(h.task task hmem hid).2] at htimeout
        contradiction

theorem actsFor_iff (h : Leftover t s) {e : Event} (hstep : State.step s e = some s')
    : ActsFor t s e s' ↔ e = .join t ∧ s.Undeliverable t := by
  have hloop := loopStep h.wf hstep
  constructor
  . rintro (hover | ⟨rfl, hreturns, error, herror⟩)
    . exact absurd hover (h.step hstep).silent
    . refine ⟨rfl, ?_⟩
      cases hloop with
      | stays hevent hidle =>
        exact absurd (hidle.mp hreturns.2) (hreturns.1.resolve_right hevent)
      | starts hroot hruntime hjoin =>
        rw [hreturns.2] at hjoin
        contradiction
      | returns hcause hidle hclosing hresult =>
        rw [hresult] at herror
        injection herror with herror
        subst herror
        obtain ⟨hevent, -⟩ | hevent | ⟨t', hevent, hundeliverable⟩ | ⟨hevent, -⟩ := hcause.error_cases
        . contradiction
        . contradiction
        . injection hevent with heq
          exact heq ▸ hundeliverable
        . contradiction
  . rintro ⟨rfl, hundeliverable⟩
    simp only [State.step, Option.ite_none_right_eq_some] at hstep
    obtain ⟨hjoinNext, hjoin⟩ := hstep
    have hidle := (runFails_of_undeliverable hundeliverable hjoin).1
    have hne : s.runLoop ≠ .idle := by simp [hjoinNext.1]
    refine .inr ⟨rfl, ⟨.inl hne, hidle⟩, ?_⟩
    cases hloop with
    | stays hevent hidleIff => exact absurd (hidleIff.mp hidle) hne
    | starts hroot => exact absurd hroot.1 hne
    | returns hcause hidle' hclosing hresult =>
      cases hcause with
      | rootTask | jump => exact ⟨_, hresult⟩
      | closed hevent => contradiction

end Leftover

theorem leftover_of_root (hwf : Wf s) (howned : Owned s) (hf : s.rubyFiber = some rootFiber)
    {future : Future} (htimeout : (s.newTask rootFiber future).isTimeout = false)
    : Leftover s.nextTask (s.addTask rootFiber future) := by
  have hspawn := Spawned.addTask s rootFiber future
  have hrunning := Wf.rubyFiber_running hf
  refine ⟨hwf.same hspawn.thread, ?_, ?_, ?_, ?_⟩
  . exact howned.spawned hspawn (hwf.lt_nextFiber hwf.rootAlive) (future_ne_timeout htimeout)
  . exact hspawn.nextTask ▸ Nat.lt_succ_self _
  . intro task hmem hid
    rw [hspawn.tasks, List.mem_append, List.mem_singleton] at hmem
    cases hmem with
    | inl hold => exact absurd (hid ▸ howned.lt task hold) (Nat.lt_irrefl _)
    | inr hnew =>
      rw [hnew]
      exact ⟨rfl, htimeout⟩
  . rintro ⟨f, result, hcontrol | hcontrol⟩
    all_goals
      rw [hspawn.thread.control, hrunning] at hcontrol
      contradiction

theorem leftover_actsFor_iff (hreach : Reachable s) (hf : s.rubyFiber = some rootFiber)
    (hook : Hook) (es : List Event)
    : Lts.Along step (fun s₁ e => ∀ s₂, step s₁ e = some s₂ →
          (ActsFor s.nextTask s₁ e s₂ ↔ e = .join s.nextTask ∧ s₁.Undeliverable s.nextTask))
        (s.addTask rootFiber (hook.future s.now)) es := by
  have hleftover := leftover_of_root hreach.wf hreach.numbered.1 hf (hook_isTimeout s rootFiber hook)
  have hrun : Lts.Along step (fun _ _ => True) (s.addTask rootFiber (hook.future s.now)) es :=
    Lts.along_of_forall (fun _ _ _ => trivial) _
  refine hrun.imp (J := Leftover s.nextTask) ?_ ?_ hleftover
  . exact fun s₁ e s₂ h _ hstep => h.step hstep
  . exact fun s₁ e s₂ h _ _ s₂ hstep => h.actsFor_iff hstep

/-! ### Failing atomically -/

/--
A call of `spawn_and_transfer` that fails leaves nothing behind, unless the root fiber makes it while the
guard of `futures_to_run` is free.
-/
theorem failsAtomically_iff (hreach : Reachable s) (hf : s.rubyFiber = some f) (future : Future)
    : FailsAtomically s f future ↔ ¬ (f = rootFiber ∧ ¬ s.runLoop.Borrows) := by
  have hwf := hreach.wf
  constructor
  . rintro hatomic ⟨rfl, hloop⟩
    obtain ⟨hfutures, -⟩ := hatomic _ _ (spawnAndTransfer_of_root hwf hloop future)
    have hlength := congrArg (fun cell : GcCell (List Task) => cell.value.length) hfutures
    simp [(Spawned.addTask s rootFiber future).tasks] at hlength
  . intro hcond error s' hcall
    by_cases hloop : s.runLoop.Borrows
    . rw [spawnAndTransfer_of_borrows hwf hloop] at hcall
      injection hcall with _ hs'
      subst hs'
      refine ⟨dropFuture_futuresToRun s future, ?_⟩
      intro t hle hlt
      -- no task has been added
      rw [nextTask_dropFuture] at hlt
      exact absurd hlt (Nat.not_lt.mpr hle)
    . have hne : f ≠ rootFiber := fun hroot => hcond ⟨hroot, hloop⟩
      rw [spawnAndTransfer_of_ne_root hwf hloop hne] at hcall
      injection hcall with hok
      contradiction

theorem failsAtomically_fiber
    : FailsAtomically (State.new.fiberImpl rootFiber) 1 (kernelSleep 0 5) ↔
        ¬ (1 = rootFiber ∧ ¬ (State.new.fiberImpl rootFiber).runLoop.Borrows) :=
  failsAtomically_iff ⟨[.fiber], rfl⟩ rfl _

theorem not_failsAtomically
    : ¬ ∀ s f future, Reachable s → s.rubyFiber = some f → FailsAtomically s f future := by
  intro hall
  obtain ⟨hfutures, -⟩ := hall .new rootFiber (kernelSleep 0 0) ⟨[], rfl⟩ rfl _ _ rfl
  contradiction

end State
end Shreduler
