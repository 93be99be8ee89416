import Mathlib.Data.Int.Basic
import Shreduler.TokioScheduler.Impl.ProcessWait
import Shreduler.TokioScheduler.Lemmas.Run
import Shreduler.TokioScheduler.Lemmas.Tasks

/-!
This module proves when a pending `process_wait` leaves the rest of the scheduler alone, and when a
`process_wait` does what `waitpid` does.
-/

namespace Shreduler
namespace ProcessWait

open Posix (Pid Child ChildState WaitEnv)
open Shreduler.State (older_of_step nextTask_le_of_step tasks_of_hook findTask_mem findTask_unique)

variable {config : Config} {s s' : State} {t : TaskId}

/-! ### Polls in the scheduler -/

theorem step_poll_external {scheduler : Shreduler.State} {task : Task} {external : ExternalPoll}
    (hloop : scheduler.AtJoinNext) (hfind : scheduler.findTask t = some task)
    (hstatus : task.status = .pending) (hfuture : task.future = .external)
    : scheduler.step (.poll t { external })
        =
      some
        (match external with
        | .pending => scheduler
        | .ready result => scheduler.complete t result
        | .panicked => scheduler.panicTask t .external) := by
  cases external <;> simp only [Shreduler.State.step, hloop, if_true, Shreduler.State.poll, hfind,
    hstatus, hfuture, Shreduler.State.pollFuture]

/-! ### What a step does -/

inductive Outcome (config : Config) (s : State) : Event → State → Prop
  | fork {pid pgid : Pid} (hpid : 0 < pid) (hnew : ∀ child ∈ s.children, child.pid ≠ pid)
    : Outcome config s (.fork pid pgid)
        { s with children := s.children ++ [{ pid, pgid, state := .quiet }] }
  | change {pid : Pid} {state : ChildState}
    (hexited : ∀ child ∈ s.children, child.pid = pid → child.state.isExited = false)
    : Outcome config s (.change pid state) (s.updateChild pid fun child => { child with state })
  | setpgid {pid pgid : Pid}
    : Outcome config s (.setpgid pid pgid) (s.updateChild pid fun child => { child with pgid })
  | sigchld : Outcome config s .sigchld s.sigchld
  | refused {pid : Pid} {flags : UInt32} {scheduler : Shreduler.State} (hpolling : s.polling = none)
    (hhook : s.scheduler.step (.hook .processWait) = some scheduler)
    : Outcome config s (.processWait pid flags) { s with scheduler }
  | processWait {pid : Pid} {flags : UInt32} {scheduler : Shreduler.State}
    (hpolling : s.polling = none)
    (hhook : s.scheduler.step (.hook .processWait) = some scheduler)
    (hnext : scheduler.nextTask ≠ s.scheduler.nextTask)
    : Outcome config s (.processWait pid flags)
        ({ s with scheduler }.setWaiter s.scheduler.nextTask (some { pid, flags, signal := none }))
  | poll {t : TaskId} {signalError : Option String} {waiter : PidWaiter} (signal : Bool)
    (hidle : s.polling = none) (hloop : s.scheduler.AtJoinNext) (hwaits : s.Waits t)
    (hwaiter : s.waiters t = some waiter) (hsignal : waiter.signal ≠ none ∨ signalError = none)
    : Outcome config s (.poll t signalError)
        { s.setWaiter t (some { waiter with signal := some signal }) with
          polling := some (t, .receiving)
        }
  | pollFails {t : TaskId} {signalError : Option String} {error : Error} {s' : State}
    {waiter : PidWaiter} (hidle : s.polling = none) (hloop : s.scheduler.AtJoinNext)
    (hwaits : s.Waits t) (hend : (s.setWaiter t none).endPoll t (.ready (.error error)) = some s')
    (hwaiter : s.waiters t = some waiter) (hsignal : waiter.signal = none ∧ signalError ≠ none)
    : Outcome config s (.poll t signalError) s'
  | pollRecv {t : TaskId} {waiter : PidWaiter} (hpolling : s.polling = some (t, .receiving))
    (hwaiter : s.waiters t = some waiter)
    : Outcome config s .pollRecv
        { s.setWaiter t (some { waiter with signal := some false }) with
          polling := some (t, .waiting (waiter.signal ≠ some true))
        }
  | blocks {env : WaitEnv} {t : TaskId} {registeredInterest : Bool} {waiter : PidWaiter}
    (hpolling : s.polling = some (t, .waiting registeredInterest))
    (hwaiter : s.waiters t = some waiter)
    (htry : waiter.tryWait config s.children env = .blocks)
    : Outcome config s (.tryWait env) { s with polling := some (t, .blocked registeredInterest) }
  | returns {env : WaitEnv} {t : TaskId} {phase : Phase} {registeredInterest : Bool}
    {waiter : PidWaiter} {result : Result (Option ProcessStatus)} {children : List Child}
    {s' : State} (hpolling : s.polling = some (t, phase))
    (hphase : phase = .waiting registeredInterest ∨ phase = .blocked registeredInterest)
    (hwaiter : s.waiters t = some waiter)
    (htry : waiter.tryWait config s.children env = .returns result children)
    (hafter : { s with children }.afterTryWait t registeredInterest result = some s')
    : Outcome config s (.tryWait env) s'
  | scheduler {e : Shreduler.Event} {scheduler : Shreduler.State}
    (hpolling : s.polling = none ∨ ∃ duration, e = .elapse duration)
    (hpoll : ∀ t env, e = .poll t env → ¬ s.Waits t)
    (hstep : s.scheduler.step e = some scheduler)
    : Outcome config s (.scheduler e) { s with scheduler }

theorem setWaiter_eq_self {waiter : PidWaiter} (h : s.waiters t = some waiter)
    : s.setWaiter t (some waiter) = s := by
  rw [State.setWaiter, ← h, Function.update_eq_self]

theorem processWait_outcome {pid : Pid} {flags : UInt32}
    (hstep : s.processWait pid flags = some s') : Outcome config s (.processWait pid flags) s' := by
  unfold State.processWait at hstep
  split at hstep
  . contradiction
  . next hpolling =>
    split at hstep
    . next scheduler hhook =>
      split at hstep
      . injection hstep with hstep
        exact hstep ▸ .refused hpolling hhook
      . next hnext =>
        injection hstep with hstep
        exact hstep ▸ .processWait hpolling hhook hnext
    . contradiction

theorem poll_outcome {signalError : Option String} (hstep : s.poll t signalError = some s')
    : Outcome config s (.poll t signalError) s' := by
  unfold State.poll at hstep
  split at hstep
  . next hguard =>
    obtain ⟨hidle, hloop, hwaits⟩ := hguard
    split at hstep
    . next waiter hwaiter =>
      have hpoll (signal : Bool) (hsignal : waiter.signal ≠ none ∨ signalError = none)
          : Outcome config s (.poll t signalError)
              { s.setWaiter t (some { waiter with signal := some signal }) with
                polling := some (t, .receiving)
              } :=
        .poll signal hidle hloop hwaits hwaiter hsignal
      split at hstep
      . next signal hsignal =>
        have hsame := hpoll signal (.inl (by simp [hsignal]))
        rw [← hsignal, setWaiter_eq_self hwaiter] at hsame
        injection hstep with hstep
        exact hstep ▸ hsame
      . injection hstep with hstep
        exact hstep ▸ hpoll _ (.inr rfl)
      . next hsignal => exact .pollFails hidle hloop hwaits hstep hwaiter ⟨hsignal, by simp⟩
    . contradiction
  . contradiction

theorem pollRecv_outcome (hstep : s.pollRecv = some s') : Outcome config s .pollRecv s' := by
  unfold State.pollRecv at hstep
  split at hstep
  . next t hpolling =>
    split at hstep
    . next waiter hwaiter =>
      injection hstep with hstep
      exact hstep ▸ .pollRecv hpolling hwaiter
    . contradiction
  . contradiction

theorem tryWait_outcome {env : WaitEnv} (hstep : s.tryWait config env = some s')
    : Outcome config s (.tryWait env) s' := by
  unfold State.tryWait at hstep
  split at hstep
  . next t registeredInterest hpolling =>
    split at hstep
    . next waiter hwaiter =>
      split at hstep
      . next htry =>
        injection hstep with hstep
        exact hstep ▸ .blocks hpolling hwaiter htry
      . next result children htry => exact .returns hpolling (.inl rfl) hwaiter htry hstep
    . contradiction
  . next t registeredInterest hpolling =>
    split at hstep
    . next waiter hwaiter =>
      split at hstep
      . contradiction
      . next result children htry => exact .returns hpolling (.inr rfl) hwaiter htry hstep
    . contradiction
  . contradiction

theorem schedulerStep_outcome {e : Shreduler.Event} (hstep : s.schedulerStep e = some s')
    : Outcome config s (.scheduler e) s' := by
  have hlift (hpolling : s.polling = none ∨ ∃ duration, e = .elapse duration)
      (hpoll : ∀ t env, e = .poll t env → ¬ s.Waits t) (hlift : s.lift e = some s')
      : Outcome config s (.scheduler e) s' := by
    obtain ⟨scheduler, hscheduler, rfl⟩ := Option.map_eq_some_iff.mp hlift
    exact .scheduler hpolling hpoll hscheduler
  unfold State.schedulerStep at hstep
  split at hstep
  . exact hlift (.inr ⟨_, rfl⟩) (by simp) hstep
  . contradiction
  . simp only [Option.ite_none_right_eq_some] at hstep
    obtain ⟨⟨hpolling, hwaits⟩, hstep⟩ := hstep
    refine hlift (.inl hpolling) ?_ hstep
    rintro t env ⟨⟩
    exact hwaits
  . next hne =>
    simp only [Option.ite_none_right_eq_some] at hstep
    exact hlift (.inl hstep.1) (fun t env heq => absurd heq (hne t env)) hstep.2

theorem step_outcome {e : Event} (hstep : step config s e = some s') : Outcome config s e s' := by
  cases e with
  | fork pid pgid =>
    simp only [step, State.fork, Option.ite_none_right_eq_some, Option.some.injEq] at hstep
    exact hstep.2 ▸ .fork hstep.1.1 hstep.1.2
  | change pid state =>
    simp only [step, State.change, Option.ite_none_right_eq_some, Option.some.injEq] at hstep
    exact hstep.2 ▸ .change hstep.1
  | setpgid pid pgid =>
    injection hstep with hstep
    exact hstep ▸ .setpgid
  | sigchld =>
    injection hstep with hstep
    exact hstep ▸ .sigchld
  | processWait pid flags => exact processWait_outcome hstep
  | poll t signalError => exact poll_outcome hstep
  | pollRecv => exact pollRecv_outcome hstep
  | tryWait env => exact tryWait_outcome hstep
  | scheduler e => exact schedulerStep_outcome hstep

/-! ### The invariant -/

structure Sane (s : State) : Prop where
  wf : s.scheduler.Wf
  owned : s.scheduler.Owned
  waiter : ∀ t waiter, s.waiters t = some waiter → t < s.scheduler.nextTask ∧
    ∀ task ∈ s.scheduler.tasks, task.id = t → task.future = .external
  polling : ∀ t phase, s.polling = some (t, phase) → s.scheduler.AtJoinNext ∧ s.Waits t

namespace Sane

theorem new : Sane .new where
  wf := .new
  owned := .new
  waiter t waiter h := by simp [State.new] at h
  polling t phase h := by simp [State.new] at h

theorem scheduler (h : Sane s) {e : Shreduler.Event} {scheduler : Shreduler.State}
    (hstep : s.scheduler.step e = some scheduler) : Sane { s with scheduler, polling := none } where
  wf := h.wf.step hstep
  owned := h.owned.step h.wf hstep
  waiter t waiter ht := by
    obtain ⟨hlt, hfuture⟩ := h.waiter t waiter ht
    refine ⟨Nat.lt_of_lt_of_le hlt (nextTask_le_of_step h.wf h.owned hstep), ?_⟩
    intro task' hmem hid
    cases older_of_step h.wf h.owned hstep hmem with
    | inl hold =>
      obtain ⟨task, htask, holder⟩ := hold
      have hexternal := hfuture task htask (holder.id.trans hid)
      cases holder.future with
      | inl heq => rw [heq, hexternal]
      | inr hblock => simp [Task.isBlock, hexternal] at hblock
    | inr hnew =>
      obtain ⟨f, future, rfl⟩ := hnew
      exact absurd (hid ▸ hlt) (Nat.lt_irrefl _)
  polling t phase hpolling := by contradiction

theorem setWaiter (h : Sane s) {t : TaskId} {old waiter : PidWaiter} (hold : s.waiters t = some old)
    {phase : Phase} (hloop : s.scheduler.AtJoinNext) (hwaits : s.Waits t)
    : Sane { s.setWaiter t (some waiter) with polling := some (t, phase) } where
  wf := h.wf
  owned := h.owned
  waiter t' waiter' ht' := by
    by_cases heq : t' = t
    . exact heq ▸ h.waiter t old hold
    . simp only [State.setWaiter, Function.update_of_ne heq] at ht'
      exact h.waiter t' waiter' ht'
  polling t' phase' hpolling := by
    simp only [Option.some.injEq, Prod.mk.injEq] at hpolling
    obtain ⟨rfl, rfl⟩ := hpolling
    refine ⟨hloop, hwaits.1, ?_⟩
    simp [State.setWaiter]

theorem dropWaiter (h : Sane s) (t : TaskId) : Sane { s.setWaiter t none with polling := none } where
  wf := h.wf
  owned := h.owned
  waiter t' waiter' ht' := by
    by_cases heq : t' = t
    . simp [State.setWaiter, heq] at ht'
    . simp only [State.setWaiter, Function.update_of_ne heq] at ht'
      exact h.waiter t' waiter' ht'
  polling t' phase' hpolling := by contradiction

theorem phase (h : Sane s) {phase phase' : Phase} (hpolling : s.polling = some (t, phase))
    : Sane { s with polling := some (t, phase') } where
  wf := h.wf
  owned := h.owned
  waiter := h.waiter
  polling t' phase'' hpolling' := by
    simp only [Option.some.injEq, Prod.mk.injEq] at hpolling'
    exact hpolling'.1 ▸ h.polling t phase hpolling

theorem children (h : Sane s) (children : List Child) : Sane { s with children } :=
  ⟨h.wf, h.owned, h.waiter, h.polling⟩

theorem endPoll (h : Sane { s with polling := none }) {external : ExternalPoll}
    (hstep : s.endPoll t external = some s') : Sane s' := by
  unfold State.endPoll at hstep
  split at hstep
  . next scheduler hscheduler =>
    injection hstep with hstep
    exact hstep ▸ h.scheduler hscheduler
  . contradiction

theorem idle (h : Sane s) : Sane { s with polling := none } :=
  ⟨h.wf, h.owned, h.waiter, by simp⟩

theorem afterTryWait (h : Sane s) {phase : Phase} (hpolling : s.polling = some (t, phase))
    {registeredInterest : Bool} {result : Result (Option ProcessStatus)}
    (hstep : s.afterTryWait t registeredInterest result = some s') : Sane s' := by
  unfold State.afterTryWait at hstep
  split at hstep
  . next status =>
    dsimp only at hstep
    have hdrop := h.dropWaiter t
    refine endPoll ?_ hstep
    exact ⟨hdrop.wf, hdrop.owned, hdrop.waiter, hdrop.polling⟩
  all_goals
    split at hstep
    . exact h.idle.endPoll hstep
    . injection hstep with hstep
      exact hstep ▸ h.phase hpolling

theorem processWait (h : Sane s) {scheduler : Shreduler.State} (hpolling : s.polling = none)
    (hhook : s.scheduler.step (.hook .processWait) = some scheduler)
    (hnext : scheduler.nextTask ≠ s.scheduler.nextTask) (waiter : PidWaiter)
    : Sane ({ s with scheduler }.setWaiter s.scheduler.nextTask (some waiter)) := by
  have hnew := h.scheduler hhook
  refine ⟨hnew.wf, hnew.owned, ?_, by simp [State.setWaiter, hpolling]⟩
  intro t waiter ht
  by_cases heq : t = s.scheduler.nextTask
  . have hlt := Nat.lt_of_le_of_ne (nextTask_le_of_step h.wf h.owned hhook) (Ne.symm hnext)
    refine ⟨heq ▸ hlt, ?_⟩
    intro task hmem hid
    obtain ⟨f, htasks⟩ := tasks_of_hook h.wf h.owned hhook hnext
    simp only [State.setWaiter, htasks, List.mem_append, List.mem_singleton] at hmem
    cases hmem with
    | inl hold =>
      have hlt := h.owned.lt task hold
      rw [hid, heq] at hlt
      exact absurd hlt (Nat.lt_irrefl _)
    | inr hnewTask =>
      rw [hnewTask]
      rfl
  . simp only [State.setWaiter, Function.update_of_ne heq] at ht
    exact hnew.waiter t waiter ht

theorem lift (h : Sane s) {e : Shreduler.Event} {scheduler : Shreduler.State}
    (hpolling : s.polling = none ∨ ∃ duration, e = .elapse duration)
    (hstep : s.scheduler.step e = some scheduler) : Sane { s with scheduler } := by
  have hnew := h.scheduler hstep
  refine ⟨hnew.wf, hnew.owned, hnew.waiter, ?_⟩
  obtain hpolling | ⟨duration, rfl⟩ := hpolling
  . simp [hpolling]
  . injection hstep with hstep
    subst hstep
    exact h.polling

theorem sigchld (h : Sane s) : Sane s.sigchld where
  wf := h.wf
  owned := h.owned
  waiter t waiter ht := by
    obtain ⟨old, hold, -⟩ := Option.map_eq_some_iff.mp ht
    exact h.waiter t old hold
  polling t phase hpolling := by
    obtain ⟨hloop, hpending, hwaiter⟩ := h.polling t phase hpolling
    exact ⟨hloop, hpending, by simpa [State.sigchld] using hwaiter⟩

theorem step (h : Sane s) {e : Event} (hstep : step config s e = some s') : Sane s' := by
  cases step_outcome hstep with
  | fork | change | setpgid => exact h.children _
  | sigchld => exact h.sigchld
  | refused hpolling hhook => exact h.lift (.inl hpolling) hhook
  | processWait hpolling hhook hnext => exact h.processWait hpolling hhook hnext _
  | poll _ _ hloop hwaits hwaiter => exact h.setWaiter hwaiter hloop hwaits
  | pollFails _ _ _ hend => exact (h.dropWaiter _).endPoll hend
  | pollRecv hpolling hwaiter =>
    obtain ⟨hloop, hwaits⟩ := h.polling _ _ hpolling
    exact h.setWaiter hwaiter hloop hwaits
  | blocks hpolling => exact h.phase hpolling
  | @returns env t phase registeredInterest waiter result children _ hpolling _ _ _ hafter =>
    exact (h.children children).afterTryWait hpolling hafter
  | scheduler hpolling _ hscheduler => exact h.lift hpolling hscheduler

theorem task (h : Sane s) (hwaits : s.Waits t)
    : ∃ task waiter, s.scheduler.findTask t = some task ∧ task.status = .pending ∧
        task.future = .external ∧ s.waiters t = some waiter := by
  obtain ⟨hpending, hwaiter⟩ := hwaits
  obtain ⟨waiter, hwaiter⟩ := Option.isSome_iff_exists.mp hwaiter
  obtain ⟨task, hfind, hstatus⟩ := Option.any_eq_true _ _ |>.mp hpending
  obtain ⟨hmem, hid⟩ := findTask_mem hfind
  exact ⟨task, waiter, hfind, of_decide_eq_true hstatus,
    (h.waiter t waiter hwaiter).2 task hmem hid, hwaiter⟩

theorem endPoll_eq (h : Sane s) (hloop : s.scheduler.AtJoinNext) (hwaits : s.Waits t) {s₁ : State}
    (hscheduler : s₁.scheduler = s.scheduler) (external : ExternalPoll)
    : s₁.endPoll t external
        =
      some
        { s₁ with
          scheduler :=
            match external with
            | .pending => s.scheduler
            | .ready result => s.scheduler.complete t result
            | .panicked => s.scheduler.panicTask t .external
          polling := none
        } := by
  obtain ⟨task, waiter, hfind, hstatus, hfuture, -⟩ := h.task hwaits
  unfold State.endPoll
  rw [hscheduler, step_poll_external hloop hfind hstatus hfuture]

theorem afterTryWait_eq (h : Sane s) {phase : Phase} (hpolling : s.polling = some (t, phase))
    (children : List Child) (registeredInterest : Bool) (result : Result (Option ProcessStatus))
    : { s with children }.afterTryWait t registeredInterest result
        =
      some
        (match result with
        | .ok (some status) =>
          { s.setWaiter t none with
            scheduler :=
              s.scheduler.complete t (.ok (.object "Process::Status" s.statuses.length))
            children
            polling := none
            statuses := s.statuses ++ [status]
          }
        | .ok none | .error _ =>
          { s with
            children
            polling := if registeredInterest then none else some (t, .receiving)
          }) := by
  obtain ⟨hloop, hwaits⟩ := h.polling t phase hpolling
  unfold State.afterTryWait
  split
  . exact h.endPoll_eq hloop hwaits (by rfl) _
  all_goals
    split
    . exact h.endPoll_eq hloop hwaits (by rfl) _
    . rfl

end Sane

/-! ### Waiting for a child -/

def Event.isAttempt : Event → Bool
  | .pollRecv | .tryWait _ => true
  | _ => false

def Event.isDelivery : Event → Bool
  | .sigchld => true
  | _ => false

def Event.Own : Event → Prop
  | .pollRecv => True
  | .tryWait env => env.error = none
  | _ => False

def PidWaiter.NoHang (waiter : PidWaiter) (config : Config) : Prop :=
  match waitOptionsFromBits config.accepted waiter.flags, waitSelector waiter.pid with
  | some options, .ok _ => options.noHang = true
  | _, _ => True

instance (waiter : PidWaiter) (config : Config) : Decidable (waiter.NoHang config) := by
  unfold PidWaiter.NoHang
  split <;> infer_instance

def Resumes (config : Config) (s : State) : Prop :=
  s.polling = none → s.scheduler.AtJoinNext → ∀ t task result,
    s.scheduler.findTask t = some task → task.status = .ready result →
      s.scheduler.isAlive task.fiber → ¬ s.scheduler.Undeliverable t →
        ∃ s', step config s (.scheduler (.join t)) = some s' ∧
          s'.scheduler.control = .transfer task.fiber ⟨result, .task t⟩

structure Responsive (config : Config) (s : State) : Prop where
  -- A poll calls `waitpid` with `WNOHANG` only.
  noHang : ∀ t phase waiter, s.polling = some (t, phase) → s.waiters t = some waiter →
    waiter.NoHang config
  -- It always goes on by itself, and returns unless there are deliveries without end.
  returns : ∀ es s', Lts.run (step config) s es = some s' →
    Lts.Always (step config) (·.polling ≠ none) s es →
      es.countP Event.isAttempt ≤ 5 + 2 * es.countP Event.isDelivery ∧
        ∃ e s'', e.Own ∧ step config s' e = some s''
  -- Between two polls, the executor can poll any other task.
  polls : s.polling = none → s.scheduler.AtJoinNext → ∀ t env,
    (s.scheduler.findTask t).any (·.status = .pending) → ¬ s.Waits t →
      ∃ s', step config s (.scheduler (.poll t env)) = some s' ∧ Resumes config s'
  resumes : Resumes config s

def PidWaiter.WouldBlock (waiter : PidWaiter) (config : Config) (children : List Child) (env : WaitEnv)
    : Prop :=
  match waitOptionsFromBits config.accepted waiter.flags, waitSelector waiter.pid with
  | some options, .ok pid =>
    options.noHang = false ∧ env.error = none ∧
      Posix.Unchanged config.pgrp children (pid.getD 0) options
  | _, _ => False

theorem PidWaiter.tryWait_eq_blocks_iff {waiter : PidWaiter} {children : List Child} {env : WaitEnv}
    : waiter.tryWait config children env = .blocks ↔ waiter.WouldBlock config children env := by
  cases hoptions : waitOptionsFromBits config.accepted waiter.flags with
  | none => simp [tryWait, WouldBlock, hoptions]
  | some options =>
    cases hpid : waitSelector waiter.pid with
    | error e => simp [tryWait, WouldBlock, hoptions, hpid]
    | ok pid =>
      simp only [tryWait, WouldBlock, hoptions, hpid, waitpid, ← Posix.waitpid_eq_blocks_iff]
      cases Posix.waitpid config.pgrp children (pid.getD 0) options env <;> simp

instance (waiter : PidWaiter) (config : Config) (children : List Child) (env : WaitEnv)
    : Decidable (waiter.WouldBlock config children env) :=
  decidable_of_iff _ PidWaiter.tryWait_eq_blocks_iff

theorem PidWaiter.NoHang.not_wouldBlock {waiter : PidWaiter} (h : waiter.NoHang config)
    (children : List Child) (env : WaitEnv) : ¬ waiter.WouldBlock config children env := by
  unfold NoHang at h
  unfold WouldBlock
  split at h
  . simp [h]
  . simp

def Blocked (s : State) : Prop :=
  ∃ t registeredInterest, s.polling = some (t, .blocked registeredInterest)

/-- The poll that has begun does not wait for a child, and will not. -/
structure Prompt (config : Config) (s : State) : Prop where
  sane : Sane s
  notBlocked : ¬ Blocked s
  noHang : ∀ t phase waiter, s.polling = some (t, phase) → s.waiters t = some waiter →
    waiter.NoHang config

/-- The flags of a waiter contain `WNOHANG` when it is polled, or they or the pid are rejected. -/
def PollsNoHang (config : Config) (s : State) : Event → Prop
  | .poll t signalError =>
    ∀ waiter, s.waiters t = some waiter → waiter.signal ≠ none ∨ signalError = none →
      waiter.NoHang config
  | _ => True

def State.stepsLeft (s : State) : Nat :=
  match s.polling with
  | some (t, phase) =>
    let delivered := (s.waiters t).any (·.signal = some true)
    match phase with
    | .receiving => if delivered then 4 else 2
    | .waiting true => 1
    | .waiting false => if delivered then 5 else 3
    | .blocked _ => 0
  | none => 0

theorem stepsLeft_le (s : State) : s.stepsLeft ≤ 5 := by
  unfold State.stepsLeft
  dsimp only
  repeat' split
  all_goals omega

theorem stepsLeft_pollRecv {waiter : PidWaiter} (hpolling : s.polling = some (t, .receiving))
    (hwaiter : s.waiters t = some waiter)
    : State.stepsLeft
          { s.setWaiter t (some { waiter with signal := some false }) with
            polling := some (t, .waiting (waiter.signal ≠ some true))
          } + 1 ≤ s.stepsLeft := by
  by_cases hsignal : waiter.signal = some true
  . simp [State.stepsLeft, hpolling, hwaiter, State.setWaiter, hsignal]
  . simp [State.stepsLeft, hpolling, hwaiter, hsignal]

theorem stepsLeft_afterTryWait (h : Sane s) {registeredInterest : Bool}
    (hpolling : s.polling = some (t, .waiting registeredInterest)) {children : List Child}
    {result : Result (Option ProcessStatus)}
    (hstep : { s with children }.afterTryWait t registeredInterest result = some s')
    : s'.stepsLeft + 1 ≤ s.stepsLeft := by
  rw [h.afterTryWait_eq hpolling] at hstep
  injection hstep with hstep
  subst hstep
  cases registeredInterest with
  | true => split <;> simp [State.stepsLeft, hpolling]
  | false =>
    split
    all_goals
      simp only [State.stepsLeft, hpolling, Bool.false_eq_true, if_false]
      split <;> omega

theorem stepsLeft_sigchld (s : State) : s.sigchld.stepsLeft ≤ s.stepsLeft + 2 := by
  unfold State.stepsLeft
  dsimp only [State.sigchld]
  cases s.polling with
  | none => exact Nat.zero_le _
  | some polling =>
    obtain ⟨t, phase⟩ := polling
    dsimp only
    repeat' split
    all_goals omega

theorem polling_endPoll {external : ExternalPoll} (hstep : s.endPoll t external = some s')
    : s'.polling = none := by
  unfold State.endPoll at hstep
  split at hstep
  . injection hstep with hstep
    rw [← hstep]
  . contradiction

theorem Sane.not_blocked_afterTryWait (h : Sane s) {phase : Phase}
    (hpolling : s.polling = some (t, phase)) {children : List Child} {registeredInterest : Bool}
    {result : Result (Option ProcessStatus)}
    (hstep : { s with children }.afterTryWait t registeredInterest result = some s')
    : ¬ Blocked s' := by
  rw [h.afterTryWait_eq hpolling] at hstep
  injection hstep with hstep
  subst hstep
  unfold Blocked
  split
  . simp
  all_goals cases registeredInterest <;> simp

theorem resumes (config : Config) (s : State) : Resumes config s := by
  intro hpolling hloop t task result hfind hstatus halive hdeliverable
  obtain ⟨scheduler, hjoin, hcontrol⟩ :=
    Shreduler.State.step_join_of_deliverable hloop hfind hstatus halive hdeliverable
  refine ⟨{ s with scheduler }, ?_, hcontrol⟩
  simp only [ProcessWait.step, State.schedulerStep, hpolling, if_true, State.lift, hjoin,
    Option.map_some]

theorem exists_poll (hpolling : s.polling = none) (hloop : s.scheduler.AtJoinNext) {env : PollEnv}
    (hpending : (s.scheduler.findTask t).any (·.status = .pending))
    (hwaits : ¬ s.Waits t)
    : ∃ s', step config s (.scheduler (.poll t env)) = some s' ∧ Resumes config s' := by
  obtain ⟨task, hfind, hstatus⟩ := Option.any_eq_true _ _ |>.mp hpending
  have hpoll
      : s.scheduler.step (.poll t env) = some (s.scheduler.pollFuture t env task.future) := by
    simp only [Shreduler.State.step, hloop, if_true, Shreduler.State.poll, hfind,
      of_decide_eq_true hstatus]
  refine ⟨{ s with scheduler := s.scheduler.pollFuture t env task.future }, ?_, resumes config _⟩
  simp only [step, State.schedulerStep, hpolling, hwaits, not_false_eq_true, and_self, if_true,
    State.lift, hpoll, Option.map_some]

namespace Prompt

theorem new : Prompt config .new where
  sane := .new
  notBlocked := by simp [Blocked, State.new]
  noHang t phase waiter hpolling := by simp [State.new] at hpolling

theorem tryWait_ne_blocks (h : Prompt config s) {phase : Phase} {waiter : PidWaiter}
    (hpolling : s.polling = some (t, phase)) (hwaiter : s.waiters t = some waiter) {env : WaitEnv}
    : waiter.tryWait config s.children env ≠ .blocks :=
  mt PidWaiter.tryWait_eq_blocks_iff.mp
    ((h.noHang t phase waiter hpolling hwaiter).not_wouldBlock s.children env)

theorem notBlocked_step (h : Prompt config s) {e : Event} (hstep : step config s e = some s')
    : ¬ Blocked s' := by
  cases step_outcome hstep with
  | fork | change | setpgid | sigchld | refused | processWait | scheduler => exact h.notBlocked
  | poll | pollRecv => simp [Blocked]
  | pollFails _ _ _ hend => simp [Blocked, polling_endPoll hend]
  | blocks hpolling hwaiter htry => exact absurd htry (h.tryWait_ne_blocks hpolling hwaiter)
  | returns hpolling _ _ _ hafter => exact h.sane.not_blocked_afterTryWait hpolling hafter

theorem noHang_afterTryWait (h : Prompt config s) {phase : Phase}
    (hpolling : s.polling = some (t, phase)) {children : List Child} {registeredInterest : Bool}
    {result : Result (Option ProcessStatus)}
    (hstep : { s with children }.afterTryWait t registeredInterest result = some s') {t' : TaskId}
    {phase' : Phase} {waiter : PidWaiter} (hpolling' : s'.polling = some (t', phase'))
    (hwaiter : s'.waiters t' = some waiter) : waiter.NoHang config := by
  rw [h.sane.afterTryWait_eq hpolling] at hstep
  injection hstep with hstep
  subst hstep
  split at hpolling'
  . contradiction
  all_goals
    cases registeredInterest with
    | true => simp at hpolling'
    | false =>
      simp only [Bool.false_eq_true, if_false, Option.some.injEq, Prod.mk.injEq] at hpolling'
      obtain ⟨rfl, rfl⟩ := hpolling'
      exact h.noHang t phase waiter hpolling hwaiter

theorem noHang_step (h : Prompt config s) {e : Event} (hC : PollsNoHang config s e)
    (hstep : step config s e = some s') {phase : Phase} {waiter : PidWaiter}
    (hpolling : s'.polling = some (t, phase)) (hwaiter : s'.waiters t = some waiter)
    : waiter.NoHang config := by
  cases step_outcome hstep with
  | fork | change | setpgid | scheduler => exact h.noHang t phase waiter hpolling hwaiter
  | sigchld =>
    obtain ⟨old, hold, rfl⟩ := Option.map_eq_some_iff.mp hwaiter
    exact h.noHang t phase old hpolling hold
  | refused hidle | processWait hidle =>
    have hbusy : s.polling = some (t, phase) := hpolling
    rw [hidle] at hbusy
    contradiction
  | @poll t' signalError old _ _ _ _ hpolled hsignal =>
    simp only [Option.some.injEq, Prod.mk.injEq] at hpolling
    obtain ⟨rfl, rfl⟩ := hpolling
    simp only [State.setWaiter, Function.update_self, Option.some.injEq] at hwaiter
    rw [← hwaiter]
    exact hC old hpolled hsignal
  | pollFails _ _ _ hend =>
    rw [polling_endPoll hend] at hpolling
    contradiction
  | @pollRecv t' old hreceiving hold =>
    simp only [Option.some.injEq, Prod.mk.injEq] at hpolling
    obtain ⟨rfl, rfl⟩ := hpolling
    simp only [State.setWaiter, Function.update_self, Option.some.injEq] at hwaiter
    rw [← hwaiter]
    exact h.noHang _ _ old hreceiving hold
  | blocks hwaiting hold htry => exact absurd htry (h.tryWait_ne_blocks hwaiting hold)
  | returns hwaiting _ _ _ hafter => exact h.noHang_afterTryWait hwaiting hafter hpolling hwaiter

theorem step (h : Prompt config s) {e : Event} (hC : PollsNoHang config s e)
    (hstep : ProcessWait.step config s e = some s') : Prompt config s' where
  sane := h.sane.step hstep
  notBlocked := h.notBlocked_step hstep
  noHang _ _ _ := h.noHang_step hC hstep

theorem stepsLeft_step (h : Prompt config s) (hpolling : s.polling ≠ none) {e : Event}
    (hstep : ProcessWait.step config s e = some s')
    : s'.stepsLeft + (if e.isAttempt then 1 else 0) ≤ s.stepsLeft + if e.isDelivery then 2 else 0 := by
  cases step_outcome hstep with
  | fork | change | setpgid => exact Nat.le_refl _
  | sigchld => exact stepsLeft_sigchld s
  | refused hidle | processWait hidle | poll _ hidle | pollFails hidle => exact absurd hidle hpolling
  | pollRecv hpolling hwaiter => exact stepsLeft_pollRecv hpolling hwaiter
  | blocks hpolling hwaiter htry => exact absurd htry (h.tryWait_ne_blocks hpolling hwaiter)
  | returns hpolling hphase _ _ hafter =>
    rcases hphase with rfl | rfl
    . exact stepsLeft_afterTryWait h.sane hpolling hafter
    . exact absurd ⟨_, _, hpolling⟩ h.notBlocked
  | scheduler => exact Nat.le_refl _

theorem pollsNoHang_of_polling (hpolling : s.polling ≠ none) {e : Event}
    (hstep : ProcessWait.step config s e = some s') : PollsNoHang config s e := by
  cases step_outcome hstep with
  | poll _ hidle | pollFails hidle => exact absurd hidle hpolling
  | _ => trivial

theorem exists_own (h : Prompt config s) (hpolling : s.polling ≠ none)
    : ∃ e s', e.Own ∧ ProcessWait.step config s e = some s' := by
  obtain ⟨⟨t, phase⟩, hpolling⟩ := Option.ne_none_iff_exists'.mp hpolling
  obtain ⟨task, waiter, -, -, -, hwaiter⟩ := h.sane.task (h.sane.polling t phase hpolling).2
  cases phase with
  | receiving =>
    have hrecv : ∃ s', s.pollRecv = some s' := by simp [State.pollRecv, hpolling, hwaiter]
    exact ⟨.pollRecv, hrecv.choose, trivial, hrecv.choose_spec⟩
  | waiting registeredInterest =>
    cases htry : waiter.tryWait config s.children {} with
    | blocks => exact absurd htry (h.tryWait_ne_blocks hpolling hwaiter)
    | returns result children =>
      obtain ⟨s', hafter⟩
          : ∃ s', { s with children }.afterTryWait t registeredInterest result = some s' :=
        ⟨_, h.sane.afterTryWait_eq hpolling children registeredInterest result⟩
      refine ⟨.tryWait {}, s', rfl, ?_⟩
      rw [← hafter]
      simp only [ProcessWait.step, State.tryWait, hpolling, hwaiter, htry]
  | blocked registeredInterest => exact absurd ⟨t, registeredInterest, hpolling⟩ h.notBlocked

theorem returns (h : Prompt config s) {es : List Event}
    (hrun : Lts.run (ProcessWait.step config) s es = some s')
    (hpolling : Lts.Always (ProcessWait.step config) (·.polling ≠ none) s es)
    : es.countP Event.isAttempt ≤ s.stepsLeft + 2 * es.countP Event.isDelivery ∧
        ∃ e s'', e.Own ∧ ProcessWait.step config s' e = some s'' := by
  induction es generalizing s with
  | nil =>
    injection hrun with hrun
    subst hrun
    exact ⟨Nat.zero_le _, h.exists_own hpolling⟩
  | cons e es ih =>
    obtain ⟨s₁, hstep, hrun⟩ := Lts.run_cons_eq_some.mp hrun
    obtain ⟨hs, hpolling⟩ := hpolling
    have hstepsLeft := h.stepsLeft_step hs hstep
    have hs₁ := h.step (pollsNoHang_of_polling hs hstep) hstep
    obtain ⟨hle, hnext⟩ := ih hs₁ hrun (hpolling s₁ hstep)
    refine ⟨?_, hnext⟩
    cases hattempt : e.isAttempt
    all_goals
      cases hdelivery : e.isDelivery
      all_goals
        simp only [hattempt, hdelivery, Bool.false_eq_true, if_false, if_true] at hstepsLeft
        simp only [List.countP_cons, hattempt, hdelivery, Bool.false_eq_true, if_false, if_true]
        omega

theorem responsive (h : Prompt config s) : Responsive config s where
  noHang := h.noHang
  returns es s' hrun hpolling := by
    obtain ⟨hle, hnext⟩ := h.returns hrun hpolling
    have := stepsLeft_le s
    exact ⟨by omega, hnext⟩
  polls hpolling hloop t env := exists_poll hpolling hloop
  resumes := resumes config s

end Prompt

theorem not_responsive_of_blocks {registeredInterest : Bool} {waiter : PidWaiter} {env : WaitEnv}
    (hpolling : s.polling = some (t, .blocked registeredInterest))
    (hwaiter : s.waiters t = some waiter) (hblocks : waiter.WouldBlock config s.children env)
    : ¬ Responsive config s := by
  intro hresponsive
  obtain ⟨-, e, s', hown, hstep⟩ := hresponsive.returns [] s rfl (by simp [Lts.Always, hpolling])
  cases e with
  | pollRecv => simp [step, State.pollRecv, hpolling] at hstep
  | tryWait env' =>
    have hblocks' : waiter.WouldBlock config s.children env' := by
      unfold PidWaiter.WouldBlock at hblocks ⊢
      split at hblocks
      . exact ⟨hblocks.1, hown, hblocks.2.2⟩
      . exact hblocks
    have htry := PidWaiter.tryWait_eq_blocks_iff.mpr hblocks'
    simp [step, State.tryWait, hpolling, hwaiter, htry] at hstep
  | _ => exact hown

/--
A pending `process_wait` never makes the thread wait for a child, in exactly the runs in which each
waiter that is polled has `WNOHANG` among its flags, or flags or a pid that are rejected.
-/
theorem responsive_iff {es : List Event}
    : Lts.Always (step config) (Responsive config) .new es ↔
        Lts.Along (step config) (PollsNoHang config) .new es := by
  apply Lts.always_iff_along (J := Prompt config)
  . exact fun s e s' h hC hstep => h.step hC hstep
  . exact fun s h => h.responsive
  . intro s e s' h hstep hresponsive
    cases e with
    | poll t signalError =>
      intro waiter hwaiter hsignal
      cases step_outcome hstep with
      | poll signal _ _ _ hpolled =>
        obtain rfl := Option.some.inj (hwaiter.symm.trans hpolled)
        refine hresponsive.noHang t .receiving { waiter with signal := some signal } rfl ?_
        simp only [State.setWaiter, Function.update_self]
      | pollFails _ _ _ _ hpolled hfails =>
        obtain rfl := Option.some.inj (hwaiter.symm.trans hpolled)
        exact absurd hsignal (by simp [hfails])
    | _ => trivial
  . exact .new

def waitOverSleep : List Event := [
  .scheduler .fiber,
  .fork 7 1,
  .processWait 7 0,
  .scheduler .switch,
  .scheduler .fiber,
  .scheduler (.hook (.kernelSleep 0)),
  .scheduler .switch,
  .scheduler .run,
  .scheduler (.poll 1 { timerFired := true }),
  .poll 0 none,
  .pollRecv,
  .tryWait {}
]

theorem not_responsive_waitOverSleep
    : ¬ ∀ es, Lts.Always (step ⟨11, 1⟩) (Responsive ⟨11, 1⟩) .new es := by
  intro hall
  have hblocks : PidWaiter.WouldBlock ⟨7, 0, some false⟩ ⟨11, 1⟩ [⟨7, 1, .quiet⟩] {} := by decide
  exact not_responsive_of_blocks rfl rfl hblocks ((hall waitOverSleep).last rfl)

end ProcessWait
end Shreduler
