import Shreduler.TokioScheduler.Lemmas.ChildExits
import Shreduler.TokioScheduler.Lemmas.Deadlines

/-!
This module proves that the scheduler with the child processes refines the scheduler, and with that to
whom a `process_wait` reports the exit of a child.
-/

namespace Shreduler

open Posix (Pid Child WaitEnv)

namespace ProcessWait

open Shreduler.State (letters mail findTask_mem findTask_complete)

variable {config : Config} {s s' : State} {t : TaskId}

/-! ### The refinement -/

def polledAs (s' : State) (t : TaskId) : List Shreduler.Event :=
  match s'.polling, s'.scheduler.findTask t with
  | none, some { status := .ready result, .. } => [.poll t { external := .ready result }]
  | none, _ => [.poll t { external := .pending }]
  | some _, _ => []

def shown (s : State) (e : Event) (s' : State) : List Shreduler.Event :=
  match e with
  | .processWait .. => [.hook .processWait]
  | .poll t _ => polledAs s' t
  | .tryWait _ => s.polling.elim [] fun polling => polledAs s' polling.1
  | .scheduler e => [e]
  | .fork .. | .change .. | .setpgid .. | .sigchld | .pollRecv => []

theorem findTask_complete_self {scheduler : Shreduler.State} {task : Task}
    (hfind : scheduler.findTask t = some task) (result : Result Value)
    : (scheduler.complete t result).findTask t = some { task with status := .ready result } := by
  rw [findTask_complete, hfind, Option.map_some, if_pos (findTask_mem hfind).2]

theorem polledAs_complete (h : Sane s) (hwaits : s.Waits t) {result : Result Value}
    (hpolling : s'.polling = none) (hscheduler : s'.scheduler = s.scheduler.complete t result)
    : polledAs s' t = [.poll t { external := .ready result }] := by
  obtain ⟨task, -, hfind, -⟩ := h.task hwaits
  unfold polledAs
  rw [hpolling, hscheduler, findTask_complete_self hfind]

theorem run_polledAs (h : Sane s) (hloop : s.scheduler.AtJoinNext) (hwaits : s.Waits t)
    (hscheduler : s'.scheduler = s.scheduler ∨
      s'.polling = none ∧ ∃ result, s'.scheduler = s.scheduler.complete t result)
    : Lts.run Shreduler.State.step s.scheduler (polledAs s' t) = some s'.scheduler := by
  obtain ⟨task, -, hfind, hstatus, hfuture, -⟩ := h.task hwaits
  cases hscheduler with
  | inl hsame =>
    unfold polledAs
    rw [hsame]
    cases hpolling : s'.polling with
    | some polling =>
      rw [hfind]
      rfl
    | none =>
      obtain ⟨id, fiber, future, status⟩ := task
      simp only at hstatus hfuture
      subst hstatus hfuture
      rw [hfind]
      exact Lts.run_singleton (step_poll_external hloop hfind rfl rfl)
  | inr hdone =>
    obtain ⟨hpolling, result, hcomplete⟩ := hdone
    rw [polledAs_complete h hwaits hpolling hcomplete, hcomplete]
    exact Lts.run_singleton (step_poll_external hloop hfind hstatus hfuture)

theorem scheduler_of_afterTryWait (h : Sane s) {phase : Phase} (hpolling : s.polling = some (t, phase))
    {children : List Child} {registeredInterest : Bool} {result : Result (Option ProcessStatus)}
    (hafter : { s with children }.afterTryWait t registeredInterest result = some s')
    : s'.scheduler = s.scheduler ∨
        s'.polling = none ∧ ∃ result, s'.scheduler = s.scheduler.complete t result := by
  rw [h.afterTryWait_eq hpolling, Option.some.injEq] at hafter
  rw [← hafter]
  split
  . exact .inr ⟨rfl, _, rfl⟩
  . exact .inl rfl
  . exact .inl rfl

theorem refines_scheduler (config : Config)
    : Lts.Refines (step config) Shreduler.State.step Sane (·.scheduler) shown where
  keeps _ _ _ h hstep := h.step hstep
  simulates s e s' h hstep := by
    cases step_outcome hstep with
    | fork | change | setpgid | sigchld | pollRecv => rfl
    | refused _ hhook => exact Lts.run_singleton hhook
    | processWait _ hhook => exact Lts.run_singleton hhook
    | poll _ _ hloop hwaits =>
      dsimp only [shown]
      exact run_polledAs h hloop hwaits (.inl rfl)
    | pollFails _ hloop hwaits hend =>
      apply run_polledAs h hloop hwaits
      rw [h.endPoll_eq hloop hwaits (by rfl), Option.some.injEq] at hend
      rw [← hend]
      exact .inr ⟨rfl, _, rfl⟩
    | blocks hpolling =>
      obtain ⟨hloop, hwaits⟩ := h.polling _ _ hpolling
      simp only [shown, hpolling, Option.elim_some]
      exact run_polledAs h hloop hwaits (.inl rfl)
    | returns hpolling _ _ _ hafter =>
      obtain ⟨hloop, hwaits⟩ := h.polling _ _ hpolling
      simp only [shown, hpolling, Option.elim_some]
      exact run_polledAs h hloop hwaits (scheduler_of_afterTryWait h hpolling hafter)
    | scheduler _ _ hscheduler => exact Lts.run_singleton hscheduler

def schedulerEvents (config : Config) (es : List Event) : List Shreduler.Event :=
  Lts.trace (step config) shown .new es

theorem run_schedulerEvents {es : List Event} (hrun : Lts.run (step config) .new es = some s)
    : Lts.run Shreduler.State.step .new (schedulerEvents config es) = some s.scheduler :=
  (refines_scheduler config).run .new hrun

/-! ### Calls and reports -/

structure Ask where
  task : TaskId
  fiber : FiberId
  pid : Pid
  flags : UInt32

def asked (s : State) (e : Event) (s' : State) : List Ask :=
  match e with
  | .processWait pid flags =>
    if s'.scheduler.nextTask = s.scheduler.nextTask then
      []
    else
      s.scheduler.rubyFiber.toList.map fun fiber => { task := s.scheduler.nextTask, fiber, pid, flags }
  | _ => []

structure Posted (config : Config) (es : List Event) (s : State) : Prop where
  run : Lts.run (step config) .new es = some s
  asked : ∀ a ∈ Lts.trace (step config) asked .new es,
    (a.task, .make a.fiber) ∈ letters (schedulerEvents config es)
  waiters : ∀ t waiter, s.waiters t = some waiter →
    ∃ a ∈ Lts.trace (step config) ProcessWait.asked .new es, a.task = t ∧ a.pid = waiter.pid
  reaped : ∀ r ∈ Lts.trace (step config) (reaped config) .new es,
    (r.task, .keep (.ok (.object "Process::Status" r.object))) ∈ letters (schedulerEvents config es) ∧
      ∃ a ∈ Lts.trace (step config) ProcessWait.asked .new es, a.task = r.task ∧
        s.statuses[r.object]? = some { pid := a.pid, status := r.status, error := 0 }

theorem statuses_prefix_of_step (h : Sane s) {e : Event} (hstep : step config s e = some s')
    : s.statuses <+: s'.statuses := by
  cases step_outcome hstep with
  | pollFails _ hloop hwaits hend =>
    rw [h.endPoll_eq hloop hwaits (by rfl), Option.some.injEq] at hend
    rw [← hend]
    exact List.prefix_rfl
  | returns hpolling _ _ _ hafter =>
    rw [h.afterTryWait_eq hpolling, Option.some.injEq] at hafter
    rw [← hafter]
    split
    . apply List.prefix_append
    . exact List.prefix_rfl
    . exact List.prefix_rfl
  | _ => exact List.prefix_rfl

theorem waiter_of_step (h : Sane s) {e : Event} (hstep : step config s e = some s') {waiter' : PidWaiter}
    (hwaiter' : s'.waiters t = some waiter')
    : (∃ waiter, s.waiters t = some waiter ∧ waiter.pid = waiter'.pid) ∨
        ∃ a ∈ asked s e s', a.task = t ∧ a.pid = waiter'.pid := by
  have hupdate {t' : TaskId} {old new : PidWaiter} (hold : s.waiters t' = some old)
      (hpid : old.pid = new.pid) (hnew : Function.update s.waiters t' (some new) t = some waiter')
      : ∃ waiter, s.waiters t = some waiter ∧ waiter.pid = waiter'.pid := by
    by_cases heq : t = t'
    . rw [heq, Function.update_self, Option.some.injEq] at hnew
      exact ⟨old, heq ▸ hold, hnew ▸ hpid⟩
    . rw [Function.update_of_ne heq] at hnew
      exact ⟨waiter', hnew, rfl⟩
  have hdrop {t' : TaskId} (hnew : Function.update s.waiters t' none t = some waiter')
      : ∃ waiter, s.waiters t = some waiter ∧ waiter.pid = waiter'.pid := by
    by_cases heq : t = t'
    . rw [heq, Function.update_self] at hnew
      contradiction
    . rw [Function.update_of_ne heq] at hnew
      exact ⟨waiter', hnew, rfl⟩
  cases step_outcome hstep with
  | fork | change | setpgid | refused | blocks | scheduler => exact .inl ⟨waiter', hwaiter', rfl⟩
  | sigchld =>
    obtain ⟨waiter, hwaiter, hmap⟩ := Option.map_eq_some_iff.mp hwaiter'
    exact .inl ⟨waiter, hwaiter, by rw [← hmap]⟩
  | @processWait pid flags scheduler _ hhook hnext =>
    by_cases heq : t = s.scheduler.nextTask
    . obtain ⟨f, -, hf, -⟩ := Shreduler.State.spawned_of_step h.wf h.owned hhook hnext
      right
      refine ⟨⟨s.scheduler.nextTask, f, pid, flags⟩, ?_, heq.symm, ?_⟩
      . simp [asked, State.setWaiter, hnext, hf]
      . simp only [State.setWaiter, heq, Function.update_self, Option.some.injEq] at hwaiter'
        rw [← hwaiter']
    . simp only [State.setWaiter, Function.update_of_ne heq] at hwaiter'
      exact .inl ⟨waiter', hwaiter', rfl⟩
  | poll _ _ _ _ hold =>
    left
    apply hupdate hold ?_ hwaiter'
    rfl
  | pollRecv _ hold =>
    left
    apply hupdate hold ?_ hwaiter'
    rfl
  | pollFails _ hloop hwaits hend =>
    rw [h.endPoll_eq hloop hwaits (by rfl), Option.some.injEq] at hend
    rw [← hend] at hwaiter'
    exact .inl (hdrop hwaiter')
  | returns hpolling _ _ _ hafter =>
    rw [h.afterTryWait_eq hpolling, Option.some.injEq] at hafter
    rw [← hafter] at hwaiter'
    split at hwaiter'
    . exact .inl (hdrop hwaiter')
    . exact .inl ⟨waiter', hwaiter', rfl⟩
    . exact .inl ⟨waiter', hwaiter', rfl⟩

namespace Posted

variable {es : List Event}

theorem new : Posted config [] .new where
  run := rfl
  asked := by simp
  waiters := by simp [State.new]
  reaped := by simp

theorem sane (h : Posted config es s) : Sane s := Reachable.sane ⟨es, h.run⟩

theorem letters_append (h : Posted config es s) {e : Event} (hstep : step config s e = some s')
    : letters (schedulerEvents config (es ++ [e]))
        =
      letters (schedulerEvents config es) ++
        Lts.trace Shreduler.State.step mail s.scheduler (shown s e s') := by
  have hrun := run_schedulerEvents h.run
  unfold letters
  rw [schedulerEvents, Lts.trace_append_singleton h.run hstep]
  rw [← schedulerEvents, Lts.trace_append_of_run hrun]

theorem letter_asked {e : Event} (hstep : step config s e = some s') {a : Ask}
    (ha : a ∈ ProcessWait.asked s e s')
    : (a.task, .make a.fiber) ∈ Lts.trace Shreduler.State.step mail s.scheduler (shown s e s') := by
  cases e with
  | processWait pid flags =>
    simp only [ProcessWait.asked, List.mem_ite_nil_left, List.mem_map, Option.mem_toList] at ha
    obtain ⟨hnext, f, hf, rfl⟩ := ha
    have hhook : s.scheduler.step (.hook .processWait) = some s'.scheduler := by
      cases step_outcome hstep with
      | refused _ hhook => exact hhook
      | processWait _ hhook => exact hhook
    simp only [shown, Lts.trace_cons_of_step hhook, mail, hf, Option.elim_some, State.madeBy,
      if_neg hnext, Lts.trace_nil, List.append_nil]
    split
    . apply List.mem_cons_self
    . apply List.mem_cons_self
  | _ => simp [ProcessWait.asked] at ha

theorem letter_reaped (h : Posted config es s) {e : Event} (hstep : step config s e = some s') {r : Reap}
    {waiter : PidWaiter} (htakes : Takes s e s' r waiter)
    : (r.task, .keep (.ok (.object "Process::Status" r.object)))
        ∈ Lts.trace Shreduler.State.step mail s.scheduler (shown s e s') := by
  obtain ⟨env, rfl⟩ := htakes.attempt
  obtain ⟨phase, hpolling⟩ := htakes.polling
  obtain ⟨hloop, hwaits⟩ := h.sane.polling r.task phase hpolling
  obtain ⟨task, -, hfind, hstatus, hfuture, -⟩ := h.sane.task hwaits
  have hpoll : s.scheduler.step
      (.poll r.task { external := .ready (.ok (.object "Process::Status" r.object)) }) = some _ :=
    step_poll_external hloop hfind hstatus hfuture
  simp only [shown, hpolling, Option.elim_some]
  rw [polledAs_complete h.sane hwaits htakes.ended htakes.complete, Lts.trace_cons_of_step hpoll]
  apply List.mem_append_left
  simp only [mail, State.polledTo, findTask_complete_self hfind]
  apply List.mem_cons_self

theorem step (h : Posted config es s) {e : Event} (hstep : ProcessWait.step config s e = some s')
    : Posted config (es ++ [e]) s' := by
  have hletters := h.letters_append hstep
  have hasked : Lts.trace (ProcessWait.step config) ProcessWait.asked .new (es ++ [e])
      = Lts.trace (ProcessWait.step config) ProcessWait.asked .new es ++ ProcessWait.asked s e s' :=
    Lts.trace_append_singleton h.run hstep
  have hreaped : Lts.trace (ProcessWait.step config) (ProcessWait.reaped config) .new (es ++ [e])
      = Lts.trace (ProcessWait.step config) (ProcessWait.reaped config) .new es ++
          ProcessWait.reaped config s e s' :=
    Lts.trace_append_singleton h.run hstep
  constructor
  . exact Lts.run_append_singleton h.run hstep
  . intro a ha
    rw [hletters]
    rw [hasked] at ha
    cases List.mem_append.mp ha with
    | inl ha => exact List.mem_append_left _ (h.asked a ha)
    | inr ha => exact List.mem_append_right _ (letter_asked hstep ha)
  . intro t waiter' hwaiter'
    rw [hasked]
    cases waiter_of_step h.sane hstep hwaiter' with
    | inl hold =>
      obtain ⟨waiter, hwaiter, hpid⟩ := hold
      obtain ⟨a, ha, htask, hask⟩ := h.waiters t waiter hwaiter
      exact ⟨a, List.mem_append_left _ ha, htask, hask.trans hpid⟩
    | inr hnew =>
      obtain ⟨a, ha, htask, hask⟩ := hnew
      exact ⟨a, List.mem_append_right _ ha, htask, hask⟩
  . intro r hr
    rw [hletters, hasked]
    rw [hreaped] at hr
    cases List.mem_append.mp hr with
    | inl hr =>
      obtain ⟨hletter, a, ha, htask, hstatus⟩ := h.reaped r hr
      obtain ⟨rest, hrest⟩ := statuses_prefix_of_step h.sane hstep
      obtain ⟨hlt, -⟩ := List.getElem?_eq_some_iff.mp hstatus
      refine ⟨List.mem_append_left _ hletter, a, List.mem_append_left _ ha, htask, ?_⟩
      rw [← hrest, List.getElem?_append_left hlt]
      exact hstatus
    | inr hr =>
      obtain ⟨waiter, htakes⟩ := takes_of_reaped h.sane hstep hr
      obtain ⟨a, ha, htask, hpid⟩ := h.waiters r.task waiter htakes.held
      refine ⟨List.mem_append_right _ (h.letter_reaped hstep htakes), a, List.mem_append_left _ ha,
        htask, ?_⟩
      rw [htakes.statuses, htakes.object, List.getElem?_concat_length, hpid]

end Posted

theorem posted_of_run {es : List Event} (hrun : Lts.run (step config) .new es = some s)
    : Posted config es s := by
  apply Lts.run_induction .new ?_ hrun
  intro es e s₁ s₂ _ h hstep
  exact h.step hstep

/--
In every run, each child that `waitpid` has reported was reported for one call of `process_wait`, in a
`Process::Status` with the pid of that call. It is handed over only to the fiber that made the call, and
only once.
-/
theorem exits_reach_caller (config : Config) (es : List Event) (s : State)
    (hrun : Lts.run (step config) .new es = some s)
    : ((s.scheduler.returns.map (·.payload.origin)).filter Origin.fromLoop).Nodup ∧
        ∀ r ∈ Lts.trace (step config) (reaped config) .new es,
          ∃ a ∈ Lts.trace (step config) asked .new es, a.task = r.task ∧
            s.statuses[r.object]? = some { pid := a.pid, status := r.status, error := 0 } ∧
            ∀ ret ∈ s.scheduler.returns, ret.payload.origin = .task r.task →
              ret.fiber = a.fiber ∧
                ret.payload.result = .ok (.object "Process::Status" r.object) := by
  have hposted := posted_of_run hrun
  have hscheduler := run_schedulerEvents hrun
  refine ⟨Shreduler.State.nodup_origins hscheduler, ?_⟩
  intro r hr
  obtain ⟨hkeep, a, ha, htask, hstatus⟩ := hposted.reaped r hr
  have hmake := hposted.asked a ha
  rw [htask] at hmake
  refine ⟨a, ha, htask, hstatus, ?_⟩
  intro ret hret horigin
  have hcollected := Shreduler.State.collected_of_returns hscheduler hret horigin
  constructor
  . exact (hcollected.owner_eq (Lts.mem_project.mpr hmake)).symm
  . exact (hcollected.outcome_eq (Lts.mem_project.mpr hkeep)).symm

def waitForExit : List Event := [
  .fork 7 1,
  .scheduler .fiber,
  .processWait 7 1,
  .scheduler .switch,
  .change 7 (.exited 0),
  .scheduler .run,
  .poll 0 none,
  .pollRecv,
  .tryWait {},
  .scheduler (.join 0),
  .scheduler .switch
]

theorem exits_reach_caller_waitForExit
    : ∃ s, Lts.run (step ⟨11, 1⟩) .new waitForExit = some s ∧ s.scheduler.returns.length = 1 ∧
        ∀ r ∈ Lts.trace (step ⟨11, 1⟩) (reaped ⟨11, 1⟩) .new waitForExit,
          ∃ a ∈ Lts.trace (step ⟨11, 1⟩) asked .new waitForExit, a.task = r.task ∧
            s.statuses[r.object]? = some { pid := a.pid, status := r.status, error := 0 } ∧
            ∀ ret ∈ s.scheduler.returns, ret.payload.origin = .task r.task →
              ret.fiber = a.fiber ∧
                ret.payload.result = .ok (.object "Process::Status" r.object) :=
  ⟨_, rfl, rfl, (exits_reach_caller ⟨11, 1⟩ waitForExit _ rfl).2⟩

end ProcessWait
end Shreduler
