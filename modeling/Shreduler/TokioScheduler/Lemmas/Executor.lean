import Shreduler.TokioScheduler.Impl.Executor
import Shreduler.TokioScheduler.Lemmas.BlockAgreement

/-!
This module proves when the event loop comes to rest while all tasks wait.
-/

namespace Shreduler

def Future.Waits (s : State) (future : Future) : Prop :=
  match future with
  | .ready _ => False
  | .sleepUntil instant _ => s.now < instant
  | .external => True
  | .block rx duration deadline =>
    s.chans rx = .unsent ∧ ∀ instant ∈ deadlineAt s.now duration deadline, s.now < instant
  | .timeout timeoutAt _ => s.now < timeoutAt

namespace State

structure AllWaiting (s : State) : Prop where
  atJoinNext : s.AtJoinNext
  waiting : ∀ task ∈ s.tasks, task.status = .pending ∧ task.future.Waits s

end State

section Poll

variable {s : State} {t : TaskId} {future : Future}

theorem deadlineAt_idem (now : Instant) (timeout : Option Duration) (deadline : Option Instant)
    : deadlineAt now timeout (deadlineAt now timeout deadline) = deadlineAt now timeout deadline := by
  cases deadline <;> cases timeout <;> rfl

@[simp]
theorem any_timerOver_false (now : Instant) (deadline : Option Instant)
    : deadline.any (timerOver false now) = false := by
  cases deadline <;> rfl

theorem Future.Waits.pollFuture (h : future.Waits s)
    : s.pollFuture t {} future = s ∨ ∃ future', future'.Waits s ∧
        s.pollFuture t {} future = s.setFuture t future' := by
  cases future with
  | ready result => exact h.elim
  | sleepUntil | external => exact .inl rfl
  | block rx duration deadline =>
    obtain ⟨hchan, hdeadline⟩ := h
    right
    refine ⟨.block rx duration (deadlineAt s.now duration deadline), ⟨hchan, ?_⟩, ?_⟩
    . rwa [deadlineAt_idem]
    . simp [State.pollFuture, State.pollBlock, hchan]
  | timeout timeoutAt fiberToTimeout => exact .inl rfl

theorem State.ids_setFuture (s : State) (t : TaskId) (future : Future)
    : (s.setFuture t future).tasks.map (·.id) = s.tasks.map (·.id) := by
  have hid : (·.id) ∘ (fun task : Task => if task.id = t then { task with future } else task)
      = (·.id) := by
    funext task
    simp only [Function.comp_apply]
    split <;> rfl
  exact (List.map_map ..).trans (congrArg (s.tasks.map ·) hid)

theorem State.exists_findTask_iff (s : State) (t : TaskId)
    : (∃ task, s.findTask t = some task) ↔ t ∈ s.tasks.map (·.id) := by
  constructor
  . rintro ⟨task, hfind⟩
    obtain ⟨hmem, rfl⟩ := findTask_mem hfind
    exact List.mem_map_of_mem hmem
  . intro hmem
    cases hfind : s.findTask t with
    | some task => exact ⟨task, rfl⟩
    | none =>
      obtain ⟨task, htask, hid⟩ := List.mem_map.mp hmem
      exact absurd (List.find?_eq_none.mp hfind task htask) (by simpa using hid)

theorem State.AllWaiting.setFuture (h : AllWaiting s) (hfuture : future.Waits s)
    : AllWaiting (s.setFuture t future) := by
  refine ⟨h.atJoinNext, ?_⟩
  intro task' hmem'
  obtain ⟨task, hmem, rfl⟩ := List.mem_map.mp hmem'
  obtain ⟨hpending, hwaits⟩ := h.waiting task hmem
  split
  . exact ⟨hpending, hfuture⟩
  . exact ⟨hpending, hwaits⟩

theorem State.AllWaiting.poll (h : AllWaiting s) {task : Task} (hfind : s.findTask t = some task)
    : ∃ s', s.step (.poll t {}) = some s' ∧ AllWaiting s' ∧
        s'.tasks.map (·.id) = s.tasks.map (·.id) := by
  obtain ⟨hpending, hwaits⟩ := h.waiting task (findTask_mem hfind).1
  refine ⟨s.pollFuture t {} task.future, ?_, ?_⟩
  . simp [State.step, h.atJoinNext, State.poll, hfind, hpending]
  . cases hwaits.pollFuture (t := t) with
    | inl heq =>
      rw [heq]
      exact ⟨h, rfl⟩
    | inr hset =>
      obtain ⟨future', hwaits', heq⟩ := hset
      rw [heq]
      exact ⟨h.setFuture hwaits', ids_setFuture s t future'⟩

end Poll

namespace Executor

def idlePoll (s : State) (t : TaskId) : Option State := step s (.scheduler (.poll t {}))

namespace State

def Runnable (s : State) (task : Task) : Prop := task ∈ s.scheduler.tasks ∧ s.woken task.id

structure ComesToRest (s : State) : Prop where
  finite : Lts.Bounded idlePoll s
  -- The run queue is empty once the executor has nothing left to poll, so that it parks.
  parks : ∀ ts s', Lts.run idlePoll s ts = some s' → (∀ t, idlePoll s' t = none) →
    ∀ task, ¬ s'.Runnable task
  -- Whatever happens, a task that has been polled is polled again only after a wake.
  wakers : ∀ es, Lts.Along step (fun s' e => ∀ task ∈ s.scheduler.tasks, ∀ env,
    e = .scheduler (.poll task.id env) → s'.armed task.id = false) s es

/-- The executor only does what the scheduler may do, and never forgets a task that is pending. -/
structure Queued (s : State) : Prop where
  reachable : s.scheduler.Reachable
  pending : ∀ task ∈ s.scheduler.tasks, task.status = .pending → s.woken task.id

end State

variable {s s' : State} {t : TaskId} {scheduler : Shreduler.State}

/-! ### Steps -/

@[simp]
theorem scheduler_spawned (s : State) (scheduler : Shreduler.State)
    : (s.spawned scheduler).scheduler = scheduler := by
  unfold State.spawned
  split <;> rfl

theorem woken_spawned_of_woken (h : s.woken t) (scheduler : Shreduler.State)
    : (s.spawned scheduler).woken t := by
  unfold State.spawned
  split
  . exact h
  . simp only [Function.update_apply, h, ite_self]

theorem woken_spawned_new (hnext : scheduler.nextTask ≠ s.scheduler.nextTask)
    : (s.spawned scheduler).woken s.scheduler.nextTask := by
  rw [State.spawned, if_neg hnext]
  exact Function.update_self ..

@[simp]
theorem scheduler_polled (s : State) (t : TaskId) : (s.polled t).scheduler = s.scheduler := by
  unfold State.polled
  split
  . rfl
  . split <;> rfl

theorem polled_of_pending {task : Task} (hfind : s.scheduler.findTask t = some task)
    (hstatus : task.status = .pending)
    : s.polled t = { s with
        woken := Function.update s.woken t true
        armed := Function.update s.armed t true
      } := by
  simp [State.polled, hfind, Task.innerPoll, hstatus, FiberFuture.poll]

theorem woken_polled_of_ne {t' : TaskId} (hne : t' ≠ t) : (s.polled t).woken t' = s.woken t' := by
  unfold State.polled
  split
  . rfl
  . split
    all_goals exact Function.update_of_ne hne _ _

@[simp]
theorem scheduler_after (s : State) (e : Shreduler.Event) : (s.after e).scheduler = s.scheduler := by
  cases e with
  | poll t env => exact scheduler_polled s t
  | _ => rfl

theorem woken_after {task : Task} (hfind : s.scheduler.findTask t = some task)
    (hstatus : task.status = .pending) (hwoken : s.woken t) (e : Shreduler.Event)
    : (s.after e).woken t := by
  cases e with
  | poll t' env =>
    by_cases heq : t' = t
    . subst heq
      simp [State.after, polled_of_pending hfind hstatus]
    . exact (woken_polled_of_ne (Ne.symm heq)).trans hwoken
  | interrupt error => simp [State.after, State.aborted, hwoken]
  | _ => exact hwoken

theorem step_scheduler_eq_some {e : Shreduler.Event}
    : step s (.scheduler e) = some s' ↔ s.allows e ∧ ∃ scheduler,
        Shreduler.State.step s.scheduler e = some scheduler ∧ s' = (s.spawned scheduler).after e := by
  rw [step]
  split
  . next hallows =>
    simp only [hallows, true_and, Option.map_eq_some_iff, @eq_comm _ _ s']
  . next hallows => simp [hallows]

namespace State
namespace Queued

theorem wf (h : Queued s) : s.scheduler.Wf := h.reachable.wf

theorem owned (h : Queued s) : s.scheduler.Owned := h.reachable.numbered.1

theorem new : Queued .new where
  reachable := ⟨[], rfl⟩
  pending := by simp [State.new, Shreduler.State.new, Shreduler.State.tasks]

theorem step (h : Queued s) {e : Event} (hstep : Executor.step s e = some s') : Queued s' := by
  cases e with
  | scheduler e =>
    obtain ⟨-, scheduler, hscheduler, rfl⟩ := step_scheduler_eq_some.mp hstep
    have howned := h.owned.step h.wf hscheduler
    have hreachable := h.reachable.step hscheduler
    refine ⟨by simpa using hreachable, ?_⟩
    intro task' hmem hpending
    rw [scheduler_after, scheduler_spawned] at hmem
    have hfind := Shreduler.State.findTask_of_mem howned.nodup hmem
    rw [← scheduler_spawned s scheduler] at hfind
    refine woken_after hfind hpending ?_ e
    cases Shreduler.State.older_of_step h.wf h.owned hscheduler hmem with
    | inl hold =>
      obtain ⟨task, htask, holder⟩ := hold
      rw [← holder.id]
      exact woken_spawned_of_woken (h.pending task htask (holder.pending hpending)) scheduler
    | inr hnew =>
      -- a task with the next number: `spawn` has counted on
      obtain ⟨f, future, rfl⟩ := hnew
      exact woken_spawned_new (Nat.ne_of_gt (howned.lt _ hmem))
  | wake t =>
    rw [Executor.step] at hstep
    split at hstep
    . injection hstep with hs'
      subst hs'
      refine ⟨h.reachable, ?_⟩
      intro task hmem hpending
      by_cases heq : task.id = t
      . simp [State.wake, heq]
      . simpa [State.wake, heq] using h.pending task hmem hpending
    . contradiction

end Queued
end State

theorem Reachable.queued (h : Reachable s) : s.Queued := by
  obtain ⟨es, hrun⟩ := h
  exact Lts.invariant (fun _ _ _ hqueued hstep => hqueued.step hstep) .new hrun

/-! ### Polls while nothing happens -/

theorem idlePoll_eq_some : idlePoll s t = some s' ↔ s.woken t ∧ ∃ scheduler,
    Shreduler.State.step s.scheduler (.poll t {}) = some scheduler ∧
      s' = (s.spawned scheduler).polled t :=
  step_scheduler_eq_some

theorem findTask_of_idlePoll (hidle : idlePoll s t = some s')
    : ∃ task, s.scheduler.findTask t = some task := by
  obtain ⟨-, scheduler, hscheduler, -⟩ := idlePoll_eq_some.mp hidle
  cases hfind : s.scheduler.findTask t with
  | none => simp [Shreduler.State.step, Shreduler.State.poll, hfind] at hscheduler
  | some task => exact ⟨task, rfl⟩

theorem idlePoll_of_tasks_nil (htasks : s.scheduler.tasks = []) (t : TaskId)
    : idlePoll s t = none := by
  cases hidle : idlePoll s t with
  | none => rfl
  | some s' =>
    obtain ⟨task, hfind⟩ := findTask_of_idlePoll hidle
    have hmem := (Shreduler.State.findTask_mem hfind).1
    rw [htasks] at hmem
    contradiction

structure Busy (s : State) : Prop where
  queued : s.Queued
  waiting : s.scheduler.AllWaiting
  tasks : s.scheduler.tasks ≠ []

namespace Busy

theorem runnable (h : Busy s) : ∃ task, s.Runnable task := by
  obtain ⟨task, hmem⟩ := List.exists_mem_of_ne_nil _ h.tasks
  exact ⟨task, hmem, h.queued.pending task hmem (h.waiting.waiting task hmem).1⟩

theorem exists_idlePoll (h : Busy s) {task : Task} (hrunnable : s.Runnable task)
    : ∃ s', idlePoll s task.id = some s' := by
  obtain ⟨hmem, hwoken⟩ := hrunnable
  have hfind := Shreduler.State.findTask_of_mem h.queued.owned.nodup hmem
  obtain ⟨scheduler, hscheduler, -⟩ := h.waiting.poll hfind
  exact ⟨_, idlePoll_eq_some.mpr ⟨hwoken, scheduler, hscheduler, rfl⟩⟩

theorem idlePoll (h : Busy s) (hidle : idlePoll s t = some s')
    : Busy s' ∧ s'.armed t := by
  obtain ⟨task, hfind⟩ := findTask_of_idlePoll hidle
  obtain ⟨scheduler, hscheduler, hwaiting, hids⟩ := h.waiting.poll hfind
  obtain ⟨-, scheduler', hscheduler', rfl⟩ := idlePoll_eq_some.mp hidle
  obtain rfl : scheduler = scheduler' := Option.some.inj (hscheduler.symm.trans hscheduler')
  have hqueued := h.queued.step hidle
  refine ⟨⟨hqueued, by simpa using hwaiting, ?_⟩, ?_⟩
  . intro htasks
    rw [scheduler_polled, scheduler_spawned] at htasks
    rw [htasks] at hids
    exact h.tasks (List.map_eq_nil_iff.mp hids.symm)
  . have hmem := (Shreduler.State.exists_findTask_iff s.scheduler t).mp ⟨task, hfind⟩
    rw [← hids] at hmem
    obtain ⟨task', hfind'⟩ := (Shreduler.State.exists_findTask_iff scheduler t).mpr hmem
    have hpending := (hwaiting.waiting task' (Shreduler.State.findTask_mem hfind').1).1
    rw [← scheduler_spawned s scheduler] at hfind'
    rw [polled_of_pending hfind' hpending]
    exact Function.update_self ..

theorem never_parks (h : Busy s) {ts : List TaskId} (hrun : Lts.run Executor.idlePoll s ts = some s')
    : ∃ task, s'.Runnable task :=
  (Lts.invariant (fun _ _ _ hbusy hidle => (hbusy.idlePoll hidle).1) h hrun).runnable

theorem not_bounded (h : Busy s) : ¬ Lts.Bounded Executor.idlePoll s := by
  refine Lts.not_bounded_of_progress ?_ h
  intro s h
  obtain ⟨task, hrunnable⟩ := h.runnable
  obtain ⟨s', hidle⟩ := h.exists_idlePoll hrunnable
  exact ⟨task.id, s', hidle, (h.idlePoll hidle).1⟩

end Busy

theorem exists_sleeping
    : ∃ s, Reachable s ∧ s.scheduler.AllWaiting ∧ s.scheduler.tasks ≠ [] := by
  let es : List Event :=
    [.scheduler .fiber, .scheduler (.hook (.kernelSleep 10000000)), .scheduler .switch, .scheduler .run]
  refine ⟨_, ⟨es, rfl⟩, ⟨⟨rfl, rfl⟩, ?_⟩, ?_⟩
  . intro task hmem
    obtain rfl := List.mem_singleton.mp hmem
    exact ⟨rfl, Nat.zero_lt_succ _⟩
  . exact List.cons_ne_nil _ _

/-- Without an event from outside, the event loop comes to rest if and only if no task is pending. -/
theorem comes_to_rest_iff (h : Reachable s) (hwaiting : s.scheduler.AllWaiting)
    : s.ComesToRest ↔ s.scheduler.tasks = [] := by
  constructor
  . intro hrest
    by_contra htasks
    exact Busy.not_bounded ⟨h.queued, hwaiting, htasks⟩ hrest.finite
  . intro htasks
    refine ⟨Lts.bounded_of_stuck (idlePoll_of_tasks_nil htasks), ?_, ?_⟩
    . intro ts s' hrun _ task hrunnable
      cases ts with
      | nil =>
        injection hrun with hs'
        subst hs'
        have hmem := hrunnable.1
        rw [htasks] at hmem
        contradiction
      | cons t ts =>
        obtain ⟨s₁, hidle, -⟩ := Lts.run_cons_eq_some.mp hrun
        rw [idlePoll_of_tasks_nil htasks] at hidle
        contradiction
    . intro es
      apply Lts.along_of_forall
      simp [htasks]

theorem comes_to_rest_sleeping
    : ∃ s : State, s.scheduler.tasks ≠ [] ∧ (s.ComesToRest ↔ s.scheduler.tasks = []) := by
  obtain ⟨s, hreachable, hwaiting, htasks⟩ := exists_sleeping
  exact ⟨s, htasks, comes_to_rest_iff hreachable hwaiting⟩

theorem not_forall_comes_to_rest
    : ¬ ∀ s, Reachable s → s.scheduler.AllWaiting → s.ComesToRest := by
  intro h
  obtain ⟨s, hreachable, hwaiting, htasks⟩ := exists_sleeping
  have hrest := h s hreachable hwaiting
  exact Busy.not_bounded ⟨hreachable.queued, hwaiting, htasks⟩ hrest.finite

end Executor
end Shreduler
