import Shreduler.TokioScheduler.Lemmas.BlockAgreement
import Shreduler.TokioScheduler.Lemmas.Clock
import Shreduler.TokioScheduler.Lemmas.Promises

/-!
This module proves that no deadline is met early: what `kernel_sleep`, `block` and `timeout_after` have for
their fibers does not come before the time they were given is over.
-/

namespace Shreduler

def PollEnv.Makes (env : PollEnv) (exception : Value) : Prop :=
  ∃ v, env.newInstance = (.ok v, .ok exception)

def PollEnv.FailsWith (env : PollEnv) (error : Error) : Prop :=
  env.newInstance.1 = .error error ∨ env.newInstance.2 = .error error ∨
    error = .error .runtimeError "fiber not alive" ∨ error = .error .runtimeError "fiber active"

inductive Future.Polled (env : PollEnv) (now : Instant) : Future → Future → TaskStatus → Prop where
  | ready {result} : Polled env now (.ready result) (.ready result) (.ready result)
  | sleeps {instant value}
    : Polled env now (.sleepUntil instant value) (.sleepUntil instant value) .pending
  | wakes {instant value} (hle : instant ≤ now)
    : Polled env now (.sleepUntil instant value) (.sleepUntil instant value) (.ready (.ok value))
  | external {status} (hraise : status ≠ .polling) : Polled env now .external .external status
  | panicked {rx timeout deadline}
    : Polled env now (.block rx timeout deadline) (.block rx timeout deadline) .joinError
  | woken {rx timeout deadline}
    : Polled env now (.block rx timeout deadline) (.block rx timeout (deadlineAt now timeout deadline))
        (.ready (.ok (.bool true)))
  | closed {rx timeout deadline}
    : Polled env now (.block rx timeout deadline) (.block rx timeout (deadlineAt now timeout deadline))
        (.ready (.error (newBaseError "Could not unblock fiber: channel closed")))
  | timedOut {rx timeout deadline instant}
    (hdeadline : deadlineAt now timeout deadline = some instant) (hle : instant ≤ now)
    : Polled env now (.block rx timeout deadline) (.block rx timeout (deadlineAt now timeout deadline))
        (.ready (.error (Shreduler.timedOut (timeout.getD 0) "unblocking fiber")))
  | blocks {rx timeout deadline}
    : Polled env now (.block rx timeout deadline) (.block rx timeout (deadlineAt now timeout deadline))
        .pending
  | waits {timeoutAt f}
    : Polled env now (.timeout timeoutAt f) (.timeout timeoutAt f) .pending
  | fails {timeoutAt f error} (hle : timeoutAt ≤ now) (hfails : env.FailsWith error)
    : Polled env now (.timeout timeoutAt f) (.timeout timeoutAt f) (.ready (.error error))
  | raises {timeoutAt f exception} (hle : timeoutAt ≤ now) (hmakes : env.Makes exception)
    : Polled env now (.timeout timeoutAt f) (.timeout timeoutAt f) .polling

def Event.spawned (s : State) (f : FiberId) : Event → Option Future
  | .hook call => some (call.future s.now)
  | .block timeout => some (.block s.nextChan timeout none)
  | .timeoutAfter duration => some (.timeout (s.now + duration) f)
  | _ => none

namespace State

variable {s s' : State} {f : FiberId} {t : TaskId}

/-! ### One poll -/

theorem mem_map_of_id (hnodup : (s.tasks.map (·.id)).Nodup) {task task' : Task} {g : Task → Task}
    (hfind : s.findTask t = some task)
    (hmem : task' ∈ s.tasks.map fun task => if task.id = t then g task else task)
    (hid : task'.id = t) : task' = g task := by
  obtain ⟨task₀, hmem₀, rfl⟩ := List.mem_map.mp hmem
  by_cases h : task₀.id = t
  . rw [if_pos h, findTask_unique hnodup hfind hmem₀ h]
  . rw [if_neg h] at hid
    exact absurd hid h

theorem polled_of_pollBlock (hwf : Wf s) (hnodup : (s.tasks.map (·.id)).Nodup) {env : PollEnv}
    {task task' : Task} {rx : ChanId} {timeout : Option Duration} {deadline : Option Instant}
    (hfind : s.findTask t = some task) (hstatus : task.status = .pending)
    (hfuture : task.future = .block rx timeout deadline)
    (hmem : task' ∈ (s.pollBlock t env rx timeout deadline).tasks) (hid : task'.id = t)
    : Future.Polled env s.now (.block rx timeout deadline) task'.future task'.status := by
  have hset (future : Future) : Wf (s.setFuture t future) := hwf.same (.modifyTasks _ _)
  have hready {future : Future} {result : Result Value} {s₁ : State}
      (htasks : s₁.tasks = ((s.setFuture t future).complete t result).tasks)
      (hmem : task' ∈ s₁.tasks) : task'.future = future ∧ task'.status = .ready result := by
    rw [htasks, map_setFuture_complete] at hmem
    rw [mem_map_of_id hnodup hfind (g := fun task =>
      { task with future, status := .ready result }) hmem hid]
    exact ⟨rfl, rfl⟩
  unfold pollBlock at hmem
  dsimp only at hmem
  split at hmem
  . rw [tasks_panicTask] at hmem
    rw [mem_map_of_id hnodup hfind (g := fun task => { task with status := .joinError }) hmem hid]
    dsimp only
    rw [hfuture]
    exact .panicked
  . split at hmem
    . obtain ⟨hfuture', hstatus'⟩ := hready (tasks_finishBlock (hset _) _) hmem
      rw [hfuture', hstatus']
      exact .woken
    . obtain ⟨hfuture', hstatus'⟩ := hready (tasks_finishBlock (hset _) _) hmem
      rw [hfuture', hstatus']
      exact .closed
    all_goals
      split at hmem
      . next hdeadline =>
        have hdrop := (hset (.block rx timeout (deadlineAt s.now timeout deadline))).same
          (.dropRx _ rx)
        have htasks := (tasks_finishBlock (t := t) hdrop
          (.error (timedOut (timeout.getD 0) "unblocking fiber"))).trans
          (tasks_complete_congr (tasks_dropRx _ _))
        obtain ⟨hfuture', hstatus'⟩ := hready htasks hmem
        rw [hfuture', hstatus']
        obtain ⟨instant, hinstant, hle⟩ := (Option.any_eq_true _ _).mp hdeadline
        exact .timedOut hinstant (le_of_timerOver hle)
      . let future := Future.block rx timeout (deadlineAt s.now timeout deadline)
        rw [mem_map_of_id hnodup hfind (g := fun task => { task with future := future }) hmem hid]
        dsimp only
        rw [hstatus]
        exact .blocks

theorem error_of_checkSuspended {current : Option FiberId} {error : Error}
    (h : s.checkSuspended current f = .error error)
    : error = .error .runtimeError "fiber not alive" ∨ error = .error .runtimeError "fiber active" := by
  unfold checkSuspended at h
  split at h
  . exact .inl (Except.error.inj h).symm
  . split at h
    . exact .inr (Except.error.inj h).symm
    . contradiction

theorem polled_of_poll (hwf : Wf s) (hnodup : (s.tasks.map (·.id)).Nodup) {env : PollEnv}
    {task task' : Task} (hstep : step s (.poll t env) = some s') (hfind : s.findTask t = some task)
    (hstatus : task.status = .pending) (hmem : task' ∈ s'.tasks) (hid : task'.id = t)
    : task.future.Polled env s.now task'.future task'.status := by
  simp only [step, Option.ite_none_right_eq_some, poll, hfind, hstatus, Option.some.injEq] at hstep
  obtain ⟨-, rfl⟩ := hstep
  have hset {status : TaskStatus} {s₁ : State} (htasks : s₁.tasks = (s.setTaskStatus t status).tasks)
      (hmem : task' ∈ s₁.tasks) : task'.future = task.future ∧ task'.status = status := by
    rw [htasks] at hmem
    rw [mem_map_of_id hnodup hfind (g := fun task => { task with status }) hmem hid]
    exact ⟨rfl, rfl⟩
  have hsame (hmem : task' ∈ s.tasks) : task'.future = task.future ∧ task'.status = .pending := by
    rw [findTask_unique hnodup hfind hmem hid]
    exact ⟨rfl, hstatus⟩
  unfold pollFuture at hmem
  split at hmem
  . next hfuture =>
    obtain ⟨hfuture', hstatus'⟩ := hset rfl hmem
    rw [hfuture', hstatus', hfuture]
    exact .ready
  . next hfuture =>
    split at hmem
    . next hover =>
      obtain ⟨hfuture', hstatus'⟩ := hset rfl hmem
      rw [hfuture', hstatus', hfuture]
      exact .wakes (le_of_timerOver hover)
    . obtain ⟨hfuture', hstatus'⟩ := hsame hmem
      rw [hfuture', hstatus', hfuture]
      exact .sleeps
  . next hfuture =>
    split at hmem
    . obtain ⟨hfuture', hstatus'⟩ := hsame hmem
      rw [hfuture', hstatus', hfuture]
      exact .external (by simp)
    . obtain ⟨hfuture', hstatus'⟩ := hset rfl hmem
      rw [hfuture', hstatus', hfuture]
      exact .external (by simp)
    . obtain ⟨hfuture', hstatus'⟩ := hset (tasks_panicTask s t _) hmem
      rw [hfuture', hstatus', hfuture]
      exact .external (by simp)
  . next hfuture =>
    rw [hfuture]
    exact polled_of_pollBlock hwf hnodup hfind hstatus hfuture hmem hid
  . next hfuture =>
    unfold pollTimeout at hmem
    split at hmem
    . next hover =>
      have hle := le_of_timerOver hover
      split at hmem
      . next hinstance =>
        obtain ⟨hfuture', hstatus'⟩ := hset rfl hmem
        rw [hfuture', hstatus', hfuture]
        exact .fails hle (.inl (by rw [hinstance]))
      . next hinstance =>
        obtain ⟨hfuture', hstatus'⟩ := hset rfl hmem
        rw [hfuture', hstatus', hfuture]
        exact .fails hle (.inr (.inl (by rw [hinstance])))
      . next hinstance =>
        split at hmem
        . next hcheck =>
          obtain ⟨hfuture', hstatus'⟩ := hset rfl hmem
          rw [hfuture', hstatus', hfuture]
          exact .fails hle (.inr (.inr (error_of_checkSuspended hcheck)))
        . obtain ⟨hfuture', hstatus'⟩ := hset rfl hmem
          rw [hfuture', hstatus', hfuture]
          exact .raises hle ⟨_, hinstance⟩
    . obtain ⟨hfuture', hstatus'⟩ := hsame hmem
      rw [hfuture', hstatus', hfuture]
      exact .waits

theorem cancelled_of_poll (hnodup : (s.tasks.map (·.id)).Nodup) {env : PollEnv} {task task' : Task}
    (hstep : step s (.poll t env) = some s') (hfind : s.findTask t = some task)
    (hstatus : task.status ≠ .pending) (hmem : task' ∈ s'.tasks) (hid : task'.id = t)
    : task'.future = task.future ∧ task'.status = .joinError := by
  simp only [step, Option.ite_none_right_eq_some, poll, hfind] at hstep
  obtain ⟨-, hstep⟩ := hstep
  split at hstep
  . next hpending => exact absurd hpending hstatus
  . injection hstep with hstep
    subst hstep
    rw [tasks_panicTask] at hmem
    rw [mem_map_of_id hnodup hfind (g := fun task => { task with status := .joinError }) hmem hid]
    exact ⟨rfl, rfl⟩
  all_goals contradiction

/-! ### Steps other than the poll -/

theorem mem_of_map_ite {tasks : List Task} {t' : TaskId} {g : Task → Task} {task' : Task}
    (hmem : task' ∈ tasks.map fun task => if task.id = t' then g task else task)
    (hg : ∀ task, (g task).id = task.id) (hne : task'.id ≠ t') : task' ∈ tasks :=
  (mem_map_ite hmem hg).resolve_right hne

theorem Effect.task_frame (howned : Owned s) {e : Event} (h : Effect s e s') (hlt : t < s.nextTask)
    (hpoll : ∀ env, e ≠ .poll t env) {task' : Task} (hmem : task' ∈ s'.tasks) (hid : task'.id = t)
    : ∃ task ∈ s.tasks, task.id = t ∧ task'.fiber = task.fiber ∧ task'.future = task.future ∧
        (task'.status = task.status ∨ task'.status = .aborted ∨ task.status = .polling) := by
  have hsame (hmem : task' ∈ s.tasks) : ∃ task ∈ s.tasks, task.id = t ∧ task'.fiber = task.fiber ∧
      task'.future = task.future ∧
        (task'.status = task.status ∨ task'.status = .aborted ∨ task.status = .polling) :=
    ⟨task', hmem, hid, rfl, rfl, .inl rfl⟩
  have hne {t' : TaskId} {env : PollEnv} (he : e = .poll t' env) : task'.id ≠ t' := by
    rw [hid]
    rintro rfl
    exact hpoll env he
  have hspawned {f : FiberId} {future : Future} {s₁ : State} (hspawn : Spawned s f future s₁)
      (hmem : task' ∈ s₁.tasks) : task' ∈ s.tasks := by
    rw [hspawn.tasks, List.mem_append, List.mem_singleton] at hmem
    cases hmem with
    | inl hold => exact hold
    | inr hnew =>
      rw [hnew] at hid
      exact absurd hid (Nat.ne_of_gt hlt)
  cases h with
  | still hstill =>
    cases hstill with
    | quiet | spawnFails | unblockRejected | unblockOther | pollPending | unblockNone | unblockLost
    | unblockSent => exact hsame hmem
    | blockFails =>
      rw [tasks_dropRx, tasks_registerBlock] at hmem
      exact hsame hmem
    | pollReady => exact hsame (mem_of_map_ite hmem (fun _ => rfl) (hne rfl))
    | pollBlockReady =>
      rw [tasks_endBlock, map_setFuture_complete] at hmem
      exact hsame (mem_of_map_ite hmem (fun _ => rfl) (hne rfl))
    | pollBlockTimeout =>
      rw [tasks_endBlock, tasks_complete_congr (tasks_dropRx _ _), map_setFuture_complete] at hmem
      exact hsame (mem_of_map_ite hmem (fun _ => rfl) (hne rfl))
    | pollBlockPending => exact hsame (mem_of_map_ite hmem (fun _ => rfl) (hne rfl))
    | pollPanic =>
      rw [tasks_panicTask] at hmem
      exact hsame (mem_of_map_ite hmem (fun _ => rfl) (hne rfl))
    | interrupt =>
      obtain ⟨task, htask, rfl⟩ := List.mem_map.mp hmem
      split at hid
      . next hpending =>
        rw [if_pos hpending]
        exact ⟨task, htask, hid, rfl, rfl, .inr (.inl rfl)⟩
      . next hpending =>
        rw [if_neg hpending]
        exact ⟨task, htask, hid, rfl, rfl, .inl rfl⟩
  | switchHook | switchFiber | switchBack | switchLoop | fiber | endTimeout | finishDies
  | finishBack => exact hsame hmem
  | switchTimeout hcontrol hstatus =>
    obtain ⟨task, htask, rfl⟩ := List.mem_map.mp hmem
    split at hid
    . next heq =>
      rw [if_pos heq]
      exact ⟨task, htask, hid, rfl, rfl, .inr (.inr ((howned.raising _ hstatus).2 task htask heq).2)⟩
    . next heq =>
      rw [if_neg heq]
      exact ⟨task, htask, hid, rfl, rfl, .inl rfl⟩
  | hook | hookRoot | timeoutAfter => exact hsame (hspawned (.addTask s _ _) hmem)
  | block | blockRoot => exact hsame (hspawned (.block s _ _) hmem)
  | pollRaise => exact hsame (mem_of_map_ite hmem (fun _ => rfl) (hne rfl))
  | joinResume | joinDrop => exact hsame (List.mem_of_mem_filter hmem)

theorem Effect.raised {e : Event} (h : Effect s e s') {g : FiberId} {result : Result Value}
    (hcontrol : s'.control = .transfer g ⟨result, .timeout t⟩)
    : s.control = .transfer g ⟨result, .timeout t⟩ ∨
        ∃ env task timeoutAt exception, e = .poll t env ∧ s.findTask t = some task ∧
          task.future = .timeout timeoutAt g ∧ timeoutAt ≤ s.now ∧ env.Makes exception ∧
            result = .error (.exception exception) := by
  cases h with
  | still hstill => exact .inl (hstill.thread.control ▸ hcontrol)
  | hookRoot | timeoutAfter => exact .inl ((Spawned.addTask s _ _).thread.control ▸ hcontrol)
  | blockRoot => exact .inl ((Spawned.block s _ _).thread.control ▸ hcontrol)
  | endTimeout | joinDrop => exact .inl hcontrol
  | switchHook | switchFiber | switchLoop | switchTimeout | fiber =>
    simp [switchTo, complete, setTaskStatus, modifyTasks, fiberImpl] at hcontrol
  | switchBack | finishDies | finishBack | hook | block | joinResume =>
    injection hcontrol with _ hpayload
    injection hpayload with _ horigin
    contradiction
  | pollRaise hloop hfind hstatus hfuture hexpired hinstance =>
    injection hcontrol with hg hpayload
    injection hpayload with hresult horigin
    injection horigin with ht
    subst hg hresult ht
    exact .inr ⟨_, _, _, _, rfl, hfind, hfuture, le_of_timerOver hexpired, hinstance, rfl⟩

/-! ### The terms of a call -/

/--
What the future of a task waits for, and what the task may hand over at which instant: a poll keeps to
it, and what may be handed over once may be handed over later. `polls` is what its polls find.
-/
structure Terms (t : TaskId) (made : Instant) (polls : PollEnv → Prop) (waits : Future → Prop)
    (allows : Payload → Instant → Prop) : Prop where
  later : ∀ payload now now', allows payload now → now ≤ now' → allows payload now'
  polled : ∀ env now future future' status, made ≤ now → waits future →
    future.Polled env now future' status → waits future'
  ready : ∀ env now future future' result, polls env → made ≤ now → waits future →
    future.Polled env now future' (.ready result) → allows ⟨result, .task t⟩ now
  raising : ∀ env now future future', polls env → waits future →
    future.Polled env now future' .polling → ∀ result, allows ⟨result, .task t⟩ now
  raises : ∀ env now timeoutAt f exception, polls env → env.Makes exception →
    waits (.timeout timeoutAt f) → timeoutAt ≤ now →
      allows ⟨.error (.exception exception), .timeout t⟩ now

structure Contract (f : FiberId) (t : TaskId) (made : Instant) (waits : Future → Prop)
    (allows : Payload → Instant → Prop) (s : State) : Prop where
  accountable : Accountable s
  lt : t < s.nextTask
  made : made ≤ s.now
  owner : ∀ task ∈ s.tasks, task.id = t → task.fiber = f
  future : ∀ task ∈ s.tasks, task.id = t → waits task.future
  ready : ∀ task ∈ s.tasks, task.id = t → ∀ result, task.status = .ready result →
    allows ⟨result, .task t⟩ s.now
  raising : ∀ task ∈ s.tasks, task.id = t → task.status = .polling → ∀ result,
    allows ⟨result, .task t⟩ s.now
  handed : ∀ g payload, (g, payload) ∈ s.handed → payload.origin = .task t ∨ payload.origin = .timeout t →
    g = f ∧ allows payload s.now

theorem spawned_of_step (hwf : Wf s) (howned : Owned s) {e : Event}
    (hstep : State.step s e = some s') (hnext : s'.nextTask ≠ s.nextTask)
    : ∃ f future, s.rubyFiber = some f ∧ e.spawned s f = some future ∧
        s'.nextTask = s.nextTask + 1 ∧ s'.tasks = s.tasks ++ [s.newTask f future] := by
  obtain ⟨s'', heffect, houtcome⟩ := (step_sound hwf hstep).outcome
  rw [houtcome.nextTask] at hnext
  have hspawn {f : FiberId} {future : Future} {s₁ : State} (hf : s.rubyFiber = some f)
      (hfuture : e.spawned s f = some future) (hspawn : Spawned s f future s₁)
      (htasks : s''.tasks = s₁.tasks) (hnext : s''.nextTask = s₁.nextTask)
      : ∃ f future, s.rubyFiber = some f ∧ e.spawned s f = some future ∧
          s'.nextTask = s.nextTask + 1 ∧ s'.tasks = s.tasks ++ [s.newTask f future] := by
    refine ⟨f, future, hf, hfuture, ?_, ?_⟩
    . rw [houtcome.nextTask, hnext, hspawn.nextTask]
    . rw [houtcome.tasks, htasks, hspawn.tasks]
  cases heffect with
  | still hstill => exact absurd (hstill.stays howned.nodup).nextTask hnext
  | hook hf => exact hspawn hf rfl (.addTask s _ _) rfl rfl
  | hookRoot hf => exact hspawn hf rfl (.addTask s _ _) rfl rfl
  | timeoutAfter hf => exact hspawn hf rfl (.addTask s _ _) rfl rfl
  | block hf => exact hspawn hf rfl (.block s _ _) rfl rfl
  | blockRoot hf => exact hspawn hf rfl (.block s _ _) rfl rfl
  | _ => exact absurd rfl hnext

namespace Contract

variable {made : Instant} {polls : PollEnv → Prop} {waits : Future → Prop}
  {allows : Payload → Instant → Prop}

theorem task_of_kept {g : FiberId} {result : Result Value} (hkept : s.promises t = .kept g result)
    : ∃ task ∈ s.tasks, task.id = t ∧ task.fiber = g ∧ task.status = .ready result := by
  unfold promises at hkept
  split at hkept
  . split at hkept
    . next task hfind =>
      obtain ⟨hmem, hid⟩ := findTask_mem hfind
      unfold Task.promise at hkept
      split at hkept
      all_goals first | contradiction | skip
      next hstatus =>
        injection hkept with hfiber hresult
        exact ⟨task, hmem, hid, hfiber, hresult ▸ hstatus⟩
    . contradiction
  . contradiction

structure InTerms (f : FiberId) (t : TaskId) (waits : Future → Prop) (allows : Payload → Instant → Prop)
    (now : Instant) (task : Task) : Prop where
  fiber : task.fiber = f
  future : waits task.future
  ready : ∀ result, task.status = .ready result → allows ⟨result, .task t⟩ now
  raising : task.status = .polling → ∀ result, allows ⟨result, .task t⟩ now

theorem inTerms_of_poll (h : Contract f t made waits allows s) (hterms : Terms t made polls waits allows)
    {env : PollEnv} (hpolls : polls env) (hstep : State.step s (.poll t env) = some s') {task' : Task}
    (hmem' : task' ∈ s'.tasks) (hid' : task'.id = t) : InTerms f t waits allows s'.now task' := by
  have hwf := h.accountable.wf
  have howned := h.accountable.owned
  have hnow := now_le_of_step hstep
  obtain ⟨task, hmem, holder⟩ | ⟨g, future, hnew⟩ := older_of_step hwf howned hstep hmem'
  . have hid : task.id = t := holder.id.trans hid'
    have hfind := hid ▸ findTask_of_mem howned.nodup hmem
    have hfiber := holder.fiber.trans (h.owner task hmem hid)
    have hwaits := h.future task hmem hid
    by_cases hpending : task.status = .pending
    . have hpolled := polled_of_poll hwf howned.nodup hstep hfind hpending hmem' hid'
      refine ⟨hfiber, hterms.polled _ _ _ _ _ h.made hwaits hpolled, ?_, ?_⟩
      . intro result hready
        rw [hready] at hpolled
        exact hterms.later _ _ _ (hterms.ready _ _ _ _ _ hpolls h.made hwaits hpolled) hnow
      . intro hraising result
        rw [hraising] at hpolled
        exact hterms.later _ _ _ (hterms.raising _ _ _ _ hpolls hwaits hpolled result) hnow
    . obtain ⟨hfuture, hstatus⟩ := cancelled_of_poll howned.nodup hstep hfind hpending hmem' hid'
      refine ⟨hfiber, hfuture ▸ hwaits, ?_, ?_⟩
      . simp [hstatus]
      . simp [hstatus]
  . rw [hnew] at hid'
    exact absurd hid' (Nat.ne_of_gt h.lt)

theorem inTerms_of_step (h : Contract f t made waits allows s) (hterms : Terms t made polls waits allows)
    {e : Event} (hpolls : ∀ env, e = .poll t env → polls env) (hstep : State.step s e = some s')
    {task' : Task} (hmem' : task' ∈ s'.tasks) (hid' : task'.id = t)
    : InTerms f t waits allows s'.now task' := by
  by_cases hpoll : ∃ env, e = .poll t env
  . obtain ⟨env, rfl⟩ := hpoll
    exact h.inTerms_of_poll hterms (hpolls env rfl) hstep hmem' hid'
  . have howned := h.accountable.owned
    have hnow := now_le_of_step hstep
    obtain ⟨s'', heffect, houtcome⟩ := (step_sound h.accountable.wf hstep).outcome
    rw [houtcome.tasks] at hmem'
    obtain ⟨task, hmem, hid, hfiber, hfuture, hstatus⟩ :=
      heffect.task_frame howned h.lt (fun env he => hpoll ⟨env, he⟩) hmem' hid'
    refine ⟨hfiber.trans (h.owner task hmem hid), hfuture ▸ h.future task hmem hid, ?_, ?_⟩
    . intro result hready
      apply hterms.later _ _ _ ?_ hnow
      obtain hsame | haborted | hraising := hstatus
      . exact h.ready task hmem hid result (hsame ▸ hready)
      . rw [haborted] at hready
        contradiction
      . exact h.raising task hmem hid hraising result
    . intro hpolling result
      apply hterms.later _ _ _ ?_ hnow
      obtain hsame | haborted | hraising := hstatus
      . exact h.raising task hmem hid (hsame ▸ hpolling) result
      . rw [haborted] at hpolling
        contradiction
      . exact h.raising task hmem hid hraising result

theorem handed_of_step (h : Contract f t made waits allows s) (hterms : Terms t made polls waits allows)
    {e : Event} (hpolls : ∀ env, e = .poll t env → polls env) (hstep : State.step s e = some s')
    {g : FiberId} {payload : Payload} (hmem : (g, payload) ∈ s'.handed)
    (horigin : payload.origin = .task t ∨ payload.origin = .timeout t)
    : g = f ∧ allows payload s'.now := by
  have howned := h.accountable.owned
  have hnow := now_le_of_step hstep
  obtain ⟨s'', heffect, houtcome⟩ := (step_sound h.accountable.wf hstep).outcome
  have hhanded : s'.handed = s''.handed := by
    simp only [State.handed, houtcome.control, houtcome.returns]
  rw [hhanded] at hmem
  have hold (hmem : (g, payload) ∈ s.handed) : g = f ∧ allows payload s'.now :=
    (h.handed g payload hmem horigin).imp_right fun hallows => hterms.later _ _ _ hallows hnow
  obtain hsub | ⟨g', payload', hcons, hloop, hcontrol, -, hmail⟩ := heffect.handed
  . exact hold (hsub.subset hmem)
  . rw [hcons] at hmem
    cases hmem with
    | tail _ hmem => exact hold hmem
    | head =>
      obtain ⟨result, origin⟩ := payload
      obtain rfl | rfl := horigin
      . -- what is collected was kept, and what is kept is in the terms
        have hmails := refines_promises.simulates s e s' h.accountable hstep
        rw [mail_congr houtcome, hmail] at hmails
        obtain ⟨s₁, hcollect, -⟩ := Lts.run_cons_eq_some.mp hmails
        obtain ⟨slot, hslot, -⟩ := Lts.family_eq_some.mp hcollect
        obtain ⟨task, hmem, hid, hfiber, hready⟩ := task_of_kept (Promise.kept_of_collect hslot)
        refine ⟨hfiber ▸ h.owner task hmem hid, ?_⟩
        exact hterms.later _ _ _ (h.ready task hmem hid result hready) hnow
      . obtain hsame | ⟨env, task, timeoutAt, exception, hpoll, hfind, hfuture, hexpired, hmakes, rfl⟩ :=
          heffect.raised hcontrol
        . rw [hloop.2] at hsame
          contradiction
        . obtain ⟨hmem, hid⟩ := findTask_mem hfind
          have howner := howned.timer task hmem timeoutAt g hfuture
          have hwaits := hfuture ▸ h.future task hmem hid
          refine ⟨howner.trans (h.owner task hmem hid), ?_⟩
          exact hterms.later _ _ _ (hterms.raises _ _ _ _ _ (hpolls env hpoll) hmakes hwaits hexpired) hnow

theorem step (h : Contract f t made waits allows s) (hterms : Terms t made polls waits allows) {e : Event}
    (hpolls : ∀ env, e = .poll t env → polls env) (hstep : State.step s e = some s')
    : Contract f t made waits allows s' := by
  have htask {task' : Task} (hmem : task' ∈ s'.tasks) (hid : task'.id = t) :=
    h.inTerms_of_step hterms hpolls hstep hmem hid
  constructor
  case accountable => exact h.accountable.step hstep
  case lt =>
    exact Nat.lt_of_lt_of_le h.lt (nextTask_le_of_step h.accountable.wf h.accountable.owned hstep)
  case made => exact Nat.le_trans h.made (now_le_of_step hstep)
  case owner => exact fun task' hmem hid => (htask hmem hid).fiber
  case future => exact fun task' hmem hid => (htask hmem hid).future
  case ready => exact fun task' hmem hid => (htask hmem hid).ready
  case raising => exact fun task' hmem hid => (htask hmem hid).raising
  case handed => exact fun g payload hmem horigin => h.handed_of_step hterms hpolls hstep hmem horigin

theorem fresh_of_reachable (hreach : Reachable s) (hle : s.nextTask ≤ t) {g : FiberId}
    {payload : Payload} (hmem : (g, payload) ∈ s.handed)
    : payload.origin ≠ .task t ∧ payload.origin ≠ .timeout t := by
  obtain ⟨es, hrun⟩ := hreach
  have hunmade : s.promises t = .unmade := if_neg (Nat.not_lt.mpr hle)
  have hhistory := Promise.history_project (letters_keep_promises hrun) t
  have hletter := (delivered_of_run hrun).letter g payload hmem
  rw [hunmade] at hhistory
  have hnone {action : Promise.Action FiberId (Result Value)} : (t, action) ∉ letters es := by
    rw [← Lts.mem_project]
    generalize Lts.project t (letters es) = history at hhistory
    cases hhistory
    simp
  constructor
  . intro horigin
    simp only [letterOf, horigin] at hletter
    exact hnone (hletter _ (.head _))
  . intro horigin
    simp only [letterOf, horigin] at hletter
    exact hnone (hletter _ (.head _))

theorem mail_of_spawned {e : Event} {future : Future} (hf : s.rubyFiber = some f)
    (hfuture : e.spawned s f = some future) : mail s e s' = s.madeBy s' f := by
  cases e with
  | hook | block | timeoutAfter => simp only [mail, hf, Option.elim_some]
  | _ => contradiction

theorem mail_ne_letterOf {e : Event} {future : Future} (hf : s.rubyFiber = some f)
    (hfuture : e.spawned s f = some future) {g : FiberId} {payload : Payload}
    (hloop : payload.origin.fromLoop) : mail s e s' ≠ letterOf g payload := by
  rw [mail_of_spawned hf hfuture, madeBy, letterOf]
  cases horigin : payload.origin with
  | fiber => simp [horigin, Origin.fromLoop] at hloop
  | task =>
    split
    . simp
    . split <;> simp
  | timeout =>
    split
    . simp
    . split <;> simp

theorem start (hreach : Reachable s) {e : Event} {future : Future} (hf : s.rubyFiber = some f)
    (hfuture : e.spawned s f = some future) (hstep : State.step s e = some s')
    (hnext : s'.nextTask ≠ s.nextTask) (hwaits : waits future)
    : Contract f s.nextTask s.now waits allows s' := by
  have hwf := hreach.wf
  obtain ⟨howned, -⟩ := hreach.numbered
  obtain ⟨f', future', hf', hfuture', hsucc, htasks⟩ := spawned_of_step hwf howned hstep hnext
  rw [hf] at hf'
  injection hf' with hf'
  subst hf'
  rw [hfuture] at hfuture'
  injection hfuture' with hfuture'
  subst hfuture'
  have htask {task : Task} (hmem : task ∈ s'.tasks) (hid : task.id = s.nextTask)
      : task = s.newTask f future := by
    rw [htasks, List.mem_append, List.mem_singleton] at hmem
    exact hmem.resolve_left fun hold => Nat.ne_of_lt (howned.lt task hold) hid
  have hstatus (task : Task) (hmem : task ∈ s'.tasks) (hid : task.id = s.nextTask)
      : task.status = .pending ∨ task.status = .joinError := by
    rw [htask hmem hid]
    cases hruntime : s.runtime <;> simp [newTask, hruntime]
  have haccountable : Accountable s := by
    obtain ⟨es, hrun⟩ := hreach
    exact (delivered_of_run hrun).accountable
  constructor
  case accountable => exact haccountable.step hstep
  case lt =>
    rw [hsucc]
    exact Nat.lt_succ_self _
  case made => exact now_le_of_step hstep
  case owner =>
    intro task hmem hid
    rw [htask hmem hid]
    rfl
  case future =>
    intro task hmem hid
    rw [htask hmem hid]
    exact hwaits
  case ready =>
    intro task hmem hid result hready
    cases hstatus task hmem hid with
    | inl h => simp [h] at hready
    | inr h => simp [h] at hready
  case raising =>
    intro task hmem hid hpolling
    cases hstatus task hmem hid with
    | inl h => simp [h] at hpolling
    | inr h => simp [h] at hpolling
  case handed =>
    intro g payload hmem horigin
    obtain ⟨s'', heffect, houtcome⟩ := (step_sound hwf hstep).outcome
    have hhanded : s'.handed = s''.handed := by
      simp only [State.handed, houtcome.control, houtcome.returns]
    rw [hhanded] at hmem
    have hold : (g, payload) ∈ s.handed := by
      obtain hsub | ⟨g', payload', -, -, -, hloop, hmail⟩ := heffect.handed
      . exact hsub.subset hmem
      . exact absurd hmail (mail_ne_letterOf hf hfuture hloop)
    obtain ⟨htask, htimeout⟩ := fresh_of_reachable hreach (Nat.le_refl _) hold
    exact (horigin.elim htask htimeout).elim

theorem always (h : Contract f t made waits allows s) (hterms : Terms t made polls waits allows)
    {es : List Event} (hpolls : ∀ env, .poll t env ∈ es → polls env)
    : Lts.Always State.step
        (fun s => ∀ g payload, (g, payload) ∈ s.handed →
          payload.origin = .task t ∨ payload.origin = .timeout t → g = f ∧ allows payload s.now)
        s es := by
  have halong : Lts.Along State.step (fun _ e => ∀ env, e = .poll t env → polls env) s es := by
    apply Lts.along_of_forall
    rintro e hmem - env rfl
    exact hpolls env hmem
  apply Lts.Along.always (J := Contract f t made waits allows) ?_ (fun _ h => h.handed) h halong
  intro s e s' h hpolls hstep
  exact h.step hterms hpolls hstep

theorem always_task (h : Contract f t made waits allows s)
    (hterms : Terms t made (fun _ => True) waits allows) (es : List Event)
    : Lts.Always State.step
        (fun s => ∀ g payload, (g, payload) ∈ s.handed → payload.origin = .task t →
          g = f ∧ allows payload s.now)
        s es := by
  apply Lts.always_of_invariant (J := Contract f t made waits allows) ?_ ?_ h
  . intro s e s' h hstep
    exact h.step hterms (fun _ _ => trivial) hstep
  . intro s h g payload hmem horigin
    exact h.handed g payload hmem (.inl horigin)

end Contract

/-! ### Deadlines -/

theorem sleep_terms (t : TaskId) (made : Instant) (duration : Duration)
    : Terms t made (fun _ => True) (fun future => future = kernelSleep made duration)
        (fun payload now => payload.result = .ok (.integer (duration / 1000000000)) ∧
          made + duration ≤ now) where
  later payload now now' h hle := ⟨h.1, Nat.le_trans h.2 hle⟩
  polled env now future future' status _ hwaits hpolled := by
    unfold kernelSleep at hwaits
    dsimp only at hwaits
    subst hwaits
    split at hpolled
    . cases hpolled
      simp [kernelSleep, *]
    . cases hpolled <;> simp [kernelSleep, *]
  ready env now future future' result _ hmade hwaits hpolled := by
    unfold kernelSleep at hwaits
    dsimp only at hwaits
    subst hwaits
    split at hpolled
    . next hzero =>
      cases hpolled
      simp [hzero, hmade]
    . cases hpolled with
      | wakes hle => exact ⟨rfl, hle⟩
  raising env now future future' _ hwaits hpolled := by
    unfold kernelSleep at hwaits
    dsimp only at hwaits
    subst hwaits
    split at hpolled <;> cases hpolled
  raises env now timeoutAt f exception _ _ hwaits := by
    unfold kernelSleep at hwaits
    dsimp only at hwaits
    split at hwaits <;> contradiction

/--
`kernel_sleep` returns the whole seconds it was asked for, to the fiber that called it, and never before
they are over.
-/
theorem sleep_not_early {duration : Duration} (hreach : Reachable s) (hf : s.rubyFiber = some f)
    (hstep : step s (.hook (.kernelSleep duration)) = some s') (hspawn : s'.nextTask ≠ s.nextTask)
    (es : List Event)
    : Lts.Always step
        (fun s'' => ∀ g payload, (g, payload) ∈ s''.handed → payload.origin = .task s.nextTask →
          g = f ∧ payload.result = .ok (.integer (duration / 1000000000)) ∧
            s.now + duration ≤ s''.now)
        s' es := by
  have hcontract : Contract f s.nextTask s.now (fun future => future = kernelSleep s.now duration)
      (fun payload now => payload.result = .ok (.integer (duration / 1000000000)) ∧
        s.now + duration ≤ now) s' :=
    .start hreach hf rfl hstep hspawn rfl
  exact hcontract.always_task (sleep_terms _ _ _) es

theorem sleep_not_early_fiber
    : ∃ s', step (State.new.fiberImpl rootFiber) (.hook (.kernelSleep 5000000)) = some s' ∧
        Lts.Always step
          (fun s'' => ∀ g payload, (g, payload) ∈ s''.handed → payload.origin = .task 0 →
            g = 1 ∧ payload.result = .ok (.integer 0) ∧ 0 + 5000000 ≤ s''.now)
          s' [.switch, .run, .elapse 6000000, .poll 0 { timerFired := true }, .join 0, .switch] :=
  ⟨_, rfl, @sleep_not_early _ _ _ 5000000 ⟨[.fiber], rfl⟩ rfl rfl (by decide) _⟩

def BlockWaits (made : Instant) (timeout : Option Duration) (future : Future) : Prop :=
  ∃ rx deadline, future = .block rx timeout deadline ∧
    ∀ instant, deadline = some instant → ∃ duration, timeout = some duration ∧
      made + duration ≤ instant

def BlockAllows (made : Instant) (timeout : Option Duration) (payload : Payload) (now : Instant) : Prop :=
  payload.result = .ok (.bool true) ∨
    payload.result = .error (newBaseError "Could not unblock fiber: channel closed") ∨
    ∃ duration, timeout = some duration ∧
      payload.result = .error (timedOut duration "unblocking fiber") ∧ made + duration ≤ now

theorem deadlineAt_ge {made now : Instant} {timeout : Option Duration} {deadline : Option Instant}
    (hmade : made ≤ now)
    (hdeadline : ∀ instant, deadline = some instant → ∃ duration, timeout = some duration ∧
      made + duration ≤ instant)
    : ∀ instant, deadlineAt now timeout deadline = some instant → ∃ duration,
        timeout = some duration ∧ made + duration ≤ instant := by
  intro instant h
  unfold deadlineAt at h
  cases deadline with
  | some instant' =>
    rw [Option.some_or, Option.some.injEq] at h
    exact hdeadline instant (by rw [h])
  | none =>
    rw [Option.none_or, Option.map_eq_some_iff] at h
    obtain ⟨duration, htimeout, rfl⟩ := h
    exact ⟨duration, htimeout, Nat.add_le_add_right hmade duration⟩

theorem block_terms (t : TaskId) (made : Instant) (timeout : Option Duration)
    : Terms t made (fun _ => True) (BlockWaits made timeout) (BlockAllows made timeout) where
  later payload now now' h hle := by
    obtain hwoken | hclosed | ⟨duration, htimeout, hresult, hover⟩ := h
    . exact .inl hwoken
    . exact .inr (.inl hclosed)
    . exact .inr (.inr ⟨duration, htimeout, hresult, Nat.le_trans hover hle⟩)
  polled env now future future' status hmade hwaits hpolled := by
    obtain ⟨rx, deadline, rfl, hdeadline⟩ := hwaits
    have hafter := deadlineAt_ge hmade hdeadline
    cases hpolled with
    | panicked => exact ⟨rx, deadline, rfl, hdeadline⟩
    | woken | closed | timedOut | blocks => exact ⟨rx, _, rfl, hafter⟩
  ready env now future future' result _ hmade hwaits hpolled := by
    obtain ⟨rx, deadline, rfl, hdeadline⟩ := hwaits
    cases hpolled with
    | woken => exact .inl rfl
    | closed => exact .inr (.inl rfl)
    | timedOut hinstant hle =>
      obtain ⟨duration, htimeout, hover⟩ := deadlineAt_ge hmade hdeadline _ hinstant
      refine .inr (.inr ⟨duration, htimeout, ?_, Nat.le_trans hover hle⟩)
      rw [htimeout, Option.getD_some]
  raising env now future future' _ hwaits hpolled := by
    obtain ⟨rx, deadline, rfl, -⟩ := hwaits
    cases hpolled
  raises env now timeoutAt f exception _ _ hwaits := by
    obtain ⟨rx, deadline, hfuture, -⟩ := hwaits
    contradiction

/--
The task of a `block` call hands over, to the fiber that made the call, `true`, the error of a closed
channel, or, if it was given a timeout, the error for it, and the last one never before the timeout is
over.
-/
theorem block_not_early {timeout : Option Duration} (hreach : Reachable s) (hf : s.rubyFiber = some f)
    (hstep : step s (.block timeout) = some s') (hspawn : s'.nextTask ≠ s.nextTask) (es : List Event)
    : Lts.Always step
        (fun s'' => ∀ g payload, (g, payload) ∈ s''.handed → payload.origin = .task s.nextTask →
          g = f ∧ BlockAllows s.now timeout payload s''.now)
        s' es := by
  have hcontract : Contract f s.nextTask s.now (BlockWaits s.now timeout)
      (BlockAllows s.now timeout) s' :=
    .start hreach hf rfl hstep hspawn ⟨_, none, rfl, by simp⟩
  exact hcontract.always_task (block_terms _ _ _) es

theorem block_not_early_fiber
    : ∃ s', step (State.new.fiberImpl rootFiber) (.block (some 5000000)) = some s' ∧
        Lts.Always step
          (fun s'' => ∀ g payload, (g, payload) ∈ s''.handed → payload.origin = .task 0 →
            g = 1 ∧ BlockAllows 0 (some 5000000) payload s''.now)
          s' [.switch, .run, .poll 0 {}, .elapse 6000000, .poll 0 { timerFired := true }, .join 0,
            .switch] :=
  ⟨_, rfl, block_not_early ⟨[.fiber], rfl⟩ rfl rfl (by decide) _⟩

end State
end Shreduler
