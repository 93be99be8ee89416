import Shreduler.Promise.Basic
import Shreduler.TokioScheduler.Lemmas.Tasks

/-!
This module proves that the scheduler implements promises: the task of a call is a promise to the fiber
that made the call, its poll keeps the promise, and the event loop collects the outcome on behalf of the
fiber. All that happens to a task is a run of the promise.
-/

namespace Shreduler

def Task.promise (task : Task) : Promise.Slot FiberId (Result Value) :=
  match task.status with
  | .pending | .aborted => .pending task.fiber
  | .polling => .warned task.fiber
  | .ready result => .kept task.fiber result
  | .joinError => .spent

def Origin.fromLoop : Origin → Bool
  | .task _ | .timeout _ => true
  | .fiber _ => false

namespace State

variable {s s' : State} {t : TaskId}

def promises (s : State) : Promise.Ledger TaskId FiberId (Result Value) := fun t =>
  if t < s.nextTask then
    match s.findTask t with
    | some task => task.promise
    | none => .spent
  else
    .unmade

def madeBy (s s' : State) (f : FiberId) : List (TaskId × Promise.Action FiberId (Result Value)) :=
  if s'.nextTask = s.nextTask then
    []
  else if s.runtime then
    [(s.nextTask, .make f)]
  else
    [(s.nextTask, .make f), (s.nextTask, .lose)]

def polledTo (s' : State) (t : TaskId) : List (TaskId × Promise.Action FiberId (Result Value)) :=
  match s'.findTask t, s'.control with
  | some { status := .ready result, .. }, _ => [(t, .keep result)]
  | some { status := .joinError, .. }, _ => [(t, .lose)]
  | some { status := .polling, .. }, .transfer f _ => [(t, .warn f)]
  | _, _ => []

def joinedTo (s s' : State) (t : TaskId) : List (TaskId × Promise.Action FiberId (Result Value)) :=
  match s.findTask t, s'.control with
  | some { status := .ready _, .. }, .transfer f payload => [(t, .collect f payload.result)]
  | some { status := .ready _, .. }, .running _ => [(t, .lose)]
  | _, _ => []

/-- What a step of the scheduler means for the promises. -/
def mail (s : State) (e : Event) (s' : State) : List (TaskId × Promise.Action FiberId (Result Value)) :=
  match e with
  | .hook _ | .block _ | .timeoutAfter _ => s.rubyFiber.elim [] (s.madeBy s')
  | .poll t _ => s'.polledTo t
  | .switch =>
    match s.control, s.status rootFiber with
    | .transfer f payload, .suspended (.timeoutRaise t) =>
      if f = rootFiber then [(t, .keep payload.result)] else []
    | _, _ => []
  | .join t => s.joinedTo s' t
  | _ => []

def letters (es : List Event) : List (TaskId × Promise.Action FiberId (Result Value)) :=
  Lts.trace step mail .new es

/-! ### The task whose future raises -/

def RaiseHeld (s : State) : Prop :=
  ∀ t, s.status rootFiber = .suspended (.timeoutRaise t) → ∃ task ∈ s.tasks, task.id = t

theorem RaiseHeld.new : RaiseHeld .new := by
  intro t h
  simp [State.new] at h

theorem RaiseHeld.keep (h : RaiseHeld s)
    (hstatus : ∀ t, s'.status rootFiber = .suspended (.timeoutRaise t) →
      s.status rootFiber = .suspended (.timeoutRaise t))
    (hids : ∀ t ∈ s.tasks.map (·.id), t ∈ s'.tasks.map (·.id)) : RaiseHeld s' := by
  intro t ht
  obtain ⟨task, hmem, hid⟩ := h t (hstatus t ht)
  obtain ⟨task', hmem', hid'⟩ := List.mem_map.mp (hids t (hid ▸ List.mem_map_of_mem hmem))
  exact ⟨task', hmem', hid'⟩

theorem RaiseHeld.setStatus (h : RaiseHeld s) {f : FiberId} {status : FiberStatus}
    (hstatus : s'.status = Function.update s.status f status)
    (hids : s.tasks.map (·.id) ⊆ s'.tasks.map (·.id))
    (hraise : ∀ t, status ≠ .suspended (.timeoutRaise t)) : RaiseHeld s' := by
  apply h.keep ?_ (fun t ht => hids ht)
  intro t ht
  rw [hstatus] at ht
  by_cases hf : rootFiber = f
  . rw [hf, Function.update_self] at ht
    exact absurd ht (hraise t)
  . rwa [Function.update_of_ne hf] at ht

theorem RaiseHeld.spawned (h : RaiseHeld s) {f : FiberId} {future : Future}
    (hspawn : Spawned s f future s') : RaiseHeld s' := by
  apply h.keep
  . rw [hspawn.thread.status]
    exact fun _ ht => ht
  . rw [hspawn.tasks, List.map_append]
    exact fun _ ht => List.mem_append_left _ ht

theorem RaiseHeld.effect (hwf : Wf s) (howned : Owned s) (h : RaiseHeld s) {e : Event}
    (heffect : Effect s e s') : RaiseHeld s' := by
  -- a step of the event loop is one of the running root fiber
  have hjoin (hloop : s.AtJoinNext) (t : TaskId) : s.status rootFiber ≠ .suspended (.timeoutRaise t) := by
    rw [(hwf.running rootFiber).mpr hloop.2]
    simp
  cases heffect with
  | still hstill =>
    have hstays := hstill.stays howned.nodup
    apply h.keep
    . rw [hstays.thread.status]
      exact fun _ ht => ht
    . rw [hstays.ids]
      exact fun _ ht => ht
  | switchHook => exact h.setStatus rfl (List.Subset.refl _) (by simp)
  | switchFiber => exact h.setStatus rfl (List.Subset.refl _) (by simp)
  | switchBack => exact h.setStatus rfl (List.Subset.refl _) (by simp)
  | switchLoop => exact h.setStatus rfl (List.Subset.refl _) (by simp)
  | switchTimeout =>
    intro t ht
    simp [complete, setTaskStatus, modifyTasks] at ht
  | @fiber f hf =>
    have hnew : rootFiber ≠ s.nextFiber := Nat.ne_of_lt (hwf.lt_nextFiber hwf.rootAlive)
    have hstatus (t : TaskId) (ht : (s.fiberImpl f).status rootFiber = .suspended (.timeoutRaise t))
        : s.status rootFiber = .suspended (.timeoutRaise t) := by
      simp only [fiberImpl, State.setStatus] at ht
      rw [Function.update_of_ne hnew] at ht
      by_cases hroot : rootFiber = f
      . rw [hroot, Function.update_self] at ht
        simp at ht
      . rwa [Function.update_of_ne hroot] at ht
    exact h.keep hstatus (fun _ ht => ht)
  | @hook f hook =>
    have hspawn : Spawned s f (hook.future s.now) (s.addTask f (hook.future s.now)) := .addTask _ _ _
    exact (h.spawned hspawn).setStatus (status_yield _ _ _) (List.Subset.refl _) (by simp)
  | @block f timeout =>
    have hspawn := Spawned.block s f timeout
    exact (h.spawned hspawn).setStatus (status_yield _ _ _) (List.Subset.refl _) (by simp)
  | hookRoot => exact h.spawned (.addTask s _ _)
  | blockRoot => exact h.spawned (.block s _ _)
  | @timeoutAfter f duration =>
    exact (h.spawned (.addTask s f (.timeout (s.now + duration) f))).keep (fun _ ht => ht)
      (fun _ ht => ht)
  | endTimeout => exact h.keep (fun _ ht => ht) (fun _ ht => ht)
  | finishDies => exact h.setStatus rfl (List.Subset.refl _) (by simp)
  | finishBack => exact h.setStatus rfl (List.Subset.refl _) (by simp)
  | @pollRaise t env task timeoutAt f exception hloop hfind =>
    intro t' ht'
    have ht : t = t' := by simpa using ht'
    obtain ⟨hmem, hid⟩ := findTask_mem hfind
    refine ⟨{ task with status := .polling }, ?_, hid.trans ht⟩
    apply List.mem_map.mpr
    exact ⟨task, hmem, if_pos hid⟩
  | joinResume hloop =>
    intro t ht
    simp at ht
  | joinDrop hloop =>
    intro t ht
    exact absurd ht (hjoin hloop t)

theorem RaiseHeld.step (hwf : Wf s) (howned : Owned s) (h : RaiseHeld s) {e : Event}
    (hstep : State.step s e = some s') : RaiseHeld s' := by
  obtain ⟨s'', heffect, houtcome⟩ := (step_sound hwf hstep).outcome
  have := h.effect hwf howned heffect
  unfold RaiseHeld at this ⊢
  rwa [houtcome.status, houtcome.tasks]

/-! ### The promises after an operation -/

theorem promises_congr (htasks : s'.tasks = s.tasks) (hnext : s'.nextTask = s.nextTask)
    : s'.promises = s.promises := by
  funext t
  simp only [promises, findTask, htasks, hnext]

theorem promises_of_findTask (howned : Owned s) {task : Task} (hfind : s.findTask t = some task)
    : s.promises t = task.promise := by
  obtain ⟨hmem, hid⟩ := findTask_mem hfind
  have hlt := howned.lt task hmem
  rw [hid] at hlt
  simp only [promises, hlt, if_true, hfind]

theorem findTask_map_ite {g : Task → Task} (hg : ∀ task, (g task).id = task.id)
    (htasks : s'.tasks = s.tasks.map fun task => if task.id = t then g task else task) (t' : TaskId)
    : s'.findTask t' = (s.findTask t').map fun task => if task.id = t then g task else task := by
  have hid : (fun task : Task => decide (task.id = t')) ∘ (fun task =>
      if task.id = t then g task else task) = fun task => decide (task.id = t') := by
    funext task
    simp only [Function.comp_apply]
    split
    . rw [hg]
    . rfl
  simp only [findTask, htasks, List.find?_map, hid]

theorem promises_map (howned : Owned s) {g : Task → Task} (hg : ∀ task, (g task).id = task.id)
    {task : Task} (hfind : s.findTask t = some task)
    (htasks : s'.tasks = s.tasks.map fun task => if task.id = t then g task else task)
    (hnext : s'.nextTask = s.nextTask)
    : s'.promises = Function.update s.promises t (g task).promise := by
  obtain ⟨hmem, hid⟩ := findTask_mem hfind
  have hlt := howned.lt task hmem
  funext t'
  by_cases ht : t' = t
  . subst ht
    rw [Function.update_self]
    simp only [promises, hnext, findTask_map_ite hg htasks, hfind, Option.map_some, hid, if_true]
    rw [if_pos (hid ▸ hlt)]
  . rw [Function.update_of_ne ht]
    simp only [promises, hnext, findTask_map_ite hg htasks]
    cases hfound : s.findTask t' with
    | none => rfl
    | some task' =>
      have hne : task'.id ≠ t := (findTask_mem hfound).2 ▸ ht
      simp only [Option.map_some, if_neg hne]

theorem promises_append (howned : Owned s) {f : FiberId} {future : Future}
    (hspawn : Spawned s f future s')
    : s'.promises = Function.update s.promises s.nextTask (s.newTask f future).promise := by
  have hfresh : s.findTask s.nextTask = none := by
    apply List.find?_eq_none.mpr
    intro task hmem
    simp only [decide_eq_true_eq]
    exact Nat.ne_of_lt (howned.lt task hmem)
  funext t
  by_cases ht : t = s.nextTask
  . subst ht
    have hid : (s.newTask f future).id = s.nextTask := rfl
    have hfound : s'.findTask s.nextTask = some (s.newTask f future) := by
      unfold findTask at hfresh ⊢
      rw [hspawn.tasks, List.find?_append, hfresh]
      simp [hid]
    rw [Function.update_self]
    simp only [promises, hspawn.nextTask, hfound, Nat.lt_succ_self, if_true]
  . rw [Function.update_of_ne ht]
    have hid : ¬ (s.newTask f future).id = t := fun h => ht h.symm
    have hfound : s'.findTask t = s.findTask t := by
      simp only [findTask, hspawn.tasks, List.find?_append, List.find?_singleton, hid, decide_false]
      simp
    have hlt : t < s.nextTask + 1 ↔ t < s.nextTask := by
      rw [Nat.lt_succ_iff_lt_or_eq]
      simp [ht]
    simp only [promises, hspawn.nextTask, hfound, hlt]

theorem promises_remove (howned : Owned s) {task : Task} (hfind : s.findTask t = some task)
    (htasks : s'.tasks = (s.removeTask t).tasks) (hnext : s'.nextTask = s.nextTask)
    : s'.promises = Function.update s.promises t .spent := by
  obtain ⟨hmem, hid⟩ := findTask_mem hfind
  have hlt := howned.lt task hmem
  funext t'
  have hfound : s'.findTask t' = if t' = t then none else s.findTask t' := by
    unfold findTask
    rw [htasks]
    simp only [removeTask, modifyTasks, GcCell.modify, tasks, List.find?_filter]
    split
    . next ht =>
      subst ht
      apply List.find?_eq_none.mpr
      simp
    . next ht =>
      congr 1
      funext task
      by_cases h : task.id = t'
      . simp [h, ht]
      . simp [h]
  by_cases ht : t' = t
  . subst ht
    rw [Function.update_self]
    simp only [promises, hnext, hfound, if_true]
    rw [if_pos (hid ▸ hlt)]
  . rw [Function.update_of_ne ht]
    simp only [promises, hnext, hfound, if_neg ht]

/-! ### What a step shows -/

theorem polledTo_ready {task : Task} {result : Result Value} (hfind : s'.findTask t = some task)
    (hstatus : task.status = .ready result) : s'.polledTo t = [(t, .keep result)] := by
  cases task
  simp_all [polledTo]

theorem polledTo_joinError {task : Task} (hfind : s'.findTask t = some task)
    (hstatus : task.status = .joinError) : s'.polledTo t = [(t, .lose)] := by
  cases task
  simp_all [polledTo]

theorem polledTo_pending {task : Task} (hfind : s'.findTask t = some task)
    (hstatus : task.status = .pending) : s'.polledTo t = [] := by
  cases task
  simp_all [polledTo]

theorem mail_of_unblocks {f : FiberId} {e : Event} (h : e.Unblocks f) : mail s e s' = [] := by
  cases e with
  | unblock | remoteUnblock => rfl
  | _ => contradiction

abbrev Mails (s : State) (e : Event) (s' : State) : Prop :=
  Lts.run (Lts.family Promise.step) s.promises (mail s e s') = some s'.promises

theorem Mails.silent {e : Event} (hmail : mail s e s' = []) (htasks : s'.tasks = s.tasks)
    (hnext : s'.nextTask = s.nextTask) : Mails s e s' := by
  rw [Mails, hmail, Lts.run_nil, promises_congr htasks hnext]

theorem Mails.single {e : Event} {action : Promise.Action FiberId (Result Value)}
    {slot : Promise.Slot FiberId (Result Value)} (hmail : mail s e s' = [(t, action)])
    (hstep : Promise.step (s.promises t) action = some slot)
    (hpromises : s'.promises = Function.update s.promises t slot) : Mails s e s' := by
  rw [Mails, hmail, Lts.run_cons_of_step (Lts.family_of_step hstep), Lts.run_nil, hpromises]

theorem Mails.ready (howned : Owned s) {env : PollEnv} {task : Task} {g : Task → Task}
    {result : Result Value} (hfind : s.findTask t = some task) (hstatus : task.status = .pending)
    (hg : ∀ task, (g task).id = task.id ∧ (g task).fiber = task.fiber ∧
      (g task).status = .ready result)
    (htasks : s'.tasks = s.tasks.map fun task => if task.id = t then g task else task)
    (hnext : s'.nextTask = s.nextTask) : Mails s (.poll t env) s' := by
  have hid (task : Task) : (g task).id = task.id := (hg task).1
  obtain ⟨-, hfiber, hready⟩ := hg task
  have hfound : s'.findTask t = some (g task) := by
    rw [findTask_map_ite hid htasks, hfind, Option.map_some, if_pos (findTask_mem hfind).2]
  have hmail : mail s (.poll t env) s' = [(t, .keep result)] := polledTo_ready hfound hready
  apply Mails.single hmail ?_ (promises_map howned hid hfind htasks hnext)
  rw [promises_of_findTask howned hfind]
  simp only [Task.promise, hstatus, hready, hfiber, Promise.step]

theorem promises_abortAll (s : State) : s.abortAll.promises = s.promises := by
  -- to the owners, a task that waits to be dropped is like any other
  let g := fun task : Task => if task.status = .pending then { task with status := .aborted } else task
  have hg (task : Task) : (g task).id = task.id ∧ (g task).promise = task.promise := by
    dsimp only [g]
    split
    . next hpending => simp only [Task.promise, hpending, and_self]
    . exact ⟨rfl, rfl⟩
  funext t
  have hid : (fun task : Task => decide (task.id = t)) ∘ g = fun task => decide (task.id = t) := by
    funext task
    simp only [Function.comp_apply, (hg task).1]
  have hfound : s.abortAll.findTask t = (s.findTask t).map g := by
    unfold findTask
    exact List.find?_map.trans (by rw [hid])
  unfold promises
  rw [hfound]
  cases s.findTask t with
  | none => rfl
  | some task =>
    simp only [Option.map_some, (hg task).2]
    rfl

theorem Still.mails (howned : Owned s) {e : Event} (h : Still s e s') : Mails s e s' := by
  have hstays := h.stays howned.nodup
  cases h with
  | quiet hevent =>
    apply Mails.silent ?_ rfl rfl
    cases e with
    | elapse | run | close | joinNone | callRuby | returnRuby => rfl
    | _ => contradiction
  | @spawnFails f e hf hloop hevent =>
    apply Mails.silent ?_ rfl rfl
    cases e with
    | hook | timeoutAfter => simp [mail, hf, madeBy]
    | _ => contradiction
  | @blockFails f timeout hf hloop =>
    apply Mails.silent
    . simp [mail, hf, madeBy, hstays.nextTask]
    . rw [tasks_dropRx, tasks_registerBlock]
    . exact hstays.nextTask
  | unblockRejected hevent => exact .silent (mail_of_unblocks hevent) rfl rfl
  | unblockOther hevent hunblock =>
    apply Mails.silent ?_ rfl rfl
    obtain ⟨value, heq | heq⟩ := hunblock
    . rw [heq]
      rfl
    . rw [heq]
      rfl
  | unblockNone hevent | unblockSent hevent | unblockLost hevent =>
    exact .silent (mail_of_unblocks hevent) rfl rfl
  | pollPending hloop hfind hstatus =>
    exact .silent (polledTo_pending hfind hstatus) rfl rfl
  | @pollReady t env task result hloop hfind hstatus =>
    apply Mails.ready (g := fun task => { task with status := .ready result }) howned hfind hstatus
    . exact fun task => ⟨rfl, rfl, rfl⟩
    . rfl
    . rfl
  | @pollBlockReady t env task rx timeout deadline deadline' result hloop hfind hstatus hfuture =>
    apply Mails.ready (g := fun task =>
      { task with future := .block rx timeout deadline', status := .ready result }) howned hfind hstatus
    . exact fun task => ⟨rfl, rfl, rfl⟩
    . rw [tasks_endBlock, map_setFuture_complete]
    . exact hstays.nextTask
  | @pollBlockTimeout t env task rx timeout deadline deadline' result hloop hfind hstatus hfuture =>
    apply Mails.ready (g := fun task =>
      { task with future := .block rx timeout deadline', status := .ready result }) howned hfind hstatus
    . exact fun task => ⟨rfl, rfl, rfl⟩
    . rw [tasks_endBlock, tasks_complete_congr (tasks_dropRx _ _), map_setFuture_complete]
    . exact hstays.nextTask
  | @pollBlockPending t env task rx timeout deadline deadline' hloop hfind hstatus hfuture =>
    let g := fun task : Task => { task with future := .block rx timeout deadline' }
    have htasks : (s.setFuture t (.block rx timeout deadline')).tasks
        = s.tasks.map fun task => if task.id = t then g task else task := rfl
    have hfound : (s.setFuture t (.block rx timeout deadline')).findTask t = some (g task) := by
      rw [findTask_map_ite (g := g) (fun _ => rfl) htasks, hfind, Option.map_some,
        if_pos (findTask_mem hfind).2]
    have hmail : mail s (.poll t env) (s.setFuture t (.block rx timeout deadline')) = [] :=
      polledTo_pending hfound hstatus
    have hpromise : (g task).promise = s.promises t := (promises_of_findTask howned hfind).symm
    rw [Mails, hmail, Lts.run_nil, promises_map (g := g) howned (fun _ => rfl) hfind htasks rfl, hpromise,
      Function.update_eq_self]
  | @pollPanic t env task hloop hfind hstatus =>
    let g := fun task : Task => { task with status := .joinError }
    have htasks : (s.panicTask t task.future).tasks
        = s.tasks.map fun task => if task.id = t then g task else task := tasks_panicTask _ _ _
    have hfound : (s.panicTask t task.future).findTask t = some (g task) := by
      rw [findTask_map_ite (g := g) (fun _ => rfl) htasks, hfind, Option.map_some,
        if_pos (findTask_mem hfind).2]
    have hmail : mail s (.poll t env) (s.panicTask t task.future) = [(t, .lose)] :=
      polledTo_joinError hfound rfl
    apply Mails.single hmail ?_
      (promises_map (g := g) howned (fun _ => rfl) hfind htasks hstays.nextTask)
    rw [promises_of_findTask howned hfind]
    cases hstatus with
    | inl hstatus => simp only [Task.promise, hstatus, Promise.step, g]
    | inr hstatus => simp only [Task.promise, hstatus.1, Promise.step, g]
  | interrupt hloop =>
    rw [Mails, promises_abortAll]
    rfl

theorem Mails.spawned (howned : Owned s) {f : FiberId} {future : Future} {e : Event} {s₁ : State}
    (hspawn : Spawned s f future s₁) (hf : s.rubyFiber = some f)
    (hmail : mail s e s' = s.rubyFiber.elim [] (s.madeBy s')) (htasks : s'.tasks = s₁.tasks)
    (hnext : s'.nextTask = s₁.nextTask) : Mails s e s' := by
  have hunmade : s.promises s.nextTask = .unmade := if_neg (Nat.lt_irrefl _)
  have hmake : Lts.family Promise.step s.promises (s.nextTask, .make f)
      = some (Function.update s.promises s.nextTask (.pending f)) := by
    apply Lts.family_of_step
    rw [hunmade]
    rfl
  have hne : s'.nextTask ≠ s.nextTask := by
    rw [hnext, hspawn.nextTask]
    exact Nat.succ_ne_self _
  rw [Mails, hmail, hf, Option.elim_some, madeBy, if_neg hne, promises_congr htasks hnext,
    promises_append howned hspawn]
  cases hruntime : s.runtime with
  | true =>
    rw [if_pos rfl, Lts.run_cons_of_step hmake, Lts.run_nil]
    simp [Task.promise, newTask, hruntime]
  | false =>
    have hlose : Lts.family Promise.step (Function.update s.promises s.nextTask (.pending f))
        (s.nextTask, .lose) = some (Function.update s.promises s.nextTask .spent) := by
      rw [Lts.family_of_step (x := .spent)]
      . rw [Function.update_idem]
      . rw [Function.update_self]
        rfl
    rw [if_neg (by simp), Lts.run_cons_of_step hmake, Lts.run_cons_of_step hlose, Lts.run_nil]
    simp [Task.promise, newTask, hruntime]

theorem mail_congr {e : Event} {s'' : State} (houtcome : SameOutcome s' s'')
    : mail s e s' = mail s e s'' := by
  have hfound (t : TaskId) : s'.findTask t = s''.findTask t := by
    simp only [findTask, houtcome.tasks]
  have hpolled (t : TaskId) : s'.polledTo t = s''.polledTo t := by
    simp only [polledTo, hfound, houtcome.control]
  have hjoined (t : TaskId) : s.joinedTo s' t = s.joinedTo s'' t := by
    simp only [joinedTo, houtcome.control]
  have hmade : s.madeBy s' = s.madeBy s'' := by
    funext f
    simp only [madeBy, houtcome.nextTask]
  unfold mail
  split
  . rw [hmade]
  . rw [hmade]
  . rw [hmade]
  . apply hpolled
  . rfl
  . apply hjoined
  . rfl

theorem Mails.congr {e : Event} {s'' : State} (houtcome : SameOutcome s' s'') (h : Mails s e s'')
    : Mails s e s' := by
  rw [Mails, mail_congr houtcome, promises_congr houtcome.tasks houtcome.nextTask]
  exact h

theorem mail_of_switch {f : FiberId} {payload : Payload} {sus : Suspension}
    (hcontrol : s.control = .transfer f payload) (hstatus : s.status f = .suspended sus)
    (hsus : ∀ t, sus ≠ .timeoutRaise t) : mail s .switch s' = [] := by
  unfold mail
  dsimp only
  rw [hcontrol]
  split
  . next f' payload' t heq hroot =>
    injection heq with hf
    subst hf
    split
    . next h =>
      subst h
      rw [hstatus] at hroot
      injection hroot with hroot
      exact absurd hroot (hsus t)
    . rfl
  . rfl

theorem joinedTo_lose {task : Task} {result : Result Value} (hfind : s.findTask t = some task)
    (hstatus : task.status = .ready result) {f : FiberId} (hcontrol : s'.control = .running f)
    : s.joinedTo s' t = [(t, .lose)] := by
  cases task
  simp_all [joinedTo]

theorem joinedTo_collect {task : Task} {result : Result Value} (hfind : s.findTask t = some task)
    (hstatus : task.status = .ready result) {f : FiberId} {payload : Payload}
    (hcontrol : s'.control = .transfer f payload)
    : s.joinedTo s' t = [(t, .collect f payload.result)] := by
  cases task
  simp_all [joinedTo]

theorem joinedTo_joinError {task : Task} (hfind : s.findTask t = some task)
    (hstatus : task.status = .joinError) : s.joinedTo s' t = [] := by
  cases task
  simp_all [joinedTo]

theorem mail_of_raise {env : PollEnv} {task : Task} (hfind : s.findTask t = some task) (f : FiberId)
    (payload : Payload)
    : mail s (.poll t env)
          ((s.setTaskStatus t .polling).transfer rootFiber (.timeoutRaise t) f payload)
        =
      [(t, .warn f)] := by
  let g := fun task : Task => { task with status := .polling }
  let s' := (s.setTaskStatus t .polling).transfer rootFiber (.timeoutRaise t) f payload
  have htasks : s'.tasks = s.tasks.map fun task => if task.id = t then g task else task := rfl
  have hfound : s'.findTask t = some (g task) := by
    rw [findTask_map_ite (g := g) (fun _ => rfl) htasks, hfind, Option.map_some,
      if_pos (findTask_mem hfind).2]
  simp only [mail, polledTo, hfound, g, s']
  rfl

theorem Effect.mails (howned : Owned s) (hheld : RaiseHeld s) {e : Event} (h : Effect s e s')
    : Mails s e s' := by
  cases h with
  | still hstill => exact hstill.mails howned
  | switchHook hcontrol hstatus => exact .silent (mail_of_switch hcontrol hstatus (by simp)) rfl rfl
  | switchFiber hcontrol hstatus => exact .silent (mail_of_switch hcontrol hstatus (by simp)) rfl rfl
  | switchBack hcontrol hstatus => exact .silent (mail_of_switch hcontrol hstatus (by simp)) rfl rfl
  | switchLoop hcontrol hstatus => exact .silent (mail_of_switch hcontrol hstatus (by simp)) rfl rfl
  | @switchTimeout t payload hcontrol hstatus =>
    let g := fun task : Task => { task with status := .ready payload.result }
    have hmail : mail s .switch ((s.switchTo rootFiber).complete t payload.result)
        = [(t, .keep payload.result)] := by
      simp [mail, hcontrol, hstatus]
    have htasks : ((s.switchTo rootFiber).complete t payload.result).tasks
        = s.tasks.map fun task => if task.id = t then g task else task := rfl
    obtain ⟨task, hmem, rfl⟩ := hheld t hstatus
    have hfind := findTask_of_mem howned.nodup hmem
    obtain ⟨-, hpolling⟩ := (howned.raising _ hstatus).2 task hmem rfl
    apply Mails.single hmail ?_ (promises_map (g := g) howned (fun _ => rfl) hfind htasks rfl)
    rw [promises_of_findTask howned hfind]
    simp only [Task.promise, hpolling, Promise.step, g]
  | fiber => exact .silent rfl rfl rfl
  | hook hf => exact .spawned howned (.addTask s _ _) hf rfl rfl rfl
  | hookRoot hf => exact .spawned howned (.addTask s _ _) hf rfl rfl rfl
  | block hf => exact .spawned howned (.block s _ _) hf rfl rfl rfl
  | blockRoot hf => exact .spawned howned (.block s _ _) hf rfl rfl rfl
  | timeoutAfter hf => exact .spawned howned (.addTask s _ _) hf rfl rfl rfl
  | endTimeout => exact .silent rfl rfl rfl
  | finishDies => exact .silent rfl rfl rfl
  | finishBack => exact .silent rfl rfl rfl
  | @pollRaise t env task timeoutAt f exception hloop hfind hstatus hfuture =>
    let g := fun task : Task => { task with status := .polling }
    obtain ⟨hmem, -⟩ := findTask_mem hfind
    apply Mails.single (mail_of_raise hfind f _) ?_
      (promises_map (g := g) howned (fun _ => rfl) hfind rfl rfl)
    rw [promises_of_findTask howned hfind, howned.timer task hmem timeoutAt f hfuture]
    simp only [Task.promise, hstatus, Promise.step, if_true, g]
  | @joinResume t task result hloop hfind hstatus =>
    let s' := (s.removeTask t).transfer rootFiber (.resumeIfAlive t) task.fiber ⟨result, .task t⟩
    have hcontrol : s'.control = .transfer task.fiber ⟨result, .task t⟩ := rfl
    have hmail : mail s (.join t) s' = [(t, .collect task.fiber result)] :=
      joinedTo_collect hfind hstatus hcontrol
    apply Mails.single hmail ?_ (promises_remove howned hfind rfl rfl)
    rw [promises_of_findTask howned hfind]
    simp only [Task.promise, hstatus, Promise.step, and_self, if_true]
  | @joinDrop t task hloop hfind hstatus =>
    have hpromises : (s.removeTask t).promises = Function.update s.promises t .spent :=
      promises_remove howned hfind rfl rfl
    have hslot := promises_of_findTask howned hfind
    obtain hstatus | ⟨result, hstatus, -⟩ := hstatus
    . have hspent : s.promises t = .spent := by
        rw [hslot, Task.promise, hstatus]
      have hmail : mail s (.join t) (s.removeTask t) = [] := joinedTo_joinError hfind hstatus
      rw [Mails, hmail, Lts.run_nil, hpromises, ← hspent, Function.update_eq_self]
    . have hmail : mail s (.join t) (s.removeTask t) = [(t, .lose)] :=
        joinedTo_lose hfind hstatus hloop.2
      apply Mails.single hmail ?_ hpromises
      rw [hslot]
      simp only [Task.promise, hstatus, Promise.step]

structure Accountable (s : State) : Prop where
  wf : Wf s
  owned : Owned s
  held : RaiseHeld s

theorem Accountable.new : Accountable .new := ⟨.new, .new, .new⟩

theorem Accountable.step (h : Accountable s) {e : Event} (hstep : State.step s e = some s')
    : Accountable s' :=
  ⟨h.wf.step hstep, h.owned.step h.wf hstep, h.held.step h.wf h.owned hstep⟩

theorem refines_promises
    : Lts.Refines step (Lts.family Promise.step) Accountable promises mail where
  keeps _ _ _ h hstep := h.step hstep
  simulates s e s' h hstep := by
    obtain ⟨s'', heffect, houtcome⟩ := (step_sound h.wf hstep).outcome
    exact (heffect.mails h.owned h.held).congr houtcome

theorem promises_new : State.new.promises = fun _ => .unmade := by
  funext t
  simp [promises, State.new]

theorem letters_keep_promises {es : List Event} (hrun : Lts.run step .new es = some s)
    : Lts.run (Lts.family Promise.step) (fun _ => .unmade) (letters es) = some s.promises := by
  rw [← promises_new]
  exact refines_promises.run .new hrun

/--
Every run of the scheduler is a run of the promises, and what has happened to a task so far is one of the
few histories that lead to its state.
-/
theorem tasks_are_promises {es : List Event} (hrun : Lts.run step .new es = some s)
    : Lts.run (Lts.family Promise.step) (fun _ => .unmade) (letters es) = some s.promises ∧
        ∀ t, Promise.History (s.promises t) (Lts.project t (letters es)) := by
  have hledger := letters_keep_promises hrun
  exact ⟨hledger, Promise.history_project hledger⟩

def sleeper : List Event :=
  [.fiber, .hook (.kernelSleep 0), .switch, .run, .poll 0 {}, .join 0, .switch]

theorem tasks_are_promises_sleeper
    : ∃ s, Lts.run step .new sleeper = some s ∧ s.returns.length = 1 ∧
        Lts.run (Lts.family Promise.step) (fun _ => .unmade) (letters sleeper) = some s.promises ∧
        ∀ t, Promise.History (s.promises t) (Lts.project t (letters sleeper)) :=
  ⟨_, rfl, rfl, tasks_are_promises rfl⟩

/-! ### What reaches the fibers -/

def handed (s : State) : List (FiberId × Payload) :=
  let arriving :=
    match s.control with
    | .transfer f payload => [(f, payload)]
    | .running _ => []
  (arriving ++ s.returns.map fun ret => (ret.fiber, ret.payload)).filter (·.2.origin.fromLoop)

def letterOf (f : FiberId) (payload : Payload) : List (TaskId × Promise.Action FiberId (Result Value)) :=
  match payload.origin with
  | .task t => [(t, .collect f payload.result)]
  | .timeout t => [(t, .warn f)]
  | .fiber _ => []

theorem handed_of_returns {f : FiberId} {payload : Payload} {ret : Return}
    (hmem : ret ∈ s.returns) (hf : ret.fiber = f) (hpayload : ret.payload = payload)
    (horigin : payload.origin.fromLoop) : (f, payload) ∈ s.handed := by
  apply List.mem_filter.mpr
  refine ⟨List.mem_append_right _ ?_, horigin⟩
  apply List.mem_map.mpr
  exact ⟨ret, hmem, by rw [hf, hpayload]⟩

theorem handed_sublist (hreturns : s'.returns = s.returns)
    (hcontrol : ∀ f payload, s'.control = .transfer f payload → payload.origin.fromLoop = false)
    : s'.handed.Sublist s.handed := by
  have heq : s'.handed
      = (s.returns.map fun ret => (ret.fiber, ret.payload)).filter (·.2.origin.fromLoop) := by
    unfold handed
    rw [hreturns]
    split
    . next f payload h =>
      rw [List.filter_append, List.filter_singleton, hcontrol f payload h]
      rfl
    . rfl
  rw [heq, handed, List.filter_append]
  apply List.sublist_append_right

theorem handed_same (hcontrol : s'.control = s.control) (hreturns : s'.returns = s.returns)
    : s'.handed.Sublist s.handed := by
  simp only [handed, hcontrol, hreturns]
  apply List.Sublist.refl

theorem handed_cons {f g : FiberId} {payload : Payload} (hrunning : s.control = .running g)
    (hcontrol : s'.control = .transfer f payload) (hreturns : s'.returns = s.returns)
    (horigin : payload.origin.fromLoop) : s'.handed = (f, payload) :: s.handed := by
  simp only [handed, hrunning, hcontrol, hreturns, List.nil_append, List.singleton_append]
  exact List.filter_cons_of_pos horigin

theorem Effect.handed {e : Event} (h : Effect s e s')
    : s'.handed.Sublist s.handed ∨ ∃ f payload, s'.handed = (f, payload) :: s.handed ∧
        s.AtJoinNext ∧ s'.control = .transfer f payload ∧
          payload.origin.fromLoop ∧ mail s e s' = letterOf f payload := by
  cases h with
  | still hstill =>
    left
    apply handed_same hstill.thread.control hstill.thread.returns
  | @hookRoot hook =>
    left
    apply handed_same
    . apply (Spawned.addTask s rootFiber (hook.future s.now)).thread.control
    . apply (Spawned.addTask s rootFiber (hook.future s.now)).thread.returns
  | @timeoutAfter f duration =>
    left
    apply handed_same
    . apply (Spawned.addTask s f (.timeout (s.now + duration) f)).thread.control
    . apply (Spawned.addTask s f (.timeout (s.now + duration) f)).thread.returns
  | @blockRoot timeout =>
    left
    apply handed_same
    . apply (Spawned.block s rootFiber timeout).thread.control
    . apply (Spawned.block s rootFiber timeout).thread.returns
  | endTimeout | joinDrop =>
    left
    apply handed_same
    . rfl
    . rfl
  | switchHook hcontrol =>
    left
    simp only [State.handed, hcontrol, List.map_cons]
    apply List.Sublist.refl
  | switchFiber | switchLoop | switchTimeout | fiber =>
    left
    apply handed_sublist
    . rfl
    . intro f payload h
      simp [switchTo, complete, setTaskStatus, modifyTasks, fiberImpl] at h
  | switchBack | finishDies | finishBack =>
    left
    apply handed_sublist
    . rfl
    . intro f payload h
      injection h with _ hpayload
      rw [← hpayload]
      rfl
  | @hook f hook =>
    left
    apply handed_sublist
    . apply (Spawned.addTask s f (hook.future s.now)).thread.returns
    . intro g payload h
      injection h with _ hpayload
      rw [← hpayload]
      rfl
  | @block f timeout =>
    left
    apply handed_sublist
    . apply (Spawned.block s f timeout).thread.returns
    . intro g payload h
      injection h with _ hpayload
      rw [← hpayload]
      rfl
  | @pollRaise t env task timeoutAt f exception hloop hfind =>
    refine .inr ⟨f, ⟨.error (.exception exception), .timeout t⟩, ?_, hloop, rfl, rfl,
      mail_of_raise hfind f _⟩
    exact handed_cons hloop.2 rfl rfl rfl
  | @joinResume t task result hloop hfind hstatus =>
    refine .inr ⟨task.fiber, ⟨result, .task t⟩, handed_cons hloop.2 rfl rfl rfl, hloop, rfl, rfl, ?_⟩
    exact joinedTo_collect hfind hstatus rfl

structure Delivered (es : List Event) (s : State) : Prop where
  accountable : Accountable s
  run : Lts.run step .new es = some s
  letter : ∀ f payload, (f, payload) ∈ s.handed → ∀ l ∈ letterOf f payload, l ∈ letters es
  nodup : (s.handed.map (·.2.origin)).Nodup

theorem Delivered.fresh {es : List Event} (h : Delivered es s) {e : Event} {f : FiberId}
    {payload : Payload} (hmails : Mails s e s') (hmail : mail s e s' = letterOf f payload)
    (hloop : payload.origin.fromLoop) : payload.origin ∉ s.handed.map (·.2.origin) := by
  have hledger := letters_keep_promises h.run
  intro hmem
  obtain ⟨⟨g, payload'⟩, hmem, horigin⟩ := List.mem_map.mp hmem
  have hold := h.letter g payload' hmem
  rw [Mails, hmail] at hmails
  unfold letterOf at hold hmails
  dsimp only at horigin
  rw [horigin] at hold
  cases ho : payload.origin with
  | fiber => simp [ho, Origin.fromLoop] at hloop
  | task t =>
    rw [ho] at hmails hold
    obtain ⟨s₁, hstep, -⟩ := Lts.run_cons_eq_some.mp hmails
    obtain ⟨slot, hslot, -⟩ := Lts.family_eq_some.mp hstep
    obtain ⟨hspent, -⟩ := Promise.collected_of_run hledger (hold _ (.head _))
    simp only [hspent, Promise.step_spent] at hslot
    contradiction
  | timeout t =>
    rw [ho] at hmails hold
    obtain ⟨s₁, hstep, -⟩ := Lts.run_cons_eq_some.mp hmails
    obtain ⟨slot, hslot, -⟩ := Lts.family_eq_some.mp hstep
    have hhistory := Promise.history_project hledger t
    rw [Promise.pending_of_warn hslot] at hhistory
    exact hhistory.not_warn g (Lts.mem_project.mpr (hold _ (.head _)))

theorem Delivered.step {es : List Event} (h : Delivered es s) {e : Event}
    (hstep : State.step s e = some s') : Delivered (es ++ [e]) s' := by
  have haccountable := h.accountable
  obtain ⟨s'', heffect, houtcome⟩ := (step_sound haccountable.wf hstep).outcome
  have hmails := refines_promises.simulates s e s' haccountable hstep
  have hhanded : s'.handed = s''.handed := by
    simp only [handed, houtcome.control, houtcome.returns]
  have hletters : letters (es ++ [e]) = letters es ++ mail s e s' :=
    Lts.trace_append_singleton h.run hstep
  refine ⟨haccountable.step hstep, Lts.run_append_singleton h.run hstep, ?_, ?_⟩
  . intro f payload hmem l hl
    rw [hletters]
    apply List.mem_append.mpr
    rw [hhanded] at hmem
    obtain hsub | ⟨g, payload', hcons, -, -, -, hmail⟩ := heffect.handed
    . exact .inl (h.letter f payload (hsub.subset hmem) l hl)
    . rw [hcons] at hmem
      cases hmem with
      | head =>
        right
        rw [mail_congr houtcome, hmail]
        exact hl
      | tail _ hmem => exact .inl (h.letter f payload hmem l hl)
  . rw [hhanded]
    obtain hsub | ⟨g, payload', hcons, -, -, hloop, hmail⟩ := heffect.handed
    . exact h.nodup.sublist (hsub.map _)
    . rw [hcons, List.map_cons, List.nodup_cons]
      rw [← mail_congr houtcome] at hmail
      exact ⟨h.fresh hmails hmail hloop, h.nodup⟩

theorem delivered_of_run {es : List Event} (hrun : Lts.run step .new es = some s) : Delivered es s := by
  have hnew : Delivered [] .new := by
    refine ⟨.new, rfl, ?_, ?_⟩
    . intro f payload hmem
      simp [handed, State.new] at hmem
    . simp [handed, State.new]
  apply Lts.run_induction hnew ?_ hrun
  intro es e s₁ s₂ _ h hstep
  exact h.step hstep

theorem nodup_origins {es : List Event} (hrun : Lts.run step .new es = some s)
    : ((s.returns.map (·.payload.origin)).filter Origin.fromLoop).Nodup := by
  have hsub : ((s.returns.map fun ret => (ret.fiber, ret.payload)).filter
      (·.2.origin.fromLoop)).Sublist s.handed := by
    rw [handed, List.filter_append]
    apply List.sublist_append_right
  have hnodup := (delivered_of_run hrun).nodup.sublist (hsub.map _)
  rw [List.filter_map] at hnodup ⊢
  rw [List.map_map] at hnodup
  exact hnodup

theorem letter_of_returns {es : List Event} (hrun : Lts.run step .new es = some s) {ret : Return}
    (hret : ret ∈ s.returns) (hloop : ret.payload.origin.fromLoop)
    : ∀ l ∈ letterOf ret.fiber ret.payload, l ∈ letters es := by
  apply (delivered_of_run hrun).letter
  exact handed_of_returns hret rfl rfl hloop

theorem collected_of_returns {es : List Event} (hrun : Lts.run step .new es = some s) {ret : Return}
    (hret : ret ∈ s.returns) (horigin : ret.payload.origin = .task t)
    : Promise.Collected ret.fiber ret.payload.result (Lts.project t (letters es)) := by
  have hletter := letter_of_returns hrun hret
  simp only [letterOf, horigin, Origin.fromLoop, forall_const] at hletter
  exact (Promise.collected_of_run (letters_keep_promises hrun) (hletter _ (.head _))).2

/--
No output of a task and no exception of a timeout comes out of two calls. What comes out of a call is
what the future of the task was completed with, and the task is one of the fiber that made the call.
-/
theorem outputs_delivered_once {es : List Event} (hrun : Lts.run step .new es = some s)
    : ((s.returns.map (·.payload.origin)).filter Origin.fromLoop).Nodup ∧
        ∀ ret ∈ s.returns, ∀ t,
          (ret.payload.origin = .task t →
            Promise.Collected ret.fiber ret.payload.result (Lts.project t (letters es))) ∧
          (ret.payload.origin = .timeout t →
            ∃ rest, Lts.project t (letters es) = .make ret.fiber :: .warn ret.fiber :: rest) := by
  refine ⟨nodup_origins hrun, ?_⟩
  intro ret hret t
  constructor
  . exact collected_of_returns hrun hret
  . intro horigin
    have hletter := letter_of_returns hrun hret
    simp only [letterOf, horigin, Origin.fromLoop, forall_const] at hletter
    apply (Promise.history_project (letters_keep_promises hrun) t).warned_of_mem
    apply Lts.mem_project.mpr (hletter _ (.head _))

theorem outputs_delivered_once_sleeper
    : ∃ s, Lts.run step .new sleeper = some s ∧ s.returns.length = 1 ∧
        ((s.returns.map (·.payload.origin)).filter Origin.fromLoop).Nodup ∧
        ∀ ret ∈ s.returns, ∀ t,
          (ret.payload.origin = .task t →
            Promise.Collected ret.fiber ret.payload.result (Lts.project t (letters sleeper))) ∧
          (ret.payload.origin = .timeout t →
            ∃ rest, Lts.project t (letters sleeper) = .make ret.fiber :: .warn ret.fiber :: rest) :=
  ⟨_, rfl, rfl, outputs_delivered_once rfl⟩

example : Lts.project 0 (letters sleeper) =
    [.make 1, .keep (.ok (.integer 0)), .collect 1 (.ok (.integer 0))] := by decide

end State
end Shreduler
