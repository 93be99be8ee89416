import Mathlib.Data.List.Forall2
import Mathlib.Data.List.Nodup
import Shreduler.TokioScheduler.Lemmas.Step

/-!
This module contains what a step makes of the tasks of the join set, and the invariant that ties
tasks, hook calls and `timeout_after` blocks to each other.
-/

namespace Shreduler

def Task.rx (task : Task) : Option ChanId :=
  match task.future with
  | .block rx _ _ => some rx
  | _ => none

inductive TaskStatus.Next (isTimeout : Bool) : TaskStatus → TaskStatus → Prop where
  | same {status} : Next isTimeout status status
  | ready {result} (htimeout : isTimeout → ∃ e, result = .error e)
    : Next isTimeout .pending (.ready result)
  | aborted : Next isTimeout .pending .aborted
  | panicked : Next isTimeout .pending .joinError
  | cancelled : Next isTimeout .aborted .joinError

theorem TaskStatus.Next.eq_of_polling {isTimeout : Bool} {status : TaskStatus}
    (h : Next isTimeout .polling status) : status = .polling := by
  cases h
  rfl

structure Task.Next (task task' : Task) : Prop where
  id : task'.id = task.id
  fiber : task'.fiber = task.fiber
  future : task'.future = task.future ∨ task.isBlock ∧ task'.isBlock
  rx : task'.rx = task.rx
  status : task.status.Next task.isTimeout task'.status

namespace Task

variable {task task' : Task}

theorem Next.refl (task : Task) : Next task task where
  id := rfl
  fiber := rfl
  future := .inl rfl
  rx := rfl
  status := .same

theorem isTimeout_eq_false_of_isBlock (h : task.isBlock) : task.isTimeout = false := by
  unfold isBlock at h
  unfold isTimeout
  split at h
  . next heq => rw [heq]
  . contradiction

theorem rx_eq_none (h : task.isBlock = false) : task.rx = none := by
  unfold isBlock at h
  unfold rx
  cases hfuture : task.future <;> simp_all

theorem future_of_rx {rx : ChanId} (h : task.rx = some rx)
    : ∃ timeout deadline, task.future = .block rx timeout deadline := by
  unfold Task.rx at h
  split at h
  . next rx' timeout deadline hfuture =>
    injection h with h
    exact ⟨timeout, deadline, h ▸ hfuture⟩
  . contradiction

theorem Next.blockReady {rx : ChanId} {timeout : Option Duration} {deadline deadline' : Option Instant}
    (hfuture : task.future = .block rx timeout deadline) (hstatus : task.status = .pending)
    (result : Result Value)
    : Next task { task with future := .block rx timeout deadline', status := .ready result } := by
  have hblock : task.isBlock := by simp [isBlock, hfuture]
  have hrx : task.rx = some rx := by simp [Task.rx, hfuture]
  refine ⟨rfl, rfl, .inr ⟨hblock, rfl⟩, hrx.symm, hstatus ▸ .ready ?_⟩
  simp [isTimeout_eq_false_of_isBlock hblock]

theorem Next.isTimeout (h : Next task task') : task'.isTimeout = task.isTimeout := by
  cases h.future with
  | inl heq => simp only [Task.isTimeout, heq]
  | inr hblock =>
    rw [isTimeout_eq_false_of_isBlock hblock.1, isTimeout_eq_false_of_isBlock hblock.2]

structure Older (task task' : Task) : Prop where
  id : task.id = task'.id
  fiber : task'.fiber = task.fiber
  pending : task'.status = .pending → task.status = .pending
  aborted : task'.status = .aborted → task.status = .pending ∨ task.status = .aborted
  future : task'.future = task.future ∨ task.isBlock
  rx : task'.rx = task.rx

theorem Older.refl (task : Task) : Older task task where
  id := rfl
  fiber := rfl
  pending h := h
  aborted := .inr
  future := .inl rfl
  rx := rfl

theorem Next.older (h : Next task task') : Older task task' where
  id := h.id.symm
  fiber := h.fiber
  pending hpending := by
    have hstatus := h.status
    rw [hpending] at hstatus
    generalize task.status = status at *
    cases hstatus
    rfl
  aborted haborted := by
    have hstatus := h.status
    rw [haborted] at hstatus
    generalize task.status = status at *
    cases hstatus <;> simp
  future := h.future.imp_right And.left
  rx := h.rx

theorem Older.isTimeout (h : Older task task') (htimeout : task.isTimeout = false)
    : task'.isTimeout = false := by
  cases h.future with
  | inl heq => rwa [Task.isTimeout, heq, ← Task.isTimeout]
  | inr hblock =>
    cases hrx : task.rx with
    | none =>
      unfold Task.rx at hrx
      unfold isBlock at hblock
      split at hblock
      . next heq => simp [heq] at hrx
      . contradiction
    | some rx =>
      obtain ⟨timeout, deadline, hfuture⟩ := future_of_rx (h.rx.trans hrx)
      simp [Task.isTimeout, hfuture]

end Task

namespace State

variable {s s' : State}

theorem findTask_mem {t : TaskId} {task : Task} (h : s.findTask t = some task)
    : task ∈ s.tasks ∧ task.id = t := by
  refine ⟨List.mem_of_find?_eq_some h, ?_⟩
  simpa using List.find?_some h

theorem findTask_unique (hnodup : (s.tasks.map (·.id)).Nodup) {t : TaskId} {task task' : Task}
    (h : s.findTask t = some task) (hmem : task' ∈ s.tasks) (hid : task'.id = t) : task' = task := by
  obtain ⟨hmem', hid'⟩ := findTask_mem h
  exact List.inj_on_of_nodup_map hnodup hmem hmem' (hid.trans hid'.symm)

theorem findTask_of_mem (hnodup : (s.tasks.map (·.id)).Nodup) {task : Task} (hmem : task ∈ s.tasks)
    : s.findTask task.id = some task := by
  cases hfound : s.findTask task.id with
  | none => exact absurd (List.find?_eq_none.mp hfound task hmem) (by simp)
  | some found => rw [findTask_unique hnodup hfound hmem rfl]

/-! ### The state after an operation -/

theorem findTask_complete (s : State) (t t' : TaskId) (result : Result Value)
    : (s.complete t result).findTask t'
        =
      (s.findTask t').map fun task =>
        if task.id = t then { task with status := .ready result } else task := by
  have hid : (fun task : Task => decide (task.id = t')) ∘ (fun task =>
      if task.id = t then { task with status := .ready result } else task)
        = fun task => decide (task.id = t') := by
    funext task
    simp only [Function.comp_apply]
    split <;> rfl
  simp only [findTask, complete, setTaskStatus, modifyTasks, GcCell.modify, tasks, List.find?_map, hid]

@[simp]
theorem status_transfer (s : State) (f : FiberId) (sus : Suspension) (g : FiberId) (payload : Payload)
    : (s.transfer f sus g payload).status = Function.update s.status f (.suspended sus) := rfl

@[simp]
theorem status_yield (s : State) (f : FiberId) (t : TaskId)
    : (s.yield f t).status = Function.update s.status f (.suspended (.spawnAndTransfer t)) := rfl

@[simp]
theorem status_switchTo (s : State) (f : FiberId)
    : (s.switchTo f).status = Function.update s.status f .running := rfl

@[simp]
theorem status_terminate (s : State) (f : FiberId) (result : Result Value)
    : (s.terminate f result).status = Function.update s.status f .terminated := rfl

@[simp]
theorem tasks_dropRx (s : State) (ch : ChanId) : (s.dropRx ch).tasks = s.tasks := by
  rw [dropRx_eq]

@[simp]
theorem tasks_dropFuture (s : State) (future : Future) : (s.dropFuture future).tasks = s.tasks := by
  rw [dropFuture_eq]

theorem tasks_registerBlock (s : State) (f : FiberId) : (s.registerBlock f).tasks = s.tasks := by
  rw [registerBlock, insertBlocker, dropTx_eq]
  rfl

theorem tasks_endBlock (s : State) (t : TaskId) (result : Result Value)
    : (s.endBlock t result).tasks = (s.complete t result).tasks := by
  rw [endBlock, dropTx_eq]
  rfl

theorem tasks_complete_congr (h : s'.tasks = s.tasks) {t : TaskId} {result : Result Value}
    : (s'.complete t result).tasks = (s.complete t result).tasks := by
  simp only [tasks] at h
  simp only [complete, setTaskStatus, modifyTasks, GcCell.modify, tasks, h]

theorem tasks_panicTask (s : State) (t : TaskId) (future : Future)
    : (s.panicTask t future).tasks = (s.setTaskStatus t .joinError).tasks := by
  rw [panicTask, dropFuture_eq]
  rfl

theorem nextTask_dropFuture (s : State) (future : Future)
    : (s.dropFuture future).nextTask = s.nextTask := by
  rw [dropFuture_eq]

theorem nextTask_dropTx (s : State) (ch : Option ChanId)
    : (s.dropTx ch).nextTask = s.nextTask := by
  rw [dropTx_eq]

theorem runtime_registerBlock (s : State) (f : FiberId)
    : (s.registerBlock f).runtime = s.runtime := by
  rw [registerBlock, insertBlocker, dropTx_eq]
  rfl

theorem blockers_dropRx (s : State) (ch : ChanId) : (s.dropRx ch).blockers = s.blockers := by
  rw [dropRx_eq]

theorem blockers_dropFuture (s : State) (future : Future)
    : (s.dropFuture future).blockers = s.blockers := by
  rw [dropFuture_eq]

theorem blockers_addTask (s : State) (f : FiberId) (future : Future)
    : (s.addTask f future).blockers = s.blockers := by
  unfold addTask
  dsimp only
  split
  . rfl
  . apply blockers_dropFuture

theorem blockers_endBlock (s : State) (t : TaskId) (result : Result Value)
    : (s.endBlock t result).blockers = s.blockers.modify (AList.erase rootFiber) :=
  dropTx_blockers _ _

theorem blockers_registerBlock (s : State) (f : FiberId)
    : (s.registerBlock f).blockers = s.blockers.modify (AList.insert f s.nextChan) := rfl

theorem dropRx_eq_self {ch : ChanId} (h : s.chans ch ≠ .unsent) : s.dropRx ch = s := if_neg h

theorem dropFuture_eq_self {task : Task} (h : ∀ ch, task.rx = some ch → s.chans ch ≠ .unsent)
    : s.dropFuture task.future = s := by
  unfold dropFuture
  split
  . next rx _ _ hfuture => exact dropRx_eq_self (h rx (by simp [Task.rx, hfuture]))
  . rfl

theorem lookup_removeBlocker (s : State) (f g : FiberId) (rx : ChanId)
    : (s.removeBlocker f).blockers.value.lookup g = some rx ↔
      s.blockers.value.lookup g = some rx ∧ g ≠ f := by
  simp only [removeBlocker, GcCell.modify]
  by_cases heq : g = f
  . subst heq
    simp
  . simp [AList.lookup_erase_ne heq, heq]

theorem removeBlocker_eq_self {f : FiberId} (h : s.blockers.value.lookup f = none)
    : s.removeBlocker f = s := by
  have herase : s.blockers.value.erase f = s.blockers.value := by
    apply AList.ext
    exact List.kerase_of_notMem_keys (AList.lookup_eq_none.mp h)
  simp only [removeBlocker, GcCell.modify, herase]

theorem endBlock_eq_complete {t : TaskId} {result : Result Value}
    (h : s.blockers.value.lookup rootFiber = none) : s.endBlock t result = s.complete t result := by
  rw [endBlock, h, removeBlocker_eq_self h]
  rfl

theorem registerBlock_eq_of_lookup {f : FiberId} (h : s.blockers.value.lookup f = none)
    : s.registerBlock f
        =
      { s.setChan s.nextChan .unsent with
        nextChan := s.nextChan + 1
        blockers := s.blockers.modify (AList.insert f s.nextChan) } := by
  have hlookup : ({ s.setChan s.nextChan .unsent with
      nextChan := s.nextChan + 1 } : State).blockers.value.lookup f = none := h
  simp only [registerBlock, insertBlocker, hlookup]
  rfl

theorem chans_dropRx (s : State) (ch : ChanId)
    : (s.dropRx ch).chans
        =
      if s.chans ch = .unsent then Function.update s.chans ch .rxDropped else s.chans := by
  unfold dropRx
  split <;> rfl

theorem chans_addTask (s : State) (f : FiberId) (future : Future)
    : (s.addTask f future).chans = if s.runtime then s.chans else (s.dropFuture future).chans := by
  cases hruntime : s.runtime with
  | true => simp [addTask, modifyTasks, hruntime]
  | false =>
    simp only [addTask, modifyTasks, hruntime, dropFuture]
    cases future with
    | block rx timeout deadline => exact (chans_dropRx _ rx).trans (chans_dropRx s rx).symm
    | _ => rfl

theorem chans_addTask_of_rx {f : FiberId} {future : Future} (h : (s.newTask f future).rx = none)
    : (s.addTask f future).chans = s.chans := by
  have hdrop : s.dropFuture future = s :=
    @dropFuture_eq_self s (s.newTask f future) (by simp [h])
  rw [chans_addTask, hdrop, ite_self]

theorem nextChan_addTask (s : State) (f : FiberId) (future : Future)
    : (s.addTask f future).nextChan = s.nextChan := by
  unfold addTask
  dsimp only
  split
  . rfl
  . rw [dropFuture_eq]
    rfl

/-! ### Steps that leave the fibers alone -/

structure Stays (s s' : State) : Prop where
  thread : SameThread s s'
  nextTask : s'.nextTask = s.nextTask
  tasks : List.Forall₂ Task.Next s.tasks s'.tasks

namespace Stays

theorem of_tasks_eq (hthread : SameThread s s') (hnext : s'.nextTask = s.nextTask)
    (htasks : s'.tasks = s.tasks) : Stays s s' where
  thread := hthread
  nextTask := hnext
  tasks := by
    rw [htasks, List.forall₂_same]
    intro task _
    exact .refl task

theorem map {g : Task → Task} (hthread : SameThread s s') (hnext : s'.nextTask = s.nextTask)
    (htasks : s'.tasks = s.tasks.map g) (hg : ∀ task ∈ s.tasks, task.Next (g task))
    : Stays s s' where
  thread := hthread
  nextTask := hnext
  tasks := by
    rw [htasks, List.forall₂_map_right_iff, List.forall₂_same]
    exact hg

theorem update {t : TaskId} {task : Task} {g : Task → Task}
    (hnodup : (s.tasks.map (·.id)).Nodup) (hfind : s.findTask t = some task)
    (hg : task.Next (g task)) (hthread : SameThread s s') (hnext : s'.nextTask = s.nextTask)
    (htasks : s'.tasks = s.tasks.map fun task => if task.id = t then g task else task)
    : Stays s s' := by
  apply map hthread hnext htasks
  intro task' hmem
  split
  . next hid => exact findTask_unique hnodup hfind hmem hid ▸ hg
  . exact .refl task'

theorem old (h : Stays s s') {task' : Task} (hmem : task' ∈ s'.tasks)
    : ∃ task ∈ s.tasks, task.Next task' := by
  obtain ⟨i, hi, rfl⟩ := List.mem_iff_getElem.mp hmem
  have hlen := h.tasks.length_eq
  exact ⟨s.tasks[i], List.getElem_mem _, h.tasks.get (by omega) hi⟩

theorem new (h : Stays s s') {task : Task} (hmem : task ∈ s.tasks)
    : ∃ task' ∈ s'.tasks, task.Next task' := by
  obtain ⟨i, hi, rfl⟩ := List.mem_iff_getElem.mp hmem
  have hlen := h.tasks.length_eq
  exact ⟨s'.tasks[i], List.getElem_mem _, h.tasks.get hi (by omega)⟩

theorem ids (h : Stays s s') : s'.tasks.map (·.id) = s.tasks.map (·.id) := by
  symm
  rw [← List.forall₂_eq_eq_eq, List.forall₂_map_left_iff, List.forall₂_map_right_iff]
  exact h.tasks.imp fun _ _ hnext => hnext.id.symm

end Stays

theorem map_setFuture_complete (s : State) (t : TaskId) (future : Future) (result : Result Value)
    : ((s.setFuture t future).complete t result).tasks
        =
      s.tasks.map fun task =>
        if task.id = t then { task with future, status := .ready result } else task := by
  simp only [setFuture, complete, setTaskStatus, modifyTasks, GcCell.modify, tasks, List.map_map]
  apply List.map_congr_left
  intro task _
  by_cases hid : task.id = t <;> simp [hid]

theorem Still.stays {e : Event} (hnodup : (s.tasks.map (·.id)).Nodup) (h : Still s e s')
    : Stays s s' := by
  have hthread := h.thread
  cases h with
  | quiet | spawnFails | unblockRejected | unblockOther | pollPending | unblockNone | unblockLost
  | unblockSent =>
    exact .of_tasks_eq hthread rfl rfl
  | @blockFails f timeout =>
    apply Stays.of_tasks_eq hthread
    . rw [← nextTask_registerBlock s f]
      exact nextTask_dropFuture _ (.block s.nextChan timeout none)
    . rw [tasks_dropRx, tasks_registerBlock]
  | @pollReady t env task result _ hfind hstatus _ htimeout =>
    refine .update (g := fun task => { task with status := .ready result }) hnodup hfind ?_
      hthread rfl rfl
    exact ⟨rfl, rfl, .inl rfl, rfl, hstatus ▸ .ready htimeout⟩
  | @pollBlockReady t env task rx timeout deadline deadline' result _ hfind hstatus hfuture =>
    refine .update (g := fun task =>
        { task with future := .block rx timeout deadline', status := .ready result })
      hnodup hfind (.blockReady hfuture hstatus result) hthread ?_ ?_
    . exact nextTask_dropTx _ _
    . rw [tasks_endBlock, map_setFuture_complete]
  | @pollBlockTimeout t env task rx timeout deadline deadline' result _ hfind hstatus hfuture =>
    refine .update (g := fun task =>
        { task with future := .block rx timeout deadline', status := .ready result })
      hnodup hfind (.blockReady hfuture hstatus result) hthread ?_ ?_
    . exact (nextTask_dropTx _ _).trans
        (nextTask_dropFuture (s.setFuture t _) (.block rx timeout deadline'))
    . rw [tasks_endBlock, tasks_complete_congr (tasks_dropRx _ _), map_setFuture_complete]
  | @pollBlockPending t env task rx timeout deadline deadline' _ hfind hstatus hfuture =>
    refine .update (g := fun task => { task with future := .block rx timeout deadline' })
      hnodup hfind ?_ hthread rfl rfl
    have hblock : task.isBlock := by simp [Task.isBlock, hfuture]
    have hrx : task.rx = some rx := by simp [Task.rx, hfuture]
    exact ⟨rfl, rfl, .inr ⟨hblock, rfl⟩, hrx.symm, .same⟩
  | @pollPanic t env task _ hfind hstatus =>
    refine .update (g := fun task => { task with status := .joinError }) hnodup hfind ?_
      hthread (nextTask_dropFuture _ _) (tasks_panicTask _ _ _)
    refine ⟨rfl, rfl, .inl rfl, rfl, ?_⟩
    cases hstatus with
    | inl hstatus => exact hstatus ▸ .cancelled
    | inr hstatus => exact hstatus.1 ▸ .panicked
  | interrupt =>
    refine .map hthread rfl rfl ?_
    intro task _
    split
    . next hstatus => exact ⟨rfl, rfl, .inl rfl, rfl, hstatus ▸ .aborted⟩
    . exact .refl task

/-! ### Steps that spawn a task -/

structure Spawned (s : State) (f : FiberId) (future : Future) (s' : State) : Prop where
  thread : SameThread s s'
  nextTask : s'.nextTask = s.nextTask + 1
  tasks : s'.tasks = s.tasks ++ [s.newTask f future]

theorem Spawned.addTask (s : State) (f : FiberId) (future : Future)
    : Spawned s f future (s.addTask f future) where
  thread := .addTask s f future
  nextTask := by
    unfold State.addTask
    dsimp only
    split
    . rfl
    . exact nextTask_dropFuture _ future
  tasks := by
    unfold State.addTask
    dsimp only
    split
    . rfl
    . exact tasks_dropFuture _ future

theorem Spawned.block (s : State) (f : FiberId) (timeout : Option Duration)
    : Spawned s f (.block s.nextChan timeout none)
        ((s.registerBlock f).addTask f (.block s.nextChan timeout none)) where
  thread := (SameThread.registerBlock s f).trans (.addTask _ _ _)
  nextTask := by
    rw [(Spawned.addTask _ _ _).nextTask, nextTask_registerBlock]
  tasks := by
    rw [(Spawned.addTask _ _ _).tasks, tasks_registerBlock]
    simp only [newTask, nextTask_registerBlock, runtime_registerBlock]

theorem hook_isTimeout (s : State) (f : FiberId) (hook : Hook)
    : (s.newTask f (hook.future s.now)).isTimeout = false := by
  obtain ⟨-, htimeout⟩ := hook.future_ne s.now
  unfold Task.isTimeout
  split
  . next timeoutAt g hfuture => exact absurd hfuture (htimeout timeoutAt g)
  . rfl

theorem future_ne_timeout {f : FiberId} {future : Future} (h : (s.newTask f future).isTimeout = false)
    : ∀ timeoutAt g, future = .timeout timeoutAt g → g = f := by
  intro timeoutAt g hfuture
  simp [Task.isTimeout, newTask, hfuture] at h

theorem hook_rx (s : State) (f : FiberId) (hook : Hook)
    : (s.newTask f (hook.future s.now)).rx = none := by
  obtain ⟨hblock, -⟩ := hook.future_ne s.now
  unfold Task.rx
  split
  . next rx timeout deadline hfuture => exact absurd hfuture (hblock rx timeout deadline)
  . rfl

/-! ### The tasks of any step -/

theorem older_setTaskStatus {t : TaskId} {status : TaskStatus} {task' : Task}
    (hpending : status ≠ .pending) (haborted : status ≠ .aborted)
    (hmem : task' ∈ (s.setTaskStatus t status).tasks) : ∃ task ∈ s.tasks, task.Older task' := by
  obtain ⟨task, htask, rfl⟩ := List.mem_map.mp hmem
  refine ⟨task, htask, ?_⟩
  split
  . exact ⟨rfl, rfl, fun h => absurd h hpending, fun h => absurd h haborted, .inl rfl, rfl⟩
  . exact .refl task

theorem Spawned.older {f : FiberId} {future : Future} (h : Spawned s f future s') {task' : Task}
    (hmem : task' ∈ s'.tasks)
    : (∃ task ∈ s.tasks, task.Older task') ∨ task' = s.newTask f future := by
  rw [h.tasks, List.mem_append, List.mem_singleton] at hmem
  exact hmem.imp_left fun hold => ⟨task', hold, .refl task'⟩

theorem Effect.older (hnodup : (s.tasks.map (·.id)).Nodup) {e : Event} (h : Effect s e s')
    {task' : Task} (hmem : task' ∈ s'.tasks)
    : (∃ task ∈ s.tasks, task.Older task') ∨ ∃ f future, task' = s.newTask f future := by
  have hsame (hold : task' ∈ s.tasks) : ∃ task ∈ s.tasks, task.Older task' :=
    ⟨task', hold, .refl task'⟩
  cases h with
  | still hstill =>
    obtain ⟨task, htask, hnext⟩ := (hstill.stays hnodup).old hmem
    exact .inl ⟨task, htask, hnext.older⟩
  | switchHook | switchFiber | switchBack | switchLoop | fiber | endTimeout | finishDies
  | finishBack => exact .inl (hsame hmem)
  | switchTimeout =>
    exact .inl (older_setTaskStatus (s := s.switchTo rootFiber) (by simp) (by simp) hmem)
  | pollRaise => exact .inl (older_setTaskStatus (by simp) (by simp) hmem)
  | hook | hookRoot | timeoutAfter =>
    exact ((Spawned.addTask s _ _).older hmem).imp_right fun h => ⟨_, _, h⟩
  | block | blockRoot => exact ((Spawned.block s _ _).older hmem).imp_right fun h => ⟨_, _, h⟩
  | joinResume | joinDrop => exact .inl (hsame (List.mem_of_mem_filter hmem))

/-! ### The suspended fibers of any step -/

def Completing (s : State) (e : Event) (t : TaskId) : Prop :=
  (∃ env, e = .poll t env) ∨ e = .switch ∧ s.status rootFiber = .suspended (.timeoutRaise t)

theorem mem_map_ite {tasks : List Task} {t : TaskId} {g : Task → Task} {task' : Task}
    (hmem : task' ∈ tasks.map fun task => if task.id = t then g task else task)
    (hid : ∀ task, (g task).id = task.id) : task' ∈ tasks ∨ task'.id = t := by
  obtain ⟨task, htask, rfl⟩ := List.mem_map.mp hmem
  split
  . next h => exact .inr ((hid task).trans h)
  . exact .inl htask

theorem Still.ready {e : Event} (h : Still s e s') {task' : Task} (hmem : task' ∈ s'.tasks)
    {result : Result Value} (hready : task'.status = .ready result)
    : task' ∈ s.tasks ∨ Completing s e task'.id := by
  have hpoll {t : TaskId} {env : PollEnv} (h : task' ∈ s.tasks ∨ task'.id = t)
      : task' ∈ s.tasks ∨ Completing s (.poll t env) task'.id :=
    h.imp_right fun hid => .inl ⟨env, by rw [hid]⟩
  cases h with
  | quiet | spawnFails | unblockRejected | unblockOther | pollPending | unblockNone | unblockLost
  | unblockSent =>
    exact .inl hmem
  | blockFails =>
    rw [tasks_dropRx, tasks_registerBlock] at hmem
    exact .inl hmem
  | pollReady => exact hpoll (mem_map_ite hmem fun _ => rfl)
  | pollBlockReady =>
    rw [tasks_endBlock, map_setFuture_complete] at hmem
    exact hpoll (mem_map_ite hmem fun _ => rfl)
  | @pollBlockTimeout t env task rx timeout deadline deadline' =>
    rw [tasks_endBlock, tasks_complete_congr (tasks_dropRx _ _), map_setFuture_complete] at hmem
    exact hpoll (mem_map_ite hmem fun _ => rfl)
  | pollBlockPending => exact hpoll (mem_map_ite hmem fun _ => rfl)
  | pollPanic =>
    rw [tasks_panicTask] at hmem
    exact hpoll (mem_map_ite hmem fun _ => rfl)
  | interrupt =>
    obtain ⟨task, htask, rfl⟩ := List.mem_map.mp hmem
    split at hready
    . contradiction
    . next hstatus => exact .inl (by rwa [if_neg hstatus])

theorem Effect.ready {e : Event} (h : Effect s e s') {task' : Task} (hmem : task' ∈ s'.tasks)
    {result : Result Value} (hready : task'.status = .ready result)
    : task' ∈ s.tasks ∨ Completing s e task'.id := by
  have hspawned {f : FiberId} {future : Future} {s₁ : State} (h : Spawned s f future s₁)
      (hmem : task' ∈ s₁.tasks) : task' ∈ s.tasks := by
    rw [h.tasks, List.mem_append, List.mem_singleton] at hmem
    cases hmem with
    | inl hold => exact hold
    | inr hnew =>
      simp only [hnew, newTask] at hready
      split at hready <;> contradiction
  cases h with
  | still hstill => exact hstill.ready hmem hready
  | switchHook | switchFiber | switchBack | switchLoop | fiber | endTimeout | finishDies
  | finishBack => exact .inl hmem
  | switchTimeout _ hstatus =>
    refine (mem_map_ite hmem fun _ => rfl).imp_right fun hid => .inr ⟨rfl, ?_⟩
    rw [hid, hstatus]
  | @pollRaise t env =>
    exact (mem_map_ite hmem fun _ => rfl).imp_right fun hid => .inl ⟨env, by rw [hid]⟩
  | hook | hookRoot | timeoutAfter => exact .inl (hspawned (.addTask s _ _) hmem)
  | block | blockRoot => exact .inl (hspawned (.block s _ _) hmem)
  | joinResume | joinDrop => exact .inl (List.mem_of_mem_filter hmem)

theorem Effect.control_transfer {e : Event} (h : Effect s e s') {f : FiberId} {payload : Payload}
    (hcontrol : s'.control = .transfer f payload)
    : s.control = .transfer f payload ∨ (∃ g, payload.origin = .fiber g) ∨
        (∃ task ∈ s.tasks, payload.origin = .task task.id ∧ task.status = .ready payload.result ∧
          task.fiber ≠ rootFiber ∧ s.isAlive task.fiber ∧
            ∀ tag, payload.result ≠ .error (.jump tag)) ∨
        ∃ task ∈ s.tasks, payload.origin = .timeout task.id ∧ task.isTimeout ∧
          task.status = .pending := by
  cases h with
  | still hstill => exact .inl (hstill.thread.control ▸ hcontrol)
  | hookRoot | timeoutAfter => exact .inl ((Spawned.addTask s _ _).thread.control ▸ hcontrol)
  | blockRoot => exact .inl ((Spawned.block s _ _).thread.control ▸ hcontrol)
  | endTimeout | joinDrop => exact .inl hcontrol
  | switchHook | switchFiber | switchLoop | switchTimeout | fiber =>
    simp [switchTo, complete, setTaskStatus, modifyTasks, fiberImpl] at hcontrol
  | switchBack | finishDies | finishBack | hook | block =>
    injection hcontrol with _ hpayload
    exact .inr (.inl ⟨_, congrArg Payload.origin hpayload.symm⟩)
  | joinResume _ hfind hstatus hjump hne hsuspended =>
    injection hcontrol with _ hpayload
    obtain ⟨hmem, rfl⟩ := findTask_mem hfind
    obtain ⟨sus, hsus⟩ := hsuspended
    exact .inr (.inr (.inl ⟨_, hmem, hpayload ▸ rfl, hpayload ▸ hstatus, hne, by simp [isAlive, hsus],
      hpayload ▸ hjump⟩))
  | pollRaise _ hfind hstatus hfuture =>
    injection hcontrol with _ hpayload
    obtain ⟨hmem, rfl⟩ := findTask_mem hfind
    exact .inr (.inr (.inr ⟨_, hmem, hpayload ▸ rfl, by simp [Task.isTimeout, hfuture], hstatus⟩))

theorem Effect.suspended (hwf : Wf s) {e : Event} (h : Effect s e s') {f : FiberId}
    {sus : Suspension} (hsus : s.status f = .suspended sus)
    : s'.status f = .suspended sus ∨ e = .switch ∧ ∃ payload, s.control = .transfer f payload := by
  have hupdate {g : FiberId} {status : FiberStatus} (hg : s.control = .running g)
      : Function.update s.status g status f = .suspended sus := by
    have hne : f ≠ g := by
      rintro rfl
      rw [(hwf.running f).mpr hg] at hsus
      contradiction
    rw [Function.update_of_ne hne, hsus]
  have harrive {g : FiberId} {status : FiberStatus} {payload : Payload}
      (hg : s.control = .transfer g payload)
      : Function.update s.status g status f = .suspended sus ∨
        Event.switch = .switch ∧ ∃ payload, s.control = .transfer f payload := by
    by_cases hne : f = g
    . exact .inr ⟨rfl, payload, hne ▸ hg⟩
    . rw [Function.update_of_ne hne]
      exact .inl hsus
  cases h with
  | still hstill => exact .inl (hstill.thread.status ▸ hsus)
  | switchHook hcontrol | switchFiber hcontrol | switchBack hcontrol | switchLoop hcontrol
  | switchTimeout hcontrol => exact harrive hcontrol
  | fiber hf =>
    have hne : f ≠ s.nextFiber := by
      rintro rfl
      rw [hwf.unborn s.nextFiber (Nat.le_refl _)] at hsus
      contradiction
    left
    simp only [State.fiberImpl, setStatus]
    rw [Function.update_of_ne hne]
    exact hupdate (Wf.rubyFiber_running hf)
  | hook hf =>
    left
    rw [status_yield, (Spawned.addTask s _ _).thread.status]
    exact hupdate (Wf.rubyFiber_running hf)
  | block hf =>
    left
    rw [status_yield, (Spawned.block s _ _).thread.status]
    exact hupdate (Wf.rubyFiber_running hf)
  | hookRoot => exact .inl ((Spawned.addTask s _ _).thread.status ▸ hsus)
  | blockRoot => exact .inl ((Spawned.block s _ _).thread.status ▸ hsus)
  | @timeoutAfter g duration =>
    left
    change (s.addTask g (.timeout (s.now + duration) g)).status f = _
    rw [(Spawned.addTask s g _).thread.status, hsus]
  | endTimeout | joinDrop => exact .inl hsus
  | finishDies hf | finishBack hf => exact .inl (hupdate (Wf.rubyFiber_running hf))
  | pollRaise hloop | joinResume hloop => exact .inl (hupdate hloop.2)

/-! ### The invariant -/

/--
Tasks, hook calls and `timeout_after` blocks have numbers of their own, and belong to one fiber.
-/
structure Owned (s : State) : Prop where
  nodup : (s.tasks.map (·.id)).Nodup
  lt : ∀ task ∈ s.tasks, task.id < s.nextTask
  born : ∀ task ∈ s.tasks, task.fiber < s.nextFiber
  timer : ∀ task ∈ s.tasks, ∀ timeoutAt f, task.future = .timeout timeoutAt f → f = task.fiber
  hook : ∀ f t, s.status f = .suspended (.spawnAndTransfer t) → t < s.nextTask ∧
    ∀ task ∈ s.tasks, task.id = t → task.fiber = f ∧ task.isTimeout = false
  timeouts : ∀ f, ∀ t ∈ s.timeouts f, t < s.nextTask
  ended : ∀ t ∈ s.endedTimeouts, t < s.nextTask
  raising : ∀ t, s.status rootFiber = .suspended (.timeoutRaise t) → t < s.nextTask ∧
    ∀ task ∈ s.tasks, task.id = t → task.isTimeout ∧ task.status = .polling

namespace Owned

theorem new : Owned .new where
  nodup := .nil
  lt := by simp [State.new, tasks]
  born := by simp [State.new, tasks]
  timer := by simp [State.new, tasks]
  hook f t h := by
    by_cases hf : f = rootFiber
    . simp [State.new, hf] at h
    . simp [State.new, Function.update_of_ne hf] at h
  timeouts := by simp [State.new]
  ended := by simp [State.new]
  raising := by simp [State.new, tasks]

theorem keep (h : Owned s) (hnodup : (s'.tasks.map (·.id)).Nodup) (hnext : s'.nextTask = s.nextTask)
    (hfiber : s.nextFiber ≤ s'.nextFiber)
    (htasks : ∀ task' ∈ s'.tasks, ∃ task ∈ s.tasks, task.id = task'.id ∧ task.fiber = task'.fiber ∧
      (task'.future = task.future ∨ task.isBlock ∧ task'.isBlock))
    (hhook : ∀ f t, s'.status f = .suspended (.spawnAndTransfer t) →
      s.status f = .suspended (.spawnAndTransfer t))
    (htimeouts : ∀ f, ∀ t ∈ s'.timeouts f, t ∈ s.timeouts f)
    (hended : ∀ t ∈ s'.endedTimeouts, t ∈ s.endedTimeouts ∨ ∃ f, t ∈ s.timeouts f)
    (hraising : ∀ t, s'.status rootFiber = .suspended (.timeoutRaise t) → t < s'.nextTask ∧
      ∀ task ∈ s'.tasks, task.id = t → task.isTimeout ∧ task.status = .polling) : Owned s' where
  nodup := hnodup
  lt task' hmem := by
    obtain ⟨task, hmem, hid, -⟩ := htasks task' hmem
    rw [← hid, hnext]
    exact h.lt task hmem
  born task' hmem := by
    obtain ⟨task, hmem, -, hf, -⟩ := htasks task' hmem
    rw [← hf]
    exact Nat.lt_of_lt_of_le (h.born task hmem) hfiber
  timer task' hmem timeoutAt f hfuture := by
    obtain ⟨task, hmem, -, hf, hsame⟩ := htasks task' hmem
    rw [← hf]
    cases hsame with
    | inl hsame => exact h.timer task hmem timeoutAt f (hsame ▸ hfuture)
    | inr hblock => simp [Task.isBlock, hfuture] at hblock
  hook f t hstatus := by
    obtain ⟨hlt, howner⟩ := h.hook f t (hhook f t hstatus)
    refine ⟨hnext ▸ hlt, ?_⟩
    intro task' hmem hid
    obtain ⟨task, hmem, hid', hf, hsame⟩ := htasks task' hmem
    obtain ⟨hfiber, htimeout⟩ := howner task hmem (hid'.trans hid)
    refine ⟨hf ▸ hfiber, ?_⟩
    cases hsame with
    | inl hsame => simpa only [Task.isTimeout, hsame] using htimeout
    | inr hblock => exact Task.isTimeout_eq_false_of_isBlock hblock.2
  timeouts f t hmem := hnext ▸ h.timeouts f t (htimeouts f t hmem)
  ended t hmem := by
    rw [hnext]
    cases hended t hmem with
    | inl hmem => exact h.ended t hmem
    | inr hmem => exact h.timeouts _ t hmem.choose_spec
  raising := hraising

theorem stays (h : Owned s) (hstays : Stays s s') : Owned s' := by
  have hthread := hstays.thread
  apply h.keep
  . exact hstays.ids ▸ h.nodup
  . exact hstays.nextTask
  . rw [hthread.nextFiber]
  . intro task' hmem
    obtain ⟨task, hmem, hnext⟩ := hstays.old hmem
    exact ⟨task, hmem, hnext.id.symm, hnext.fiber.symm, hnext.future⟩
  . intro f t hstatus
    rw [← hthread.status]
    exact hstatus
  . rw [hthread.timeouts]
    exact fun _ _ hmem => hmem
  . rw [hthread.endedTimeouts]
    exact fun _ hmem => .inl hmem
  . intro t hstatus
    rw [hthread.status] at hstatus
    obtain ⟨hlt, hraising⟩ := h.raising t hstatus
    refine ⟨hstays.nextTask ▸ hlt, ?_⟩
    intro task' hmem hid
    obtain ⟨task, hmem, hnext⟩ := hstays.old hmem
    obtain ⟨htimeout, hpolling⟩ := hraising task hmem (hnext.id ▸ hid)
    refine ⟨hnext.isTimeout ▸ htimeout, ?_⟩
    have hmove := hnext.status
    rw [hpolling] at hmove
    exact hmove.eq_of_polling

theorem thread (h : Owned s) (hsub : s'.tasks.Sublist s.tasks) (hnext : s'.nextTask = s.nextTask)
    (hfiber : s.nextFiber ≤ s'.nextFiber)
    (hhook : ∀ f t, s'.status f = .suspended (.spawnAndTransfer t) →
      s.status f = .suspended (.spawnAndTransfer t))
    (htimeouts : ∀ f, ∀ t ∈ s'.timeouts f, t ∈ s.timeouts f)
    (hended : ∀ t ∈ s'.endedTimeouts, t ∈ s.endedTimeouts ∨ ∃ f, t ∈ s.timeouts f)
    (hraising : ∀ t, s'.status rootFiber = .suspended (.timeoutRaise t) →
      s.status rootFiber = .suspended (.timeoutRaise t)) : Owned s' := by
  apply h.keep (h.nodup.sublist (hsub.map _)) hnext hfiber ?_ hhook htimeouts hended
  . intro t hstatus
    obtain ⟨hlt, hraising⟩ := h.raising t (hraising t hstatus)
    exact ⟨hnext ▸ hlt, fun task hmem => hraising task (hsub.subset hmem)⟩
  . intro task hmem
    exact ⟨task, hsub.subset hmem, rfl, rfl, .inl rfl⟩

theorem spawned (h : Owned s) {f : FiberId} {future : Future} (hspawn : Spawned s f future s')
    (hborn : f < s.nextFiber) (htimer : ∀ timeoutAt g, future = .timeout timeoutAt g → g = f)
    : Owned s' := by
  have hthread := hspawn.thread
  have hmem (task : Task) : task ∈ s'.tasks ↔ task ∈ s.tasks ∨ task = s.newTask f future := by
    rw [hspawn.tasks, List.mem_append, List.mem_singleton]
  have hle : s.nextTask ≤ s'.nextTask := hspawn.nextTask ▸ Nat.le_succ _
  constructor
  case nodup =>
    rw [hspawn.tasks]
    apply nodup_map_append_singleton h.nodup
    exact fun task htask => Nat.ne_of_lt (h.lt task htask)
  case lt =>
    intro task htask
    cases (hmem task).mp htask with
    | inl hold => exact Nat.lt_of_lt_of_le (h.lt task hold) hle
    | inr hnew =>
      rw [hnew, hspawn.nextTask]
      exact Nat.lt_succ_self _
  case born =>
    intro task htask
    rw [hthread.nextFiber]
    cases (hmem task).mp htask with
    | inl hold => exact h.born task hold
    | inr hnew =>
      rw [hnew]
      exact hborn
  case timer =>
    intro task htask timeoutAt g hfuture
    cases (hmem task).mp htask with
    | inl hold => exact h.timer task hold timeoutAt g hfuture
    | inr hnew =>
      rw [hnew] at hfuture ⊢
      exact htimer timeoutAt g hfuture
  case hook =>
    intro k t hstatus
    rw [hthread.status] at hstatus
    obtain ⟨hlt, howner⟩ := h.hook k t hstatus
    refine ⟨Nat.lt_of_lt_of_le hlt hle, ?_⟩
    intro task htask hid
    cases (hmem task).mp htask with
    | inl hold => exact howner task hold hid
    | inr hnew =>
      rw [hnew] at hid
      exact absurd hid (Nat.ne_of_gt hlt)
  case timeouts =>
    intro k t ht
    rw [hthread.timeouts] at ht
    exact Nat.lt_of_lt_of_le (h.timeouts k t ht) hle
  case ended =>
    intro t ht
    rw [hthread.endedTimeouts] at ht
    exact Nat.lt_of_lt_of_le (h.ended t ht) hle
  case raising =>
    intro t hstatus
    rw [hthread.status] at hstatus
    obtain ⟨hlt, hraising⟩ := h.raising t hstatus
    refine ⟨Nat.lt_of_lt_of_le hlt hle, ?_⟩
    intro task htask hid
    cases (hmem task).mp htask with
    | inl hold => exact hraising task hold hid
    | inr hnew =>
      rw [hnew] at hid
      exact absurd hid (Nat.ne_of_gt hlt)

theorem yield (h : Owned s) {f : FiberId} {future : Future} (hspawn : Spawned s f future s')
    (hborn : f < s.nextFiber) (hne : f ≠ rootFiber)
    (htimeout : (s.newTask f future).isTimeout = false) : Owned (s'.yield f s.nextTask) := by
  have hspawned : Owned s' := h.spawned hspawn hborn (future_ne_timeout htimeout)
  have hstatus (k : FiberId) (hk : k ≠ f) : (s'.yield f s.nextTask).status k = s'.status k :=
    Function.update_of_ne hk _ _
  constructor
  case nodup => exact hspawned.nodup
  case lt => exact hspawned.lt
  case born => exact hspawned.born
  case timer => exact hspawned.timer
  case timeouts => exact hspawned.timeouts
  case ended => exact hspawned.ended
  case raising =>
    intro t hroot
    rw [hstatus rootFiber hne.symm] at hroot
    exact hspawned.raising t hroot
  case hook =>
    intro k t hk
    by_cases hkf : k = f
    . have ht : s.nextTask = t := by simpa [hkf] using hk
      refine ⟨?_, ?_⟩
      . rw [← ht]
        exact hspawn.nextTask ▸ Nat.lt_succ_self _
      . intro task hmem hid
        change task ∈ s'.tasks at hmem
        rw [hspawn.tasks, List.mem_append, List.mem_singleton] at hmem
        cases hmem with
        | inl hold => exact absurd (hid.trans ht.symm) (Nat.ne_of_lt (h.lt task hold))
        | inr hnew =>
          rw [hnew]
          exact ⟨hkf.symm, htimeout⟩
    . rw [hstatus k hkf] at hk
      exact hspawned.hook k t hk

theorem erase_iff (s : State) : Owned s.erase ↔ Owned s := by
  constructor
  all_goals
    intro h
    exact ⟨h.nodup, h.lt, h.born, h.timer, h.hook, h.timeouts, h.ended, h.raising⟩

theorem setStatus (h : Owned s) {f : FiberId} {status : FiberStatus}
    (hsub : s'.tasks.Sublist s.tasks) (hnext : s'.nextTask = s.nextTask)
    (hfiber : s'.nextFiber = s.nextFiber) (hstatus : s'.status = Function.update s.status f status)
    (htimeouts : s'.timeouts = s.timeouts) (hended : s'.endedTimeouts = s.endedTimeouts)
    (hhook : ∀ t, status ≠ .suspended (.spawnAndTransfer t))
    (hraise : ∀ t, status ≠ .suspended (.timeoutRaise t)) : Owned s' := by
  apply h.thread hsub hnext (Nat.le_of_eq hfiber.symm)
  . intro k t hk
    rw [hstatus] at hk
    by_cases hkf : k = f
    . rw [hkf, Function.update_self] at hk
      exact absurd hk (hhook t)
    . rwa [Function.update_of_ne hkf] at hk
  . rw [htimeouts]
    exact fun _ _ hmem => hmem
  . rw [hended]
    exact fun _ hmem => .inl hmem
  . intro t hk
    rw [hstatus] at hk
    by_cases hkf : rootFiber = f
    . rw [hkf, Function.update_self] at hk
      exact absurd hk (hraise t)
    . rwa [Function.update_of_ne hkf] at hk

theorem switchTo (h : Owned s) (f : FiberId) : Owned (s.switchTo f) :=
  h.setStatus (.refl _) rfl rfl (status_switchTo s f) rfl rfl (by simp) (by simp)

theorem terminate (h : Owned s) (f : FiberId) (result : Result Value)
    : Owned (s.terminate f result) :=
  h.setStatus (.refl _) rfl rfl (status_terminate s f result) rfl rfl (by simp) (by simp)

theorem setTaskStatus (h : Owned s) (t : TaskId) (status : TaskStatus)
    (hraising : ∀ t', s.status rootFiber ≠ .suspended (.timeoutRaise t'))
    : Owned (s.setTaskStatus t status) := by
  have hids : (s.setTaskStatus t status).tasks.map (·.id) = s.tasks.map (·.id) := by
    simp only [State.setTaskStatus, modifyTasks, GcCell.modify, tasks, List.map_map]
    apply List.map_congr_left
    intro task _
    dsimp only [Function.comp]
    split <;> rfl
  apply h.keep
  . rw [hids]
    exact h.nodup
  . rfl
  . exact Nat.le_refl _
  . intro task' hmem
    obtain ⟨task, htask, rfl⟩ := List.mem_map.mp hmem
    refine ⟨task, htask, ?_⟩
    split <;> exact ⟨rfl, rfl, .inl rfl⟩
  . exact fun _ _ hstatus => hstatus
  . exact fun _ _ hmem => hmem
  . exact fun _ hmem => .inl hmem
  . intro t' hstatus
    exact absurd hstatus (hraising t')

theorem raise (h : Owned s) {t : TaskId} {task : Task} {timeoutAt : Instant} {f g : FiberId}
    {payload : Payload} (hfind : s.findTask t = some task) (hfuture : task.future = .timeout timeoutAt g)
    (hroot : s.status rootFiber = .running)
    : Owned ((s.setTaskStatus t .polling).transfer rootFiber (.timeoutRaise t) f payload) := by
  obtain ⟨htask, hid⟩ := findTask_mem hfind
  have hpolling := h.setTaskStatus t .polling (by simp [hroot])
  apply hpolling.keep
  . exact hpolling.nodup
  . rfl
  . exact Nat.le_refl _
  . intro task hmem
    exact ⟨task, hmem, rfl, rfl, .inl rfl⟩
  . intro k t' hk
    by_cases hkf : k = rootFiber
    . simp [hkf] at hk
    . rwa [status_transfer, Function.update_of_ne hkf] at hk
  . exact fun _ _ hmem => hmem
  . exact fun _ hmem => .inl hmem
  . intro t' hk
    have ht : t = t' := by simpa using hk
    refine ⟨ht ▸ hid ▸ h.lt task htask, ?_⟩
    intro task' hmem hid'
    obtain ⟨task₀, htask₀, rfl⟩ := List.mem_map.mp hmem
    rw [← ht] at hid'
    by_cases heq : task₀.id = t
    . rw [findTask_unique h.nodup hfind htask₀ heq]
      simp [Task.isTimeout, hfuture, hid]
    . simp [heq] at hid'

theorem effect (hwf : Wf s) (h : Owned s) {e : Event} (heffect : Effect s e s') : Owned s' := by
  have hborn {f : FiberId} (hf : s.rubyFiber = some f) : f < s.nextFiber :=
    hwf.lt_nextFiber (hwf.alive_of_running (Wf.rubyFiber_running hf))
  cases heffect with
  | still hstill => exact h.stays (hstill.stays h.nodup)
  | @switchHook f =>
    exact ⟨h.nodup, h.lt, h.born, h.timer, (h.switchTo f).hook, h.timeouts, h.ended,
      (h.switchTo f).raising⟩
  | switchFiber | switchLoop => apply h.switchTo
  | switchBack | finishDies => apply h.terminate
  | @switchTimeout t payload hcontrol hstatus =>
    apply (h.switchTo rootFiber).setTaskStatus
    simp
  | @fiber f hf =>
    have hsuspend : Owned (s.setStatus f (.suspended (.fiberImpl s.nextFiber))) :=
      h.setStatus (.refl _) rfl rfl rfl rfl rfl (by simp) (by simp)
    have hrun : Owned ((s.setStatus f (.suspended (.fiberImpl s.nextFiber))).setStatus s.nextFiber
        .running) :=
      hsuspend.setStatus (.refl _) rfl rfl rfl rfl rfl (by simp) (by simp)
    apply hrun.thread
    . exact .refl _
    . rfl
    . exact Nat.le_succ _
    . exact fun _ _ hk => hk
    . intro k t hk
      simp only [State.fiberImpl] at hk
      by_cases hnew : k = s.nextFiber
      . simp [hnew] at hk
      . rwa [Function.update_of_ne hnew] at hk
    . exact fun _ hmem => .inl hmem
    . exact fun _ hk => hk
  | @hook f hook hf hloop hne =>
    apply h.yield (.addTask s f _) (hborn hf) hne
    apply hook_isTimeout
  | @hookRoot hook hf =>
    apply h.spawned (.addTask s _ _) (hborn hf)
    exact future_ne_timeout (hook_isTimeout s rootFiber hook)
  | block hf hloop hne => exact h.yield (.block s _ _) (hborn hf) hne rfl
  | blockRoot hf => exact h.spawned (.block s _ _) (hborn hf) (by simp)
  | @timeoutAfter f duration hf =>
    have hspawn := Spawned.addTask s f (.timeout (s.now + duration) f)
    have hadd : Owned (s.addTask f (.timeout (s.now + duration) f)) := by
      apply h.spawned hspawn (hborn hf)
      intro timeoutAt g hfuture
      injection hfuture with _ heq
      exact heq.symm
    refine ⟨hadd.nodup, hadd.lt, hadd.born, hadd.timer, hadd.hook, ?_, hadd.ended, hadd.raising⟩
    intro k t hk
    change t < (s.addTask f (.timeout (s.now + duration) f)).nextTask
    rw [hspawn.nextTask]
    by_cases hkf : k = f
    . simp only [hkf, Function.update_self, List.mem_cons] at hk
      cases hk with
      | inl heq => exact heq ▸ Nat.lt_succ_self _
      | inr hold => exact Nat.lt_succ_of_lt (h.timeouts f t hold)
    . simp only [Function.update_of_ne hkf] at hk
      exact Nat.lt_succ_of_lt (h.timeouts k t hk)
  | @endTimeout f t ts hf htimeouts =>
    refine ⟨h.nodup, h.lt, h.born, h.timer, h.hook, ?_, ?_, h.raising⟩
    . intro k t' hk
      by_cases hkf : k = f
      . simp only [hkf, Function.update_self] at hk
        exact h.timeouts f t' (htimeouts ▸ .tail _ hk)
      . simp only [Function.update_of_ne hkf] at hk
        exact h.timeouts k t' hk
    . intro t' ht'
      cases ht' with
      | head => exact h.timeouts f t (htimeouts ▸ .head _)
      | tail _ hold => exact h.ended t' hold
  | finishBack => exact h.setStatus (.refl _) rfl rfl rfl rfl rfl (by simp) (by simp)
  | pollRaise hloop hfind _ hfuture =>
    exact h.raise hfind hfuture ((hwf.running _).mpr hloop.2)
  | joinResume =>
    exact h.setStatus List.filter_sublist rfl rfl rfl rfl rfl (by simp) (by simp)
  | joinDrop =>
    apply h.thread
    . exact List.filter_sublist
    . rfl
    . exact Nat.le_refl _
    . exact fun _ _ hk => hk
    . exact fun _ _ hmem => hmem
    . exact fun _ hmem => .inl hmem
    . exact fun _ hk => hk

theorem step (hwf : Wf s) (h : Owned s) {e : Event} (hstep : step s e = some s') : Owned s' :=
  (step_sound hwf hstep).preserves erase_iff fun _ heffect => h.effect hwf heffect

end Owned

/-! ### What a step says about tasks -/

theorem older_of_step (hwf : Wf s) (howned : Owned s) {e : Event} (hstep : State.step s e = some s')
    {task' : Task} (hmem : task' ∈ s'.tasks)
    : (∃ task ∈ s.tasks, task.Older task') ∨ ∃ f future, task' = s.newTask f future := by
  obtain ⟨s'', heffect, houtcome⟩ := (step_sound hwf hstep).outcome
  exact heffect.older howned.nodup (houtcome.tasks ▸ hmem)

theorem ready_of_step (hwf : Wf s) {e : Event} (hstep : State.step s e = some s') {task' : Task}
    (hmem : task' ∈ s'.tasks) {result : Result Value} (hready : task'.status = .ready result)
    : task' ∈ s.tasks ∨ Completing s e task'.id := by
  obtain ⟨s'', heffect, houtcome⟩ := (step_sound hwf hstep).outcome
  exact heffect.ready (houtcome.tasks ▸ hmem) hready

theorem nextTask_le_of_step (hwf : Wf s) (howned : Owned s) {e : Event}
    (hstep : State.step s e = some s') : s.nextTask ≤ s'.nextTask := by
  obtain ⟨s'', heffect, houtcome⟩ := (step_sound hwf hstep).outcome
  rw [houtcome.nextTask]
  cases heffect with
  | still hstill => exact Nat.le_of_eq (hstill.stays howned.nodup).nextTask.symm
  | hook | hookRoot | timeoutAfter => exact (Spawned.addTask s _ _).nextTask ▸ Nat.le_succ _
  | block | blockRoot => exact (Spawned.block s _ _).nextTask ▸ Nat.le_succ _
  | _ => exact Nat.le_refl _

theorem tasks_of_hook (hwf : Wf s) (howned : Owned s) {hook : Hook}
    (hstep : step s (.hook hook) = some s') (hnext : s'.nextTask ≠ s.nextTask)
    : ∃ f, s'.tasks = s.tasks ++ [s.newTask f (hook.future s.now)] := by
  obtain ⟨s'', heffect, houtcome⟩ := (step_sound hwf hstep).outcome
  rw [houtcome.nextTask] at hnext
  cases heffect with
  | still hstill => exact absurd (hstill.stays howned.nodup).nextTask hnext
  | @hook f =>
    refine ⟨f, ?_⟩
    rw [houtcome.tasks]
    exact (Spawned.addTask s f _).tasks
  | hookRoot =>
    refine ⟨rootFiber, ?_⟩
    rw [houtcome.tasks]
    exact (Spawned.addTask s rootFiber _).tasks

end State
end Shreduler
