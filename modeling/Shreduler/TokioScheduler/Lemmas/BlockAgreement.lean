import Shreduler.TokioScheduler.Lemmas.Tasks

/-!
This module proves when a call of `block` and the calls of `unblock` for its fiber agree on how the
call ended.
-/

namespace Shreduler
namespace State

variable {s s' s'' : State} {f g : FiberId} {t : TaskId} {rx : ChanId}

/-! ### The registry and its channels -/

structure Drops (s s' : State) : Prop where
  nextChan : s.nextChan ≤ s'.nextChan
  entry : ∀ f rx, s'.blockers.value.lookup f = some rx →
    s.blockers.value.lookup f = some rx ∨ s.nextChan ≤ rx ∧ rx < s'.nextChan
  chan : ∀ rx < s.nextChan, s'.chans rx = s.chans rx ∨ s.chans rx = .unsent ∧ s'.chans rx ≠ .sent

namespace Drops

theorem of_eq (hnext : s'.nextChan = s.nextChan) (hblockers : s'.blockers.value = s.blockers.value)
    (hchans : s'.chans = s.chans) : Drops s s' where
  nextChan := hnext ▸ Nat.le_refl _
  entry _ _ h := .inl (hblockers ▸ h)
  chan rx _ := .inl (congrFun hchans rx)

theorem trans (h : Drops s s') (h' : Drops s' s'') : Drops s s'' where
  nextChan := Nat.le_trans h.nextChan h'.nextChan
  entry f rx hlookup := by
    obtain hold | ⟨hle, hlt⟩ := h'.entry f rx hlookup
    . refine (h.entry f rx hold).imp_right ?_
      exact fun ⟨hle, hlt⟩ => ⟨hle, Nat.lt_of_lt_of_le hlt h'.nextChan⟩
    . exact .inr ⟨Nat.le_trans h.nextChan hle, hlt⟩
  chan rx hrx := by
    obtain heq | ⟨hunsent, hne⟩ := h.chan rx hrx
    . rw [← heq]
      exact h'.chan rx (Nat.lt_of_lt_of_le hrx h.nextChan)
    . refine .inr ⟨hunsent, ?_⟩
      obtain heq | ⟨-, hne'⟩ := h'.chan rx (Nat.lt_of_lt_of_le hrx h.nextChan)
      . rwa [heq]
      . exact hne'

theorem setFuture (s : State) (t : TaskId) (future : Future) : Drops s (s.setFuture t future) :=
  of_eq rfl rfl rfl

theorem setChan {chan : Chan} (hunsent : s.chans rx = .unsent) (hne : chan ≠ .sent)
    : Drops s (s.setChan rx chan) where
  nextChan := Nat.le_refl _
  entry f rx' h := .inl h
  chan rx' _ := by
    by_cases heq : rx' = rx
    . subst heq
      simp [State.setChan, hunsent, hne]
    . exact .inl (Function.update_of_ne heq _ _)

theorem dropRx (s : State) (rx : ChanId) : Drops s (s.dropRx rx) := by
  unfold State.dropRx
  split
  . next hunsent => exact setChan hunsent (by simp)
  . exact of_eq rfl rfl rfl

theorem dropTx (s : State) (tx : Option ChanId) : Drops s (s.dropTx tx) := by
  unfold State.dropTx
  split
  . split
    . next hunsent => exact setChan hunsent (by simp)
    . exact of_eq rfl rfl rfl
  . exact of_eq rfl rfl rfl

theorem dropFuture (s : State) (future : Future) : Drops s (s.dropFuture future) := by
  unfold State.dropFuture
  split
  . exact dropRx s _
  . exact of_eq rfl rfl rfl

theorem addTask (s : State) (f : FiberId) (future : Future) : Drops s (s.addTask f future) := by
  unfold State.addTask
  dsimp only
  split
  . exact of_eq rfl rfl rfl
  . have hdrop := dropFuture
      { s.modifyTasks fun tasks => tasks ++ [s.newTask f future] with nextTask := s.nextTask + 1 } future
    exact ⟨hdrop.nextChan, hdrop.entry, hdrop.chan⟩

theorem removeBlocker (s : State) (f : FiberId) : Drops s (s.removeBlocker f) where
  nextChan := Nat.le_refl _
  entry g rx h := .inl ((lookup_removeBlocker s f g rx).mp h).1
  chan _ _ := .inl rfl

theorem endBlock (s : State) (t : TaskId) (result : Result Value) : Drops s (s.endBlock t result) :=
  (removeBlocker s rootFiber).trans ((dropTx _ _).trans (of_eq rfl rfl rfl))

theorem registerBlock (s : State) (f : FiberId) : Drops s (s.registerBlock f) := by
  have hnew : Drops s { s.setChan s.nextChan .unsent with nextChan := s.nextChan + 1 } := by
    refine ⟨Nat.le_succ _, fun g rx h => .inl h, ?_⟩
    intro rx hrx
    exact .inl (Function.update_of_ne (Nat.ne_of_lt hrx) _ _)
  have hdropTx := dropTx { s.setChan s.nextChan .unsent with nextChan := s.nextChan + 1 }
    (s.blockers.value.lookup f)
  have hdrop := hnew.trans hdropTx
  refine ⟨hdrop.nextChan, ?_, hdrop.chan⟩
  intro g rx h
  rw [blockers_registerBlock] at h
  by_cases heq : g = f
  . subst heq
    rw [GcCell.modify, AList.lookup_insert] at h
    injection h with h
    exact .inr ⟨Nat.le_of_eq h, h ▸ hdropTx.nextChan⟩
  . rw [GcCell.modify, AList.lookup_insert_ne heq] at h
    exact .inl h

end Drops

def Sends (s : State) (e : Event) (rx : ChanId) : Prop :=
  ∃ f, e.Unblocks f ∧ s.isAlive f ∧ (e = .unblock (.fiber f) → s.rubyFiber ≠ some f) ∧
    s.blockers.value.lookup f = some rx ∧ s.chans rx = .unsent

theorem Effect.drops {e : Event} (h : Effect s e s')
    : Drops s s' ∨
        ∃ f tx, Sends s e tx ∧ s'.chans = Function.update s.chans tx .sent ∧
          s'.nextChan = s.nextChan ∧ s'.blockers = (s.removeBlocker f).blockers := by
  cases h with
  | still hstill =>
    cases hstill with
    | quiet | spawnFails | unblockRejected | unblockOther | pollPending | pollReady | interrupt
    | pollBlockPending => exact .inl (.of_eq rfl rfl rfl)
    | blockFails => exact .inl ((Drops.registerBlock s _).trans (.dropRx _ _))
    | unblockNone | unblockLost => exact .inl (.removeBlocker s _)
    | @unblockSent f e tx hevent halive hcurrent hlookup hchan =>
      exact .inr ⟨f, tx, ⟨f, hevent, halive, hcurrent, hlookup, hchan⟩, rfl, rfl, rfl⟩
    | pollBlockReady =>
      exact .inl (.trans (.setFuture s _ _) (.endBlock _ _ _))
    | pollBlockTimeout =>
      exact .inl (.trans (.setFuture s _ _) (.trans (.dropRx _ _) (.endBlock _ _ _)))
    | pollPanic => exact .inl (.trans (.dropFuture s _) (.of_eq rfl rfl rfl))
  | switchHook | switchFiber | switchBack | switchLoop | switchTimeout | fiber | endTimeout
  | finishDies | finishBack | pollRaise | joinResume | joinDrop => exact .inl (.of_eq rfl rfl rfl)
  | hook | hookRoot | timeoutAfter => exact .inl (.trans (.addTask s _ _) (.of_eq rfl rfl rfl))
  | block | blockRoot =>
    exact .inl (.trans (.registerBlock s _) (.trans (.addTask _ _ _) (.of_eq rfl rfl rfl)))

/-! ### Calls and what they get -/

theorem Effect.calls {e : Event} (h : Effect s e s') {g : FiberId}
    (hg : s'.status g = .suspended (.spawnAndTransfer t))
    : s.status g = .suspended (.spawnAndTransfer t) ∨ t = s.nextTask := by
  have hupdate {k : FiberId} {status : FiberStatus}
      (hk : Function.update s.status k status g = .suspended (.spawnAndTransfer t))
      (hne : status ≠ .suspended (.spawnAndTransfer t)) : s.status g = .suspended (.spawnAndTransfer t) := by
    by_cases heq : g = k
    . subst heq
      rw [Function.update_self] at hk
      exact absurd hk hne
    . rwa [Function.update_of_ne heq] at hk
  have hyield {k : FiberId}
      (hk : Function.update s.status k (.suspended (.spawnAndTransfer s.nextTask)) g
        = .suspended (.spawnAndTransfer t))
      : s.status g = .suspended (.spawnAndTransfer t) ∨ t = s.nextTask := by
    by_cases heq : t = s.nextTask
    . exact .inr heq
    . exact .inl (hupdate hk (by simpa [eq_comm] using heq))
  cases h with
  | still hstill => exact .inl (hstill.thread.status ▸ hg)
  | switchHook | switchFiber | switchLoop | switchTimeout => exact .inl (hupdate hg (by simp))
  | switchBack | finishDies => exact .inl (hupdate hg (by simp))
  | finishBack | pollRaise | joinResume => exact .inl (hupdate hg (by simp))
  | @fiber f hf =>
    simp only [State.fiberImpl, setStatus] at hg
    by_cases heq : g = s.nextFiber
    . simp [heq] at hg
    . rw [Function.update_of_ne heq] at hg
      exact .inl (hupdate hg (by simp))
  | hook =>
    rw [status_yield, (Spawned.addTask s _ _).thread.status] at hg
    exact hyield hg
  | block =>
    rw [status_yield, (Spawned.block s _ _).thread.status] at hg
    exact hyield hg
  | hookRoot | timeoutAfter =>
    rw [← (Spawned.addTask s _ _).thread.status]
    exact .inl hg
  | blockRoot =>
    rw [← (Spawned.block s _ _).thread.status]
    exact .inl hg
  | endTimeout | joinDrop => exact .inl hg

theorem Effect.control_task {e : Event} (h : Effect s e s') {result : Result Value}
    (hcontrol : s'.control = .transfer g ⟨result, .task t⟩)
    : s.control = .transfer g ⟨result, .task t⟩ ∨
        ∃ task ∈ s.tasks, task.id = t ∧ task.status = .ready result ∧ task.fiber ≠ rootFiber := by
  obtain hold | ⟨_, hfiber⟩ | ⟨task, hmem, htask, hready, hne, -⟩ | ⟨_, -, htimeout, -⟩ :=
    h.control_transfer hcontrol
  . exact .inl hold
  . contradiction
  . injection htask with htask
    exact .inr ⟨task, hmem, htask.symm, hready, hne⟩
  . contradiction

structure Numbered (s : State) : Prop where
  entry : ∀ f rx, s.blockers.value.lookup f = some rx → rx < s.nextChan

theorem Numbered.step (hwf : Wf s) (h : Numbered s) {e : Event} (hstep : step s e = some s')
    : Numbered s' := by
  obtain ⟨s'', heffect, houtcome⟩ := (step_sound hwf hstep).outcome
  constructor
  intro f rx hlookup
  rw [houtcome.blockers] at hlookup
  rw [houtcome.nextChan]
  obtain hdrops | ⟨g, tx, -, -, hchan, hblockers⟩ := heffect.drops
  . obtain hold | ⟨-, hlt⟩ := hdrops.entry f rx hlookup
    . exact Nat.lt_of_lt_of_le (h.entry f rx hold) hdrops.nextChan
    . exact hlt
  . rw [hblockers] at hlookup
    rw [hchan]
    exact h.entry f rx ((lookup_removeBlocker ..).mp hlookup).1

structure BlockCall (f : FiberId) (t : TaskId) (rx : ChanId) (s : State) : Prop where
  wf : Wf s
  owned : Owned s
  task : t < s.nextTask
  chan : rx < s.nextChan
  entry : ∀ g, s.blockers.value.lookup g = some rx → g = f
  future : ∀ task ∈ s.tasks, task.id = t → task.rx = some rx
  caller : ∀ g, s.status g = .suspended (.spawnAndTransfer t) → g = f

theorem BlockCall.step (h : BlockCall f t rx s) {e : Event} (hstep : step s e = some s')
    : BlockCall f t rx s' := by
  have hnext := nextTask_le_of_step h.wf h.owned hstep
  obtain ⟨s'', heffect, houtcome⟩ := (step_sound h.wf hstep).outcome
  refine ⟨h.wf.step hstep, h.owned.step h.wf hstep, Nat.lt_of_lt_of_le h.task hnext, ?_, ?_, ?_, ?_⟩
  . rw [houtcome.nextChan]
    obtain hdrops | ⟨g, tx, -, -, hchan, -⟩ := heffect.drops
    . exact Nat.lt_of_lt_of_le h.chan hdrops.nextChan
    . exact hchan ▸ h.chan
  . intro g hlookup
    rw [houtcome.blockers] at hlookup
    obtain hdrops | ⟨k, tx, -, -, -, hblockers⟩ := heffect.drops
    . obtain hold | ⟨hle, -⟩ := hdrops.entry g rx hlookup
      . exact h.entry g hold
      . exact absurd h.chan (Nat.not_lt.mpr hle)
    . rw [hblockers] at hlookup
      exact h.entry g ((lookup_removeBlocker ..).mp hlookup).1
  . intro task' hmem hid
    obtain ⟨task, htask, holder⟩ | ⟨k, future, rfl⟩ := older_of_step h.wf h.owned hstep hmem
    . rw [holder.rx]
      exact h.future task htask (holder.id.trans hid)
    . exact absurd (hid ▸ h.task) (Nat.lt_irrefl _)
  . intro g hg
    rw [houtcome.status] at hg
    obtain hold | hnew := heffect.calls hg
    . exact h.caller g hold
    . exact absurd (hnew ▸ h.task) (Nat.lt_irrefl _)

/-! ### `unblock` takes the registration -/

/-- The step is an `unblock` that removes the entry `rx` of the fiber, and reports success. -/
def TakesRegistration (f : FiberId) (rx : ChanId) (s : State) (e : Event) : Prop :=
  s.blockers.value.lookup f = some rx ∧
    ∃ current,
      (e = .unblock (.fiber f) ∧ s.rubyFiber = current ∨
          e = .remoteUnblock (.fiber f) ∧ current = none) ∧
        (s.unblock current (.fiber f)).1 = .ok ()

theorem unblock_of_lookup (hwf : Wf s) {current : Option FiberId}
    (hlookup : s.blockers.value.lookup f = some rx)
    : (s.unblock current (.fiber f)).1 = .ok () ↔
        s.checkSuspended current f = .ok () ∧ s.chans rx = .unsent := by
  rw [unblock_of_free hwf.blockers]
  simp only [fiberOfValue, hlookup]
  cases hcheck : s.checkSuspended current f with
  | error e => simp
  | ok =>
    cases s.chans rx <;> simp

theorem takesRegistration_of_sends (h : BlockCall f t rx s) {e : Event} (hstep : step s e = some s')
    (hsends : Sends s e rx) : TakesRegistration f rx s e := by
  obtain ⟨g, hevent, halive, hcurrent, hlookup, hchan⟩ := hsends
  obtain rfl := h.entry g hlookup
  refine ⟨hlookup, ?_⟩
  cases e with
  | unblock fiberToWake =>
    obtain rfl : fiberToWake = .fiber g := hevent
    refine ⟨_, .inl ⟨rfl, rfl⟩, (unblock_of_lookup h.wf hlookup).mpr ⟨?_, hchan⟩⟩
    simp [checkSuspended, halive, hcurrent rfl]
  | remoteUnblock fiberToWake =>
    obtain rfl : fiberToWake = .fiber g := hevent
    refine ⟨none, .inr ⟨rfl, rfl⟩, (unblock_of_lookup h.wf hlookup).mpr ⟨?_, hchan⟩⟩
    simp [checkSuspended, halive]
  | _ => exact hevent.elim

theorem chan_of_takesRegistration (hwf : Wf s) {e : Event} (hstep : step s e = some s')
    (htakes : TakesRegistration f rx s e) : s'.chans rx = .sent := by
  obtain ⟨hlookup, current, hevent, hok⟩ := htakes
  have hs' : s' = (s.unblock current (.fiber f)).2 := by
    obtain ⟨rfl, hcurrent⟩ | ⟨rfl, rfl⟩ := hevent
    . obtain ⟨g, hg, rfl⟩ := Option.map_eq_some_iff.mp hstep
      rw [← hcurrent, hg]
    . injection hstep with hstep
      exact hstep.symm
  obtain ⟨hcheck, hchan⟩ := (unblock_of_lookup hwf hlookup).mp hok
  rw [hs', unblock_of_free hwf.blockers]
  simp only [fiberOfValue, hcheck, hlookup, hchan]
  exact Function.update_self ..

theorem chan_of_sent (h : BlockCall f t rx s) {e : Event} (hstep : step s e = some s')
    (hsent : s.chans rx = .sent) : s'.chans rx = .sent := by
  obtain ⟨s'', heffect, houtcome⟩ := (step_sound h.wf hstep).outcome
  rw [houtcome.chans]
  obtain hdrops | ⟨g, tx, -, hchans, -⟩ := heffect.drops
  . obtain heq | ⟨hunsent, -⟩ := hdrops.chan rx h.chan
    . rw [heq, hsent]
    . rw [hsent] at hunsent
      contradiction
  . rw [hchans]
    by_cases heq : rx = tx
    . rw [heq, Function.update_self]
    . rw [Function.update_of_ne heq, hsent]

theorem sent_iff (h : BlockCall f t rx s) {e : Event} (hstep : step s e = some s')
    : s'.chans rx = .sent ↔ s.chans rx = .sent ∨ TakesRegistration f rx s e := by
  constructor
  . intro hsent
    obtain ⟨s'', heffect, houtcome⟩ := (step_sound h.wf hstep).outcome
    rw [houtcome.chans] at hsent
    obtain hdrops | ⟨g, tx, hsends, hchans, -⟩ := heffect.drops
    . obtain heq | ⟨-, hne⟩ := hdrops.chan rx h.chan
      . exact .inl (heq ▸ hsent)
      . contradiction
    . by_cases heq : rx = tx
      . exact .inr (takesRegistration_of_sends h hstep (heq ▸ hsends))
      . rw [hchans, Function.update_of_ne heq] at hsent
        exact .inl hsent
  . rintro (hsent | htakes)
    . exact chan_of_sent h hstep hsent
    . exact chan_of_takesRegistration h.wf hstep htakes

/-! ### The poll of the future -/

def blockStatus (s : State) (env : PollEnv) (rx : ChanId) (timeout : Option Duration)
    (deadline : Option Instant) : TaskStatus :=
  if timeout.isSome ∧ env.withTimeoutPanics then
    .joinError
  else
    match s.chans rx with
    | .sent => .ready (.ok (.bool true))
    | .txDropped => .ready (.error (newBaseError "Could not unblock fiber: channel closed"))
    | .unsent | .rxDropped =>
      if (deadlineAt s.now timeout deadline).any (timerOver env.timerFired s.now) then
        .ready (.error (timedOut (timeout.getD 0) "unblocking fiber"))
      else
        .pending

theorem tasks_finishBlock (hwf : Wf s) (result : Result Value)
    : (s.finishBlock t result).tasks = (s.complete t result).tasks := by
  rw [finishBlock_of_free hwf.blockers]
  exact tasks_endBlock s t result

theorem tasks_pollBlock (hwf : Wf s) (t : TaskId) (env : PollEnv) (rx : ChanId)
    (timeout : Option Duration) (deadline : Option Instant)
    : ∃ c : Task → Task, (∀ task, (c task).id = task.id) ∧
        (∀ task, task.id = t → task.status = .pending →
          (c task).status = s.blockStatus env rx timeout deadline) ∧
        (s.pollBlock t env rx timeout deadline).tasks = s.tasks.map c := by
  have hset (future : Future) : Wf (s.setFuture t future) := hwf.same (.modifyTasks _ _)
  have hready (future : Future) (result : Result Value) : ∃ c : Task → Task,
      (∀ task, (c task).id = task.id) ∧
        (∀ task, task.id = t → task.status = .pending → (c task).status = .ready result) ∧
        ((s.setFuture t future).complete t result).tasks = s.tasks.map c := by
    rw [map_setFuture_complete]
    refine ⟨_, ?_, ?_, rfl⟩
    . intro task
      split <;> rfl
    . intro task hid _
      rw [if_pos hid]
  unfold pollBlock blockStatus
  dsimp only
  split
  . rw [tasks_panicTask]
    refine ⟨fun task => if task.id = t then { task with status := .joinError } else task, ?_, ?_, rfl⟩
    . intro task
      dsimp only
      split <;> rfl
    . intro task hid _
      simp only [if_pos hid]
  . cases hchan : s.chans rx
    case sent | txDropped =>
      simp only
      rw [tasks_finishBlock (hset _)]
      exact hready _ _
    all_goals
      simp only
      split
      . have hdrop := (hset (.block rx timeout (deadlineAt s.now timeout deadline))).same
          (.dropRx _ rx)
        rw [tasks_finishBlock hdrop, tasks_complete_congr (tasks_dropRx _ _)]
        exact hready _ _
      . refine ⟨fun task => if task.id = t then { task with future := _ } else task, ?_, ?_, rfl⟩
        . intro task
          dsimp only
          split <;> rfl
        . intro task hid hpending
          simp only [if_pos hid, hpending]

/-! ### The agreement -/

structure Outputs (f : FiberId) (t : TaskId) (P : Result Value → Prop) (s : State) : Prop where
  completed : s.status f = .suspended (.spawnAndTransfer t) → ∀ task ∈ s.tasks, task.id = t →
    ∀ result, task.status = .ready result → P result
  delivered : s.status f = .suspended (.spawnAndTransfer t) → ∀ g result,
    s.control = .transfer g ⟨result, .task t⟩ → P result

theorem Outputs.imp {P Q : Result Value → Prop} (h : Outputs f t P s) (himp : ∀ result, P result → Q result)
    : Outputs f t Q s where
  completed hwaits task hmem hid result hready := himp _ (h.completed hwaits task hmem hid result hready)
  delivered hwaits g result hcontrol := himp _ (h.delivered hwaits g result hcontrol)

def Polls (f : FiberId) (t : TaskId) (rx : ChanId) (P : Result Value → Prop) (s : State) (e : Event)
    : Prop :=
  ∀ env task timeout deadline result, e = .poll t env →
    s.status f = .suspended (.spawnAndTransfer t) → s.findTask t = some task →
      task.status = .pending → task.future = .block rx timeout deadline →
        s.blockStatus env rx timeout deadline = .ready result → P result

theorem step_poll_block {env : PollEnv} {task : Task} {timeout : Option Duration}
    {deadline : Option Instant} (hstep : step s (.poll t env) = some s')
    (hfind : s.findTask t = some task) (hpending : task.status = .pending)
    (hfuture : task.future = .block rx timeout deadline)
    : s' = s.pollBlock t env rx timeout deadline := by
  simp only [State.step, Option.ite_none_right_eq_some, poll, hfind, hpending, pollFuture, hfuture,
    Option.some.injEq] at hstep
  exact hstep.2.symm

theorem exists_of_poll (h : BlockCall f t rx s) {env : PollEnv} {task : Task}
    {timeout : Option Duration} {deadline : Option Instant}
    (hstep : step s (.poll t env) = some s') (hfind : s.findTask t = some task)
    (hpending : task.status = .pending) (hfuture : task.future = .block rx timeout deadline)
    : ∃ task' ∈ s'.tasks, task'.id = t ∧ task'.status = s.blockStatus env rx timeout deadline := by
  obtain ⟨hmem, hid⟩ := findTask_mem hfind
  obtain ⟨c, hc, hstatus, htasks⟩ := tasks_pollBlock h.wf t env rx timeout deadline
  rw [step_poll_block hstep hfind hpending hfuture, htasks]
  exact ⟨c task, List.mem_map_of_mem hmem, (hc task).trans hid, hstatus task hid hpending⟩

theorem status_of_poll (h : BlockCall f t rx s) {env : PollEnv} (hstep : step s (.poll t env) = some s')
    {task' : Task} (hmem : task' ∈ s'.tasks) (hid : task'.id = t) {result : Result Value}
    (hready : task'.status = .ready result)
    : task' ∈ s.tasks ∨ ∃ task timeout deadline, s.findTask t = some task ∧ task.status = .pending ∧
        task.future = .block rx timeout deadline ∧
          s.blockStatus env rx timeout deadline = .ready result := by
  have hpoll := hstep
  simp only [State.step, Option.ite_none_right_eq_some, poll] at hpoll
  obtain ⟨-, hpoll⟩ := hpoll
  split at hpoll
  . contradiction
  . next task hfind =>
    obtain ⟨htask, htaskId⟩ := findTask_mem hfind
    split at hpoll
    . next hpending =>
      obtain ⟨timeout, deadline, hfuture⟩ := Task.future_of_rx (h.future task htask htaskId)
      obtain ⟨c, hc, hstatus, htasks⟩ := tasks_pollBlock h.wf t env rx timeout deadline
      rw [step_poll_block hstep hfind hpending hfuture, htasks] at hmem
      obtain ⟨task₀, htask₀, rfl⟩ := List.mem_map.mp hmem
      rw [hc] at hid
      obtain rfl := findTask_unique h.owned.nodup hfind htask₀ hid
      rw [hstatus task₀ hid hpending] at hready
      exact .inr ⟨task₀, timeout, deadline, hfind, hpending, hfuture, hready⟩
    . injection hpoll with hpoll
      subst hpoll
      rw [tasks_panicTask] at hmem
      obtain ⟨task₀, htask₀, rfl⟩ := List.mem_map.mp hmem
      split at hready
      . contradiction
      . next hne =>
        rw [if_neg hne]
        exact .inl htask₀
    all_goals contradiction

theorem Outputs.step {P : Result Value → Prop} (hcall : BlockCall f t rx s) (h : Outputs f t P s)
    {e : Event} (hstep : step s e = some s') (hpolls : Polls f t rx P s e) : Outputs f t P s' := by
  obtain ⟨s'', heffect, houtcome⟩ := (step_sound hcall.wf hstep).outcome
  have hwaited (hwaits : s'.status f = .suspended (.spawnAndTransfer t))
      : s.status f = .suspended (.spawnAndTransfer t) := by
    rw [houtcome.status] at hwaits
    obtain hold | hnew := heffect.calls hwaits
    . exact hold
    . exact absurd (hnew ▸ hcall.task) (Nat.lt_irrefl _)
  constructor
  . intro hwaits task' hmem hid result hready
    rcases ready_of_step hcall.wf hstep hmem hready with hold | ⟨env, rfl⟩ | ⟨-, hraise⟩
    . exact h.completed (hwaited hwaits) task' hold hid result hready
    . rw [hid] at hstep
      obtain hold | ⟨task, timeout, deadline, hfind, hpending, hfuture, hresult⟩ :=
        status_of_poll hcall hstep hmem hid hready
      . exact h.completed (hwaited hwaits) task' hold hid result hready
      . exact hpolls env task timeout deadline result (by rw [hid]) (hwaited hwaits) hfind hpending
          hfuture hresult
    . -- a call of `block` is no `timeout_after`
      obtain ⟨task, htask, holder⟩ | ⟨k, future, rfl⟩ :=
        older_of_step hcall.wf hcall.owned hstep hmem
      . have htimeout := ((hcall.owned.raising _ hraise).2 task htask holder.id).1
        obtain ⟨timeout, deadline, hfuture⟩ :=
          Task.future_of_rx (hcall.future task htask (holder.id.trans hid))
        simp [Task.isTimeout, hfuture] at htimeout
      . exact absurd (hid ▸ hcall.task) (Nat.lt_irrefl _)
  . intro hwaits g result hcontrol
    rw [houtcome.control] at hcontrol
    obtain hold | ⟨task, htask, hid, hready, -⟩ := heffect.control_task hcontrol
    . exact h.delivered (hwaited hwaits) g result hold
    . exact h.completed (hwaited hwaits) task htask hid result hready

theorem Numbered.new : Numbered .new where
  entry f rx h := by simp [State.new] at h

theorem Reachable.numbered (h : Reachable s) : Owned s ∧ Numbered s := by
  obtain ⟨es, hrun⟩ := h
  have hkeep (s : State) (e : Event) (s' : State) (h : Wf s ∧ Owned s ∧ Numbered s)
      (hstep : State.step s e = some s') : Wf s' ∧ Owned s' ∧ Numbered s' :=
    ⟨h.1.step hstep, h.2.1.step h.1 hstep, h.2.2.step h.1 hstep⟩
  exact (Lts.invariant hkeep ⟨.new, .new, .new⟩ hrun).2

theorem chan_registerBlock (s : State) (f : FiberId) : (s.registerBlock f).chans s.nextChan ≠ .sent := by
  have hdrop := Drops.dropTx { s.setChan s.nextChan .unsent with nextChan := s.nextChan + 1 }
    (s.blockers.value.lookup f)
  have hunsent : (s.setChan s.nextChan .unsent).chans s.nextChan = .unsent := Function.update_self ..
  obtain heq | ⟨-, hne⟩ := hdrop.chan s.nextChan (Nat.lt_succ_self _)
  . intro hsent
    exact absurd (hunsent.symm.trans (heq.symm.trans hsent)) (by simp)
  . exact hne

theorem nextChan_registerBlock (s : State) (f : FiberId)
    : (s.registerBlock f).nextChan = s.nextChan + 1 := by
  rw [registerBlock, insertBlocker, dropTx_eq]

theorem blockCall_of_block (hwf : Wf s) (howned : Owned s) (hnumbered : Numbered s)
    {timeout : Option Duration} (hf : s.rubyFiber = some f) (hne : f ≠ rootFiber)
    (hloop : ¬ s.runLoop.Borrows) (hstep : step s (.block timeout) = some s')
    : BlockCall f s.nextTask s.nextChan s' ∧ s'.chans s.nextChan ≠ .sent ∧
        ∀ P, Outputs f s.nextTask P s' := by
  have hwf' := hwf.step hstep
  have howned' := howned.step hwf hstep
  simp only [State.step, hf, Option.map_some, Option.some.injEq] at hstep
  rw [block_of_ne_root hwf hloop hne] at hstep
  subst hstep
  have hspawn := Spawned.block s f timeout
  have hnew {task : Task}
      (hmem : task ∈ ((s.registerBlock f).addTask f (.block s.nextChan timeout none)).tasks)
      (hid : task.id = s.nextTask) : task = s.newTask f (.block s.nextChan timeout none) := by
    rw [hspawn.tasks, List.mem_append, List.mem_singleton] at hmem
    cases hmem with
    | inl hold => exact absurd (hid ▸ howned.lt task hold) (Nat.lt_irrefl _)
    | inr hnew => exact hnew
  have hnextChan := (nextChan_addTask _ f (.block s.nextChan timeout none)).trans
    (nextChan_registerBlock s f)
  refine ⟨⟨hwf', howned', ?_, ?_, ?_, ?_, ?_⟩, ?_, ?_⟩
  . exact hspawn.nextTask ▸ Nat.lt_succ_self _
  . exact hnextChan ▸ Nat.lt_succ_self _
  . intro g hlookup
    by_contra hg
    have hblockers := (blockers_addTask (s.registerBlock f) f (.block s.nextChan timeout none)).trans
      (blockers_registerBlock s f)
    have hlookup : (AList.insert f s.nextChan s.blockers.value).lookup g = some s.nextChan := by
      rw [← hlookup]
      exact congrArg (fun blockers : GcCell Blockers => blockers.value.lookup g) hblockers.symm
    rw [AList.lookup_insert_ne hg] at hlookup
    exact absurd (hnumbered.entry g _ hlookup) (Nat.lt_irrefl _)
  . intro task hmem hid
    rw [hnew hmem hid]
    rfl
  . intro g hg
    by_contra hne
    rw [status_yield, hspawn.thread.status, Function.update_of_ne hne] at hg
    exact absurd (howned.hook g _ hg).1 (Nat.lt_irrefl _)
  . obtain heq | ⟨-, hdropped⟩ :=
      (Drops.addTask (s.registerBlock f) f (.block s.nextChan timeout none)).chan s.nextChan
        (nextChan_registerBlock s f ▸ Nat.lt_succ_self _)
    . intro hsent
      exact chan_registerBlock s f (heq.symm.trans hsent)
    . exact hdropped
  . intro P
    constructor
    . intro _ task hmem hid result hready
      rw [hnew hmem hid] at hready
      simp only [newTask] at hready
      split at hready <;> contradiction
    . intro _ g result hcontrol
      simp [yield, transfer] at hcontrol

def Agrees (woken : Prop) (result : Result Value) : Prop :=
  result = .ok (.bool true) ∧ woken ∨ result = .ok (.bool false) ∧ ¬ woken

instance (woken : Prop) [Decidable woken] (result : Result Value)
    : Decidable (Agrees woken result) :=
  inferInstanceAs (Decidable (_ ∨ _))

/-- The step ends the call: the fiber that waits in it gets `payload`, whoever handed it over. -/
def EndsCall (f : FiberId) (t : TaskId) (payload : Payload) (s : State) (e : Event) : Prop :=
  e = .switch ∧ s.control = .transfer f payload ∧ s.status f = .suspended (.spawnAndTransfer t)

def PolledInTime (s : State) (env : PollEnv) (task : Task) : Prop :=
  match task.status, task.future with
  | .pending, .block rx timeout deadline =>
    (timeout.isSome ∧ env.withTimeoutPanics) ∨ s.chans rx = .sent ∨
      s.chans rx ≠ .txDropped ∧
        ¬ (deadlineAt s.now timeout deadline).any (timerOver env.timerFired s.now)
  | _, _ => True

instance (s : State) (env : PollEnv) (task : Task) : Decidable (s.PolledInTime env task) := by
  unfold PolledInTime
  generalize task.status = status
  generalize task.future = future
  casesm* TaskStatus, Future <;> infer_instance

/-- While the fiber waits in the call, the call is woken before its timer wins. -/
def UnblockWins (f : FiberId) (t : TaskId) (s : State) : Event → Prop
  | .poll t' env =>
    t' = t → s.status f = .suspended (.spawnAndTransfer t) →
      match s.findTask t with
      | some task => s.PolledInTime env task
      | none => True
  | _ => True

instance (f : FiberId) (t : TaskId) (s : State) (e : Event) : Decidable (UnblockWins f t s e) := by
  unfold UnblockWins
  generalize s.findTask t = task
  casesm* Event, Option Task <;> infer_instance

/--
What ends the call without being its own output (that of a call its fiber has left, an exception of
`timeout_after`, the result of another fiber) is the boolean that the call owes its fiber.
-/
def OwnOutputEnds (f : FiberId) (t : TaskId) (rx : ChanId) (s : State) : Event → Prop
  | .switch =>
    s.status f = .suspended (.spawnAndTransfer t) →
      match s.control with
      | .transfer g payload =>
        g = f → payload.origin ≠ .task t → Agrees (s.chans rx = .sent) payload.result
      | .running _ => True
  | _ => True

instance (f : FiberId) (t : TaskId) (rx : ChanId) (s : State) (e : Event)
    : Decidable (OwnOutputEnds f t rx s e) := by
  unfold OwnOutputEnds
  generalize s.control = control
  casesm* Event, Control <;> infer_instance

theorem ownOutputEnds_iff {e : Event}
    : OwnOutputEnds f t rx s e ↔ ∀ payload, EndsCall f t payload s e → payload.origin ≠ .task t →
        Agrees (s.chans rx = .sent) payload.result := by
  constructor
  . rintro h payload ⟨rfl, hcontrol, hstatus⟩ hforeign
    have hagrees := h hstatus
    simp only [hcontrol] at hagrees
    exact hagrees trivial hforeign
  . intro h
    cases e with
    | switch =>
      intro hstatus
      split
      . next g payload hcontrol =>
        rintro rfl hforeign
        exact h payload ⟨rfl, hcontrol, hstatus⟩ hforeign
      . trivial
    | _ => trivial

theorem polls_of_unblockWins {e : Event} (h : UnblockWins f t s e)
    : Polls f t rx (fun result => result = .ok (.bool true) ∧ s.chans rx = .sent) s e := by
  rintro env task timeout deadline result rfl hwaits hfind hpending hfuture hresult
  have hintime := h rfl hwaits
  simp only [hfind, PolledInTime, hpending, hfuture] at hintime
  unfold blockStatus at hresult
  split at hresult
  . contradiction
  . next hpanic =>
    obtain hpanics | hsent | ⟨hne, hnot⟩ := hintime
    . exact absurd hpanics hpanic
    . simp only [hsent, TaskStatus.ready.injEq] at hresult
      exact ⟨hresult.symm, hsent⟩
    . cases hchan : s.chans rx with
      | sent =>
        simp only [hchan, TaskStatus.ready.injEq] at hresult
        exact ⟨hresult.symm, rfl⟩
      | txDropped => contradiction
      | _ =>
        simp only [hchan, if_neg hnot] at hresult
        contradiction

theorem blockStatus_of_not_polledInTime {env : PollEnv} {task : Task} {timeout : Option Duration}
    {deadline : Option Instant} (hpending : task.status = .pending)
    (hfuture : task.future = .block rx timeout deadline) (h : ¬ s.PolledInTime env task)
    : ∃ error, s.blockStatus env rx timeout deadline = .ready (.error error) := by
  simp only [PolledInTime, hpending, hfuture, not_or, not_and, not_not] at h
  obtain ⟨hpanic, hsent, hlost⟩ := h
  unfold blockStatus
  rw [if_neg fun hpanics => absurd hpanics.2 (hpanic hpanics.1)]
  cases hchan : s.chans rx with
  | sent => contradiction
  | txDropped => exact ⟨_, rfl⟩
  | _ =>
    have hexpired := hlost (by simp [hchan])
    simp only [hexpired, if_true]
    exact ⟨_, rfl⟩

theorem unblockWins_of_outputs (hcall : BlockCall f t rx s) {e : Event} {woken : Prop}
    (hstep : step s e = some s') (h : Outputs f t (Agrees woken) s') : UnblockWins f t s e := by
  cases e with
  | poll t' env =>
    rintro rfl hwaits
    split
    . next task hfind =>
      by_contra hlate
      obtain ⟨hmem, hid⟩ := findTask_mem hfind
      obtain ⟨timeout, deadline, hfuture⟩ := Task.future_of_rx (hcall.future task hmem hid)
      have hpending : task.status = .pending := by
        by_contra hne
        apply hlate
        unfold PolledInTime
        split
        . next hpending _ => exact absurd hpending hne
        . trivial
      obtain ⟨error, hstatus⟩ := blockStatus_of_not_polledInTime hpending hfuture hlate
      obtain ⟨task', hmem', hid', hready⟩ := exists_of_poll hcall hstep hfind hpending hfuture
      obtain ⟨s'', heffect, houtcome⟩ := (step_sound hcall.wf hstep).outcome
      have hwaits' : s'.status f = .suspended (.spawnAndTransfer t') := by
        rw [houtcome.status]
        exact (heffect.suspended hcall.wf hwaits).resolve_right (by simp)
      obtain ⟨hresult, -⟩ | ⟨hresult, -⟩ :=
        h.completed hwaits' task' hmem' hid' _ (hready.trans hstatus)
      all_goals contradiction
    . trivial
  | _ => trivial

theorem outputs_agree_iff (hcall : BlockCall f t rx s)
    (houtputs : Outputs f t (fun result => result = .ok (.bool true) ∧ s.chans rx = .sent) s)
    {es : List Event}
    : Lts.Always step (fun s => Outputs f t (Agrees (s.chans rx = .sent)) s) s es ↔
        Lts.Along step (UnblockWins f t) s es := by
  apply Lts.always_iff_along (J := fun s => BlockCall f t rx s ∧
    Outputs f t (fun result => result = .ok (.bool true) ∧ s.chans rx = .sent) s)
  . rintro s e s' ⟨hcall, houtputs⟩ hC hstep
    refine ⟨hcall.step hstep, ?_⟩
    refine (houtputs.step hcall hstep (polls_of_unblockWins hC)).imp ?_
    exact fun result ⟨htrue, hsent⟩ => ⟨htrue, chan_of_sent hcall hstep hsent⟩
  . exact fun s ⟨_, houtputs⟩ => houtputs.imp fun result => .inl
  . exact fun s e s' ⟨hcall, _⟩ hstep houtputs => unblockWins_of_outputs hcall hstep houtputs
  . exact ⟨hcall, houtputs⟩

theorem block_ne_ok (hwf : Wf s) (h : ¬ (f ≠ rootFiber ∧ ¬ s.runLoop.Borrows))
    (timeout : Option Duration) : (s.block f timeout).1 ≠ .ok () := by
  have hregister := SameThread.registerBlock s f
  rw [block_of_free hwf.blockers]
  by_cases hloop : s.runLoop.Borrows
  . rw [spawnAndTransfer_of_borrows (hwf.same hregister) (hregister.runLoop ▸ hloop)]
    simp
  . obtain rfl : f = rootFiber := by
      by_contra hne
      exact h ⟨hne, hloop⟩
    rw [spawnAndTransfer_of_root (hwf.same hregister) (hregister.runLoop ▸ hloop)]
    simp

theorem ends_agree_iff {es : List Event} {woken : ℕ → Prop}
    (hwoken : ∀ k s'', Lts.run step s (es.take k) = some s'' → (woken k ↔ s''.chans rx = .sent))
    (houtputs : ∀ k s'', Lts.run step s (es.take k) = some s'' → Outputs f t (Agrees (woken k)) s'')
    : (∀ k s'', Lts.run step s (es.take k) = some s'' →
          ∀ e ∈ es[k]?, ∀ payload, EndsCall f t payload s'' e → Agrees (woken k) payload.result) ↔
        Lts.Along step (OwnOutputEnds f t rx) s es := by
  rw [Lts.along_iff_take]
  constructor
  . intro h k s'' hrun e he _ _
    rw [ownOutputEnds_iff]
    intro payload hends _
    simp only [← hwoken k s'' hrun]
    exact h k s'' hrun e he payload hends
  . rintro h k s'' hrun e he payload hends
    obtain ⟨rfl, hcontrol, hstatus⟩ := id hends
    by_cases hown : payload.origin = .task t
    . exact (houtputs k s'' hrun).delivered hstatus f payload.result (by rw [hcontrol, ← hown])
    . have hstep : ∃ s₁, step s'' .switch = some s₁ := by
        simp only [step, State.switch, hcontrol, hstatus, Option.some.injEq, exists_eq']
      obtain ⟨s₁, hstep⟩ := hstep
      simp only [hwoken k s'' hrun]
      exact ownOutputEnds_iff.mp (h k s'' hrun _ he s₁ hstep) payload hends hown

/--
A call of `block` returns `true` if an `unblock` took its registration and `false` if none did, in
exactly the runs in which it suspends its fiber, the timer never wins and nothing but its own output
makes it return, or a boolean that says the same.
-/
theorem block_agrees_iff {timeout : Option Duration} (hreach : Reachable s) (hf : s.rubyFiber = some f)
    (hstep : step s (.block timeout) = some s') (es : List Event)
    : ((s.block f timeout).1 = .ok () ∧
        ∀ k s'', Lts.run step s' (es.take k) = some s'' →
          Outputs f s.nextTask
              (Agrees (Lts.Sometime step (TakesRegistration f s.nextChan) s' (es.take k))) s'' ∧
            ∀ e ∈ es[k]?, ∀ payload, EndsCall f s.nextTask payload s'' e →
              Agrees (Lts.Sometime step (TakesRegistration f s.nextChan) s' (es.take k))
                payload.result) ↔
      f ≠ rootFiber ∧ ¬ s.runLoop.Borrows ∧ Lts.Along step (UnblockWins f s.nextTask) s' es ∧
        Lts.Along step (OwnOutputEnds f s.nextTask s.nextChan) s' es := by
  have hwf := hreach.wf
  obtain ⟨howned, hnumbered⟩ := hreach.numbered
  by_cases hsuspends : f ≠ rootFiber ∧ ¬ s.runLoop.Borrows
  . obtain ⟨hne, hloop⟩ := hsuspends
    obtain ⟨hcall, hunsent, hnew⟩ :=
      blockCall_of_block hwf howned hnumbered hf hne hloop hstep
    have hok : (s.block f timeout).1 = .ok () := by rw [block_of_ne_root hwf hloop hne]
    have hwoken (k : Nat) (s'' : State) (hrun : Lts.run step s' (es.take k) = some s'')
        : Lts.Sometime step (TakesRegistration f s.nextChan) s' (es.take k) ↔
            s''.chans s.nextChan = .sent := by
      rw [Lts.sometime_iff (J := BlockCall f s.nextTask s.nextChan)
        (P := fun s'' => s''.chans s.nextChan = .sent) (fun _ _ _ h hstep => h.step hstep)
        (fun _ _ _ h hstep => sent_iff h hstep) hcall hrun]
      simp [hunsent]
    have houtputs : (∀ k s'', Lts.run step s' (es.take k) = some s'' →
          Outputs f s.nextTask
            (Agrees (Lts.Sometime step (TakesRegistration f s.nextChan) s' (es.take k))) s'') ↔
        Lts.Along step (UnblockWins f s.nextTask) s' es := by
      rw [← outputs_agree_iff hcall (hnew _), Lts.always_iff_take]
      refine forall_congr' fun k => forall_congr' fun s'' => forall_congr' fun hrun => ?_
      rw [hwoken k s'' hrun]
    simp only [hok, hne, hloop, ne_eq, not_false_eq_true, true_and]
    constructor
    . intro h
      have hown := fun k s'' hrun => (h k s'' hrun).1
      refine ⟨houtputs.mp hown, (ends_agree_iff hwoken hown).mp ?_⟩
      exact fun k s'' hrun => (h k s'' hrun).2
    . rintro ⟨hwins, hends⟩ k s'' hrun
      have hown := houtputs.mpr hwins
      exact ⟨hown k s'' hrun, (ends_agree_iff hwoken hown).mpr hends k s'' hrun⟩
  . constructor
    . rintro ⟨hok, -⟩
      exact absurd hok (block_ne_ok hwf hsuspends timeout)
    . rintro ⟨hne, hloop, -⟩
      exact absurd ⟨hne, hloop⟩ hsuspends

theorem block_agrees_unblocked
    : (((State.new.fiberImpl rootFiber).block 1 none).1 = .ok () ∧
        ∀ k s, Lts.run step ((State.new.fiberImpl rootFiber).block 1 none).2
            (List.take k [.switch, .unblock (.fiber 1), .run, .poll 0 {}, .join 0, .switch]) = some s →
          Outputs 1 0
              (Agrees
                (Lts.Sometime step (TakesRegistration 1 0)
                  ((State.new.fiberImpl rootFiber).block 1 none).2
                  (List.take k [.switch, .unblock (.fiber 1), .run, .poll 0 {}, .join 0, .switch]))) s ∧
            ∀ e ∈ [.switch, .unblock (.fiber 1), .run, .poll 0 {}, .join 0, .switch][k]?, ∀ payload,
              EndsCall 1 0 payload s e →
                Agrees
                  (Lts.Sometime step (TakesRegistration 1 0)
                    ((State.new.fiberImpl rootFiber).block 1 none).2
                    (List.take k [.switch, .unblock (.fiber 1), .run, .poll 0 {}, .join 0, .switch]))
                  payload.result) :=
  (block_agrees_iff ⟨[.fiber], rfl⟩ rfl rfl _).mpr (by decide)

theorem block_disagrees
    : ¬ ∀ s f timeout s' es, Reachable s → s.rubyFiber = some f → step s (.block timeout) = some s' →
        ∀ s'', Lts.run step s' es = some s'' →
          Outputs f s.nextTask
            (Agrees (Lts.Sometime step (TakesRegistration f s.nextChan) s' es)) s'' := by
  intro hall
  have houtputs := hall (State.new.fiberImpl rootFiber) 1 (some 5000000) _
    [.switch, .run, .poll 0 {}, .elapse 6000000, .poll 0 { timerFired := true }]
    ⟨[.fiber], rfl⟩ rfl rfl _ rfl
  obtain ⟨hresult, -⟩ | ⟨hresult, -⟩ :=
    houtputs.completed (by decide) _ (List.mem_singleton_self _) rfl _ rfl
  all_goals contradiction

end State
end Shreduler
