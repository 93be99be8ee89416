import Shreduler.TokioScheduler.Lemmas.Spawn

/-!
This module says once what a step of the scheduler can do. `Effect` lists the outcomes with their
guards, without the cells and the event loop; `step_sound` shows that these are all.
-/

namespace Shreduler

def Event.Quiet : Event → Prop
  | .elapse _ | .run | .close | .joinNone | .callRuby _ | .returnRuby => True
  | _ => False

def Event.Spawns : Event → Prop
  | .hook _ | .timeoutAfter _ => True
  | _ => False

def Event.Unblocks (f : FiberId) : Event → Prop
  | .unblock fiberToWake | .remoteUnblock fiberToWake => fiberToWake = .fiber f
  | _ => False

namespace State

def erase (s : State) : State :=
  { s with
    now := 0
    runLoop := .idle
    closing := false
    runtime := true
    futuresToRun := { value := s.tasks }
    blockers := { value := s.blockers.value }
    runResult := none
  }

def yield (s : State) (f : FiberId) (t : TaskId) : State :=
  s.transfer f (.spawnAndTransfer t) rootFiber ⟨.ok .nil, .fiber f⟩

def endBlock (s : State) (t : TaskId) (result : Result Value) : State :=
  ((s.removeBlocker rootFiber).dropTx (s.blockers.value.lookup rootFiber)).complete t result

inductive Still (s : State) : Event → State → Prop where
  | quiet {e : Event} (hevent : e.Quiet) : Still s e s
  | spawnFails {f e} (hf : s.rubyFiber = some f) (hloop : s.runLoop.Borrows) (hevent : e.Spawns)
    : Still s e s
  | blockFails {f timeout} (hf : s.rubyFiber = some f) (hloop : s.runLoop.Borrows)
    : Still s (.block timeout) ((s.registerBlock f).dropRx s.nextChan)
  | unblockRejected {f e current} (hevent : e.Unblocks f)
    (hcheck : ∃ error, s.checkSuspended current f = .error error) : Still s e s
  | unblockOther {e} (hevent : ∀ f, ¬ e.Unblocks f)
    (hunblock : ∃ value, e = .unblock value ∨ e = .remoteUnblock value) : Still s e s
  | unblockNone {f e} (hevent : e.Unblocks f) (hlookup : s.blockers.value.lookup f = none)
    : Still s e (s.removeBlocker f)
  | unblockSent {f e tx} (hevent : e.Unblocks f) (halive : s.isAlive f)
    (hcurrent : e = .unblock (.fiber f) → s.rubyFiber ≠ some f)
    (hlookup : s.blockers.value.lookup f = some tx) (hchan : s.chans tx = .unsent)
    : Still s e ((s.removeBlocker f).setChan tx .sent)
  | unblockLost {f e tx} (hevent : e.Unblocks f) (halive : s.isAlive f)
    (hcurrent : e = .unblock (.fiber f) → s.rubyFiber ≠ some f)
    (hlookup : s.blockers.value.lookup f = some tx) (hchan : s.chans tx ≠ .unsent)
    : Still s e (s.removeBlocker f)
  | pollPending {t env task} (hloop : s.AtJoinNext) (hfind : s.findTask t = some task)
    (hstatus : task.status = .pending) (hblock : task.isBlock = false) : Still s (.poll t env) s
  | pollReady {t env task result} (hloop : s.AtJoinNext) (hfind : s.findTask t = some task)
    (hstatus : task.status = .pending) (hblock : task.isBlock = false)
    (htimeout : task.isTimeout → ∃ e, result = .error e)
    : Still s (.poll t env) (s.complete t result)
  | pollBlockReady {t env task rx timeout deadline deadline' result} (hloop : s.AtJoinNext)
    (hfind : s.findTask t = some task) (hstatus : task.status = .pending)
    (hfuture : task.future = .block rx timeout deadline) (hchan : s.chans rx ≠ .unsent)
    : Still s (.poll t env) ((s.setFuture t (.block rx timeout deadline')).endBlock t result)
  | pollBlockTimeout {t env task rx timeout deadline deadline' result} (hloop : s.AtJoinNext)
    (hfind : s.findTask t = some task) (hstatus : task.status = .pending)
    (hfuture : task.future = .block rx timeout deadline)
    (hdeadline : (deadlineAt s.now timeout deadline).any (timerOver env.timerFired s.now))
    : Still s (.poll t env)
        (((s.setFuture t (.block rx timeout deadline')).dropRx rx).endBlock t result)
  | pollBlockPending {t env task rx timeout deadline deadline'} (hloop : s.AtJoinNext)
    (hfind : s.findTask t = some task) (hstatus : task.status = .pending)
    (hfuture : task.future = .block rx timeout deadline)
    (hpanic : ¬ (timeout.isSome ∧ env.withTimeoutPanics))
    (hdeadline : ¬ (deadlineAt s.now timeout deadline).any (timerOver env.timerFired s.now))
    : Still s (.poll t env) (s.setFuture t (.block rx timeout deadline'))
  | pollPanic {t env task} (hloop : s.AtJoinNext) (hfind : s.findTask t = some task)
    (hstatus : task.status = .aborted ∨ task.status = .pending ∧
      ∀ rx timeout deadline, task.future = .block rx timeout deadline →
        timeout.isSome ∧ env.withTimeoutPanics)
    : Still s (.poll t env) (s.panicTask t task.future)
  | interrupt {error} (hloop : s.AtJoinNext) : Still s (.interrupt error) s.abortAll

inductive Effect (s : State) : Event → State → Prop where
  | still {e s'} (hstill : Still s e s') : Effect s e s'
  | switchHook {f t payload} (hcontrol : s.control = .transfer f payload)
    (hstatus : s.status f = .suspended (.spawnAndTransfer t))
    : Effect s .switch
        { s.switchTo f with returns := ⟨f, t, s.timeouts f, payload⟩ :: s.returns }
  | switchFiber {f child payload} (hcontrol : s.control = .transfer f payload)
    (hstatus : s.status f = .suspended (.fiberImpl child)) : Effect s .switch (s.switchTo f)
  | switchBack {f payload} (hcontrol : s.control = .transfer f payload)
    (hstatus : s.status f = .suspended .transferBack)
    : Effect s .switch (s.terminate f payload.result)
  | switchLoop {t payload} (hcontrol : s.control = .transfer rootFiber payload)
    (hstatus : s.status rootFiber = .suspended (.resumeIfAlive t))
    : Effect s .switch (s.switchTo rootFiber)
  | switchTimeout {t payload} (hcontrol : s.control = .transfer rootFiber payload)
    (hstatus : s.status rootFiber = .suspended (.timeoutRaise t))
    : Effect s .switch ((s.switchTo rootFiber).complete t payload.result)
  | fiber {f} (hf : s.rubyFiber = some f) : Effect s .fiber (s.fiberImpl f)
  | hook {f hook} (hf : s.rubyFiber = some f) (hloop : ¬ s.runLoop.Borrows) (hne : f ≠ rootFiber)
    : Effect s (.hook hook) ((s.addTask f (hook.future s.now)).yield f s.nextTask)
  | hookRoot {hook} (hf : s.rubyFiber = some rootFiber) (hloop : ¬ s.runLoop.Borrows)
    : Effect s (.hook hook) (s.addTask rootFiber (hook.future s.now))
  | block {f timeout} (hf : s.rubyFiber = some f) (hloop : ¬ s.runLoop.Borrows)
    (hne : f ≠ rootFiber)
    : Effect s (.block timeout)
        (((s.registerBlock f).addTask f (.block s.nextChan timeout none)).yield f s.nextTask)
  | blockRoot {timeout} (hf : s.rubyFiber = some rootFiber) (hloop : ¬ s.runLoop.Borrows)
    : Effect s (.block timeout)
        ((s.registerBlock rootFiber).addTask rootFiber (.block s.nextChan timeout none))
  | timeoutAfter {f duration} (hf : s.rubyFiber = some f) (hloop : ¬ s.runLoop.Borrows)
    : Effect s (.timeoutAfter duration)
        { s.addTask f (.timeout (s.now + duration) f) with
          timeouts := Function.update s.timeouts f (s.nextTask :: s.timeouts f) }
  | endTimeout {f t ts} (hf : s.rubyFiber = some f) (htimeouts : s.timeouts f = t :: ts)
    : Effect s .endTimeout
        { s with
          timeouts := Function.update s.timeouts f ts
          endedTimeouts := t :: s.endedTimeouts }
  | finishDies {f result result'} (hf : s.rubyFiber = some f) (hne : f ≠ rootFiber)
    : Effect s (.finish result) (s.terminate f result')
  | finishBack {f result parent} (hf : s.rubyFiber = some f) (hne : f ≠ rootFiber)
    (hparent : s.transferBackTo f = some parent) (hneParent : parent ≠ f)
    (hsuspended : ∃ sus, s.status parent = .suspended sus)
    : Effect s (.finish result) (s.transfer f .transferBack parent ⟨result, .fiber f⟩)
  | pollRaise {t env task timeoutAt f exception} (hloop : s.AtJoinNext)
    (hfind : s.findTask t = some task) (hstatus : task.status = .pending)
    (hfuture : task.future = .timeout timeoutAt f)
    (hexpired : timerOver env.timerFired s.now timeoutAt)
    (hinstance : ∃ v, env.newInstance = (.ok v, .ok exception)) (hne : f ≠ rootFiber)
    (hsuspended : ∃ sus, s.status f = .suspended sus)
    : Effect s (.poll t env)
        ((s.setTaskStatus t .polling).transfer rootFiber (.timeoutRaise t) f
          ⟨.error (.exception exception), .timeout t⟩)
  | joinResume {t task result} (hloop : s.AtJoinNext) (hfind : s.findTask t = some task)
    (hstatus : task.status = .ready result) (hjump : ∀ tag, result ≠ .error (.jump tag))
    (hne : task.fiber ≠ rootFiber) (hsuspended : ∃ sus, s.status task.fiber = .suspended sus)
    : Effect s (.join t)
        ((s.removeTask t).transfer rootFiber (.resumeIfAlive t) task.fiber ⟨result, .task t⟩)
  | joinDrop {t task} (hloop : s.AtJoinNext) (hfind : s.findTask t = some task)
    (hstatus : task.status = .joinError ∨
      ∃ result, task.status = .ready result ∧
        (¬ s.isAlive task.fiber ∨ task.fiber = rootFiber ∨ ∃ tag, result = .error (.jump tag)))
    : Effect s (.join t) (s.removeTask t)

/--
The new state is well formed and is, up to guards and event loop, one of the outcomes. Only the root
fiber moves the event loop.
-/
structure Sound (s : State) (e : Event) (s' : State) : Prop where
  wf : Wf s'
  effect : ∃ s'', Effect s e s'' ∧ s'.erase = s''.erase
  runLoop : s'.runLoop = s.runLoop ∨ s.control = .running rootFiber ∨ s'.control = .running rootFiber

theorem Sound.preserves {s s' : State} {e : Event} {J : State → Prop} (h : Sound s e s')
    (herase : ∀ s, J s.erase ↔ J s) (heffect : ∀ s'', Effect s e s'' → J s'') : J s' := by
  obtain ⟨s'', hs'', heq⟩ := h.effect
  rw [← herase, heq, herase]
  exact heffect s'' hs''

structure SameOutcome (s s' : State) : Prop where
  status : s.status = s'.status
  control : s.control = s'.control
  transferBackTo : s.transferBackTo = s'.transferBackTo
  nextFiber : s.nextFiber = s'.nextFiber
  tasks : s.tasks = s'.tasks
  nextTask : s.nextTask = s'.nextTask
  blockers : s.blockers.value = s'.blockers.value
  chans : s.chans = s'.chans
  nextChan : s.nextChan = s'.nextChan
  returns : s.returns = s'.returns

theorem SameOutcome.of_erase {s s' : State} (h : s.erase = s'.erase) : SameOutcome s s' := by
  have hfield {α : Type} (field : State → α) : field s.erase = field s'.erase := by rw [h]
  exact ⟨hfield State.status, hfield State.control, hfield State.transferBackTo,
    hfield State.nextFiber, hfield State.tasks, hfield State.nextTask,
    hfield fun s => s.blockers.value, hfield State.chans, hfield State.nextChan,
    hfield State.returns⟩

theorem Sound.outcome {s s' : State} {e : Event} (h : Sound s e s')
    : ∃ s'', Effect s e s'' ∧ SameOutcome s' s'' := by
  obtain ⟨s'', heffect, herase⟩ := h.effect
  exact ⟨s'', heffect, .of_erase herase⟩

end State
end Shreduler
