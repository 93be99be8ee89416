import Shreduler.TokioScheduler.Lemmas.Effect

/-!
This module proves that every step of the scheduler keeps `Wf` and has one of the outcomes of
`Effect`.
-/

namespace Shreduler
namespace State

variable {s s' : State}

namespace SameThread

theorem addTask (s : State) (f : FiberId) (future : Future)
    : SameThread s (s.addTask f future) := by
  have hadd : SameThread s
      { s.modifyTasks fun tasks => tasks ++ [s.newTask f future] with
        nextTask := s.nextTask + 1 } := by
    constructor <;> rfl
  unfold State.addTask
  dsimp only
  split
  . exact hadd
  . exact hadd.trans (dropFuture _ future)

theorem registerBlock (s : State) (f : FiberId) : SameThread s (s.registerBlock f) := by
  have hchan : SameThread s { s.setChan s.nextChan .unsent with nextChan := s.nextChan + 1 } := by
    constructor <;> rfl
  exact hchan.trans (insertBlocker _ f s.nextChan)

theorem endBlock (s : State) (t : TaskId) (result : Result Value)
    : SameThread s (s.endBlock t result) :=
  trans (trans (removeBlocker s rootFiber) (dropTx _ _)) (modifyTasks _ _)

theorem panicTask (s : State) (t : TaskId) (future : Future)
    : SameThread s (s.panicTask t future) :=
  trans (dropFuture s future) (modifyTasks _ _)

end SameThread

theorem free_releaseFutures (h : s.futuresToRun.MutBorrowed) : s.releaseFutures.futuresToRun.Free := by
  refine ⟨h.1, ?_⟩
  simp only [releaseFutures, GcCell.dropRefMut, h.2]
  rfl

theorem erase_awaitNext (h : s.futuresToRun.Free) : s.awaitNext.erase = s.erase := by
  rw [awaitNext_of_free h]
  rfl

theorem erase_returnRun (s : State) (result : Result Unit) : (s.returnRun result).erase = s.erase :=
  rfl

theorem Wf.loop (h : Wf s) (hroot : s.control = .running rootFiber)
    (hfutures : if s'.runLoop.Borrows then s'.futuresToRun.MutBorrowed else s'.futuresToRun.Free)
    (hblockers : s'.blockers = s.blockers) (hstatus : s'.status = s.status)
    (hcontrol : s'.control = s.control) (hnext : s'.nextFiber = s.nextFiber) : Wf s' := by
  apply h.congr (hblockers ▸ h.blockers) hfutures hstatus hcontrol ?_ hnext
  intro sus hsus
  rw [(h.running rootFiber).mpr hroot] at hsus
  contradiction

theorem Wf.awaitNext (h : Wf s) (hroot : s.control = .running rootFiber)
    (hfree : s'.futuresToRun.Free) (hblockers : s'.blockers = s.blockers)
    (hstatus : s'.status = s.status) (hcontrol : s'.control = s.control)
    (hnext : s'.nextFiber = s.nextFiber) : Wf s'.awaitNext := by
  rw [awaitNext_of_free hfree]
  refine h.loop hroot ?_ (by exact hblockers) (by exact hstatus) (by exact hcontrol)
    (by exact hnext)
  simp [RunLoop.Borrows, GcCell.MutBorrowed, hfree.1]

theorem Wf.returnRun (h : Wf s) (hroot : s.control = .running rootFiber)
    (hfree : s'.futuresToRun.Free) (hblockers : s'.blockers = s.blockers)
    (hstatus : s'.status = s.status) (hcontrol : s'.control = s.control)
    (hnext : s'.nextFiber = s.nextFiber) (result : Result Unit) : Wf (s'.returnRun result) := by
  refine h.loop hroot ?_ (by exact hblockers) (by exact hstatus) (by exact hcontrol)
    (by exact hnext)
  simpa [State.returnRun, RunLoop.Borrows] using hfree

theorem control_awaitNext (s : State) : s.awaitNext.control = s.control := by
  unfold State.awaitNext
  split <;> rfl

theorem Still.thread {e : Event} (h : Still s e s') : SameThread s s' := by
  cases h with
  | quiet | spawnFails | unblockRejected | unblockOther | pollPending => exact .refl s
  | blockFails => exact (SameThread.registerBlock s _).trans (.dropRx _ _)
  | unblockNone | unblockLost => exact .removeBlocker s _
  | unblockSent => exact (SameThread.removeBlocker s _).trans (.setChan _ _ _)
  | pollReady | pollBlockPending | interrupt => exact .modifyTasks s _
  | pollBlockReady => exact (SameThread.modifyTasks s _).trans (.endBlock _ _ _)
  | pollBlockTimeout =>
    exact ((SameThread.modifyTasks s _).trans (.dropRx _ _)).trans (.endBlock _ _ _)
  | pollPanic => exact .panicTask s _ _

theorem Effect.runLoop {e : Event} (h : Effect s e s') : s'.runLoop = s.runLoop := by
  cases h with
  | still hstill => exact hstill.thread.runLoop
  | hook | hookRoot | timeoutAfter => exact (SameThread.addTask s _ _).runLoop
  | block | blockRoot =>
    exact ((SameThread.registerBlock s _).trans (.addTask _ _ _)).runLoop
  | _ => rfl

theorem Effect.sound {e : Event} (h : Effect s e s') (hwf : Wf s') : Sound s e s' where
  wf := hwf
  effect := ⟨s', h, rfl⟩
  runLoop := .inl h.runLoop

theorem Still.sound {e : Event} (h : Still s e s') (hwf : Wf s') : Sound s e s' :=
  (Effect.still h).sound hwf

/-! ### The switch between fibers -/

theorem switch_sound (h : Wf s) (hstep : s.switch = some s') : Sound s .switch s' := by
  unfold switch at hstep
  split at hstep
  . contradiction
  . next f payload hcontrol =>
    have hswitch := h.switchTo hcontrol
    split at hstep
    . next t hstatus =>
      injection hstep with hstep
      subst hstep
      apply (Effect.switchHook hcontrol hstatus).sound
      exact hswitch.congr hswitch.blockers hswitch.futures rfl rfl (fun _ _ => rfl) rfl
    . next child hstatus =>
      injection hstep with hstep
      exact hstep ▸ (Effect.switchFiber hcontrol hstatus).sound hswitch
    . next hstatus =>
      injection hstep with hstep
      subst hstep
      apply (Effect.switchBack hcontrol hstatus).sound
      exact h.terminate (h.position f _ hstatus) (.inr ⟨payload, hcontrol⟩)
    . next t hstatus =>
      obtain ⟨hf, hloop⟩ := h.position f _ hstatus
      subst hf
      have hfree : (s.switchTo rootFiber).futuresToRun.Free :=
        h.free (by simp [hloop, RunLoop.Borrows])
      split at hstep
      . injection hstep with hstep
        subst hstep
        refine ⟨?_, ⟨_, .switchLoop hcontrol hstatus, erase_awaitNext hfree⟩,
          .inr (.inr (control_awaitNext _))⟩
        exact hswitch.awaitNext rfl hfree rfl rfl rfl rfl
      . injection hstep with hstep
        subst hstep
        refine ⟨?_, ⟨_, .switchLoop hcontrol hstatus, erase_returnRun _ _⟩, .inr (.inr rfl)⟩
        exact hswitch.returnRun rfl hfree rfl rfl rfl rfl _
    . next t hstatus =>
      obtain ⟨hf, hloop⟩ := h.position f _ hstatus
      subst hf
      injection hstep with hstep
      subst hstep
      refine ⟨?_, ⟨_, .switchTimeout hcontrol hstatus, rfl⟩, .inr (.inr rfl)⟩
      have hcomplete : Wf ((s.switchTo rootFiber).complete t payload.result) :=
        hswitch.same (.modifyTasks _ _)
      refine hcomplete.loop rfl ?_ (by rfl) (by rfl) (by rfl) (by rfl)
      have hborrowed := h.mutBorrowed (by simp [hloop, RunLoop.Borrows])
      simp only [RunLoop.Borrows]
      exact hborrowed
    . contradiction
    . contradiction
    . contradiction

/-! ### Calls of the running Ruby code -/

theorem spawnAndTransfer_of_borrows (h : Wf s) (hloop : s.runLoop.Borrows) (f : FiberId)
    (future : Future)
    : s.spawnAndTransfer f future
        =
      (.error (GcCell.newError "already borrowed"), s.dropFuture future) := by
  unfold spawnAndTransfer
  rw [spawn_of_mutBorrowed (h.mutBorrowed hloop)]

theorem spawnAndTransfer_of_root (h : Wf s) (hloop : ¬ s.runLoop.Borrows) (future : Future)
    : s.spawnAndTransfer rootFiber future
        =
      (.error (.error .runtimeError "fiber active"), s.addTask rootFiber future) := by
  have halive := (h.same (.addTask s rootFiber future)).rootAlive
  unfold spawnAndTransfer
  rw [spawn_of_free (h.free hloop)]
  simp [checkSuspended, halive]

theorem spawnAndTransfer_of_ne_root (h : Wf s) (hloop : ¬ s.runLoop.Borrows) {f : FiberId}
    (hne : f ≠ rootFiber) (future : Future)
    : s.spawnAndTransfer f future = (.ok (), (s.addTask f future).yield f s.nextTask) := by
  have hcheck := (h.same (.addTask s f future)).checkSuspended_root hne
  unfold spawnAndTransfer
  rw [spawn_of_free (h.free hloop)]
  simp only [hcheck, yield]

theorem Wf.yield (h : Wf s) {f : FiberId} (hf : s.control = .running f) (hne : f ≠ rootFiber)
    (t : TaskId) : Wf (s.yield f t) := by
  refine h.transfer hf (by exact hne) hne.symm (h.suspended_root ?_)
  rw [hf]
  intro hroot
  injection hroot with heq
  exact hne heq

theorem hook_sound (h : Wf s) {f : FiberId} (hf : s.rubyFiber = some f) (hook : Hook)
    : Sound s (.hook hook) (s.spawnAndTransfer f (hook.future s.now)).2 := by
  by_cases hloop : s.runLoop.Borrows
  . rw [spawnAndTransfer_of_borrows h hloop]
    have hdrop : s.dropFuture (hook.future s.now) = s := by
      unfold dropFuture
      split
      . next rx timeout deadline hfuture =>
        exact absurd hfuture ((hook.future_ne s.now).1 rx timeout deadline)
      . rfl
    rw [hdrop]
    exact (Still.spawnFails hf hloop (by trivial)).sound h
  . have hadd := h.same (.addTask s f (hook.future s.now))
    by_cases hne : f = rootFiber
    . subst hne
      rw [spawnAndTransfer_of_root h hloop]
      exact (Effect.hookRoot hf hloop).sound hadd
    . rw [spawnAndTransfer_of_ne_root h hloop hne]
      apply (Effect.hook hf hloop hne).sound
      apply hadd.yield ?_ hne
      rw [(SameThread.addTask s f (hook.future s.now)).control]
      exact Wf.rubyFiber_running hf

theorem nextTask_registerBlock (s : State) (f : FiberId)
    : (s.registerBlock f).nextTask = s.nextTask := by
  rw [registerBlock, insertBlocker, dropTx_eq]
  rfl

theorem block_of_ne_root (h : Wf s) (hloop : ¬ s.runLoop.Borrows) {f : FiberId}
    (hne : f ≠ rootFiber) (timeout : Option Duration)
    : s.block f timeout
        =
      (.ok (), ((s.registerBlock f).addTask f (.block s.nextChan timeout none)).yield f
        s.nextTask) := by
  have hregister := SameThread.registerBlock s f
  have hloop' : ¬ (s.registerBlock f).runLoop.Borrows := hregister.runLoop ▸ hloop
  rw [block_of_free h.blockers, spawnAndTransfer_of_ne_root (h.same hregister) hloop' hne,
    nextTask_registerBlock]

theorem block_sound (h : Wf s) {f : FiberId} (hf : s.rubyFiber = some f)
    (timeout : Option Duration) : Sound s (.block timeout) (s.block f timeout).2 := by
  have hregister := SameThread.registerBlock s f
  have hwf := h.same hregister
  by_cases hloop : s.runLoop.Borrows
  . rw [block_of_free h.blockers, spawnAndTransfer_of_borrows hwf (hregister.runLoop ▸ hloop)]
    apply (Still.blockFails hf hloop).sound
    exact hwf.same (.dropRx _ _)
  . have hadd := SameThread.addTask (s.registerBlock f) f (.block s.nextChan timeout none)
    by_cases hne : f = rootFiber
    . subst hne
      have hloop' : ¬ (s.registerBlock rootFiber).runLoop.Borrows := hregister.runLoop ▸ hloop
      rw [block_of_free h.blockers, spawnAndTransfer_of_root hwf hloop']
      exact (Effect.blockRoot hf hloop).sound (hwf.same hadd)
    . rw [block_of_ne_root h hloop hne]
      apply (Effect.block hf hloop hne).sound
      apply (hwf.same hadd).yield ?_ hne
      rw [hadd.control, hregister.control]
      exact Wf.rubyFiber_running hf

theorem isAlive_of_checkSuspended {current : Option FiberId} {f : FiberId}
    (h : s.checkSuspended current f = .ok ()) : s.isAlive f := by
  unfold checkSuspended at h
  split at h
  . contradiction
  . next halive => simpa using halive

theorem unblock_sound (h : Wf s) (current : Option FiberId) {fiberToWake : Value} {e : Event}
    (hevent : e = .unblock fiberToWake ∧ s.rubyFiber = current ∨ e = .remoteUnblock fiberToWake)
    : Sound s e (s.unblock current fiberToWake).2 := by
  have hunblocks (f : FiberId) : e.Unblocks f ↔ fiberToWake = .fiber f := by
    cases hevent with
    | inl hevent => rw [hevent.1, Event.Unblocks]
    | inr hevent => rw [hevent, Event.Unblocks]
  rw [unblock_of_free h.blockers]
  cases fiberToWake with
  | fiber f =>
    have hf : e.Unblocks f := (hunblocks f).mpr rfl
    simp only [fiberOfValue]
    cases hcheck : s.checkSuspended current f with
    | error error => exact (Still.unblockRejected hf ⟨error, hcheck⟩).sound h
    | ok =>
      have halive := isAlive_of_checkSuspended hcheck
      have hcurrent : e = .unblock (.fiber f) → s.rubyFiber ≠ some f := by
        intro heq hruby
        cases hevent with
        | inl hevent =>
          simp [checkSuspended, halive, ← hevent.2, hruby] at hcheck
        | inr hevent => simp [hevent] at heq
      have hremove := h.same (.removeBlocker s f)
      cases hlookup : s.blockers.value.lookup f with
      | none => exact (Still.unblockNone hf hlookup).sound hremove
      | some tx =>
        cases hchan : s.chans tx with
        | unsent =>
          simp only [hchan]
          apply (Still.unblockSent hf halive hcurrent hlookup hchan).sound
          exact hremove.same (.setChan _ _ _)
        | _ =>
          simp only [hchan]
          apply (Still.unblockLost hf halive hcurrent hlookup ?_).sound hremove
          simp [hchan]
  | _ =>
    refine (Still.unblockOther ?_ ⟨_, hevent.imp_left And.left⟩).sound h
    intro f
    simp [hunblocks]

theorem timeoutAfter_of_not_borrows (h : Wf s) (hloop : ¬ s.runLoop.Borrows) (f : FiberId)
    (duration : Duration)
    : (s.timeoutAfter f duration).2
        =
      { s.addTask f (.timeout (s.now + duration) f) with
        timeouts := Function.update s.timeouts f (s.nextTask :: s.timeouts f) } := by
  unfold timeoutAfter
  dsimp only
  rw [spawn_of_free (h.free hloop)]
  simp only [(SameThread.addTask s f (.timeout (s.now + duration) f)).timeouts]

theorem timeoutAfter_sound (h : Wf s) {f : FiberId} (hf : s.rubyFiber = some f)
    (duration : Duration) : Sound s (.timeoutAfter duration) (s.timeoutAfter f duration).2 := by
  by_cases hloop : s.runLoop.Borrows
  . unfold timeoutAfter
    dsimp only
    rw [spawn_of_mutBorrowed (h.mutBorrowed hloop)]
    exact (Still.spawnFails hf hloop (by trivial)).sound h
  . rw [timeoutAfter_of_not_borrows h hloop]
    apply (Effect.timeoutAfter hf hloop).sound
    have hadd := h.same (.addTask s f (.timeout (s.now + duration) f))
    exact hadd.congr hadd.blockers hadd.futures rfl rfl (fun _ _ => rfl) rfl

theorem endTimeout_sound (h : Wf s) {f : FiberId} (hf : s.rubyFiber = some f)
    (hstep : s.endTimeout f = some s') : Sound s .endTimeout s' := by
  unfold endTimeout at hstep
  split at hstep
  . contradiction
  . next t ts htimeouts =>
    injection hstep with hstep
    subst hstep
    apply (Effect.endTimeout hf htimeouts).sound
    exact h.congr h.blockers h.futures rfl rfl (fun _ _ => rfl) rfl

theorem finish_sound (h : Wf s) {f : FiberId} (hf : s.rubyFiber = some f) (hne : f ≠ rootFiber)
    (result : Result Value) : Sound s (.finish result) (s.finish f result) := by
  have hcontrol := Wf.rubyFiber_running hf
  have hdies (result' : Result Value) : Sound s (.finish result) (s.terminate f result') :=
    (Effect.finishDies hf hne).sound (h.terminate hne (.inl hcontrol))
  unfold finish
  split
  . apply hdies
  . next parent hparent =>
    split
    . apply hdies
    . next hcheck =>
      obtain ⟨hneParent, hsuspended⟩ := h.suspended_of_checkSuspended hcontrol hcheck
      have hback (result' : Result Value) (hresult : result' = result)
          : Sound s (.finish result) (s.transfer f .transferBack parent ⟨result', .fiber f⟩) := by
        subst hresult
        apply (Effect.finishBack hf hne hparent hneParent hsuspended).sound
        exact h.transfer hcontrol hne hneParent hsuspended
      cases result with
      | ok v => exact hback _ rfl
      | error error =>
        cases error with
        | jump tag => apply hdies
        | error klass message => exact hback _ rfl
        | exception e => exact hback _ rfl

/-! ### The event loop -/

theorem startRun_sound (h : Wf s) {e : Event} (hevent : e.Quiet) (hroot : s.AtRootCode)
    (closing : Bool) : Sound s e { s with closing }.startRun := by
  have hfree : { s with closing }.futuresToRun.Free := h.free (by simp [hroot.1, RunLoop.Borrows])
  unfold startRun
  split
  . refine ⟨?_, ⟨s, .still (.quiet hevent), ?_⟩, .inr (.inl hroot.2)⟩
    . exact h.awaitNext hroot.2 hfree rfl rfl rfl rfl
    . exact erase_awaitNext hfree
  . refine ⟨?_, ⟨s, .still (.quiet hevent), ?_⟩, .inr (.inl hroot.2)⟩
    . exact h.returnRun hroot.2 hfree rfl rfl rfl rfl _
    . rfl

theorem pollBlock_sound (h : Wf s) (hloop : s.AtJoinNext) {t : TaskId} {env : PollEnv} {task : Task}
    {rx : ChanId} {timeout : Option Duration} {deadline : Option Instant}
    (hfind : s.findTask t = some task) (hstatus : task.status = .pending)
    (hfuture : task.future = .block rx timeout deadline)
    : Sound s (.poll t env) (s.pollBlock t env rx timeout deadline) := by
  have hset (future : Future) : Wf (s.setFuture t future) := h.same (.modifyTasks _ _)
  unfold pollBlock
  dsimp only
  split
  . next hpanic =>
    have hwf := h.same (.panicTask s t task.future)
    have hdrop : s.dropFuture (.block rx timeout (deadlineAt s.now timeout deadline))
        = s.dropFuture task.future := by
      rw [hfuture]
      rfl
    simp only [panicTask, hdrop]
    refine (Still.pollPanic hloop hfind (.inr ⟨hstatus, ?_⟩)).sound hwf
    intro rx' timeout' deadline' hfuture'
    rw [hfuture] at hfuture'
    injection hfuture' with _ heq
    exact heq ▸ hpanic
  . next hpanic =>
    split
    . next hchan =>
      rw [finishBlock_of_free (hset _).blockers]
      apply (Still.pollBlockReady hloop hfind hstatus hfuture (by simp [hchan])).sound
      exact (hset _).same (.endBlock _ _ _)
    . next hchan =>
      rw [finishBlock_of_free (hset _).blockers]
      apply (Still.pollBlockReady hloop hfind hstatus hfuture (by simp [hchan])).sound
      exact (hset _).same (.endBlock _ _ _)
    all_goals
      split
      . next hdeadline =>
        have hdrop := (hset (.block rx timeout (deadlineAt s.now timeout deadline))).same
          (.dropRx _ rx)
        rw [finishBlock_of_free hdrop.blockers]
        apply (Still.pollBlockTimeout hloop hfind hstatus hfuture hdeadline).sound
        exact hdrop.same (.endBlock _ _ _)
      . next hdeadline =>
        exact (Still.pollBlockPending hloop hfind hstatus hfuture hpanic hdeadline).sound (hset _)

theorem pollTimeout_sound (h : Wf s) (hloop : s.AtJoinNext) {t : TaskId} {env : PollEnv}
    {task : Task} {timeoutAt : Instant} {f : FiberId} (hfind : s.findTask t = some task)
    (hstatus : task.status = .pending) (hfuture : task.future = .timeout timeoutAt f)
    : Sound s (.poll t env) (s.pollTimeout t env timeoutAt f) := by
  have hblock : task.isBlock = false := by simp [Task.isBlock, hfuture]
  have herror (e : Error) : Sound s (.poll t env) (s.complete t (.error e)) := by
    apply (Still.pollReady hloop hfind hstatus hblock (fun _ => ⟨e, rfl⟩)).sound
    exact h.same (.modifyTasks _ _)
  unfold pollTimeout
  split
  . next hexpired =>
    split
    . apply herror
    . apply herror
    . next v exception hinstance =>
      split
      . apply herror
      . next hcheck =>
        obtain ⟨hne, hsuspended⟩ := h.suspended_of_checkSuspended hloop.2 hcheck
        refine ⟨?_, ⟨_, .pollRaise hloop hfind hstatus hfuture hexpired ⟨v, hinstance⟩ hne
          hsuspended, rfl⟩, .inr (.inl hloop.2)⟩
        have hborrowed := h.mutBorrowed (by simp [hloop.1, RunLoop.Borrows])
        have hpolling : Wf { s.setTaskStatus t .polling with runLoop := .polling t } := by
          refine h.loop hloop.2 ?_ (by rfl) (by rfl) (by rfl) (by rfl)
          simp only [RunLoop.Borrows]
          exact hborrowed
        exact hpolling.transfer hloop.2 ⟨rfl, rfl⟩ hne hsuspended
  . exact (Still.pollPending hloop hfind hstatus hblock).sound h

theorem poll_sound (h : Wf s) (hloop : s.AtJoinNext) {t : TaskId} {env : PollEnv}
    (hstep : s.poll t env = some s') : Sound s (.poll t env) s' := by
  unfold poll at hstep
  split at hstep
  . contradiction
  . next task hfind =>
    have hcomplete (result : Result Value) : Wf (s.complete t result) :=
      h.same (.modifyTasks _ _)
    split at hstep
    . next hstatus =>
      injection hstep with hstep
      subst hstep
      unfold pollFuture
      have hready (hblock : task.isBlock = false) (htimeout : task.isTimeout = false)
          (result : Result Value) : Sound s (.poll t env) (s.complete t result) := by
        apply (Still.pollReady hloop hfind hstatus hblock ?_).sound (hcomplete result)
        simp [htimeout]
      have hpending (hblock : task.isBlock = false) : Sound s (.poll t env) s :=
        (Still.pollPending hloop hfind hstatus hblock).sound h
      split
      . next hfuture => apply hready <;> simp [Task.isBlock, Task.isTimeout, hfuture]
      . next hfuture =>
        split
        . apply hready <;> simp [Task.isBlock, Task.isTimeout, hfuture]
        . apply hpending
          simp [Task.isBlock, hfuture]
      . next hfuture =>
        split
        . apply hpending
          simp [Task.isBlock, hfuture]
        . apply hready <;> simp [Task.isBlock, Task.isTimeout, hfuture]
        . apply (Still.pollPanic hloop hfind (.inr ⟨hstatus, by simp [hfuture]⟩)).sound
          exact h.same (.panicTask _ _ _)
      . next hfuture => exact pollBlock_sound h hloop hfind hstatus hfuture
      . next hfuture => exact pollTimeout_sound h hloop hfind hstatus hfuture
    . next hstatus =>
      injection hstep with hstep
      subst hstep
      exact (Still.pollPanic hloop hfind (.inl hstatus)).sound (h.same (.panicTask _ _ _))
    . contradiction
    . contradiction
    . contradiction

theorem join_sound (h : Wf s) (hloop : s.AtJoinNext) {t : TaskId} (hstep : s.join t = some s')
    : Sound s (.join t) s' := by
  have hroot := hloop.2
  have hborrowed := h.mutBorrowed (by simp [hloop.1, RunLoop.Borrows])
  have hfree : (s.removeTask t).releaseFutures.futuresToRun.Free := free_releaseFutures hborrowed
  have hawait : Wf (s.removeTask t).releaseFutures.awaitNext :=
    h.awaitNext hroot hfree rfl rfl rfl rfl
  have herase : (s.removeTask t).releaseFutures.awaitNext.erase = (s.removeTask t).erase :=
    erase_awaitNext hfree
  have hreturn (result : Result Unit) : Wf ((s.removeTask t).releaseFutures.returnRun result) :=
    h.returnRun hroot hfree rfl rfl rfl rfl result
  unfold join at hstep
  split at hstep
  . contradiction
  . next task hfind =>
    dsimp only at hstep
    split at hstep
    . next result hstatus =>
      injection hstep with hstep
      subst hstep
      unfold resumeIfAlive
      have hdrop (hreason : ¬ s.isAlive task.fiber ∨ task.fiber = rootFiber ∨
            ∃ tag, result = .error (.jump tag)) : Effect s (.join t) (s.removeTask t) :=
        .joinDrop hloop hfind (.inr ⟨result, hstatus, hreason⟩)
      split
      . next halive => exact ⟨hawait, ⟨_, hdrop (.inl halive), herase⟩, .inr (.inl hroot)⟩
      . next halive =>
        split
        . next e hcheck =>
          refine ⟨hreturn _, ⟨_, hdrop (.inr (.inl ?_)), rfl⟩, .inr (.inl hroot)⟩
          exact (not_alive_or_eq_of_checkSuspended hcheck).resolve_left halive
        . next hcheck =>
          obtain ⟨hne, hsuspended⟩ := h.suspended_of_checkSuspended hroot hcheck
          have hresuming : Wf { (s.removeTask t).releaseFutures with runLoop := .resuming t } := by
            refine h.loop hroot ?_ (by rfl) (by rfl) (by rfl) (by rfl)
            simp only [RunLoop.Borrows]
            exact hfree
          have hresume (result' : Result Value) (hresult : result' = result)
              (hjump : ∀ tag, result' ≠ .error (.jump tag))
              : Sound s (.join t)
                  ({ (s.removeTask t).releaseFutures with runLoop := .resuming t }.transfer rootFiber
                    (.resumeIfAlive t) task.fiber ⟨result', .task t⟩) := by
            subst hresult
            refine ⟨?_, ⟨_, .joinResume hloop hfind hstatus hjump hne hsuspended, rfl⟩, .inr (.inl hroot)⟩
            exact hresuming.transfer hroot ⟨rfl, rfl⟩ hne hsuspended
          cases result with
          | ok v => exact hresume _ rfl (by simp)
          | error error =>
            cases error with
            | jump tag =>
              refine ⟨?_, ⟨_, hdrop (.inr (.inr ⟨tag, rfl⟩)), rfl⟩, .inr (.inl hroot)⟩
              exact hreturn (.error (.jump tag))
            | error klass message => exact hresume _ rfl (by simp)
            | exception e => exact hresume _ rfl (by simp)
    . next hstatus =>
      injection hstep with hstep
      subst hstep
      exact ⟨hawait, ⟨_, .joinDrop hloop hfind (.inl hstatus), herase⟩, .inr (.inl hroot)⟩
    . contradiction
    . contradiction
    . contradiction

theorem joinNone_sound (h : Wf s) (hloop : s.AtJoinNext) (hstep : s.joinNone = some s')
    : Sound s .joinNone s' := by
  unfold joinNone at hstep
  split at hstep
  . injection hstep with hstep
    subst hstep
    refine ⟨?_, ⟨s, .still (.quiet (by trivial)), rfl⟩, .inr (.inl hloop.2)⟩
    have hborrowed := h.mutBorrowed (by simp [hloop.1, RunLoop.Borrows])
    exact h.returnRun hloop.2 (free_releaseFutures hborrowed) rfl rfl rfl rfl _
  . contradiction

theorem interrupt_sound (h : Wf s) (hloop : s.AtJoinNext) (error : Error)
    : Sound s (.interrupt error) (s.interrupt error) := by
  refine ⟨?_, ⟨_, .still (.interrupt hloop), rfl⟩, .inr (.inl hloop.2)⟩
  have hborrowed := h.mutBorrowed (by simp [hloop.1, RunLoop.Borrows])
  have hfree : s.abortAll.releaseFutures.futuresToRun.Free := free_releaseFutures hborrowed
  exact h.returnRun hloop.2 hfree rfl rfl rfl rfl _

theorem callRuby_sound (h : Wf s) (hloop : s.AtJoinNext) {t : TaskId}
    (hstep : s.callRuby t = some s') : Sound s (.callRuby t) s' := by
  unfold callRuby at hstep
  split at hstep
  . injection hstep with hstep
    subst hstep
    refine ⟨?_, ⟨s, .still (.quiet (by trivial)), rfl⟩, .inr (.inl hloop.2)⟩
    have hborrowed := h.mutBorrowed (by simp [hloop.1, RunLoop.Borrows])
    refine h.loop hloop.2 ?_ (by rfl) (by rfl) (by rfl) (by rfl)
    simp only [RunLoop.Borrows]
    exact hborrowed
  . contradiction

theorem returnRuby_sound (h : Wf s) (hstep : s.returnRuby = some s')
    : Sound s .returnRuby s' := by
  unfold returnRuby at hstep
  split at hstep
  . next t hloop =>
    split at hstep
    . next hroot =>
      injection hstep with hstep
      subst hstep
      refine ⟨?_, ⟨s, .still (.quiet (by trivial)), rfl⟩, .inr (.inl hroot)⟩
      have hborrowed := h.mutBorrowed (by simp [hloop, RunLoop.Borrows])
      refine h.loop hroot ?_ (by rfl) (by rfl) (by rfl) (by rfl)
      simp only [RunLoop.Borrows]
      exact hborrowed
    . contradiction
  all_goals contradiction

/-! ### All steps -/

theorem finish_of_step {result : Result Value} (hstep : step s (.finish result) = some s')
    : ∃ f, s.rubyFiber = some f ∧ f ≠ rootFiber ∧ s.timeouts f = [] ∧ s' = s.finish f result := by
  obtain ⟨f, hf, hfinish⟩ := Option.bind_eq_some_iff.mp hstep
  simp only [Option.ite_none_right_eq_some, Option.some.injEq] at hfinish
  obtain ⟨⟨hne, htimeouts⟩, rfl⟩ := hfinish
  exact ⟨f, hf, hne, htimeouts, rfl⟩

theorem step_sound (h : Wf s) {e : Event} (hstep : step s e = some s') : Sound s e s' := by
  cases e with
  | elapse duration =>
    injection hstep with hstep
    subst hstep
    refine ⟨?_, ⟨s, .still (.quiet (by trivial)), rfl⟩, .inl rfl⟩
    apply h.same
    constructor <;> rfl
  | switch => exact switch_sound h hstep
  | fiber =>
    obtain ⟨f, hf, rfl⟩ := Option.map_eq_some_iff.mp hstep
    exact (Effect.fiber hf).sound (h.fiberImpl hf)
  | hook hook =>
    obtain ⟨f, hf, rfl⟩ := Option.map_eq_some_iff.mp hstep
    exact hook_sound h hf hook
  | block timeout =>
    obtain ⟨f, hf, rfl⟩ := Option.map_eq_some_iff.mp hstep
    exact block_sound h hf timeout
  | unblock fiberToWake =>
    obtain ⟨f, hf, rfl⟩ := Option.map_eq_some_iff.mp hstep
    exact unblock_sound h (some f) (.inl ⟨rfl, hf⟩)
  | timeoutAfter duration =>
    obtain ⟨f, hf, rfl⟩ := Option.map_eq_some_iff.mp hstep
    exact timeoutAfter_sound h hf duration
  | endTimeout =>
    obtain ⟨f, hf, hend⟩ := Option.bind_eq_some_iff.mp hstep
    exact endTimeout_sound h hf hend
  | finish result =>
    obtain ⟨f, hf, hne, -, rfl⟩ := finish_of_step hstep
    exact finish_sound h hf hne result
  | remoteUnblock fiberToWake =>
    injection hstep with hstep
    exact hstep ▸ unblock_sound h none (.inr rfl)
  | run =>
    simp only [step, Option.ite_none_right_eq_some, Option.some.injEq] at hstep
    exact hstep.2 ▸ startRun_sound h (by trivial) hstep.1 s.closing
  | close =>
    simp only [step, Option.ite_none_right_eq_some, Option.some.injEq] at hstep
    exact hstep.2 ▸ startRun_sound h (by trivial) hstep.1 true
  | poll t env =>
    simp only [step, Option.ite_none_right_eq_some] at hstep
    exact poll_sound h hstep.1 hstep.2
  | join t =>
    simp only [step, Option.ite_none_right_eq_some] at hstep
    exact join_sound h hstep.1 hstep.2
  | joinNone =>
    simp only [step, Option.ite_none_right_eq_some] at hstep
    exact joinNone_sound h hstep.1 hstep.2
  | interrupt error =>
    simp only [step, Option.ite_none_right_eq_some, Option.some.injEq] at hstep
    exact hstep.2 ▸ interrupt_sound h hstep.1 error
  | callRuby t =>
    simp only [step, Option.ite_none_right_eq_some] at hstep
    exact callRuby_sound h hstep.1 hstep.2
  | returnRuby => exact returnRuby_sound h hstep

theorem Wf.step (h : Wf s) {e : Event} (hstep : step s e = some s') : Wf s' :=
  (step_sound h hstep).1

theorem Reachable.step (h : Reachable s) {e : Event} (hstep : State.step s e = some s')
    : Reachable s' := by
  obtain ⟨es, hrun⟩ := h
  exact ⟨es ++ [e], Lts.run_append_singleton hrun hstep⟩

theorem Reachable.wf (h : Reachable s) : Wf s := by
  obtain ⟨es, hrun⟩ := h
  exact Lts.invariant (fun _ _ _ h hstep => h.step hstep) .new hrun

end State
end Shreduler
