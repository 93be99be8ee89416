import Shreduler.TokioScheduler.Lemmas.Step

/-!
This module says once when a call of `TokioScheduler::run` starts, and when it returns which result.
-/

namespace Shreduler

def Event.CallsRun : Event → Prop
  | .run | .close => True
  | _ => False

def Event.IsClose : Event → Prop
  | .close => True
  | _ => False

instance (e : Event) : Decidable e.CallsRun := by
  unfold Event.CallsRun
  casesm Event <;> infer_instance

instance (e : Event) : Decidable e.IsClose := by
  unfold Event.IsClose
  casesm Event <;> infer_instance

def Result.IsJump : Result Value → Prop
  | .error (.jump _) => True
  | _ => False

instance (result : Result Value) : Decidable result.IsJump := by
  unfold Result.IsJump
  casesm* Result Value, Error <;> infer_instance

theorem Result.isJump_iff {result : Result Value}
    : result.IsJump ↔ ∃ tag, result = .error (.jump tag) := by
  unfold Result.IsJump
  split
  . next tag => simp
  . next hne => simpa using hne

namespace State

variable {s s' : State}

def RunReturns (s : State) (e : Event) (s' : State) : Prop :=
  (s.runLoop ≠ .idle ∨ e.CallsRun) ∧ s'.runLoop = .idle

instance (s : State) (e : Event) (s' : State) : Decidable (s.RunReturns e s') :=
  inferInstanceAs (Decidable (_ ∧ _))

inductive Returns (s : State) : Event → Result Unit → Prop where
  | closed {e} (hevent : e.CallsRun) (hroot : s.AtRootCode) (hruntime : s.runtime = false)
    : Returns s e (.error (newBaseError "runtime is closed"))
  | empty (hloop : s.AtJoinNext) (htasks : s.tasks = []) : Returns s .joinNone (.ok ())
  | interrupted {error} (hloop : s.AtJoinNext) : Returns s (.interrupt error) (.error error)
  | rootTask {t task result error} (hloop : s.AtJoinNext) (hfind : s.findTask t = some task)
    (hstatus : task.status = .ready result) (halive : s.isAlive task.fiber)
    (hroot : task.fiber = rootFiber) : Returns s (.join t) (.error error)
  | jump {t task tag} (hloop : s.AtJoinNext) (hfind : s.findTask t = some task)
    (hstatus : task.status = .ready (.error (.jump tag))) (halive : s.isAlive task.fiber)
    : Returns s (.join t) (.error (.jump tag))
  | raised {t error origin} (hcontrol : s.control = .transfer rootFiber ⟨.error error, origin⟩)
    (hstatus : s.status rootFiber = .suspended (.resumeIfAlive t))
    : Returns s .switch (.error error)

inductive LoopStep (s : State) (e : Event) (s' : State) : Prop where
  | stays (hevent : ¬ e.CallsRun) (hidle : s'.runLoop = .idle ↔ s.runLoop = .idle)
    (hruntime : s'.runtime = s.runtime) (hclosing : s'.closing = s.closing)
  | starts (hroot : s.AtRootCode) (hruntime : s.runtime) (hloop : s'.runLoop = .joinNext)
    (hruntime' : s'.runtime)
  | returns {result} (hreturns : Returns s e result) (hidle : s'.runLoop = .idle)
    (hclosing : s'.closing = false) (hresult : s'.runResult = some result)
    (hok : result = .ok () → s'.runtime = (s.runtime && !s.closing))
    (herror : result ≠ .ok () → s'.runtime = s.runtime)

/-! ### Steps that leave the event loop alone -/

structure SameLoop (s s' : State) : Prop where
  runLoop : s'.runLoop = s.runLoop
  runtime : s'.runtime = s.runtime
  closing : s'.closing = s.closing

namespace SameLoop

variable {s'' : State}

theorem refl (s : State) : SameLoop s s := by
  constructor <;> rfl

theorem trans (h : SameLoop s s') (h' : SameLoop s' s'') : SameLoop s s'' where
  runLoop := h'.runLoop.trans h.runLoop
  runtime := h'.runtime.trans h.runtime
  closing := h'.closing.trans h.closing

theorem dropRx (s : State) (ch : ChanId) : SameLoop s (s.dropRx ch) := by
  rw [dropRx_eq]
  constructor <;> rfl

theorem dropFuture (s : State) (future : Future) : SameLoop s (s.dropFuture future) := by
  rw [dropFuture_eq]
  constructor <;> rfl

theorem addTask (s : State) (f : FiberId) (future : Future)
    : SameLoop s (s.addTask f future) := by
  unfold State.addTask
  dsimp only
  split
  . constructor <;> rfl
  . refine trans ?_ (dropFuture _ future)
    constructor <;> rfl

theorem spawn (s : State) (f : FiberId) (future : Future) : SameLoop s (s.spawn f future).2 := by
  unfold State.spawn
  split
  . apply dropFuture
  . next cell _ =>
    have hadd := addTask { s with futuresToRun := cell } f future
    exact ⟨hadd.runLoop, hadd.runtime, hadd.closing⟩

theorem spawnAndTransfer (s : State) (f : FiberId) (future : Future)
    : SameLoop s (s.spawnAndTransfer f future).2 := by
  have hspawn := spawn s f future
  unfold State.spawnAndTransfer
  split
  . next heq =>
    rw [heq] at hspawn
    exact hspawn
  . next heq =>
    rw [heq] at hspawn
    split
    . exact hspawn
    . exact ⟨hspawn.runLoop, hspawn.runtime, hspawn.closing⟩

theorem insertBlocker (s : State) (f : FiberId) (tx : ChanId)
    : SameLoop s (s.insertBlocker f tx) := by
  rw [State.insertBlocker, dropTx_eq]
  constructor <;> rfl

theorem block (s : State) (f : FiberId) (timeout : Option Duration)
    : SameLoop s (s.block f timeout).2 := by
  unfold State.block
  dsimp only
  split
  . constructor <;> rfl
  . next cell _ =>
    refine trans ?_ (spawnAndTransfer _ f _)
    have hinsert := insertBlocker
      { s.setChan s.nextChan .unsent with nextChan := s.nextChan + 1, blockers := cell } f s.nextChan
    exact ⟨hinsert.runLoop, hinsert.runtime, hinsert.closing⟩

theorem unblock (s : State) (current : Option FiberId) (fiberToWake : Value)
    : SameLoop s (s.unblock current fiberToWake).2 := by
  unfold State.unblock
  split
  . apply refl
  . split
    . apply refl
    . split
      . apply refl
      . dsimp only
        split
        . constructor <;> rfl
        . split <;> constructor <;> rfl

theorem timeoutAfter (s : State) (f : FiberId) (duration : Duration)
    : SameLoop s (s.timeoutAfter f duration).2 := by
  have hspawn := spawn s f (.timeout (s.now + duration) f)
  unfold State.timeoutAfter
  dsimp only
  split
  . next heq =>
    rw [heq] at hspawn
    exact hspawn
  . next heq =>
    rw [heq] at hspawn
    exact ⟨hspawn.runLoop, hspawn.runtime, hspawn.closing⟩

theorem endTimeout {f : FiberId} (h : s.endTimeout f = some s') : SameLoop s s' := by
  unfold State.endTimeout at h
  split at h
  . contradiction
  . injection h with h
    subst h
    constructor <;> rfl

theorem finish (s : State) (f : FiberId) (result : Result Value)
    : SameLoop s (s.finish f result) := by
  unfold State.finish
  split
  . constructor <;> rfl
  . split
    . constructor <;> rfl
    . split
      . constructor <;> rfl
      . split
        . next heq =>
          unfold State.raise at heq
          split at heq
          . contradiction
          . injection heq with heq
            subst heq
            constructor <;> rfl
        . constructor <;> rfl

theorem finishBlock (s : State) (t : TaskId) (result : Result Value)
    : SameLoop s (s.finishBlock t result) := by
  unfold State.finishBlock
  split
  . constructor <;> rfl
  . dsimp only
    rw [dropTx_eq]
    constructor <;> rfl

theorem panicTask (s : State) (t : TaskId) (future : Future)
    : SameLoop s (s.panicTask t future) := by
  rw [State.panicTask, dropFuture_eq]
  constructor <;> rfl

theorem pollBlock (s : State) (t : TaskId) (env : PollEnv) (rx : ChanId)
    (timeout : Option Duration) (deadline : Option Instant)
    : SameLoop s (s.pollBlock t env rx timeout deadline) := by
  have hset (future : Future) : SameLoop s (s.setFuture t future) := by
    constructor <;> rfl
  unfold State.pollBlock
  dsimp only
  split
  . apply panicTask
  . split
    . exact (hset _).trans (finishBlock _ _ _)
    . exact (hset _).trans (finishBlock _ _ _)
    all_goals
      split
      . exact ((hset _).trans (dropRx _ _)).trans (finishBlock _ _ _)
      . apply hset

end SameLoop

theorem LoopStep.of_same {e : Event} (h : SameLoop s s') (hevent : ¬ e.CallsRun) : LoopStep s e s' :=
  .stays hevent (by rw [h.runLoop]) h.runtime h.closing

theorem LoopStep.inside {e : Event} (hevent : ¬ e.CallsRun) (hloop : s.runLoop ≠ .idle)
    (hloop' : s'.runLoop ≠ .idle) (hruntime : s'.runtime = s.runtime)
    (hclosing : s'.closing = s.closing) : LoopStep s e s' :=
  .stays hevent (iff_of_false hloop' hloop) hruntime hclosing

/-! ### The event loop -/

theorem loopStep_awaitNext {e : Event} (hevent : ¬ e.CallsRun) (hloop : s.runLoop ≠ .idle)
    (hfree : s'.futuresToRun.Free) (hruntime : s'.runtime = s.runtime)
    (hclosing : s'.closing = s.closing) : LoopStep s e s'.awaitNext := by
  rw [awaitNext_of_free hfree]
  exact .inside hevent hloop (by simp) hruntime hclosing

theorem loopStep_returnRun {e : Event} {result : Result Unit} (hreturns : Returns s e result)
    (hruntime : s'.runtime = s.runtime) (hclosing : s'.closing = s.closing)
    : LoopStep s e (s'.returnRun result) := by
  refine .returns hreturns rfl rfl rfl ?_ ?_
  . rintro rfl
    simp only [returnRun, hruntime, hclosing]
  . intro hne
    cases result with
    | ok => exact absurd rfl hne
    | error => exact hruntime

theorem loopStep_startRun {e : Event} (hevent : e.CallsRun) (hroot : s.AtRootCode)
    (hfree : s.futuresToRun.Free) (closing : Bool) : LoopStep s e { s with closing }.startRun := by
  unfold startRun
  split
  . next hruntime =>
    rw [awaitNext_of_free (by exact hfree)]
    exact .starts hroot hruntime rfl hruntime
  . next hruntime =>
    refine .returns (.closed hevent hroot (by simpa using hruntime)) rfl rfl rfl ?_ ?_
    . simp
    . intro _
      rfl

theorem loopStep_switch (hwf : Wf s) (hstep : s.switch = some s') : LoopStep s .switch s' := by
  have hevent : ¬ Event.switch.CallsRun := id
  unfold switch at hstep
  split at hstep
  . contradiction
  . next f payload hcontrol =>
    split at hstep
    . injection hstep with hstep
      subst hstep
      exact .of_same ⟨rfl, rfl, rfl⟩ hevent
    . injection hstep with hstep
      subst hstep
      exact .of_same ⟨rfl, rfl, rfl⟩ hevent
    . injection hstep with hstep
      subst hstep
      exact .of_same ⟨rfl, rfl, rfl⟩ hevent
    . next t hstatus =>
      obtain ⟨rfl, hloop⟩ := hwf.position f _ hstatus
      have hfree := hwf.free (by simp [hloop, RunLoop.Borrows])
      split at hstep
      . injection hstep with hstep
        subst hstep
        exact loopStep_awaitNext hevent (by simp [hloop]) (by exact hfree) rfl rfl
      . next error herror =>
        injection hstep with hstep
        subst hstep
        have hraised : s.control = .transfer rootFiber ⟨.error error, payload.origin⟩ := by
          rw [hcontrol, ← herror]
        exact loopStep_returnRun (.raised hraised hstatus) rfl rfl
    . next t hstatus =>
      obtain ⟨rfl, hloop⟩ := hwf.position f _ hstatus
      injection hstep with hstep
      subst hstep
      exact .inside hevent (by simp [hloop]) (by simp) rfl rfl
    all_goals contradiction

theorem loopStep_poll {t : TaskId} {env : PollEnv} (hloop : s.runLoop ≠ .idle)
    (hstep : s.poll t env = some s') : LoopStep s (.poll t env) s' := by
  have hevent : ¬ (Event.poll t env).CallsRun := id
  have hcomplete (result : Result Value) : LoopStep s (.poll t env) (s.complete t result) :=
    .of_same ⟨rfl, rfl, rfl⟩ hevent
  have hpending : LoopStep s (.poll t env) s := .of_same (.refl s) hevent
  have hpanic (future : Future) : LoopStep s (.poll t env) (s.panicTask t future) :=
    .of_same (.panicTask s t future) hevent
  unfold poll at hstep
  split at hstep
  . contradiction
  . split at hstep
    . injection hstep with hstep
      subst hstep
      unfold pollFuture
      split
      . apply hcomplete
      . split
        . apply hcomplete
        . exact hpending
      . split
        . exact hpending
        . apply hcomplete
        . apply hpanic
      . exact .of_same (.pollBlock _ _ _ _ _ _) hevent
      . unfold pollTimeout
        split
        . split
          . apply hcomplete
          . apply hcomplete
          . split
            . apply hcomplete
            . exact .inside hevent hloop (by simp [transfer, setStatus]) rfl rfl
        . exact hpending
    . injection hstep with hstep
      exact hstep ▸ hpanic _
    all_goals contradiction

theorem loopStep_join (hwf : Wf s) (hloop : s.AtJoinNext) {t : TaskId} (hstep : s.join t = some s')
    : LoopStep s (.join t) s' := by
  have hevent : ¬ (Event.join t).CallsRun := id
  have hidle : s.runLoop ≠ .idle := by simp [hloop.1]
  have hborrowed := hwf.mutBorrowed (by simp [hloop.1, RunLoop.Borrows])
  have hfree : (s.removeTask t).releaseFutures.futuresToRun.Free := free_releaseFutures hborrowed
  have hawait : LoopStep s (.join t) (s.removeTask t).releaseFutures.awaitNext :=
    loopStep_awaitNext hevent hidle hfree rfl rfl
  unfold join at hstep
  split at hstep
  . contradiction
  . next task hfind =>
    dsimp only at hstep
    split at hstep
    . next result hstatus =>
      injection hstep with hstep
      subst hstep
      unfold resumeIfAlive
      split
      . exact hawait
      . next halive =>
        have halive : s.isAlive task.fiber := Decidable.not_not.mp halive
        split
        . next e hcheck =>
          refine loopStep_returnRun (.rootTask hloop hfind hstatus halive ?_) rfl rfl
          exact (not_alive_or_eq_of_checkSuspended hcheck).resolve_left (not_not.mpr halive)
        . have hresume (payload : Payload) : LoopStep s (.join t)
              ({ (s.removeTask t).releaseFutures with runLoop := .resuming t }.transfer rootFiber
                (.resumeIfAlive t) task.fiber payload) :=
            .inside hevent hidle (by simp [transfer, setStatus]) rfl rfl
          cases result with
          | ok v => apply hresume
          | error error =>
            cases error with
            | jump tag =>
              exact loopStep_returnRun (.jump hloop hfind hstatus halive) rfl rfl
            | error klass message => apply hresume
            | exception e => apply hresume
    . injection hstep with hstep
      exact hstep ▸ hawait
    all_goals contradiction

/-! ### All steps -/

theorem loopStep (hwf : Wf s) {e : Event} (hstep : step s e = some s') : LoopStep s e s' := by
  cases e with
  | elapse duration =>
    injection hstep with hstep
    subst hstep
    exact .of_same ⟨rfl, rfl, rfl⟩ id
  | switch => exact loopStep_switch hwf hstep
  | fiber =>
    obtain ⟨f, hf, rfl⟩ := Option.map_eq_some_iff.mp hstep
    exact .of_same ⟨rfl, rfl, rfl⟩ id
  | hook hook =>
    obtain ⟨f, hf, rfl⟩ := Option.map_eq_some_iff.mp hstep
    exact .of_same (.spawnAndTransfer _ _ _) id
  | block timeout =>
    obtain ⟨f, hf, rfl⟩ := Option.map_eq_some_iff.mp hstep
    exact .of_same (.block _ _ _) id
  | unblock fiberToWake =>
    obtain ⟨f, hf, rfl⟩ := Option.map_eq_some_iff.mp hstep
    exact .of_same (.unblock _ _ _) id
  | timeoutAfter duration =>
    obtain ⟨f, hf, rfl⟩ := Option.map_eq_some_iff.mp hstep
    exact .of_same (.timeoutAfter _ _ _) id
  | endTimeout =>
    obtain ⟨f, hf, hend⟩ := Option.bind_eq_some_iff.mp hstep
    exact .of_same (.endTimeout hend) id
  | finish result =>
    obtain ⟨f, -, -, -, rfl⟩ := finish_of_step hstep
    exact .of_same (.finish _ _ _) id
  | remoteUnblock fiberToWake =>
    injection hstep with hstep
    exact hstep ▸ .of_same (.unblock _ _ _) id
  | run =>
    simp only [step, Option.ite_none_right_eq_some, Option.some.injEq] at hstep
    obtain ⟨hroot, rfl⟩ := hstep
    exact loopStep_startRun (by trivial) hroot (hwf.free (by simp [hroot.1, RunLoop.Borrows])) s.closing
  | close =>
    simp only [step, Option.ite_none_right_eq_some, Option.some.injEq] at hstep
    obtain ⟨hroot, rfl⟩ := hstep
    exact loopStep_startRun (by trivial) hroot (hwf.free (by simp [hroot.1, RunLoop.Borrows])) true
  | poll t env =>
    simp only [step, Option.ite_none_right_eq_some] at hstep
    exact loopStep_poll (by simp [hstep.1.1]) hstep.2
  | join t =>
    simp only [step, Option.ite_none_right_eq_some] at hstep
    exact loopStep_join hwf hstep.1 hstep.2
  | joinNone =>
    simp only [step, joinNone, Option.ite_none_right_eq_some, Option.some.injEq] at hstep
    obtain ⟨hloop, htasks, rfl⟩ := hstep
    exact loopStep_returnRun (.empty hloop htasks) rfl rfl
  | interrupt error =>
    simp only [step, Option.ite_none_right_eq_some, Option.some.injEq] at hstep
    obtain ⟨hloop, rfl⟩ := hstep
    exact loopStep_returnRun (.interrupted hloop) rfl rfl
  | callRuby t =>
    simp only [step, callRuby, Option.ite_none_right_eq_some, Option.some.injEq] at hstep
    obtain ⟨hloop, -, rfl⟩ := hstep
    exact .inside id (by simp [hloop.1]) (by simp) rfl rfl
  | returnRuby =>
    simp only [step, returnRuby] at hstep
    split at hstep
    . next t hloop =>
      simp only [Option.ite_none_right_eq_some, Option.some.injEq] at hstep
      obtain ⟨-, rfl⟩ := hstep
      exact .inside id (by simp [hloop]) (by simp) rfl rfl
    all_goals contradiction

/-! ### What makes `run` return an error -/

def Undeliverable (s : State) (t : TaskId) : Prop :=
  match s.findTask t with
  | some task =>
    match task.status with
    | .ready result => s.isAlive task.fiber ∧ (task.fiber = rootFiber ∨ result.IsJump)
    | _ => False
  | none => False

instance (s : State) (t : TaskId) : Decidable (s.Undeliverable t) := by
  unfold Undeliverable
  generalize s.findTask t = task
  casesm Option Task
  case some task =>
    dsimp only
    generalize task.status = status
    casesm TaskStatus <;> infer_instance
  all_goals infer_instance

def LoopRaises (s : State) : Prop :=
  match s.control, s.status rootFiber with
  | .transfer f ⟨.error _, _⟩, .suspended (.resumeIfAlive _) => f = rootFiber
  | _, _ => False

instance (s : State) : Decidable s.LoopRaises := by
  unfold LoopRaises
  generalize s.control = control
  generalize s.status rootFiber = status
  casesm* Control, Payload, Result Value, FiberStatus, Suspension <;> infer_instance

theorem undeliverable_iff {t : TaskId}
    : s.Undeliverable t ↔ ∃ task result, s.findTask t = some task ∧ task.status = .ready result ∧
        s.isAlive task.fiber ∧ (task.fiber = rootFiber ∨ result.IsJump) := by
  unfold Undeliverable
  split
  . next task hfind =>
    split
    . next result hstatus => simp [hfind, hstatus]
    . next hne =>
      refine iff_of_false id ?_
      rintro ⟨task', result, hfind', hstatus, -⟩
      rw [hfind] at hfind'
      injection hfind' with heq
      exact hne result (heq ▸ hstatus)
  . next hfind => simp [hfind]

theorem loopRaises_iff
    : s.LoopRaises ↔ ∃ t error origin, s.control = .transfer rootFiber ⟨.error error, origin⟩ ∧
        s.status rootFiber = .suspended (.resumeIfAlive t) := by
  unfold LoopRaises
  split
  . next f error origin t hcontrol hstatus => simp [hcontrol, hstatus]
  . next hne =>
    refine iff_of_false id ?_
    rintro ⟨t, error, origin, hcontrol, hstatus⟩
    exact hne _ _ _ _ hcontrol hstatus

theorem Returns.error_cases {e : Event} {error : Error} (h : Returns s e (.error error))
    : e.CallsRun ∧ s.runtime = false ∨ e = .interrupt error ∨
        (∃ t, e = .join t ∧ s.Undeliverable t) ∨ e = .switch ∧ s.LoopRaises := by
  cases h with
  | closed hevent hroot hruntime => exact .inl ⟨hevent, hruntime⟩
  | interrupted => exact .inr (.inl rfl)
  | @rootTask t task result error hloop hfind hstatus halive hroot =>
    refine .inr (.inr (.inl ⟨t, rfl, undeliverable_iff.mpr ?_⟩))
    exact ⟨task, result, hfind, hstatus, halive, .inl hroot⟩
  | @jump t task tag hloop hfind hstatus halive =>
    refine .inr (.inr (.inl ⟨t, rfl, undeliverable_iff.mpr ?_⟩))
    exact ⟨task, _, hfind, hstatus, halive, .inr trivial⟩
  | raised hcontrol hstatus =>
    exact .inr (.inr (.inr ⟨rfl, loopRaises_iff.mpr ⟨_, _, _, hcontrol, hstatus⟩⟩))

def RunFails (s s' : State) : Prop := s'.runLoop = .idle ∧ s'.runtime = s.runtime

theorem runFails_of_loopRaises (h : s.LoopRaises) (hstep : s.switch = some s') : RunFails s s' := by
  obtain ⟨t, error, origin, hcontrol, hstatus⟩ := loopRaises_iff.mp h
  simp only [switch, hcontrol, hstatus, Option.some.injEq] at hstep
  subst hstep
  exact ⟨rfl, rfl⟩

theorem runFails_of_undeliverable {t : TaskId} (h : s.Undeliverable t) (hstep : s.join t = some s')
    : RunFails s s' := by
  obtain ⟨task, result, hfind, hstatus, halive, hreason⟩ := undeliverable_iff.mp h
  have halive : (s.removeTask t).releaseFutures.isAlive task.fiber := halive
  simp only [join, hfind, hstatus, Option.some.injEq, resumeIfAlive, halive, not_true,
    if_false] at hstep
  subst hstep
  by_cases hroot : task.fiber = rootFiber
  . rw [hroot] at halive ⊢
    simp only [checkSuspended, halive, not_true, if_false, if_true]
    exact ⟨rfl, rfl⟩
  . obtain ⟨tag, rfl⟩ := Result.isJump_iff.mp (hreason.resolve_left hroot)
    simp only [checkSuspended, halive, Option.some.injEq, Ne.symm hroot, not_true, if_false]
    exact ⟨rfl, rfl⟩

theorem step_join_of_deliverable {t : TaskId} {task : Task} {result : Result Value}
    (hloop : s.AtJoinNext) (hfind : s.findTask t = some task) (hstatus : task.status = .ready result)
    (halive : s.isAlive task.fiber) (hdeliverable : ¬ s.Undeliverable t)
    : ∃ s', step s (.join t) = some s' ∧ s'.control = .transfer task.fiber ⟨result, .task t⟩ := by
  have hreason : ¬ (task.fiber = rootFiber ∨ result.IsJump) := by
    intro hreason
    exact hdeliverable (undeliverable_iff.mpr ⟨task, result, hfind, hstatus, halive, hreason⟩)
  rw [not_or] at hreason
  have hcheck : (s.removeTask t).releaseFutures.checkSuspended (some rootFiber) task.fiber = .ok () :=
    checkSuspended_eq_ok_iff.mpr ⟨halive, hreason.1⟩
  have halive : (s.removeTask t).releaseFutures.isAlive task.fiber := halive
  simp only [step, hloop, if_true, join, hfind, hstatus, resumeIfAlive, halive, not_true, if_false,
    hcheck]
  cases result with
  | ok v => exact ⟨_, rfl, rfl⟩
  | error error =>
    cases error with
    | jump tag => exact absurd trivial hreason.2
    | error klass message => exact ⟨_, rfl, rfl⟩
    | exception e => exact ⟨_, rfl, rfl⟩

end State
end Shreduler
