import Shreduler.TokioScheduler.Lemmas.Run
import Shreduler.TokioScheduler.Lemmas.Tasks

/-!
This module proves when `TokioScheduler::run` leaves no fiber behind inside of a hook, and when
`TokioScheduler::close` leaves nothing behind at all.
-/

namespace Shreduler

/-- `join_next` returns the task and its fiber never hears of it. -/
def TaskStatus.Silent : TaskStatus → Prop
  | .joinError | .ready (.error (.jump _)) => True
  | _ => False

instance (status : TaskStatus) : Decidable status.Silent := by
  unfold TaskStatus.Silent
  casesm* TaskStatus, Result Value, Error <;> infer_instance

namespace State

variable {s s' : State} {f g : FiberId}

def InHook (s : State) (f : FiberId) : Prop :=
  match s.status f with
  | .suspended (.spawnAndTransfer _) => True
  | _ => False

instance (s : State) (f : FiberId) : Decidable (s.InHook f) := by
  unfold InHook
  generalize s.status f = status
  casesm* FiberStatus, Suspension <;> infer_instance

theorem inHook_iff : s.InHook f ↔ ∃ t, s.status f = .suspended (.spawnAndTransfer t) := by
  unfold InHook
  split
  . next t heq => simp [heq]
  . next hne => simpa using hne

theorem InHook.of_update {status : FiberStatus}
    (hstatus : s'.status = Function.update s.status f status)
    (hne : ∀ t, status ≠ .suspended (.spawnAndTransfer t)) (h : s'.InHook g)
    : g ≠ f ∧ s.InHook g := by
  obtain ⟨t, ht⟩ := inHook_iff.mp h
  rw [hstatus] at ht
  by_cases heq : g = f
  . rw [heq, Function.update_self] at ht
    exact absurd ht (hne t)
  . rw [Function.update_of_ne heq] at ht
    exact ⟨heq, inHook_iff.mpr ⟨t, ht⟩⟩

theorem InHook.congr (hstatus : s'.status = s.status) (h : s'.InHook f) : s.InHook f := by
  simpa only [InHook, hstatus] using h

/-- A join that tells the fiber nothing leaves a fiber in a hook another un-joined task. -/
def KeepsFiber (s : State) : Event → Prop
  | .join t =>
    match s.findTask t with
    | some task =>
      task.status.Silent → s.InHook task.fiber →
        ∃ task' ∈ s.tasks, task'.id ≠ t ∧ task'.fiber = task.fiber
    | none => True
  | _ => True

instance (s : State) (e : Event) : Decidable (s.KeepsFiber e) := by
  unfold KeepsFiber
  casesm Event
  case join =>
    dsimp only
    generalize s.findTask e = task
    casesm Option Task <;> infer_instance
  all_goals infer_instance

def Pursued (s : State) (f : FiberId) : Prop :=
  (∃ task ∈ s.tasks, task.fiber = f) ∨ ∃ payload, s.control = .transfer f payload

namespace Pursued

theorem keep (h : s.Pursued f)
    (htasks : ∀ task ∈ s.tasks, task.fiber = f → ∃ task' ∈ s'.tasks, task'.fiber = f)
    (hcontrol : ∀ payload, s.control = .transfer f payload → s'.Pursued f) : s'.Pursued f := by
  cases h with
  | inl htask =>
    obtain ⟨task, hmem, hf⟩ := htask
    exact .inl (htasks task hmem hf)
  | inr htransfer =>
    obtain ⟨payload, htransfer⟩ := htransfer
    exact hcontrol payload htransfer

theorem of_running (h : s.Pursued f) (hrunning : s.control = .running g)
    (htasks : ∀ task ∈ s.tasks, task.fiber = f → ∃ task' ∈ s'.tasks, task'.fiber = f)
    : s'.Pursued f := by
  apply h.keep htasks
  intro payload hcontrol
  rw [hrunning] at hcontrol
  contradiction

theorem of_transfer (h : s.Pursued f) {payload : Payload} (hcontrol : s.control = .transfer g payload)
    (hne : f ≠ g) (htasks : ∀ task ∈ s.tasks, task.fiber = f → ∃ task' ∈ s'.tasks, task'.fiber = f)
    : s'.Pursued f := by
  apply h.keep htasks
  intro payload' hcontrol'
  rw [hcontrol] at hcontrol'
  injection hcontrol' with heq
  exact absurd heq.symm hne

theorem stays (h : s.Pursued f) (hstays : Stays s s') : s'.Pursued f := by
  apply h.keep
  . intro task hmem hf
    obtain ⟨task', hmem', hnext⟩ := hstays.new hmem
    exact ⟨task', hmem', hnext.fiber.trans hf⟩
  . intro payload hcontrol
    exact .inr ⟨payload, hstays.thread.control.trans hcontrol⟩

end Pursued

def HooksPursued (s : State) : Prop := ∀ f, s.InHook f → s.Pursued f

namespace HooksPursued

theorem new : HooksPursued .new := by
  intro f hf
  obtain ⟨t, ht⟩ := inHook_iff.mp hf
  exact absurd (Owned.new.hook f t ht).1 (Nat.not_lt_zero t)

theorem spawned (h : HooksPursued s) {future : Future} (hspawn : Spawned s g future s')
    : HooksPursued s' := by
  intro f hf
  apply (h f (hf.congr hspawn.thread.status)).keep
  . intro task hmem hf
    refine ⟨task, ?_, hf⟩
    rw [hspawn.tasks]
    exact List.mem_append_left _ hmem
  . intro payload hcontrol
    exact .inr ⟨payload, hspawn.thread.control.trans hcontrol⟩

theorem yield (h : HooksPursued s) {future : Future} (hrunning : s.control = .running f)
    (hspawn : Spawned s f future s') : HooksPursued (s'.yield f s.nextTask) := by
  intro g hg
  by_cases heq : g = f
  . refine .inl ⟨s.newTask f future, ?_, heq.symm⟩
    change _ ∈ s'.tasks
    rw [hspawn.tasks]
    exact List.mem_append_right _ (.head _)
  . have hg' : s.InHook g := by
      obtain ⟨t, ht⟩ := inHook_iff.mp hg
      rw [status_yield, Function.update_of_ne heq, hspawn.thread.status] at ht
      exact inHook_iff.mpr ⟨t, ht⟩
    apply (h g hg').of_running hrunning
    intro task hmem hf
    refine ⟨task, ?_, hf⟩
    change task ∈ s'.tasks
    rw [hspawn.tasks]
    exact List.mem_append_left _ hmem

theorem leave (h : HooksPursued s) {status : FiberStatus} {k : FiberId}
    (hrunning : s.control = .running k)
    (hstatus : s'.status = Function.update s.status f status)
    (hne : ∀ t, status ≠ .suspended (.spawnAndTransfer t))
    (htasks : ∀ task ∈ s.tasks, ∃ task' ∈ s'.tasks, task'.fiber = task.fiber)
    : HooksPursued s' := by
  intro g hg
  apply (h g (hg.of_update hstatus hne).2).of_running hrunning
  intro task hmem hf
  obtain ⟨task', hmem', hf'⟩ := htasks task hmem
  exact ⟨task', hmem', hf'.trans hf⟩

theorem arrive (h : HooksPursued s) {payload : Payload} {status : FiberStatus}
    (hcontrol : s.control = .transfer f payload)
    (hstatus : s'.status = Function.update s.status f status)
    (hne : ∀ t, status ≠ .suspended (.spawnAndTransfer t))
    (htasks : ∀ task ∈ s.tasks, ∃ task' ∈ s'.tasks, task'.fiber = task.fiber)
    : HooksPursued s' := by
  intro g hg
  obtain ⟨hgf, hg⟩ := hg.of_update hstatus hne
  apply (h g hg).of_transfer hcontrol hgf
  intro task hmem hf
  obtain ⟨task', hmem', hf'⟩ := htasks task hmem
  exact ⟨task', hmem', hf'.trans hf⟩

theorem setTaskStatus_tasks (s : State) (t : TaskId) (status : TaskStatus)
    : ∀ task ∈ s.tasks, ∃ task' ∈ (s.setTaskStatus t status).tasks, task'.fiber = task.fiber := by
  intro task hmem
  refine ⟨_, List.mem_map_of_mem hmem, ?_⟩
  split <;> rfl

theorem join (h : HooksPursued s) (hnodup : (s.tasks.map (·.id)).Nodup)
    (hrunning : s.control = .running rootFiber) {t : TaskId} {task : Task}
    (hfind : s.findTask t = some task) (htasks : s'.tasks = (s.removeTask t).tasks)
    (hinHook : ∀ f, s'.InHook f → s.InHook f)
    (hother : s.InHook task.fiber → s'.Pursued task.fiber) : HooksPursued s' := by
  intro g hg
  by_cases heq : g = task.fiber
  . exact heq ▸ hother (heq ▸ hinHook g hg)
  . -- the task that leaves the join set is none of the other fibers
    apply (h g (hinHook g hg)).of_running hrunning
    intro task' hmem hf
    refine ⟨task', ?_, hf⟩
    rw [htasks]
    refine List.mem_filter_of_mem hmem ?_
    have hid : task'.id ≠ t := by
      intro hid
      rw [findTask_unique hnodup hfind hmem hid] at hf
      exact heq hf.symm
    simpa using hid

theorem effect (hwf : Wf s) (howned : Owned s) (h : HooksPursued s) {e : Event}
    (hC : s.KeepsFiber e) (heffect : Effect s e s') : HooksPursued s' := by
  have hsame : ∀ task ∈ s.tasks, ∃ task' ∈ s.tasks, task'.fiber = task.fiber :=
    fun task hmem => ⟨task, hmem, rfl⟩
  cases heffect with
  | still hstill =>
    have hstays := hstill.stays howned.nodup
    intro g hg
    exact (h g (hg.congr hstays.thread.status)).stays hstays
  | switchHook hcontrol | switchFiber hcontrol | switchLoop hcontrol =>
    exact h.arrive hcontrol rfl (by simp) hsame
  | switchBack hcontrol => exact h.arrive hcontrol rfl (by simp) hsame
  | switchTimeout hcontrol =>
    exact h.arrive hcontrol rfl (by simp) (setTaskStatus_tasks _ _ _)
  | @fiber f hf =>
    have hrunning := Wf.rubyFiber_running hf
    have hleave : HooksPursued (s.setStatus f (.suspended (.fiberImpl s.nextFiber))) :=
      h.leave hrunning rfl (by simp) hsame
    exact hleave.leave (k := f) hrunning rfl (by simp) hsame
  | hook hf => exact h.yield (Wf.rubyFiber_running hf) (.addTask s _ _)
  | block hf => exact h.yield (Wf.rubyFiber_running hf) (.block s _ _)
  | hookRoot => exact h.spawned (.addTask s _ _)
  | blockRoot => exact h.spawned (.block s _ _)
  | @timeoutAfter f duration =>
    have hadd : HooksPursued (s.addTask f (.timeout (s.now + duration) f)) :=
      h.spawned (.addTask s _ _)
    exact hadd
  | endTimeout => exact h
  | finishDies hf | finishBack hf =>
    exact h.leave (Wf.rubyFiber_running hf) rfl (by simp) hsame
  | pollRaise hloop => exact h.leave hloop.2 rfl (by simp) (setTaskStatus_tasks _ _ _)
  | joinResume hloop hfind =>
    refine h.join howned.nodup hloop.2 hfind (by rfl) ?_ ?_
    . intro g hg
      exact (hg.of_update rfl (by simp)).2
    . intro _
      exact .inr ⟨_, rfl⟩
  | @joinDrop t task hloop hfind hstatus =>
    apply h.join howned.nodup hloop.2 hfind rfl
    . exact fun _ hg => hg
    . intro hhook
      -- a fiber in a hook is alive and not the root fiber, so only a jump gets lost
      have hsilent : task.status.Silent := by
        obtain ⟨t', ht'⟩ := inHook_iff.mp hhook
        cases hstatus with
        | inl hstatus => simp [hstatus, TaskStatus.Silent]
        | inr hready =>
          obtain ⟨result, hstatus, hdead | hroot | ⟨tag, hjump⟩⟩ := hready
          . simp [isAlive, ht'] at hdead
          . exact absurd hroot (hwf.position _ _ ht')
          . simp [hstatus, hjump, TaskStatus.Silent]
      simp only [KeepsFiber, hfind] at hC
      obtain ⟨task', hmem, hid, hf⟩ := hC hsilent hhook
      refine .inl ⟨task', List.mem_filter_of_mem hmem ?_, hf⟩
      simpa using hid

theorem step (hwf : Wf s) (howned : Owned s) (h : HooksPursued s) {e : Event} (hC : s.KeepsFiber e)
    (hstep : step s e = some s') : HooksPursued s' :=
  (step_sound hwf hstep).preserves (fun _ => Iff.rfl) fun _ => h.effect hwf howned hC

theorem not_inHook (h : HooksPursued s) (htasks : s.tasks = []) (hrunning : s.control = .running g)
    (f : FiberId) : ¬ s.InHook f := by
  intro hf
  cases h f hf with
  | inl htask =>
    obtain ⟨task, hmem, -⟩ := htask
    simp [htasks] at hmem
  | inr htransfer =>
    obtain ⟨payload, hcontrol⟩ := htransfer
    rw [hrunning] at hcontrol
    contradiction

end HooksPursued

/--
Whenever `run` returns `Ok(())`, no fiber is suspended inside of `spawn_and_transfer`, as long as no
task of the run was joined over the head of the fiber that waits for it.
-/
theorem no_lost_fiber {es : List Event} {s s' : State} (hrun : Lts.run step .new es = some s)
    (halong : Lts.Along step KeepsFiber .new es) (hstep : step s .joinNone = some s') (f : FiberId)
    : ¬ s'.InHook f := by
  have hinvariant : Wf s ∧ Owned s ∧ HooksPursued s := by
    refine Lts.Along.invariant (J := fun s => Wf s ∧ Owned s ∧ HooksPursued s) ?_
      ⟨.new, .new, .new⟩ halong hrun
    intro s e s' ⟨hwf, howned, h⟩ hC hstep
    exact ⟨hwf.step hstep, howned.step hwf hstep, h.step hwf howned hC hstep⟩
  obtain ⟨-, -, h⟩ := hinvariant
  simp only [State.step, joinNone, Option.ite_none_right_eq_some, Option.some.injEq] at hstep
  obtain ⟨hloop, htasks, rfl⟩ := hstep
  exact h.not_inHook htasks hloop.2 f

theorem no_lost_fiber_of_sleep
    : ∃ s s', Lts.run step .new [.fiber, .hook (.kernelSleep 0), .switch, .run, .poll 0 {}, .join 0,
        .switch, .finish (.ok .nil), .switch] = some s ∧ step s .joinNone = some s' ∧
          ¬ s'.InHook 1 :=
  ⟨_, _, rfl, rfl, @no_lost_fiber [.fiber, .hook (.kernelSleep 0), .switch, .run, .poll 0 {},
    .join 0, .switch, .finish (.ok .nil), .switch] _ _ rfl (by decide) rfl 1⟩

theorem fiber_lost
    : ¬ ∀ es s s', Lts.run step .new es = some s → step s .joinNone = some s' →
        ∀ f, ¬ s'.InHook f := by
  intro hall
  refine hall [.fiber, .hook .ioRead, .switch, .run, .poll 0 { external := .panicked }, .join 0]
    _ _ rfl rfl 1 ?_
  decide

/-! ### The end of `close` -/

def ClosesInOrder (s : State) : Event → Prop
  | .close => s.runtime ∨ s.tasks = []
  | .interrupt _ => ¬ s.closing
  | .switch => ¬ (s.closing ∧ s.LoopRaises)
  | .join t => ¬ (s.closing ∧ s.Undeliverable t)
  | _ => True

instance (s : State) (e : Event) : Decidable (s.ClosesInOrder e) := by
  unfold ClosesInOrder
  casesm Event <;> infer_instance

structure Finalized (s : State) : Prop where
  fibers : ∀ f, ¬ s.InHook f
  tasks : s.tasks = []
  runtime : s.runtime = false

def CloseFinalizes (s : State) (e : Event) : Prop :=
  ∀ s', step s e = some s' → s.RunReturns e s' → s.closing ∨ e.IsClose → s'.Finalized

structure LoopWf (s : State) : Prop where
  runtime : s.runLoop ≠ .idle → s.runtime
  closing : s.runLoop = .idle → s.closing = false

namespace LoopWf

theorem new : LoopWf .new where
  runtime h := by contradiction
  closing _ := rfl

theorem step (hwf : Wf s) (h : LoopWf s) {e : Event} (hstep : step s e = some s') : LoopWf s' := by
  cases loopStep hwf hstep with
  | stays hevent hidle hruntime hclosing =>
    constructor
    . intro hloop
      rw [hruntime]
      exact h.runtime fun hidle' => hloop (hidle.mpr hidle')
    . intro hloop
      rw [hclosing]
      exact h.closing (hidle.mp hloop)
  | starts hroot hruntime hloop hruntime' =>
    constructor
    . intro _
      exact hruntime'
    . intro hidle
      rw [hloop] at hidle
      contradiction
  | returns hreturns hidle hclosing =>
    constructor
    . intro hloop
      exact absurd hidle hloop
    . intro _
      exact hclosing

end LoopWf

structure Kept (s : State) : Prop where
  wf : Wf s
  owned : Owned s
  hooks : HooksPursued s
  loop : LoopWf s

theorem Kept.new : Kept .new := ⟨.new, .new, .new, .new⟩

theorem Kept.step (h : Kept s) {e : Event} (hC : s.KeepsFiber e) (hstep : step s e = some s')
    : Kept s' where
  wf := h.wf.step hstep
  owned := h.owned.step h.wf hstep
  hooks := h.hooks.step h.wf h.owned hC hstep
  loop := h.loop.step h.wf hstep

theorem Kept.finalized (h : Kept s) (htasks : s.tasks = []) (hrunning : s.control = .running f)
    (hruntime : s.runtime = false) : s.Finalized where
  fibers := h.hooks.not_inHook htasks hrunning
  tasks := htasks
  runtime := hruntime

theorem Kept.closesInOrder_of_finalizes (h : Kept s) {e : Event} (hstep : State.step s e = some s')
    (hfinal : s.CloseFinalizes e) : s.ClosesInOrder e := by
  -- an error inside of `close` leaves the runtime in its slot
  have hfails (hloop : s.runLoop ≠ .idle) (hclosing : s.closing) (hfails : RunFails s s') : False := by
    have hruntime := (hfinal s' hstep ⟨.inl hloop, hfails.1⟩ (.inl hclosing)).runtime
    rw [hfails.2, h.loop.runtime hloop] at hruntime
    contradiction
  have hinside (hclosing : s.closing) : s.runLoop ≠ .idle := by
    intro hidle
    rw [h.loop.closing hidle] at hclosing
    contradiction
  cases e with
  | close =>
    have hstep' := hstep
    simp only [State.step, Option.ite_none_right_eq_some, Option.some.injEq] at hstep
    obtain ⟨hroot, rfl⟩ := hstep
    by_cases hruntime : s.runtime
    . exact .inl hruntime
    . simp only [startRun, hruntime] at hstep' hfinal
      exact .inr (hfinal _ hstep' ⟨.inr trivial, rfl⟩ (.inr trivial)).tasks
  | interrupt error =>
    intro hclosing
    simp only [State.step, Option.ite_none_right_eq_some, Option.some.injEq] at hstep
    obtain ⟨hloop, rfl⟩ := hstep
    exact hfails (hinside hclosing) hclosing ⟨rfl, rfl⟩
  | switch =>
    rintro ⟨hclosing, hraises⟩
    exact hfails (hinside hclosing) hclosing (runFails_of_loopRaises hraises hstep)
  | join t =>
    rintro ⟨hclosing, hundeliverable⟩
    simp only [State.step, Option.ite_none_right_eq_some] at hstep
    exact hfails (hinside hclosing) hclosing (runFails_of_undeliverable hundeliverable hstep.2)
  | _ => trivial

theorem Kept.finalizes_of_closesInOrder (h : Kept s) {e : Event} (hkeeps : s.KeepsFiber e)
    (hC : s.ClosesInOrder e) : s.CloseFinalizes e := by
  intro s' hstep hreturns hclosing
  have h' := h.step hkeeps hstep
  cases loopStep h.wf hstep with
  | stays hevent hidle =>
    cases hreturns.1 with
    | inl hloop => exact absurd (hidle.mp hreturns.2) hloop
    | inr hcalls => exact absurd hcalls hevent
  | starts hroot hruntime hloop =>
    have hidle := hreturns.2
    rw [hloop] at hidle
    contradiction
  | @returns result hreason hidle _ _ hok =>
    cases result with
    | ok =>
      have hruntime := hok rfl
      cases hreason with
      | empty hloop htasks =>
        have hclosing : s.closing := hclosing.resolve_right id
        simp only [State.step, joinNone, htasks, Option.ite_none_right_eq_some, Option.some.injEq,
          if_true] at hstep
        obtain ⟨-, rfl⟩ := hstep
        exact h'.finalized htasks hloop.2 (by simp [hruntime, hclosing])
    | error error =>
      obtain ⟨hcalls, hruntime⟩ | rfl | ⟨t, rfl, hundeliverable⟩ | ⟨rfl, hraises⟩ := hreason.error_cases
      . cases e with
        | close =>
          have htasks : s.tasks = [] := hC.resolve_left (by simp [hruntime])
          have hclosed : { s with closing := true }.startRun
              = { s with closing := true }.returnRun (.error (newBaseError "runtime is closed")) :=
            if_neg (by simp [hruntime])
          simp only [State.step, hclosed, Option.ite_none_right_eq_some, Option.some.injEq] at hstep
          obtain ⟨hroot, rfl⟩ := hstep
          exact h'.finalized htasks hroot.2 hruntime
        | run =>
          simp only [State.step, Option.ite_none_right_eq_some] at hstep
          simp [h.loop.closing hstep.1.1, Event.IsClose] at hclosing
        | _ => contradiction
      . exact absurd (hclosing.resolve_right id) hC
      . exact absurd ⟨hclosing.resolve_right id, hundeliverable⟩ hC
      . exact absurd ⟨hclosing.resolve_right id, hraises⟩ hC

/--
As long as the futures of suspended fibers complete, `close` finalizes everything in exactly the runs
in which no call of it finds the runtime gone with tasks left over, and nothing raises into it.
-/
theorem close_finalizes_iff {es : List Event} (hkeeps : Lts.Along step KeepsFiber .new es)
    : Lts.Along step CloseFinalizes .new es ↔ Lts.Along step ClosesInOrder .new es := by
  apply Lts.Along.congr (J := Kept) (fun _ _ _ h hC hstep => h.step hC hstep) ?_ .new hkeeps
  intro s e s' h hkeeps hstep
  constructor
  . exact h.closesInOrder_of_finalizes hstep
  . exact h.finalizes_of_closesInOrder hkeeps

theorem close_finalizes_sleep
    : Lts.Along step CloseFinalizes .new
        [.fiber, .hook (.kernelSleep 0), .switch, .close, .poll 0 {}, .join 0, .switch,
          .finish (.ok .nil), .switch, .joinNone] :=
  (close_finalizes_iff (by decide)).mpr (by decide)

theorem close_leaves_fiber
    : ¬ ∀ es, Lts.Along step KeepsFiber .new es → Lts.Along step CloseFinalizes .new es := by
  intro hall
  have hfinal :=
    (hall
      ([.fiber, .hook (.kernelSleep 0), .switch, .fiber, .hook (.kernelSleep 0), .switch, .close,
        .poll 0 {}, .poll 1 {}, .join 0, .switch,
        .finish (.error (.exception (.object "Boom" 0)))] ++ [.switch]) (by decide)).last rfl rfl
  have htasks := (hfinal _ rfl (by decide) (by decide)).tasks
  contradiction

end State
end Shreduler
