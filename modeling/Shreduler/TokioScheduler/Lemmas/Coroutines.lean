import Shreduler.Coroutine.Basic
import Shreduler.Lts.Refinement
import Shreduler.TokioScheduler.Lemmas.Tasks

/-!
This module proves that the scheduler uses the fibers of its thread as Ruby allows: whatever it transfers
to or raises into has been started, is not over, and is not the fiber that runs already.
-/

namespace Shreduler

open Coroutine (Move)

def FiberStatus.coroutine : FiberStatus → Coroutine.Status
  | .unborn => .unborn
  | .running | .suspended _ => .parked
  | .terminated => .dead

namespace State

variable {s s' : State}

def holder (s : State) : FiberId :=
  match s.control with
  | .running f | .transfer f _ => f

def coroutines (s : State) : Coroutine.State FiberId := fun f =>
  if f = s.holder then .active else (s.status f).coroutine

def moved (s : State) (_ : Event) (s' : State) : List (Move FiberId) :=
  if s'.holder = s.holder then
    []
  else if s.status s'.holder = .unborn then
    [.create s.holder s'.holder]
  else if s'.status s.holder = .terminated then
    [.exit s.holder s'.holder]
  else
    [.transfer s.holder s'.holder]

abbrev Moves (s : State) (e : Event) (s' : State) : Prop :=
  Lts.run Coroutine.step s.coroutines (moved s e s') = some s'.coroutines

theorem holder_of_running {f : FiberId} (h : s.control = .running f) : s.holder = f := by
  simp only [holder, h]

theorem holder_of_transfer {f : FiberId} {payload : Payload} (h : s.control = .transfer f payload)
    : s.holder = f := by
  simp only [holder, h]

theorem coroutines_holder (s : State) : s.coroutines s.holder = .active := if_pos rfl

theorem coroutines_of_ne {f : FiberId} (h : f ≠ s.holder)
    : s.coroutines f = (s.status f).coroutine := if_neg h

theorem Moves.stays {e : Event} (status : FiberStatus) (hholder : s'.holder = s.holder)
    (hstatus : s'.status = Function.update s.status s.holder status) : Moves s e s' := by
  have hcoroutines : s'.coroutines = s.coroutines := by
    funext f
    simp only [coroutines, hholder, hstatus]
    split
    . rfl
    . next hf => rw [Function.update_of_ne hf]
  rw [Moves, moved, if_pos hholder, Lts.run_nil, hcoroutines]

theorem Moves.same {e : Event} (hcontrol : s'.control = s.control) (hstatus : s'.status = s.status)
    : Moves s e s' := by
  apply Moves.stays (s.status s.holder)
  . simp only [holder, hcontrol]
  . rw [hstatus, Function.update_eq_self]

theorem coroutines_of_update {g : FiberId} {status : FiberStatus} (hne : g ≠ s.holder)
    (hholder : s'.holder = g) (hstatus : s'.status = Function.update s.status s.holder status)
    : s'.coroutines = Coroutine.handOver s.coroutines s.holder status.coroutine g := by
  subst hholder
  funext f
  unfold Coroutine.handOver
  by_cases hfg : f = s'.holder
  . rw [hfg, Function.update_self, coroutines_holder]
  . rw [Function.update_of_ne hfg, coroutines_of_ne hfg, hstatus]
    by_cases hf : f = s.holder
    . rw [hf, Function.update_self, Function.update_self]
    . rw [Function.update_of_ne hf, Function.update_of_ne hf, coroutines_of_ne hf]

theorem Moves.handOver {e : Event} {g : FiberId} {status : FiberStatus} (hne : g ≠ s.holder)
    (hholder : s'.holder = g) (hstatus : s'.status = Function.update s.status s.holder status)
    (hg : ∃ sus, s.status g = .suspended sus)
    (hleft : status = .terminated ∨ ∃ sus, status = .suspended sus) : Moves s e s' := by
  obtain ⟨sus, hsus⟩ := hg
  have hparked : s.coroutines g = .parked := by
    simp only [coroutines, if_neg hne, hsus, FiberStatus.coroutine]
  have hself : s'.status s.holder = status := by
    rw [hstatus, Function.update_self]
  rw [Moves, coroutines_of_update hne hholder hstatus, moved, hholder, if_neg hne, hsus,
    if_neg (by simp), hself]
  obtain rfl | ⟨sus', rfl⟩ := hleft
  . rw [if_pos rfl]
    refine Lts.run_cons_eq_some.mpr ⟨_, ?_, rfl⟩
    simp only [Coroutine.step, coroutines_holder, hparked, and_self, if_true]
    rfl
  . rw [if_neg (by simp)]
    refine Lts.run_cons_eq_some.mpr ⟨_, ?_, rfl⟩
    simp only [Coroutine.step, coroutines_holder, hparked, and_self, if_true]
    rfl

theorem Moves.create (hwf : Wf s) {f : FiberId} (hf : s.control = .running f) (e : Event)
    : Moves s e (s.fiberImpl f) := by
  have hholder := holder_of_running hf
  have hnew := hwf.unborn s.nextFiber (Nat.le_refl _)
  have hne : s.nextFiber ≠ f := Nat.ne_of_gt (hwf.lt_nextFiber (hwf.alive_of_running hf))
  have hunborn : s.coroutines s.nextFiber = .unborn := by
    simp only [coroutines, hholder, if_neg hne, hnew, FiberStatus.coroutine]
  have hcoroutines : (s.fiberImpl f).coroutines
      = Coroutine.handOver s.coroutines f .parked s.nextFiber := by
    have htarget : (s.fiberImpl f).holder = s.nextFiber := rfl
    funext k
    unfold Coroutine.handOver
    by_cases hk : k = s.nextFiber
    . rw [hk, Function.update_self, ← htarget, coroutines_holder]
    . rw [Function.update_of_ne hk, coroutines_of_ne (htarget.symm ▸ hk)]
      simp only [fiberImpl, setStatus, Function.update_of_ne hk]
      by_cases hkf : k = f
      . rw [hkf, Function.update_self, Function.update_self]
        rfl
      . rw [Function.update_of_ne hkf, Function.update_of_ne hkf, coroutines_of_ne (hholder.symm ▸ hkf)]
  have hactive : s.coroutines f = .active := hholder ▸ coroutines_holder s
  have hmoved : moved s e (s.fiberImpl f) = [.create f s.nextFiber] := by
    have htarget : (s.fiberImpl f).holder = s.nextFiber := rfl
    rw [moved, htarget, hholder, if_neg hne, hnew, if_pos rfl]
  rw [Moves, hmoved, hcoroutines]
  refine Lts.run_cons_eq_some.mpr ⟨_, ?_, rfl⟩
  simp only [Coroutine.step, hactive, hunborn, and_self, if_true]

theorem suspended_root_of_ne (hwf : Wf s) {f : FiberId} (hf : s.control = .running f)
    (hne : f ≠ rootFiber) : ∃ sus, s.status rootFiber = .suspended sus := by
  apply hwf.suspended_root
  rw [hf]
  intro h
  injection h with h
  exact hne h

theorem Effect.moves (hwf : Wf s) {e : Event} (h : Effect s e s') : Moves s e s' := by
  cases h with
  | still hstill =>
    apply Moves.same
    . apply hstill.thread.control
    . apply hstill.thread.status
  | switchHook hcontrol | switchFiber hcontrol | switchLoop hcontrol | switchTimeout hcontrol =>
    apply Moves.stays .running
    . rw [holder_of_transfer hcontrol]
      rfl
    . rw [holder_of_transfer hcontrol]
      rfl
  | @switchBack f payload hcontrol hstatus =>
    have hholder := holder_of_transfer hcontrol
    have hne : f ≠ rootFiber := hwf.position f _ hstatus
    subst hholder
    apply Moves.handOver hne.symm rfl rfl
    . apply hwf.suspended_root
      rw [hcontrol]
      simp
    . apply Or.inl rfl
  | fiber hf => exact .create hwf (Wf.rubyFiber_running hf) _
  | @hook f hook hf hloop hne =>
    have hcontrol := Wf.rubyFiber_running hf
    have hroot := suspended_root_of_ne hwf hcontrol hne
    have hholder := holder_of_running hcontrol
    subst hholder
    apply Moves.handOver hne.symm
    . rfl
    . rw [status_yield, (Spawned.addTask s _ _).thread.status]
    . exact hroot
    . exact .inr ⟨_, rfl⟩
  | @block f timeout hf hloop hne =>
    have hcontrol := Wf.rubyFiber_running hf
    have hroot := suspended_root_of_ne hwf hcontrol hne
    have hholder := holder_of_running hcontrol
    subst hholder
    apply Moves.handOver hne.symm
    . rfl
    . rw [status_yield, (Spawned.block s _ _).thread.status]
    . exact hroot
    . exact .inr ⟨_, rfl⟩
  | hookRoot =>
    apply Moves.same
    . apply (Spawned.addTask s _ _).thread.control
    . apply (Spawned.addTask s _ _).thread.status
  | blockRoot =>
    apply Moves.same
    . apply (Spawned.block s _ _).thread.control
    . apply (Spawned.block s _ _).thread.status
  | @timeoutAfter f duration =>
    apply Moves.same
    . apply (Spawned.addTask s f (.timeout (s.now + duration) f)).thread.control
    . apply (Spawned.addTask s f (.timeout (s.now + duration) f)).thread.status
  | endTimeout | joinDrop =>
    apply Moves.same
    . rfl
    . rfl
  | finishDies hf hne =>
    have hcontrol := Wf.rubyFiber_running hf
    have hroot := suspended_root_of_ne hwf hcontrol hne
    have hholder := holder_of_running hcontrol
    subst hholder
    exact .handOver hne.symm rfl rfl hroot (.inl rfl)
  | finishBack hf hne hparent hneParent hsuspended =>
    have hholder := holder_of_running (Wf.rubyFiber_running hf)
    subst hholder
    exact .handOver hneParent rfl rfl hsuspended (.inr ⟨_, rfl⟩)
  | pollRaise hloop hfind hstatus hfuture hexpired hinstance hne hsuspended =>
    have hholder := holder_of_running hloop.2
    apply Moves.handOver (hholder.symm ▸ hne)
    . rfl
    . rw [hholder]
      rfl
    . exact hsuspended
    . exact .inr ⟨_, rfl⟩
  | joinResume hloop hfind hstatus hjump hne hsuspended =>
    have hholder := holder_of_running hloop.2
    apply Moves.handOver (hholder.symm ▸ hne)
    . rfl
    . rw [hholder]
      rfl
    . exact hsuspended
    . exact .inr ⟨_, rfl⟩

theorem refines_coroutines : Lts.Refines step Coroutine.step Wf coroutines moved where
  keeps _ _ _ h hstep := h.step hstep
  simulates s e s' h hstep := by
    obtain ⟨s'', heffect, houtcome⟩ := (step_sound h hstep).outcome
    have hholder : s'.holder = s''.holder := by
      simp only [holder, houtcome.control]
    have hcoroutines : s'.coroutines = s''.coroutines := by
      funext f
      simp only [coroutines, hholder, houtcome.status]
    have hmoved : moved s e s' = moved s e s'' := by
      simp only [moved, hholder, houtcome.status]
    rw [hmoved, hcoroutines]
    exact heffect.moves h

theorem single_new : Coroutine.Single State.new.coroutines := by
  refine ⟨rootFiber, ?_⟩
  intro f
  by_cases hf : f = rootFiber
  . simp [coroutines, holder, State.new, hf]
  . simp [coroutines, holder, State.new, hf, FiberStatus.coroutine]

theorem switch_of_transfer (hwf : Wf s) {f : FiberId} {payload : Payload}
    (hcontrol : s.control = .transfer f payload) : ∃ s', step s .switch = some s' := by
  obtain ⟨sus, hsus⟩ := hwf.target f payload hcontrol
  simp only [step, switch, hcontrol, hsus]
  cases sus with
  | resumeIfAlive =>
    dsimp only
    split
    . exact ⟨_, rfl⟩
    . exact ⟨_, rfl⟩
  | _ => exact ⟨_, rfl⟩

theorem coroutines_dead_iff (hwf : Wf s) {f : FiberId}
    : s.coroutines f = .dead ↔ s.status f = .terminated := by
  by_cases hf : f = s.holder
  . rw [hf, coroutines_holder]
    refine iff_of_false (by simp) ?_
    intro hover
    cases hcontrol : s.control with
    | running g =>
      rw [holder_of_running hcontrol, (hwf.running g).mpr hcontrol] at hover
      contradiction
    | transfer g payload =>
      obtain ⟨sus, hsus⟩ := hwf.target g payload hcontrol
      rw [holder_of_transfer hcontrol, hsus] at hover
      contradiction
  . rw [coroutines_of_ne hf]
    cases s.status f <;> simp [FiberStatus.coroutine]

theorem terminated_of_run (hwf : Wf s) (hsingle : Coroutine.Single s.coroutines) {es : List Event}
    (hrun : Lts.run step s es = some s') {f : FiberId} (hf : s.status f = .terminated)
    : s'.status f = .terminated := by
  have hwf' : Wf s' := Lts.invariant (fun _ _ _ h hstep => h.step hstep) hwf hrun
  have hdead := (Coroutine.single_of_run hsingle (refines_coroutines.run hwf hrun)).2
  rw [← coroutines_dead_iff hwf']
  apply hdead
  rw [coroutines_dead_iff hwf, hf]

/--
In every run of fibers that are entered through the scheduler alone, they are created, transferred to and
ended as coroutines may be, so that no transfer and no raise of the scheduler is refused: control is always
in one place, what is on its way to a fiber arrives, and a fiber that is over stays so in every continuation
of the run.
-/
theorem transfers_legal {es : List Event} (hrun : Lts.run step .new es = some s)
    : Lts.run Coroutine.step State.new.coroutines (Lts.trace step moved .new es) = some s.coroutines ∧
        Coroutine.Single s.coroutines ∧
        (∀ f payload, s.control = .transfer f payload → ∃ s', step s .switch = some s') ∧
        ∀ es' s', Lts.run step s es' = some s' → ∀ f, s.status f = .terminated →
          s'.status f = .terminated := by
  have hwf : Wf s := Reachable.wf ⟨es, hrun⟩
  have hrefines := refines_coroutines.run .new hrun
  have hsingle := (Coroutine.single_of_run single_new hrefines).1
  refine ⟨hrefines, hsingle, ?_, ?_⟩
  . intro f payload hcontrol
    exact switch_of_transfer hwf hcontrol
  . intro es' s' hrun' f hf
    exact terminated_of_run hwf hsingle hrun' hf

theorem transfers_legal_finish
    : ∃ s, Lts.run step .new [.fiber, .finish (.ok .nil)] = some s ∧
        Lts.run Coroutine.step State.new.coroutines
          (Lts.trace step moved .new [.fiber, .finish (.ok .nil)]) = some s.coroutines ∧
        Coroutine.Single s.coroutines ∧
        (∀ f payload, s.control = .transfer f payload → ∃ s', step s .switch = some s') ∧
        ∀ es' s', Lts.run step s es' = some s' → ∀ f, s.status f = .terminated →
          s'.status f = .terminated :=
  ⟨_, rfl, transfers_legal rfl⟩

end State
end Shreduler
