import Shreduler.TokioScheduler.Lemmas.FiberSpawn

/-!
This module proves when the event loop of `TokioScheduler::run` ends in no other error than an
interrupt or an exception that escaped the block of a fiber scheduled from the root fiber.
-/

namespace Shreduler
namespace State

variable {s s' : State} {f : FiberId}

def RootResumes (s : State) : Prop :=
  match s.status rootFiber with
  | .suspended (.resumeIfAlive _) => True
  | _ => False

instance (s : State) : Decidable s.RootResumes := by
  unfold RootResumes
  generalize s.status rootFiber = status
  casesm* FiberStatus, Suspension <;> infer_instance

def Escaped (s : State) (origin : Origin) : Prop :=
  ∃ f, origin = .fiber f ∧ s.transferBackTo f = none ∧ s.status f = .terminated

def ErrorsContained (s : State) (e : Event) : Prop :=
  ∀ s' error, step s e = some s' → s.runLoop ≠ .idle → s'.runLoop = .idle →
    s'.runResult = some (.error error) →
      e = .interrupt error ∨
        e = .switch ∧ ∃ origin, s.control = .transfer rootFiber ⟨.error error, origin⟩ ∧ s.Escaped origin

def CanHandBack (s : State) (f : FiberId) (result : Result Value) : Prop :=
  match s.transferBackTo f with
  | some parent => s.isAlive parent ∧ ¬ result.IsJump
  | none => True

instance (s : State) (f : FiberId) (result : Result Value) : Decidable (s.CanHandBack f result) := by
  unfold CanHandBack
  generalize s.transferBackTo f = parent
  casesm Option FiberId <;> infer_instance

def RaisesIntoEnded (s : State) : Prop :=
  match s.control with
  | .transfer f ⟨.error _, _⟩ => s.status f = .suspended .transferBack
  | _ => False

instance (s : State) : Decidable s.RaisesIntoEnded := by
  unfold RaisesIntoEnded
  generalize s.control = control
  casesm* Control, Payload, Result Value <;> infer_instance

/--
No completed task is joined that its fiber cannot take, and while the event loop resumes a fiber,
every nested fiber that ends can hand its result back, and no exception reaches one that has ended.
-/
def ContainsErrors (s : State) : Event → Prop
  | .join t => ¬ s.Undeliverable t
  | .switch => ¬ (s.RootResumes ∧ s.RaisesIntoEnded)
  | .finish result =>
    match s.rubyFiber with
    | some f => s.RootResumes → s.CanHandBack f result
    | none => True
  | _ => True

instance (s : State) (e : Event) : Decidable (s.ContainsErrors e) := by
  unfold ContainsErrors
  generalize s.rubyFiber = fiber
  casesm* Event, Option FiberId <;> infer_instance

/-! ### The invariant -/

structure Contained (s : State) : Prop where
  older : ParentsOlder s
  captured : ∀ f, s.transferBackTo f ≠ some rootFiber
  escaped : ∀ error origin, s.control = .transfer rootFiber ⟨.error error, origin⟩ →
    s.RootResumes → s.Escaped origin

namespace Contained

theorem new : Contained .new where
  older := .new
  captured f h := by simp [State.new] at h
  escaped error origin h := by simp [State.new] at h

theorem congr (h : Contained s) (hstatus : s'.status = s.status) (hcontrol : s'.control = s.control)
    (hback : s'.transferBackTo = s.transferBackTo) (hnext : s'.nextFiber = s.nextFiber)
    : Contained s' where
  older f parent hf := by
    rw [hback] at hf
    rw [hnext]
    exact h.older f parent hf
  captured f := by
    rw [hback]
    exact h.captured f
  escaped error origin := by
    unfold RootResumes Escaped
    rw [hstatus, hcontrol, hback]
    exact h.escaped error origin

theorem leave (h : Contained s) (hback : s'.transferBackTo = s.transferBackTo)
    (hnext : s'.nextFiber = s.nextFiber)
    (hcontrol : ∀ error origin, s'.control = .transfer rootFiber ⟨.error error, origin⟩ →
      s'.RootResumes → s'.Escaped origin) : Contained s' where
  older f parent hf := by
    rw [hback] at hf
    rw [hnext]
    exact h.older f parent hf
  captured f := by
    rw [hback]
    exact h.captured f
  escaped := hcontrol

theorem running (h : Contained s) (hback : s'.transferBackTo = s.transferBackTo)
    (hnext : s'.nextFiber = s.nextFiber) (hcontrol : s'.control = .running f) : Contained s' := by
  apply h.leave hback hnext
  intro error origin htransfer
  rw [hcontrol] at htransfer
  contradiction

theorem transfer (h : Contained s) (hback : s'.transferBackTo = s.transferBackTo)
    (hnext : s'.nextFiber = s.nextFiber) {payload : Payload}
    (hcontrol : s'.control = .transfer f payload) (hf : f = rootFiber → ∃ v, payload.result = .ok v)
    : Contained s' := by
  apply h.leave hback hnext
  intro error origin htransfer
  rw [hcontrol] at htransfer
  injection htransfer with hroot hpayload
  obtain ⟨v, hv⟩ := hf hroot
  rw [hpayload] at hv
  contradiction

theorem rootResumes_terminate {result : Result Value} (hne : f ≠ rootFiber)
    (h : (s.terminate f result).RootResumes) : s.RootResumes := by
  unfold RootResumes at h ⊢
  rwa [status_terminate, Function.update_of_ne hne.symm] at h

theorem finish (h : Contained s) {result : Result Value} (hne : f ≠ rootFiber)
    (hC : s.RootResumes → s.CanHandBack f result) : Contained (s.finish f result) := by
  -- a nested fiber dies only if it cannot hand its result back
  have hdies {parent : FiberId} (result' : Result Value) (hback : s.transferBackTo f = some parent)
      (hfails : ¬ s.isAlive parent ∨ result.IsJump) : Contained (s.terminate f result') := by
    refine h.leave rfl rfl ?_
    intro error origin _ hroot
    have hback' := hC (rootResumes_terminate hne hroot)
    simp only [CanHandBack, hback] at hback'
    obtain hdead | hjump := hfails
    . exact absurd hback'.1 hdead
    . exact absurd hjump hback'.2
  have hfinishes := finishes s f result
  generalize s.finish f result = s' at hfinishes ⊢
  cases hfinishes with
  | root hback =>
    refine h.leave rfl rfl ?_
    intro error origin hcontrol _
    injection hcontrol with _ hpayload
    injection hpayload with _ horigin
    refine ⟨f, horigin.symm, hback, ?_⟩
    rw [status_terminate, Function.update_self]
  | deadParent hback hdead =>
    refine hdies _ hback (.inl (hdead.resolve_right ?_))
    exact Nat.ne_of_lt (h.older _ _ hback).1
  | jump hback halive _ hjump => exact hdies _ hback (.inr hjump)
  | back hback =>
    refine h.transfer rfl rfl rfl ?_
    intro hroot
    exact absurd (hroot ▸ hback) (h.captured f)

theorem yield (h : Contained s) {future : Future} (hspawn : Spawned s f future s')
    : Contained (s'.yield f s.nextTask) := by
  have hthread := hspawn.thread
  exact h.transfer (by exact hthread.transferBackTo) (by exact hthread.nextFiber) rfl fun _ => ⟨_, rfl⟩

theorem fiberImpl (h : Contained s) (holder : ParentsOlder (s.fiberImpl f))
    : Contained (s.fiberImpl f) where
  older := holder
  captured k hk := by
    simp only [State.fiberImpl] at hk
    by_cases heq : k = s.nextFiber
    . rw [heq, Function.update_self, ite_eq_iff] at hk
      obtain ⟨-, hnone⟩ | ⟨hne, hsome⟩ := hk
      . contradiction
      . injection hsome with hroot
        simp [isCurrentFiberRoot, hroot] at hne
    . rw [Function.update_of_ne heq] at hk
      exact h.captured k hk
  escaped error origin hcontrol := by
    simp [State.fiberImpl] at hcontrol

theorem effect (hwf : Wf s) (h : Contained s) {e : Event} (hC : s.ContainsErrors e)
    (hfinish : ∀ result, e ≠ .finish result) (heffect : Effect s e s') : Contained s' := by
  have hthread (hthread : SameThread s s') : Contained s' :=
    h.congr hthread.status hthread.control hthread.transferBackTo hthread.nextFiber
  have holder := h.older.effect hwf heffect
  cases heffect with
  | still hstill => exact hthread hstill.thread
  | switchHook | switchFiber | switchLoop | switchTimeout => exact h.running rfl rfl rfl
  | @switchBack f payload hcontrol hstatus =>
    refine h.leave rfl rfl ?_
    intro error origin hcontrol' hroot
    injection hcontrol' with _ hpayload
    injection hpayload with hresult
    have hraises : s.RaisesIntoEnded := by
      obtain ⟨result, origin'⟩ := payload
      simp only at hresult
      rw [hresult] at hcontrol
      simp only [RaisesIntoEnded, hcontrol]
      exact hstatus
    exact absurd ⟨rootResumes_terminate (hwf.position f _ hstatus) hroot, hraises⟩ hC
  | fiber hf => exact h.fiberImpl holder
  | hook => exact h.yield (.addTask s _ _)
  | block => exact h.yield (.block s _ _)
  | hookRoot => exact hthread (Spawned.addTask s _ _).thread
  | blockRoot => exact hthread (Spawned.block s _ _).thread
  | @timeoutAfter f duration =>
    have hadd := (Spawned.addTask s f (.timeout (s.now + duration) f)).thread
    exact h.congr hadd.status hadd.control hadd.transferBackTo hadd.nextFiber
  | endTimeout | joinDrop => exact h.congr rfl rfl rfl rfl
  | finishDies | finishBack => exact absurd rfl (hfinish _)
  | pollRaise _ _ _ _ _ _ hne | joinResume _ _ _ _ hne =>
    exact h.transfer rfl rfl rfl fun hroot => absurd hroot hne

theorem step (hwf : Wf s) (h : Contained s) {e : Event} (hC : s.ContainsErrors e)
    (hstep : step s e = some s') : Contained s' := by
  cases e with
  | finish result =>
    obtain ⟨f, hf, hne, -, rfl⟩ := finish_of_step hstep
    simp only [ContainsErrors, hf] at hC
    exact h.finish hne hC
  | _ =>
    obtain ⟨s'', heffect, houtcome⟩ := (step_sound hwf hstep).outcome
    have hs'' := h.effect hwf hC (by simp) heffect
    exact hs''.congr houtcome.status houtcome.control houtcome.transferBackTo houtcome.nextFiber

theorem errorsContained (hwf : Wf s) (h : Contained s) {e : Event} (hC : s.ContainsErrors e)
    : s.ErrorsContained e := by
  intro s' error hstep hloop hidle hresult
  cases loopStep hwf hstep with
  | stays _ hidle' => exact absurd (hidle'.mp hidle) hloop
  | starts hroot => exact absurd hroot.1 hloop
  | @returns result hreturns _ _ hresult' =>
    rw [hresult] at hresult'
    injection hresult' with hresult'
    subst hresult'
    cases hreturns with
    | closed _ hroot => exact absurd hroot.1 hloop
    | interrupted => exact .inl rfl
    | rootTask hloop hfind hstatus halive hroot =>
      refine absurd (undeliverable_iff.mpr ?_) hC
      exact ⟨_, _, hfind, hstatus, halive, .inl hroot⟩
    | jump hloop hfind hstatus halive =>
      refine absurd (undeliverable_iff.mpr ?_) hC
      exact ⟨_, _, hfind, hstatus, halive, .inr trivial⟩
    | raised hcontrol hstatus =>
      refine .inr ⟨rfl, _, hcontrol, h.escaped _ _ hcontrol ?_⟩
      simp [RootResumes, hstatus]

end Contained

/--
In a run whose steps all contain errors, the event loop ends in an error only because of an interrupt
or of an exception that escaped the block of a fiber scheduled from the root fiber.
-/
theorem errors_contained {es : List Event} (halong : Lts.Along step ContainsErrors .new es)
    : Lts.Along step ErrorsContained .new es := by
  refine halong.imp (J := fun s => Wf s ∧ Contained s) ?_ ?_ ⟨.new, .new⟩
  . intro s e s' ⟨hwf, h⟩ hC hstep
    exact ⟨hwf.step hstep, h.step hwf hC hstep⟩
  . intro s e s' ⟨hwf, h⟩ hC _
    exact h.errorsContained hwf hC

theorem errors_contained_boom
    : Lts.Along step ErrorsContained .new
        [.fiber, .fiber, .finish (.ok .nil), .switch, .hook (.kernelSleep 0), .switch, .run, .poll 0 {},
          .join 0, .switch, .finish (.error (.exception (.object "Boom" 0))), .switch] :=
  errors_contained (by decide)

theorem errors_not_contained : ¬ ∀ es, Lts.Along step ErrorsContained .new es := by
  intro hall
  have hcontained :=
    (hall
      ([.fiber, .timeoutAfter 5000000, .fiber, .hook (.kernelSleep 10000000), .switch, .run,
        .elapse 6000000, .poll 0 { timerFired := true }, .switch, .endTimeout, .finish (.ok .nil),
        .switch, .elapse 5000000, .poll 1 { timerFired := true }, .join 1, .switch,
        .finish (.ok .nil)] ++ [.switch])).last rfl rfl
  obtain h | ⟨-, origin, hcontrol, f, rfl, hback, -⟩ :=
    hcontained _ _ rfl (by decide) rfl rfl
  . contradiction
  . injection hcontrol with _ hpayload
    injection hpayload with _ horigin
    injection horigin with hf
    subst hf
    contradiction

end State
end Shreduler
