import Shreduler.TokioScheduler.Lemmas.FiberSpawn
import Shreduler.TokioScheduler.Lemmas.Run

/-!
This module proves when all fibers whose block is over are terminated as `run` returns.
-/

namespace Shreduler
namespace State

variable {s s' : State} {f : FiberId} {e : Event}

def EndsBlock (f : FiberId) (s : State) (e : Event) : Prop :=
  ∃ result, e = .finish result ∧ s.rubyFiber = some f

/--
In this step the wrapped block of a nested fiber hands its result to the fiber it captured, which is
alive. A non-local exit goes nowhere.
-/
def HandsResultOver (f : FiberId) (s : State) (e : Event) : Prop :=
  ∃ result parent, e = .finish result ∧ s.rubyFiber = some f ∧ s.transferBackTo f = some parent ∧
    s.isAlive parent ∧ parent ≠ f ∧ ¬ result.IsJump

/--
In this step the event loop joins a task that the fiber has left behind, a timeout of the fiber raises
into it, or another fiber hands it its result.
-/
def Resumes (f : FiberId) (s : State) : Event → Prop
  | .join t =>
    ∃ task result, s.findTask t = some task ∧ task.status = .ready result ∧ task.fiber = f ∧
      ¬ result.IsJump
  | .poll t env =>
    ∃ task timeoutAt v exception, s.findTask t = some task ∧ task.status = .pending ∧
      task.future = .timeout timeoutAt f ∧ timerOver env.timerFired s.now timeoutAt ∧
        env.newInstance = (.ok v, .ok exception)
  | .finish result =>
    ∃ child, HandsResultOver child s (.finish result) ∧ s.transferBackTo child = some f
  | _ => False

def RunReturnsOk (s : State) (e : Event) (s' : State) : Prop :=
  s.RunReturns e s' ∧ s'.runResult = some (.ok ())

def FinishedTerminate (es : List Event) : Prop :=
  ∀ pre e s s', pre ++ [e] <+: es → Lts.run step .new pre = some s → step s e = some s' →
    RunReturnsOk s e s' → ∀ f, Lts.Sometime step (EndsBlock f) .new pre → s'.isAlive f = false

def HandedOverResumed (es : List Event) : Prop :=
  ∀ pre e s s', pre ++ [e] <+: es → Lts.run step .new pre = some s → step s e = some s' →
    RunReturnsOk s e s' → ∀ f, Lts.Leads step (HandsResultOver f) (Resumes f) .new pre

/-! ### The life of a fiber -/

def Parked (s : State) (f : FiberId) : Prop := s.status f = .suspended .transferBack

def GetsControl (f : FiberId) (s : State) (e : Event) : Prop :=
  e = .switch ∧ ∃ payload, s.control = .transfer f payload

def Over (s : State) (f : FiberId) : Prop := s.status f = .terminated ∨ s.Parked f

theorem Over.congr (hstatus : s'.status f = s.status f) : s'.Over f ↔ s.Over f := by
  rw [Over, Over, Parked, Parked, hstatus]

inductive FiberStep (f : FiberId) (s : State) (e : Event) (s' : State) : Prop where
  | same (hends : ¬ EndsBlock f s e) (hparked : s.Parked f → ¬ GetsControl f s e)
    (hstatus : s'.status f = s.status f)
  | goesOn (hends : ¬ EndsBlock f s e) (hbefore : ¬ s.Over f) (hafter : ¬ s'.Over f)
  | parks (hends : EndsBlock f s e) (hover : HandsResultOver f s e) (hbefore : ¬ s.Over f)
    (hafter : s'.Parked f)
  | dies (hends : EndsBlock f s e) (hover : ¬ HandsResultOver f s e) (hbefore : ¬ s.Over f)
    (hafter : s'.status f = .terminated)
  | comesBack (hcontrol : GetsControl f s e) (hbefore : s.Parked f) (hafter : s'.status f = .terminated)

theorem HandsResultOver.endsBlock (h : HandsResultOver f s e) : EndsBlock f s e := by
  obtain ⟨result, parent, he, hf, -⟩ := h
  exact ⟨result, he, hf⟩

theorem not_over_of_running (h : s.status f = .running) : ¬ s.Over f := by
  simp [Over, Parked, h]

theorem not_endsBlock (h : ∀ result, e ≠ .finish result) : ¬ EndsBlock f s e := by
  rintro ⟨result, rfl, -⟩
  exact h result rfl

theorem not_getsControl (h : e ≠ .switch) : ¬ GetsControl f s e := fun hcontrol => h hcontrol.1

theorem fiberStep_finish (hwf : Wf s) {g : FiberId} {result : Result Value} (hg : s.rubyFiber = some g)
    (f : FiberId) : FiberStep f s (.finish result) (s.finish g result) := by
  have hrunning : s.status g = .running := (hwf.running g).mpr (Wf.rubyFiber_running hg)
  have hbefore := not_over_of_running hrunning
  have hfinishes := finishes s g result
  generalize s.finish g result = s' at hfinishes
  by_cases hf : f = g
  . subst hf
    have hends : EndsBlock f s (.finish result) := ⟨result, rfl, hg⟩
    cases hfinishes with
    | root hback =>
      refine .dies hends ?_ hbefore (by simp [terminate, setStatus])
      rintro ⟨_, parent, -, -, hparent, -⟩
      rw [hback] at hparent
      contradiction
    | @deadParent parent error hback hdead =>
      refine .dies hends ?_ hbefore (by simp [terminate, setStatus])
      rintro ⟨_, parent', -, -, hparent, halive, hne, -⟩
      obtain rfl := Option.some.inj (hback.symm.trans hparent)
      exact hdead.elim (absurd halive) hne
    | jump hback halive hne hjump =>
      refine .dies hends ?_ hbefore (by simp [terminate, setStatus])
      rintro ⟨result', parent', he, -, -, -, -, hnot⟩
      obtain rfl := Event.finish.inj he
      exact hnot hjump
    | @back parent hback halive hne hjump =>
      exact .parks hends ⟨result, parent, rfl, hg, hback, halive, hne, hjump⟩ hbefore
        (by simp [Parked, transfer, setStatus])
  . have hends : ¬ EndsBlock f s (.finish result) := by
      rintro ⟨result', -, hf'⟩
      exact hf (Option.some.inj (hf'.symm.trans hg))
    refine .same hends (fun _ => not_getsControl (by simp)) ?_
    cases hfinishes with
    | root | deadParent | jump | back => simp [terminate, transfer, setStatus, hf]

theorem not_getsControl_of_transfer {g : FiberId} {payload : Payload}
    (hcontrol : s.control = .transfer g payload) (hne : f ≠ g) : ¬ GetsControl f s e := by
  rintro ⟨-, payload', hcontrol'⟩
  rw [hcontrol] at hcontrol'
  cases hcontrol'
  exact hne rfl

theorem Still.ne_switch (h : Still s e s') : e ≠ .switch := by
  rintro rfl
  cases h with
  | quiet hevent | spawnFails _ _ hevent => exact hevent
  | unblockRejected hevent | unblockNone hevent | unblockSent hevent | unblockLost hevent => exact hevent
  | unblockOther _ hunblock =>
    obtain ⟨value, hvalue | hvalue⟩ := hunblock <;> contradiction

theorem fiberStep_update {g : FiberId} {status : FiberStatus} (hends : ¬ EndsBlock f s e)
    (hcontrol : f ≠ g → s.Parked f → ¬ GetsControl f s e) (hbefore : ¬ s.Over g) (hafter : ¬ s'.Over g)
    (hstatus : s'.status = Function.update s.status g status) : FiberStep f s e s' := by
  by_cases hf : f = g
  . subst hf
    exact .goesOn hends hbefore hafter
  . exact .same hends (hcontrol hf) (by rw [hstatus, Function.update_of_ne hf])

theorem Effect.fiberStep (hwf : Wf s) (h : Effect s e s') (hfinish : ∀ result, e ≠ .finish result)
    (f : FiberId) : FiberStep f s e s' := by
  have hends : ¬ EndsBlock f s e := not_endsBlock hfinish
  have hrunning {g : FiberId} (hg : s.rubyFiber = some g) : ¬ s.Over g :=
    not_over_of_running ((hwf.running g).mpr (Wf.rubyFiber_running hg))
  have hroot (hloop : s.AtJoinNext) : ¬ s.Over rootFiber :=
    not_over_of_running ((hwf.running rootFiber).mpr hloop.2)
  cases h with
  | still hstill =>
    refine .same hends (fun _ => not_getsControl hstill.ne_switch) ?_
    rw [hstill.thread.status]
  | @switchHook g t payload hcontrol hstatus | @switchFiber g child payload hcontrol hstatus =>
    have hgets (hne : f ≠ g) (_ : s.Parked f) := not_getsControl_of_transfer (e := .switch) hcontrol hne
    refine fiberStep_update hends hgets ?_ ?_ rfl
    . simp [Over, Parked, hstatus]
    . simp [Over, Parked, switchTo, setStatus]
  | @switchLoop t payload hcontrol hstatus =>
    refine fiberStep_update hends (fun hne _ => not_getsControl_of_transfer hcontrol hne) ?_ ?_ rfl
    . simp [Over, Parked, hstatus]
    . simp [Over, Parked, switchTo, setStatus]
  | @switchTimeout t payload hcontrol hstatus =>
    refine fiberStep_update hends (fun hne _ => not_getsControl_of_transfer hcontrol hne) ?_ ?_ rfl
    . simp [Over, Parked, hstatus]
    . simp [Over, Parked, complete, setTaskStatus, modifyTasks, switchTo, setStatus]
  | @switchBack g payload hcontrol hstatus =>
    by_cases hf : f = g
    . subst hf
      exact .comesBack ⟨rfl, payload, hcontrol⟩ hstatus (by simp [terminate, setStatus])
    . refine .same hends (fun _ => not_getsControl_of_transfer hcontrol hf) ?_
      simp [terminate, setStatus, hf]
  | @fiber g hg =>
    have hunborn : ¬ s.Over s.nextFiber := by
      simp [Over, Parked, hwf.unborn s.nextFiber (Nat.le_refl _)]
    by_cases hnew : f = s.nextFiber
    . subst hnew
      exact .goesOn hends hunborn (by simp [Over, Parked, fiberImpl, setStatus])
    . by_cases hf : f = g
      . subst hf
        exact .goesOn hends (hrunning hg) (by simp [Over, Parked, fiberImpl, setStatus, hnew])
      . exact .same hends (fun _ => not_getsControl (by simp)) (by simp [fiberImpl, setStatus, hnew, hf])
  | @hook g hook hg hloop hne =>
    have hthread := (Spawned.addTask s g (hook.future s.now)).thread
    refine fiberStep_update hends (fun _ _ => not_getsControl (by simp)) (hrunning hg) ?_
      (by rw [← hthread.status]; rfl)
    simp [Over, Parked, yield, transfer, setStatus]
  | @block g timeout hg hloop hne =>
    have hthread := (Spawned.block s g timeout).thread
    refine fiberStep_update hends (fun _ _ => not_getsControl (by simp)) (hrunning hg) ?_
      (by rw [← hthread.status]; rfl)
    simp [Over, Parked, yield, transfer, setStatus]
  | hookRoot | timeoutAfter =>
    refine .same hends (fun _ => not_getsControl (by simp)) ?_
    exact congrFun (Spawned.addTask s _ _).thread.status f
  | blockRoot =>
    refine .same hends (fun _ => not_getsControl (by simp)) ?_
    exact congrFun (Spawned.block s _ _).thread.status f
  | endTimeout | joinDrop => exact .same hends (fun _ => not_getsControl (by simp)) rfl
  | finishDies | finishBack => exact absurd rfl (hfinish _)
  | pollRaise hloop | joinResume hloop =>
    refine fiberStep_update hends (fun _ _ => not_getsControl (by simp)) (hroot hloop) ?_ rfl
    simp [Over, Parked, transfer, setStatus]

theorem FiberStep.congr {s'' : State} (h : FiberStep f s e s') (hstatus : s''.status = s'.status)
    : FiberStep f s e s'' := by
  have hover : s''.Over f ↔ s'.Over f := Over.congr (congrFun hstatus f)
  cases h with
  | same hends hparked hsame => exact .same hends hparked (by rw [hstatus, hsame])
  | goesOn hends hbefore hafter => exact .goesOn hends hbefore (mt hover.mp hafter)
  | parks hends hhands hbefore hafter => exact .parks hends hhands hbefore (by rwa [Parked, hstatus])
  | dies hends hhands hbefore hafter => exact .dies hends hhands hbefore (by rwa [hstatus])
  | comesBack hcontrol hbefore hafter => exact .comesBack hcontrol hbefore (by rwa [hstatus])

theorem fiberStep (hwf : Wf s) (hstep : step s e = some s') (f : FiberId) : FiberStep f s e s' := by
  by_cases hfinish : ∃ result, e = .finish result
  . obtain ⟨result, rfl⟩ := hfinish
    obtain ⟨g, hg, -, -, rfl⟩ := finish_of_step hstep
    exact fiberStep_finish hwf hg f
  . obtain ⟨s'', heffect, houtcome⟩ := (step_sound hwf hstep).outcome
    exact (heffect.fiberStep hwf (not_exists.mp hfinish) f).congr houtcome.status

theorem parked_iff (hwf : Wf s) (hstep : step s e = some s')
    : s'.Parked f ↔ HandsResultOver f s e ∨ s.Parked f ∧ ¬ GetsControl f s e := by
  cases fiberStep hwf hstep f with
  | same hends hcontrol hstatus =>
    rw [Parked, hstatus]
    constructor
    . exact fun hparked => .inr ⟨hparked, hcontrol hparked⟩
    . rintro (hhands | ⟨hparked, -⟩)
      . exact absurd hhands.endsBlock hends
      . exact hparked
  | goesOn hends hbefore hafter =>
    refine iff_of_false (fun hparked => hafter (.inr hparked)) ?_
    rintro (hhands | ⟨hparked, -⟩)
    . exact hends hhands.endsBlock
    . exact hbefore (.inr hparked)
  | parks _ hhands _ hafter => exact iff_of_true hafter (.inl hhands)
  | dies _ hhands hbefore hafter =>
    refine iff_of_false (by simp [Parked, hafter]) ?_
    rintro (hover | ⟨hparked, -⟩)
    . exact hhands hover
    . exact hbefore (.inr hparked)
  | comesBack hcontrol hbefore hafter =>
    refine iff_of_false (by simp [Parked, hafter]) ?_
    rintro (hhands | ⟨-, hnot⟩)
    . obtain ⟨result, parent, he, -⟩ := hhands
      exact absurd (he.symm.trans hcontrol.1) (by simp)
    . exact hnot hcontrol

theorem over_iff (hwf : Wf s) (hstep : step s e = some s') : s'.Over f ↔ s.Over f ∨ EndsBlock f s e := by
  cases fiberStep hwf hstep f with
  | same hends hcontrol hstatus => rw [Over.congr hstatus, or_iff_left hends]
  | goesOn hends hbefore hafter => exact iff_of_false hafter (not_or.mpr ⟨hbefore, hends⟩)
  | parks hends _ _ hafter => exact iff_of_true (.inr hafter) (.inr hends)
  | dies hends _ _ hafter => exact iff_of_true (.inl hafter) (.inr hends)
  | comesBack _ hbefore hafter => exact iff_of_true (.inl hafter) (.inl (.inr hbefore))

/-! ### What gives control to a fiber that is parked -/

theorem Parked.ne_root (hwf : Wf s) (h : s.Parked f) : f ≠ rootFiber := hwf.position f _ h

theorem Parked.isAlive (h : s.Parked f) : s.isAlive f := by
  rw [State.isAlive, h]

theorem control_finish (s : State) (g : FiberId) (result : Result Value)
    : (∃ payload, (s.finish g result).control = .transfer rootFiber payload) ∨
        ∃ parent payload, s.transferBackTo g = some parent ∧ s.isAlive parent ∧ parent ≠ g ∧
          ¬ result.IsJump ∧ (s.finish g result).control = .transfer parent payload := by
  have hfinishes := finishes s g result
  generalize s.finish g result = s' at hfinishes
  cases hfinishes with
  | root | deadParent | jump => exact .inl ⟨_, rfl⟩
  | back hback halive hne hjump => exact .inr ⟨_, _, hback, halive, hne, hjump, rfl⟩

theorem control_of_handsResultOver (hstep : step s e = some s') {parent : FiberId}
    (h : HandsResultOver f s e) (hparent : s.transferBackTo f = some parent)
    : ∃ payload, s'.control = .transfer parent payload := by
  obtain ⟨result, parent', rfl, hf, hback, halive, hne, hjump⟩ := h
  obtain rfl := Option.some.inj (hparent.symm.trans hback)
  obtain ⟨g, hg, -, -, rfl⟩ := finish_of_step hstep
  obtain rfl := Option.some.inj (hf.symm.trans hg)
  have hfinishes := finishes s f result
  generalize s.finish f result = s' at hfinishes
  cases hfinishes with
  | root hback' =>
    rw [hback] at hback'
    contradiction
  | deadParent hback' hdead =>
    obtain rfl := Option.some.inj (hback.symm.trans hback')
    exact absurd halive (hdead.resolve_right hne)
  | jump _ _ _ hjump' => exact absurd hjump' hjump
  | back hback' =>
    obtain rfl := Option.some.inj (hback.symm.trans hback')
    exact ⟨_, rfl⟩

theorem control_of_transfer (hwf : Wf s) (hstep : step s e = some s') {payload : Payload}
    (hcontrol : s.control = .transfer f payload) (hswitch : e ≠ .switch) : s'.control = s.control := by
  obtain ⟨s'', heffect, houtcome⟩ := (step_sound hwf hstep).outcome
  have hruby {g : FiberId} (hg : s.rubyFiber = some g) : False := by
    have hrunning := Wf.rubyFiber_running hg
    rw [hcontrol] at hrunning
    contradiction
  have hroot (hloop : s.AtJoinNext) : False := by
    have hrunning := hloop.2
    rw [hcontrol] at hrunning
    contradiction
  cases heffect with
  | still hstill => rw [houtcome.control, hstill.thread.control]
  | switchHook | switchFiber | switchBack | switchLoop | switchTimeout => exact absurd rfl hswitch
  | fiber hg | hook hg | hookRoot hg | block hg | blockRoot hg | timeoutAfter hg | endTimeout hg
  | finishDies hg | finishBack hg => exact (hruby hg).elim
  | pollRaise hloop | joinResume hloop | joinDrop hloop => exact (hroot hloop).elim

theorem resumes_of_finish {g : FiberId} {result : Result Value} {payload : Payload}
    (hroot : f ≠ rootFiber) (hg : s.rubyFiber = some g)
    (h : (s.finish g result).control = .transfer f payload) : Resumes f s (.finish result) := by
  obtain ⟨payload', hcontrol⟩ | ⟨parent, payload', hback, halive, hne, hjump, hcontrol⟩ :=
    control_finish s g result
  . rw [hcontrol] at h
    cases h
    exact absurd rfl hroot
  . rw [hcontrol] at h
    cases h
    exact ⟨g, ⟨result, f, rfl, hg, hback, halive, hne, hjump⟩, hback⟩

theorem resumes_of_transfer (hwf : Wf s) (hroot : f ≠ rootFiber)
    (hcontrol : ∀ payload, s.control ≠ .transfer f payload) (hstep : step s e = some s')
    {payload : Payload} (h : s'.control = .transfer f payload) : Resumes f s e := by
  obtain ⟨s'', heffect, houtcome⟩ := (step_sound hwf hstep).outcome
  rw [houtcome.control] at h
  cases heffect with
  | still hstill => exact absurd (hstill.thread.control ▸ h) (hcontrol payload)
  | switchHook | switchFiber | switchLoop | switchTimeout | fiber => contradiction
  | switchBack | hook | block =>
    cases h
    exact absurd rfl hroot
  | hookRoot | timeoutAfter =>
    rw [(Spawned.addTask s _ _).thread.control] at h
    exact absurd h (hcontrol payload)
  | blockRoot =>
    rw [(Spawned.block s _ _).thread.control] at h
    exact absurd h (hcontrol payload)
  | endTimeout | joinDrop => exact absurd h (hcontrol payload)
  | finishDies | finishBack =>
    obtain ⟨g, hg, -, -, rfl⟩ := finish_of_step hstep
    exact resumes_of_finish hroot hg (houtcome.control ▸ h)
  | @pollRaise t env task timeoutAt g exception hloop hfind hstatus hfuture hexpired hinstance =>
    cases h
    obtain ⟨v, hinstance⟩ := hinstance
    exact ⟨task, timeoutAt, v, exception, hfind, hstatus, hfuture, hexpired, hinstance⟩
  | @joinResume t task result hloop hfind hstatus hjump =>
    cases h
    refine ⟨task, result, hfind, hstatus, rfl, ?_⟩
    rw [Result.isJump_iff]
    exact fun ⟨tag, htag⟩ => hjump tag htag

theorem transfer_of_resumes (hwf : Wf s) (hparked : s.Parked f) (hstep : step s e = some s')
    (h : Resumes f s e) : ∃ payload, s'.control = .transfer f payload := by
  have hroot := hparked.ne_root hwf
  cases e with
  | finish result =>
    obtain ⟨child, hhands, hback⟩ := h
    exact control_of_handsResultOver hstep hhands hback
  | join t =>
    obtain ⟨task, result, hfind, hstatus, rfl, hjump⟩ := h
    have hloop : s.AtJoinNext := by
      simp only [step, Option.ite_none_right_eq_some] at hstep
      exact hstep.1
    have hdeliverable : ¬ s.Undeliverable t := by
      rw [undeliverable_iff]
      rintro ⟨task', result', hfind', hstatus', -, hreason⟩
      obtain rfl := Option.some.inj (hfind.symm.trans hfind')
      rw [hstatus, TaskStatus.ready.injEq] at hstatus'
      subst hstatus'
      exact hreason.elim hroot hjump
    obtain ⟨s'', hstep', hcontrol⟩ :=
      step_join_of_deliverable hloop hfind hstatus hparked.isAlive hdeliverable
    obtain rfl := Option.some.inj (hstep.symm.trans hstep')
    exact ⟨_, hcontrol⟩
  | poll t env =>
    obtain ⟨task, timeoutAt, v, exception, hfind, hstatus, hfuture, hexpired, hinstance⟩ := h
    have hcheck : s.checkSuspended (some rootFiber) f = .ok () :=
      checkSuspended_eq_ok_iff.mpr ⟨hparked.isAlive, hroot⟩
    simp only [step, Option.ite_none_right_eq_some] at hstep
    obtain ⟨-, hpoll⟩ := hstep
    simp only [poll, hfind, hstatus, pollFuture, hfuture, pollTimeout, hexpired,
      if_true, hinstance, hcheck, Option.some.injEq] at hpoll
    subst hpoll
    exact ⟨_, rfl⟩
  | _ => exact h.elim

def Stuck (s : State) (f : FiberId) : Prop :=
  s.Parked f ∧ ∀ payload, s.control ≠ .transfer f payload

theorem stuck_iff (hwf : Wf s) (hstep : step s e = some s')
    : s'.Stuck f ↔ HandsResultOver f s e ∨ s.Stuck f ∧ ¬ Resumes f s e := by
  rw [Stuck, parked_iff hwf hstep]
  by_cases hhands : HandsResultOver f s e
  . refine iff_of_true ⟨.inl hhands, ?_⟩ (.inl hhands)
    have ⟨_, parent, _, _, hback, _, hne, _⟩ := hhands
    obtain ⟨payload, hcontrol⟩ := control_of_handsResultOver hstep hhands hback
    intro payload' hcontrol'
    rw [hcontrol] at hcontrol'
    cases hcontrol'
    exact hne rfl
  . simp only [hhands, false_or]
    constructor
    . rintro ⟨⟨hparked, hgets⟩, hnot⟩
      have hstay : ∀ payload, s.control ≠ .transfer f payload := by
        intro payload hcontrol
        by_cases hswitch : e = .switch
        . exact hgets ⟨hswitch, payload, hcontrol⟩
        . exact hnot payload ((control_of_transfer hwf hstep hcontrol hswitch).trans hcontrol)
      refine ⟨⟨hparked, hstay⟩, ?_⟩
      intro hresumes
      obtain ⟨payload, hcontrol⟩ := transfer_of_resumes hwf hparked hstep hresumes
      exact hnot payload hcontrol
    . rintro ⟨⟨hparked, hstay⟩, hresumes⟩
      refine ⟨⟨hparked, ?_⟩, ?_⟩
      . rintro ⟨-, payload, hcontrol⟩
        exact hstay payload hcontrol
      . intro payload hcontrol
        exact hresumes (resumes_of_transfer hwf (hparked.ne_root hwf) hstay hstep hcontrol)

/-! ### Runs -/

theorem not_over_new (f : FiberId) : ¬ State.new.Over f := by
  by_cases hf : f = rootFiber
  . simp [Over, Parked, new, hf]
  . simp [Over, Parked, new, hf]

theorem sometime_endsBlock_iff {es : List Event} (hrun : Lts.run step .new es = some s)
    : Lts.Sometime step (EndsBlock f) .new es ↔ s.Over f := by
  have hiff := Lts.sometime_iff (J := Wf) (P := fun s => s.Over f) (C := EndsBlock f)
    (fun _ _ _ hwf hstep => hwf.step hstep) (fun _ _ _ hwf hstep => over_iff hwf hstep) .new hrun
  rw [hiff, or_iff_right (not_over_new f)]

theorem not_stuck_iff {es : List Event} (hrun : Lts.run step .new es = some s)
    : ¬ s.Stuck f ↔ Lts.Leads step (HandsResultOver f) (Resumes f) .new es := by
  have hiff := Lts.not_iff_leads (J := Wf) (P := fun s => s.Stuck f)
    (fun _ _ _ hwf hstep => hwf.step hstep) (fun _ _ _ hwf hstep => stuck_iff hwf hstep) .new hrun
  rw [hiff, and_iff_right]
  exact fun hstuck => absurd (.inr hstuck.1) (not_over_new f)

theorem isAlive_of_over (h : s.Over f) : s.isAlive f ↔ s.Parked f := by
  obtain hterminated | hparked := h
  . simp [isAlive, Parked, hterminated]
  . exact iff_of_true (by rw [isAlive, hparked]) hparked

theorem returnsOk_spec (hwf : Wf s) (hstep : step s e = some s') (h : RunReturnsOk s e s')
    : s.AtJoinNext ∧ s'.status = s.status := by
  obtain ⟨⟨hcalls, hidle⟩, hok⟩ := h
  cases loopStep hwf hstep with
  | stays hevent hsame => exact absurd (hsame.mp hidle) (hcalls.resolve_right hevent)
  | starts _ _ hloop =>
    rw [hloop] at hidle
    contradiction
  | returns hreturns _ _ hresult =>
    obtain rfl := Option.some.inj (hresult.symm.trans hok)
    cases hreturns with
    | empty hloop htasks =>
      simp only [step, joinNone, hloop, htasks, if_true, Option.some.injEq] at hstep
      exact ⟨hloop, hstep ▸ rfl⟩

theorem isAlive_of_returnsOk (hwf : Wf s) (hstep : step s e = some s') (h : RunReturnsOk s e s')
    (hover : s.Over f) : s'.isAlive f = true ↔ s.Stuck f := by
  obtain ⟨hloop, hstatus⟩ := returnsOk_spec hwf hstep h
  have halive : s'.isAlive f = s.isAlive f := by
    rw [isAlive, isAlive, hstatus]
  rw [halive, isAlive_of_over hover, Stuck, hloop.2]
  simp

theorem terminates_iff_leads {es : List Event} (hrun : Lts.run step .new es = some s)
    (hstep : step s e = some s') (hreturns : RunReturnsOk s e s')
    : (Lts.Sometime step (EndsBlock f) .new es → s'.isAlive f = false) ↔
        Lts.Leads step (HandsResultOver f) (Resumes f) .new es := by
  have halive (hover : s.Over f) :=
    isAlive_of_returnsOk (Reachable.wf ⟨es, hrun⟩) hstep hreturns hover
  rw [sometime_endsBlock_iff hrun, ← not_stuck_iff hrun]
  constructor
  . intro hterminated hstuck
    have hdead := hterminated (.inr hstuck.1)
    rw [(halive (.inr hstuck.1)).mpr hstuck] at hdead
    contradiction
  . intro hstuck hover
    exact Bool.eq_false_iff.mpr (mt (halive hover).mp hstuck)

/--
Whenever `run` returns `Ok(())` all fibers whose block is over are terminated, if and only if every
nested fiber that has handed its result to a fiber that was alive has been resumed by then: by a task
that it had left behind, by a timeout, or by a fiber inside of it.
-/
theorem finished_terminate_iff (es : List Event) : FinishedTerminate es ↔ HandedOverResumed es := by
  constructor
  . intro hterminate pre e s s' hpre hrun hstep hreturns f
    rw [← terminates_iff_leads hrun hstep hreturns]
    exact hterminate pre e s s' hpre hrun hstep hreturns f
  . intro hresumed pre e s s' hpre hrun hstep hreturns f
    rw [terminates_iff_leads hrun hstep hreturns]
    exact hresumed pre e s s' hpre hrun hstep hreturns f

theorem nested_fiber_parked : ¬ ∀ es, FinishedTerminate es := by
  intro hall
  have hdead := hall
    [.fiber, .fiber, .finish (.ok .nil), .switch, .finish (.ok .nil), .switch, .run, .joinNone]
    [.fiber, .fiber, .finish (.ok .nil), .switch, .finish (.ok .nil), .switch, .run] .joinNone _ _
    ⟨[], rfl⟩ rfl rfl ⟨⟨.inl (by decide), rfl⟩, rfl⟩ 2
  have hends : Lts.Sometime step (EndsBlock 2) .new
      [.fiber, .fiber, .finish (.ok .nil), .switch, .finish (.ok .nil), .switch, .run] :=
    ⟨_, rfl, .inr ⟨_, rfl, .inr ⟨_, rfl, .inl ⟨_, rfl, rfl⟩⟩⟩⟩
  exact absurd (hdead hends) (by decide)

end State
end Shreduler
