import Shreduler.TokioScheduler.Lemmas.Run
import Shreduler.TokioScheduler.Lemmas.Tasks

/-!
This module proves when the timeouts of `timeout_after` are confined to their blocks.
-/

namespace Shreduler

def Task.Awaited (task : Task) : Prop := task.status = .pending ∨ task.status = .aborted

instance (task : Task) : Decidable task.Awaited := inferInstanceAs (Decidable (_ ∨ _))

theorem Task.Older.awaited {task task' : Task} (h : Older task task') (hawaited : task'.Awaited)
    : task.Awaited := by
  cases hawaited with
  | inl hpending => exact .inl (h.pending hpending)
  | inr haborted => exact h.aborted haborted

namespace State

variable {s s' : State}

def Awaits (s : State) (t : TaskId) : Prop := ∃ task ∈ s.tasks, task.id = t ∧ task.Awaited

instance (s : State) (t : TaskId) : Decidable (s.Awaits t) :=
  inferInstanceAs (Decidable (∃ task ∈ s.tasks, _))

def HoldsError (s : State) (task : Task) : Prop :=
  (∃ error, task.status = .ready (.error error) ∧ ¬ Result.IsJump (.error error)) ∧
    task.fiber ≠ rootFiber ∧ s.isAlive task.fiber

/-- The task is in `futures_to_run`, and `run` waits for it or raises its error when it joins it. -/
def Lingers (s : State) (t : TaskId) : Prop :=
  ∃ task ∈ s.tasks, task.id = t ∧ (task.Awaited ∨ s.HoldsError task)

def RaisedBy (t : TaskId) (payload : Payload) : Prop :=
  payload.origin = .timeout t ∨
    payload.origin = .task t ∧ ∃ error, payload.result = .error error

def MayRaise (s : State) (t : TaskId) : Prop :=
  ∃ e s' f payload, step s e = some s' ∧ s'.control = .transfer f payload ∧ RaisedBy t payload

def TimeoutsConfined (s : State) : Prop :=
  ∀ t ∈ s.endedTimeouts, ¬ s.MayRaise t ∧ ¬ s.Lingers t

/--
The step does not end a `timeout_after` block whose timeout is yet to come, and no exception of another
fiber gets into the poll of a timeout whose block is over.
-/
def OutlivesTimeout (s : State) : Event → Prop
  | .endTimeout =>
    ∀ f t ts, s.rubyFiber = some f → s.timeouts f = t :: ts → ¬ s.Lingers t
  | .switch =>
    ∀ t ∈ s.endedTimeouts, s.status rootFiber = .suspended (.timeoutRaise t) →
      ∀ payload error, s.control = .transfer rootFiber payload → payload.result = .error error →
        ¬ Result.IsJump (.error error) →
          ∀ task ∈ s.tasks, task.id = t → task.fiber ≠ rootFiber → ¬ s.isAlive task.fiber
  | _ => True

theorem Effect.status_of_not_alive (hwf : Wf s) {e : Event} (h : Effect s e s') {f : FiberId}
    (hf : ¬ s.isAlive f) (hne : f ≠ s.nextFiber) : s'.status f = s.status f := by
  have hupdate {g : FiberId} (hg : s.isAlive g) (status : FiberStatus)
      : Function.update s.status g status f = s.status f :=
    Function.update_of_ne (by rintro rfl; exact hf hg) _ _
  have hruby {g : FiberId} (hg : s.rubyFiber = some g) : s.isAlive g :=
    hwf.alive_of_running (Wf.rubyFiber_running hg)
  cases h with
  | still hstill => exact congrFun hstill.thread.status f
  | switchHook hcontrol | switchFiber hcontrol | switchBack hcontrol | switchLoop hcontrol
  | switchTimeout hcontrol =>
    exact hupdate (hwf.alive_of_transfer hcontrol) _
  | fiber hg =>
    simp only [State.fiberImpl, setStatus]
    rw [Function.update_of_ne hne]
    exact hupdate (hruby hg) _
  | hook hg =>
    rw [status_yield, (Spawned.addTask s _ _).thread.status]
    exact hupdate (hruby hg) _
  | block hg =>
    rw [status_yield, (Spawned.block s _ _).thread.status]
    exact hupdate (hruby hg) _
  | hookRoot | timeoutAfter => exact congrFun (Spawned.addTask s _ _).thread.status f
  | blockRoot => exact congrFun (Spawned.block s _ _).thread.status f
  | endTimeout | joinDrop => rfl
  | finishDies hg | finishBack hg => exact hupdate (hruby hg) _
  | pollRaise hloop | joinResume hloop => exact hupdate (hwf.alive_of_running hloop.2) _

theorem awaits_of_poll {t : TaskId} {env : PollEnv} (hstep : step s (.poll t env) = some s')
    : s.Awaits t := by
  simp only [step, Option.ite_none_right_eq_some, poll] at hstep
  obtain ⟨-, hstep⟩ := hstep
  split at hstep
  . contradiction
  . next task hfind =>
    obtain ⟨hmem, hid⟩ := findTask_mem hfind
    split at hstep
    . next hpending => exact ⟨task, hmem, hid, .inl hpending⟩
    . next haborted => exact ⟨task, hmem, hid, .inr haborted⟩
    all_goals contradiction

theorem lingers_of_step (hwf : Wf s) (howned : Owned s) {e : Event} (hstep : step s e = some s')
    {t : TaskId} (hlingers : s'.Lingers t)
    : s.Lingers t ∨ t = s.nextTask ∨
        e = .switch ∧ s.status rootFiber = .suspended (.timeoutRaise t) ∧
          ∃ task' ∈ s'.tasks, task'.id = t ∧ s'.HoldsError task' := by
  obtain ⟨s'', heffect, houtcome⟩ := (step_sound hwf hstep).outcome
  obtain ⟨task', hmem, hid, hawaited | hholds⟩ := hlingers
  . obtain ⟨task, htask, holder⟩ | ⟨f, future, rfl⟩ := older_of_step hwf howned hstep hmem
    . exact .inl ⟨task, htask, holder.id.trans hid, .inl (holder.awaited hawaited)⟩
    . exact .inr (.inl hid.symm)
  . obtain ⟨⟨error, hready, hjump⟩, hroot, halive⟩ := id hholds
    obtain hold | ⟨env, rfl⟩ | ⟨rfl, hraise⟩ := ready_of_step hwf hstep hmem hready
    . refine .inl ⟨task', hold, hid, .inr ⟨⟨error, hready, hjump⟩, hroot, ?_⟩⟩
      by_contra hdead
      have hborn : task'.fiber ≠ s.nextFiber := Nat.ne_of_lt (howned.born task' hold)
      have hstatus := heffect.status_of_not_alive hwf hdead hborn
      rw [← houtcome.status] at hstatus
      rw [isAlive, hstatus] at halive
      exact hdead halive
    . rw [hid] at hstep
      obtain ⟨task, htask, hid, hawaited⟩ := awaits_of_poll hstep
      exact .inl ⟨task, htask, hid, .inl hawaited⟩
    . exact .inr (.inr ⟨rfl, hid ▸ hraise, task', hmem, hid, hholds⟩)

theorem Effect.control_raisedBy {e : Event} (h : Effect s e s') {f : FiberId} {payload : Payload}
    {t : TaskId} (hcontrol : s'.control = .transfer f payload) (hraised : RaisedBy t payload)
    : s.control = .transfer f payload ∨ s.Lingers t := by
  obtain hold | ⟨_, hfiber⟩ | ⟨task, hmem, htask, hready, hne, halive, hjump⟩ |
    ⟨task, hmem, htimeout, -, hpending⟩ := h.control_transfer hcontrol
  . exact .inl hold
  . simp [RaisedBy, hfiber] at hraised
  . obtain horigin | ⟨horigin, error, herror⟩ := hraised
    . rw [horigin] at htask
      contradiction
    . rw [horigin, Origin.task.injEq] at htask
      rw [herror] at hready hjump
      refine .inr ⟨task, hmem, htask.symm, .inr ⟨⟨error, hready, ?_⟩, hne, halive⟩⟩
      simpa [Result.isJump_iff] using hjump
  . obtain horigin | ⟨horigin, -⟩ := hraised
    . rw [horigin, Origin.timeout.injEq] at htimeout
      exact .inr ⟨task, hmem, htimeout.symm, .inl (.inl hpending)⟩
    . rw [horigin] at htimeout
      contradiction

theorem Effect.endedTimeouts {e : Event} (h : Effect s e s') {t : TaskId} (hmem : t ∈ s'.endedTimeouts)
    : t ∈ s.endedTimeouts ∨
      e = .endTimeout ∧ s'.control = s.control ∧
        ∃ f ts, s.rubyFiber = some f ∧ s.timeouts f = t :: ts := by
  cases h with
  | still hstill =>
    rw [← hstill.thread.endedTimeouts]
    exact .inl hmem
  | @endTimeout f t' ts hf htimeouts =>
    cases hmem with
    | head => exact .inr ⟨rfl, rfl, f, ts, hf, htimeouts⟩
    | tail _ hold => exact .inl hold
  | hookRoot | timeoutAfter | hook =>
    rw [← (Spawned.addTask s _ _).thread.endedTimeouts]
    exact .inl hmem
  | blockRoot | block =>
    rw [← (Spawned.block s _ _).thread.endedTimeouts]
    exact .inl hmem
  | switchHook | switchFiber | switchBack | switchLoop | switchTimeout | fiber | finishDies
  | finishBack | pollRaise | joinResume | joinDrop => exact .inl hmem

theorem endedTimeouts_of_step (hwf : Wf s) {e : Event} (hstep : step s e = some s') {t : TaskId}
    (hmem : t ∈ s'.endedTimeouts)
    : t ∈ s.endedTimeouts ∨
      e = .endTimeout ∧ s'.control = s.control ∧
        ∃ f ts, s.rubyFiber = some f ∧ s.timeouts f = t :: ts := by
  obtain ⟨s'', heffect, herase⟩ := (step_sound hwf hstep).effect
  have hended : s'.erase.endedTimeouts = s''.erase.endedTimeouts := by rw [herase]
  have hcontrol : s'.erase.control = s''.erase.control := by rw [herase]
  exact hcontrol ▸ heffect.endedTimeouts (hended ▸ hmem)

theorem holdsError_of_switch (hwf : Wf s) (howned : Owned s) (hstep : step s .switch = some s')
    {t : TaskId} (hraise : s.status rootFiber = .suspended (.timeoutRaise t)) {task' : Task}
    (hmem : task' ∈ s'.tasks) (hid : task'.id = t) (hholds : s'.HoldsError task')
    : ∃ payload error, s.control = .transfer rootFiber payload ∧ payload.result = .error error ∧
        ¬ Result.IsJump (.error error) ∧
          ∃ task ∈ s.tasks, task.id = t ∧ task.fiber ≠ rootFiber ∧ s.isAlive task.fiber := by
  obtain ⟨⟨error, hready, hjump⟩, hroot, halive⟩ := hholds
  obtain ⟨s'', heffect, houtcome⟩ := (step_sound hwf hstep).outcome
  rw [houtcome.tasks] at hmem
  have hpolling (hmem : task' ∈ s.tasks) : False := by
    have hstatus := ((howned.raising t hraise).2 task' hmem hid).2
    rw [hready] at hstatus
    contradiction
  cases heffect with
  | still hstill =>
    cases hstill with
    | quiet hevent | spawnFails _ _ hevent | unblockRejected hevent | unblockNone hevent
    | unblockSent hevent | unblockLost hevent => exact hevent.elim
    | unblockOther _ hevent => simp at hevent
  | switchHook | switchFiber | switchBack | switchLoop => exact (hpolling hmem).elim
  | @switchTimeout t' payload hcontrol hstatus =>
    obtain ⟨task, htask, rfl⟩ := List.mem_map.mp hmem
    split at hready
    . next heq =>
      rw [if_pos heq] at hid hroot halive
      injection hready with hresult
      refine ⟨payload, error, hcontrol, hresult, hjump, task, htask, hid, hroot, ?_⟩
      simp only [isAlive, houtcome.status] at halive
      have hsame : (s.switchTo rootFiber).status task.fiber = s.status task.fiber :=
        Function.update_of_ne hroot _ _
      rw [isAlive, ← hsame]
      exact halive
    . next hne =>
      rw [if_neg hne] at hpolling
      exact (hpolling htask).elim

structure Confined (s : State) : Prop where
  wf : Wf s
  owned : Owned s
  lingers : ∀ t ∈ s.endedTimeouts, ¬ s.Lingers t
  control : ∀ f payload t, s.control = .transfer f payload → RaisedBy t payload → t ∉ s.endedTimeouts

namespace Confined

theorem new : Confined .new where
  wf := .new
  owned := .new
  lingers := by simp [State.new]
  control := by simp [State.new]

theorem timeoutsConfined (h : Confined s) : s.TimeoutsConfined := by
  intro t hended
  refine ⟨?_, h.lingers t hended⟩
  rintro ⟨e, s', f, payload, hstep, hcontrol, hraised⟩
  obtain ⟨s'', heffect, houtcome⟩ := (step_sound h.wf hstep).outcome
  rw [houtcome.control] at hcontrol
  cases heffect.control_raisedBy hcontrol hraised with
  | inl hcontrol => exact h.control f payload t hcontrol hraised hended
  | inr hlingers => exact h.lingers t hended hlingers

theorem step (h : Confined s) {e : Event} (hC : s.OutlivesTimeout e) (hstep : step s e = some s')
    : Confined s' := by
  have hended' {t : TaskId} (hmem : t ∈ s'.endedTimeouts) := endedTimeouts_of_step h.wf hstep hmem
  refine ⟨h.wf.step hstep, h.owned.step h.wf hstep, ?_, ?_⟩
  . intro t hended hlingers
    obtain hold | hnew | ⟨rfl, hraise, task, hmem, hid, hholds⟩ :=
      lingers_of_step h.wf h.owned hstep hlingers
    . obtain hended | ⟨rfl, -, f, ts, hf, htimeouts⟩ := hended' hended
      . exact h.lingers t hended hold
      . exact hC f t ts hf htimeouts hold
    . obtain hended | ⟨-, -, f, ts, -, htimeouts⟩ := hended' hended
      . exact Nat.ne_of_lt (h.owned.ended t hended) hnew
      . exact Nat.ne_of_lt (h.owned.timeouts f t (htimeouts ▸ .head _)) hnew
    . obtain hended | ⟨hevent, -⟩ := hended' hended
      . obtain ⟨payload, error, hcontrol, hresult, hjump, task, htask, hid, hne, halive⟩ :=
          holdsError_of_switch h.wf h.owned hstep hraise hmem hid hholds
        exact hC t hended hraise payload error hcontrol hresult hjump task htask hid hne halive
      . contradiction
  . intro f payload t hcontrol hraised hended
    obtain ⟨s'', heffect, houtcome⟩ := (step_sound h.wf hstep).outcome
    obtain hended | ⟨-, heq, g, ts, hg, -⟩ := hended' hended
    . rw [houtcome.control] at hcontrol
      cases heffect.control_raisedBy hcontrol hraised with
      | inl hold => exact h.control f payload t hold hraised hended
      | inr hlingers => exact h.lingers t hended hlingers
    . rw [heq, Wf.rubyFiber_running hg] at hcontrol
      contradiction

end Confined

theorem lingers_of_switch (hstep : step s .switch = some s') {t : TaskId}
    (hraise : s.status rootFiber = .suspended (.timeoutRaise t)) {payload : Payload} {error : Error}
    (hcontrol : s.control = .transfer rootFiber payload) (hresult : payload.result = .error error)
    (hjump : ¬ Result.IsJump (.error error)) {task : Task} (hmem : task ∈ s.tasks) (hid : task.id = t)
    (hne : task.fiber ≠ rootFiber) (halive : s.isAlive task.fiber)
    : s'.Lingers t ∧ s'.endedTimeouts = s.endedTimeouts := by
  simp only [step, State.switch, hcontrol, hraise, hresult, Option.some.injEq] at hstep
  subst hstep
  refine ⟨⟨{ task with status := .ready (.error error) }, ?_, hid, .inr ⟨⟨error, rfl, hjump⟩, hne, ?_⟩⟩,
    rfl⟩
  . exact List.mem_map.mpr ⟨task, hmem, if_pos hid⟩
  . have hsame : (s.switchTo rootFiber).status task.fiber = s.status task.fiber :=
      Function.update_of_ne hne _ _
    rw [isAlive, ← hsame] at halive
    exact halive

/--
The timeouts are confined throughout a run if and only if no `timeout_after` block of the run ends
before its timeout has completed or with its error still to be joined, and no exception of another fiber
gets into the poll of a timeout after its block.
-/
theorem timeouts_confined_iff (es : List Event)
    : Lts.Always step TimeoutsConfined .new es ↔ Lts.Along step OutlivesTimeout .new es := by
  apply Lts.always_iff_along (J := Confined)
  . intro s e s' h hC hstep
    exact h.step hC hstep
  . intro s h
    exact h.timeoutsConfined
  . intro s e s' _ hstep hconfined
    cases e with
    | endTimeout =>
      intro f t ts hf htimeouts hlingers
      simp only [State.step, hf, endTimeout, htimeouts, Option.bind_some, Option.some.injEq]
        at hstep
      subst hstep
      exact (hconfined t (.head _)).2 hlingers
    | switch =>
      intro t hended hraise payload error hcontrol hresult hjump task hmem hid hne halive
      obtain ⟨hlingers, hsame⟩ :=
        lingers_of_switch hstep hraise hcontrol hresult hjump hmem hid hne halive
      exact (hconfined t (hsame ▸ hended)).2 hlingers
    | _ => trivial
  . exact .new

theorem timeouts_not_confined : ¬ ∀ es, Lts.Always step TimeoutsConfined .new es := by
  intro hall
  let es : List Event :=
    [.fiber, .timeoutAfter 50000000, .hook (.kernelSleep 10000000), .switch, .run, .elapse 11000000,
      .poll 1 { timerFired := true }, .join 1, .switch, .endTimeout, .hook (.kernelSleep 1000000000),
      .switch, .elapse 40000000, .poll 0 { timerFired := true }]
  have hrun : (Lts.run step .new es).any fun s => s.endedTimeouts = [0] ∧
      s.control = .transfer 1 ⟨.error (.exception .nil), .timeout 0⟩ := by
    decide
  refine Lts.not_always_of_run hrun ?_ (hall es)
  intro s hs hconfined
  obtain ⟨hended, hcontrol⟩ := of_decide_eq_true hs
  apply (hconfined 0 (hended ▸ .head _)).1
  exact ⟨.elapse 0, _, 1, _, rfl, hcontrol, .inl rfl⟩

end State
end Shreduler
