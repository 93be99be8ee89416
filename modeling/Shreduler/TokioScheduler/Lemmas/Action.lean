import Shreduler.TokioScheduler.Impl.Action
import Shreduler.TokioScheduler.Lemmas.Tasks

/-!
This module proves when the future of a hook call acts only while the call is waiting in its fiber.
-/

namespace Shreduler

theorem Job.polls_nothing {busy : Bool} {external : ExternalPoll} {doing : Doing}
    (h : Job.nothing.Polls busy external doing) : doing = {} := by
  unfold Polls at h
  split at h
  . rfl
  all_goals contradiction

namespace State

variable {s s' : State} {f : FiberId} {t : TaskId}

def InCall (s : State) (t : TaskId) : Prop :=
  ∃ f < s.nextFiber, s.status f = .suspended (.spawnAndTransfer t)

instance (s : State) (t : TaskId) : Decidable (s.InCall t) := by
  unfold InCall
  infer_instance

theorem InCall.of_status (hwf : Wf s) (h : s.status f = .suspended (.spawnAndTransfer t))
    : s.InCall t :=
  ⟨f, hwf.lt_nextFiber (by simp [isAlive, h]), h⟩

theorem InCall.step (hwf : Wf s) {e : Event} (hstep : State.step s e = some s') (h : s.InCall t)
    : s'.InCall t ∨ e = .switch ∧
        ∃ f payload, s.control = .transfer f payload ∧ s.status f = .suspended (.spawnAndTransfer t) := by
  obtain ⟨f, -, hf⟩ := h
  obtain ⟨s'', heffect, houtcome⟩ := (step_sound hwf hstep).outcome
  cases heffect.suspended hwf hf with
  | inl hf' => exact .inl (.of_status (hwf.step hstep) (f := f) (by rw [houtcome.status, hf']))
  | inr hswitch =>
    obtain ⟨hevent, payload, hcontrol⟩ := hswitch
    exact .inr ⟨hevent, f, payload, hcontrol, hf⟩

theorem inCall_of_hook (hwf : Wf s) (howned : Owned s) {hook : Hook}
    (hstep : State.step s (.hook hook) = some s') (hnext : s'.nextTask ≠ s.nextTask)
    : s'.InCall s.nextTask ∨ s.rubyFiber = some rootFiber ∧ ¬ s.runLoop.Borrows := by
  obtain ⟨s'', heffect, houtcome⟩ := (step_sound hwf hstep).outcome
  rw [houtcome.nextTask] at hnext
  cases heffect with
  | still hstill => exact absurd (hstill.stays howned.nodup).nextTask hnext
  | @hook f hf =>
    refine .inl (.of_status (hwf.step hstep) (f := f) ?_)
    rw [houtcome.status, status_yield, Function.update_self]
  | hookRoot hf hloop => exact .inr ⟨hf, hloop⟩

end State

namespace Outside
namespace State

variable {s s' : State} {t : TaskId}

/-- The next poll of the task, or a worker that has its IO, may act. -/
def CanAct (s : State) (t : TaskId) : Prop :=
  (s.jobs t ≠ .nothing ∧ ∃ task ∈ s.scheduler.tasks, task.id = t ∧ task.status = .pending) ∨
    t ∈ s.workers

instance (s : State) (t : TaskId) : Decidable (s.CanAct t) := by
  unfold CanAct
  infer_instance

def ActsInCall (s : State) (e : Event) : Prop :=
  ∀ s', step s e = some s' → ∀ t action, (t, action) ∈ s.actions e → s.scheduler.InCall t

/--
A hook call does not end, and does not fail in the root fiber after `spawn`, while its future may act.
-/
def EndsQuietly (s : State) : Event → Prop
  | .scheduler .switch =>
    match s.scheduler.control with
    | .transfer f _ =>
      match s.scheduler.status f with
      | .suspended (.spawnAndTransfer t) => ¬ s.CanAct t
      | _ => True
    | .running _ => True
  | .hook hook backing =>
    s.scheduler.rubyFiber = some rootFiber →
      s.scheduler.runLoop.Borrows ∨ s.scheduler.runtime = false ∨ hook.job backing = .nothing
  | _ => True

instance (s : State) (e : Event) : Decidable (s.EndsQuietly e) := by
  unfold EndsQuietly
  generalize s.scheduler.control = control
  casesm* Event, Shreduler.Event, Control
  case scheduler.transfer.switch f payload =>
    dsimp only
    generalize s.scheduler.status f = status
    casesm* FiberStatus, Suspension <;> infer_instance
  all_goals infer_instance

theorem canAct_of_pollJob (h : s.pollJob t ≠ .nothing) : s.CanAct t := by
  unfold pollJob at h
  split at h
  . next task hfind =>
    split at h
    . next hpending =>
      obtain ⟨hmem, hid⟩ := Shreduler.State.findTask_mem hfind
      exact .inl ⟨h, task, hmem, hid, hpending⟩
    . contradiction
  . contradiction

theorem canAct_of_actions {e : Event} (hstep : step s e = some s') {action : Action}
    (hmem : (t, action) ∈ s.actions e) : s.CanAct t := by
  cases e with
  | hook | scheduler => simp [actions] at hmem
  | work t' n =>
    simp only [actions, List.mem_map] at hmem
    obtain ⟨_, -, hmem⟩ := hmem
    injection hmem with heq
    simp only [Outside.step, work, Option.ite_none_right_eq_some] at hstep
    exact .inr (heq ▸ hstep.1.1)
  | poll t' env doing =>
    simp only [actions, List.mem_map] at hmem
    obtain ⟨_, haction, hmem⟩ := hmem
    injection hmem with heq
    subst heq
    apply canAct_of_pollJob
    intro hnothing
    simp only [Outside.step, poll, hnothing] at hstep
    split at hstep
    . split at hstep
      . next hpolls =>
        rw [Job.polls_nothing hpolls] at haction
        contradiction
      . contradiction
    . contradiction

structure Held (s : State) : Prop where
  wf : s.scheduler.Wf
  owned : s.scheduler.Owned
  jobs : ∀ t, s.scheduler.nextTask ≤ t → s.jobs t = .nothing
  call : ∀ t, s.CanAct t → s.scheduler.InCall t

namespace Held

theorem new : Held .new where
  wf := .new
  owned := .new
  jobs _ _ := rfl
  call t h := by
    simp [CanAct, State.new] at h

theorem scheduler (h : Held s) {e : Shreduler.Event} {scheduler : Shreduler.State}
    (hstep : s.scheduler.step e = some scheduler) (hC : e = .switch → s.EndsQuietly (.scheduler e))
    : Held { s with scheduler } where
  wf := h.wf.step hstep
  owned := h.owned.step h.wf hstep
  jobs t ht := h.jobs t (Nat.le_trans (Shreduler.State.nextTask_le_of_step h.wf h.owned hstep) ht)
  call t hact := by
    have hact : s.CanAct t := by
      cases hact with
      | inr hworker => exact .inr hworker
      | inl hpending =>
        obtain ⟨hjob, task', hmem, hid, hpending⟩ := hpending
        cases Shreduler.State.older_of_step h.wf h.owned hstep hmem with
        | inl hold =>
          obtain ⟨task, htask, holder⟩ := hold
          exact .inl ⟨hjob, task, htask, holder.id.trans hid, holder.pending hpending⟩
        | inr hnew =>
          obtain ⟨f, future, rfl⟩ := hnew
          exact absurd (h.jobs t (Nat.le_of_eq hid)) hjob
    cases (h.call t hact).step h.wf hstep with
    | inl hcall => exact hcall
    | inr hswitch =>
      obtain ⟨rfl, f, payload, hcontrol, hstatus⟩ := hswitch
      have hquiet := hC rfl
      simp only [EndsQuietly, hcontrol, hstatus] at hquiet
      exact absurd hact hquiet

theorem hook (h : Held s) {hook : Hook} {backing : IoRead.Backing}
    (hC : s.EndsQuietly (.hook hook backing)) (hstep : s.hook hook backing = some s') : Held s' := by
  unfold State.hook at hstep
  split at hstep
  . next scheduler hhook =>
    have hsame := h.scheduler hhook (by simp)
    split at hstep
    . injection hstep with hstep
      exact hstep ▸ hsame
    . next hnext =>
      injection hstep with hstep
      subst hstep
      refine ⟨hsame.wf, hsame.owned, ?_, ?_⟩
      . intro t ht
        have hlt : s.scheduler.nextTask < scheduler.nextTask :=
          Nat.lt_of_le_of_ne (Shreduler.State.nextTask_le_of_step h.wf h.owned hhook) (Ne.symm hnext)
        have hne : t ≠ s.scheduler.nextTask := Nat.ne_of_gt (Nat.lt_of_lt_of_le hlt ht)
        simp only [Function.update_of_ne hne]
        exact h.jobs t (Nat.le_trans (Nat.le_of_lt hlt) ht)
      . intro t hact
        by_cases heq : t = s.scheduler.nextTask
        . subst heq
          cases hact with
          | inr hworker => exact hsame.call _ (.inr hworker)
          | inl hpending =>
            cases Shreduler.State.inCall_of_hook h.wf h.owned hhook hnext with
            | inl hcall => exact hcall
            | inr hroot =>
              obtain ⟨hjob, task', hmem, hid, hpending⟩ := hpending
              simp only [Function.update_self] at hjob
              have hruntime : s.scheduler.runtime = false :=
                ((hC hroot.1).resolve_left hroot.2).resolve_right hjob
              -- a runtime that was shut down cancels the task on the spot
              cases Shreduler.State.older_of_step h.wf h.owned hhook hmem with
              | inl hold =>
                obtain ⟨task, htask, holder⟩ := hold
                have hlt := h.owned.lt task htask
                rw [holder.id, hid] at hlt
                exact absurd hlt (Nat.lt_irrefl _)
              | inr hnew =>
                obtain ⟨f, future, rfl⟩ := hnew
                simp [Shreduler.State.newTask, hruntime] at hpending
        . apply hsame.call
          simpa only [CanAct, Function.update_of_ne heq] using hact
  . contradiction

theorem poll (h : Held s) {env : PollEnv} {doing : Doing} (hstep : s.poll t env doing = some s')
    : Held s' := by
  unfold State.poll at hstep
  split at hstep
  . next scheduler hpoll =>
    have hsame := h.scheduler hpoll (by simp)
    split at hstep
    . next hpolls =>
      injection hstep with hstep
      subst hstep
      refine ⟨hsame.wf, hsame.owned, hsame.jobs, ?_⟩
      intro t' hact
      cases hact with
      | inl hpending => exact hsame.call t' (.inl hpending)
      | inr hworker =>
        by_cases hold : t' ∈ s.workers
        . exact hsame.call t' (.inr hold)
        . -- the poll has just started the worker
          split at hworker
          . next hstarts =>
            obtain rfl := (List.mem_cons.mp hworker).resolve_right hold
            have hjob : s.pollJob t' ≠ .nothing := by
              intro hnothing
              rw [hnothing] at hpolls
              simp [Job.polls_nothing hpolls] at hstarts
            have hcall := (h.call t' (canAct_of_pollJob hjob)).step h.wf hpoll
            exact hcall.resolve_right (by simp)
          . exact absurd hworker hold
    . contradiction
  . contradiction

theorem work (h : Held s) {n : Nat} (hstep : s.work t n = some s') : Held s' := by
  simp only [State.work, Option.ite_none_right_eq_some, Option.some.injEq] at hstep
  obtain ⟨-, rfl⟩ := hstep
  refine ⟨h.wf, h.owned, h.jobs, ?_⟩
  intro t' hact
  exact h.call t' (hact.imp_right List.mem_of_mem_erase)

theorem step (h : Held s) {e : Event} (hC : s.EndsQuietly e) (hstep : Outside.step s e = some s')
    : Held s' := by
  cases e with
  | hook hook backing => exact h.hook hC hstep
  | poll t env doing => exact h.poll hstep
  | work t n => exact h.work hstep
  | scheduler e =>
    have hscheduler : ∃ scheduler, s.scheduler.step e = some scheduler ∧
        { s with scheduler } = s' := by
      cases e with
      | hook | poll => contradiction
      | _ => exact Option.map_eq_some_iff.mp hstep
    obtain ⟨scheduler, hscheduler, rfl⟩ := hscheduler
    exact h.scheduler hscheduler fun _ => hC

end Held

/--
If no hook call ends while its future may act, then no future acts after the call it belongs to.
-/
theorem acts_in_call {es : List Event} (halong : Lts.Along step EndsQuietly .new es)
    : Lts.Along step ActsInCall .new es := by
  refine halong.imp (J := Held) (fun _ _ _ h hC hstep => h.step hC hstep) ?_ .new
  intro s e s' h hC hstep s'' hstep' t action hmem
  exact h.call t (canAct_of_actions hstep' hmem)

theorem acts_in_call_read
    : Lts.Along step ActsInCall .new
        [.scheduler .fiber, .hook .ioRead .socket, .scheduler .switch, .scheduler .run,
          .poll 0 { external := .ready (.ok (.integer 4)) } ⟨[.readIo 4, .fillBuffer 4], false⟩,
          .scheduler (.join 0), .scheduler .switch] :=
  acts_in_call (by decide)

theorem acts_after_call : ¬ ∀ es, Lts.Along step ActsInCall .new es := by
  intro hall
  have hacts :=
    (hall
      ([.scheduler .fiber, .scheduler (.timeoutAfter 5000000), .hook .ioRead .socket,
        .scheduler .switch, .scheduler .run, .scheduler (.elapse 6000000),
        .poll 0 { timerFired := true } {}, .scheduler .switch, .scheduler .endTimeout,
        .scheduler (.finish (.ok .nil)), .scheduler .switch] ++
          [.poll 1 { external := .ready (.ok (.integer 4)) }
            ⟨[.readIo 4, .fillBuffer 4], false⟩])).last rfl rfl
  have hcall := hacts _ rfl 1 (.readIo 4) (by decide)
  revert hcall
  decide

end State
end Outside
end Shreduler
