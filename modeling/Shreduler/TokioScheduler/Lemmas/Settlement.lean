import Shreduler.TokioScheduler.Lemmas.BlockAgreement
import Shreduler.TokioScheduler.Lemmas.Deadlines

/-!
This module proves when nothing gets lost: `run` returns after it has handed the output of every task to the
fiber that made the call.
-/

namespace Shreduler

def TaskStatus.isJump : TaskStatus → Bool
  | .ready (.error (.jump _)) => true
  | _ => false

namespace State

variable {s s' : State} {t : TaskId}

/--
The step loses no task: calls are made while there is a runtime, futures are polled before they are aborted
and do not panic, and outputs are for fibers that can be resumed with them.
-/
def LosesNothing (s : State) : Event → Prop
  | .hook _ | .block _ | .timeoutAfter _ => s.runtime
  | .poll t env =>
    env.external ≠ .panicked ∧ ¬ env.withTimeoutPanics ∧
      (s.findTask t).all (·.status = .pending)
  | .join t =>
    match s.findTask t with
    | some task => s.isAlive task.fiber ∧ task.fiber ≠ rootFiber ∧ ¬ task.status.isJump
    | none => True
  | _ => True

instance (s : State) (e : Event) : Decidable (LosesNothing s e) := by
  unfold LosesNothing
  split
  . infer_instance
  . infer_instance
  . infer_instance
  . infer_instance
  . split <;> infer_instance
  . infer_instance

/-! ### One step -/

theorem blockStatus_ne_joinError {env : PollEnv} (hpanics : ¬ env.withTimeoutPanics) (rx : ChanId)
    (timeout : Option Duration) (deadline : Option Instant)
    : s.blockStatus env rx timeout deadline ≠ .joinError := by
  unfold blockStatus
  rw [if_neg (fun h => hpanics h.2)]
  split
  . simp
  . simp
  all_goals split <;> simp

theorem status_ne_joinError (hwf : Wf s) (hnodup : (s.tasks.map (·.id)).Nodup) {env : PollEnv}
    {task task' : Task} (hstep : step s (.poll t env) = some s') (hfind : s.findTask t = some task)
    (hpending : task.status = .pending) (hexternal : env.external ≠ .panicked)
    (hpanics : ¬ env.withTimeoutPanics) (hmem : task' ∈ s'.tasks) (hid : task'.id = t)
    : task'.status ≠ .joinError := by
  simp only [step, Option.ite_none_right_eq_some, poll, hfind, hpending, Option.some.injEq] at hstep
  obtain ⟨-, rfl⟩ := hstep
  have hset {status : TaskStatus} {s₁ : State} (hne : status ≠ .joinError)
      (htasks : s₁.tasks = (s.setTaskStatus t status).tasks) (hmem : task' ∈ s₁.tasks)
      : task'.status ≠ .joinError := by
    rw [htasks] at hmem
    rw [mem_map_of_id hnodup hfind (g := fun task => { task with status }) hmem hid]
    exact hne
  have hsame (hmem : task' ∈ s.tasks) : task'.status ≠ .joinError := by
    rw [findTask_unique hnodup hfind hmem hid, hpending]
    simp
  unfold pollFuture at hmem
  split at hmem
  . exact hset (by simp) rfl hmem
  . split at hmem
    . exact hset (by simp) rfl hmem
    . exact hsame hmem
  . split at hmem
    . exact hsame hmem
    . exact hset (by simp) rfl hmem
    . next hpanicked => exact absurd hpanicked hexternal
  . next rx timeout deadline hfuture =>
    obtain ⟨c, hc, hstatus, htasks⟩ := tasks_pollBlock hwf t env rx timeout deadline
    rw [htasks] at hmem
    obtain ⟨task₀, hmem₀, rfl⟩ := List.mem_map.mp hmem
    rw [hc] at hid
    obtain rfl := findTask_unique hnodup hfind hmem₀ hid
    rw [hstatus task₀ hid hpending]
    exact blockStatus_ne_joinError hpanics rx timeout deadline
  . unfold pollTimeout at hmem
    split at hmem
    . split at hmem
      . exact hset (by simp) rfl hmem
      . exact hset (by simp) rfl hmem
      . split at hmem
        . exact hset (by simp) rfl hmem
        . exact hset (by simp) rfl hmem
    . exact hsame hmem

theorem not_lose_of_poll (hwf : Wf s) (hnodup : (s.tasks.map (·.id)).Nodup) {env : PollEnv}
    (hkeeps : LosesNothing s (.poll t env)) (hstep : step s (.poll t env) = some s')
    : ∀ t', (t', .lose) ∉ s'.polledTo t := by
  obtain ⟨hexternal, hpanics, hpending⟩ := hkeeps
  intro t' hlose
  unfold polledTo at hlose
  cases hfind' : s'.findTask t with
  | none => simp [hfind'] at hlose
  | some task' =>
    obtain ⟨hmem', hid'⟩ := findTask_mem hfind'
    have hne : task'.status ≠ .joinError := by
      cases hfind : s.findTask t with
      | none => simp [step, poll, hfind] at hstep
      | some task =>
        rw [hfind, Option.all_some, decide_eq_true_eq] at hpending
        exact status_ne_joinError hwf hnodup hstep hfind hpending hexternal hpanics hmem' hid'
    obtain ⟨id, fiber, future, status⟩ := task'
    rw [hfind'] at hlose
    cases status with
    | joinError => exact hne rfl
    | polling => cases hcontrol : s'.control <;> simp [hcontrol] at hlose
    | pending | aborted | ready => simp at hlose

theorem not_lose_of_join (hwf : Wf s) (hkeeps : LosesNothing s (.join t))
    (hstep : step s (.join t) = some s') : ∀ t', (t', .lose) ∉ s.joinedTo s' t := by
  obtain ⟨s'', heffect, houtcome⟩ := (step_sound hwf hstep).outcome
  intro t' hlose
  cases heffect with
  | still hstill =>
    cases hstill with
    | quiet hevent | spawnFails _ _ hevent | unblockRejected hevent | unblockNone hevent
    | unblockSent hevent | unblockLost hevent => exact hevent.elim
    | unblockOther _ hunblock => obtain ⟨value, heq | heq⟩ := hunblock <;> contradiction
  | joinResume hloop hfind hstatus =>
    rw [joinedTo_collect hfind hstatus houtcome.control] at hlose
    simp at hlose
  | joinDrop hloop hfind hstatus =>
    simp only [LosesNothing, hfind] at hkeeps
    obtain ⟨halive, hroot, hjump⟩ := hkeeps
    obtain herror | ⟨result, hready, hdead | hroot' | ⟨tag, htag⟩⟩ := hstatus
    . rw [joinedTo_joinError hfind herror] at hlose
      contradiction
    . exact hdead halive
    . exact hroot hroot'
    . rw [hready, htag] at hjump
      exact hjump rfl

theorem not_lose_of_step (h : Accountable s) {e : Event} (hkeeps : LosesNothing s e)
    (hstep : step s e = some s') : ∀ l ∈ mail s e s', l.2 ≠ .lose := by
  rintro ⟨t, action⟩ hmem rfl
  have hmade (f : FiberId) (hruntime : s.runtime) : (t, .lose) ∉ s.madeBy s' f := by
    unfold madeBy
    split
    . simp
    . simp
  unfold mail at hmem
  split at hmem
  . cases hf : s.rubyFiber with
    | none => simp [hf] at hmem
    | some f => exact hmade f hkeeps (by simpa [hf] using hmem)
  . cases hf : s.rubyFiber with
    | none => simp [hf] at hmem
    | some f => exact hmade f hkeeps (by simpa [hf] using hmem)
  . cases hf : s.rubyFiber with
    | none => simp [hf] at hmem
    | some f => exact hmade f hkeeps (by simpa [hf] using hmem)
  . exact not_lose_of_poll h.wf h.owned.nodup hkeeps hstep t hmem
  . split at hmem
    . split at hmem <;> simp at hmem
    . simp at hmem
  . exact not_lose_of_join h.wf hkeeps hstep t hmem
  . simp at hmem

/-! ### The whole run -/

theorem collected_of_run {es : List Event} (hrun : Lts.run step .new es = some s)
    (hkeeps : Lts.Along step LosesNothing .new es) (hlt : t < s.nextTask) (hgone : s.findTask t = none)
    : ∃ f result, Promise.Collected f result (Lts.project t (letters es)) := by
  have hspent : s.promises t = .spent := by
    simp only [promises, hlt, if_true, hgone]
  have hhistory := Promise.history_project (letters_keep_promises hrun) t
  rw [hspent] at hhistory
  apply hhistory.collected_of_spent
  intro hlose
  have hall : ∀ l ∈ letters es, l.2 ≠ .lose := by
    have hobs (s : State) (e : Event) (s' : State) (h : Accountable s) (hC : LosesNothing s e)
        (hstep : step s e = some s') : ∀ l ∈ mail s e s', l.2 ≠ .lose :=
      not_lose_of_step h hC hstep
    exact Lts.forall_mem_trace (fun _ _ _ h hstep => h.step hstep) hobs .new hkeeps
  exact hall _ (Lts.mem_project.mp hlose) rfl

/--
If nothing gets lost on the way, then `run` returns `Ok` after it has handed over the output of every task
that was ever spawned, each once and to the fiber that made the call.
-/
theorem run_settles {es : List Event} (hrun : Lts.run step .new es = some s)
    (hkeeps : Lts.Along step LosesNothing .new es) (hstep : step s .joinNone = some s')
    : s'.runResult = some (.ok ()) ∧
        ∀ t < s'.nextTask,
          ∃ f result, Promise.Collected f result (Lts.project t (letters es)) := by
  simp only [step, joinNone, Option.ite_none_right_eq_some, Option.some.injEq] at hstep
  obtain ⟨-, hempty, rfl⟩ := hstep
  refine ⟨rfl, ?_⟩
  intro t hlt
  apply collected_of_run hrun hkeeps hlt
  simp [findTask, hempty]

def sleeperEnds : List Event := sleeper ++ [.finish (.ok .nil), .switch]

theorem run_settles_sleeper
    : ∃ s s', Lts.run step .new sleeperEnds = some s ∧ step s .joinNone = some s' ∧
        s'.runResult = some (.ok ()) ∧ s'.nextTask = 1 ∧
        ∀ t < s'.nextTask,
          ∃ f result, Promise.Collected f result (Lts.project t (letters sleeperEnds)) := by
  refine ⟨_, _, rfl, rfl, rfl, rfl, ?_⟩
  exact (@run_settles _ _ sleeperEnds rfl (by decide) rfl).2

end State
end Shreduler
