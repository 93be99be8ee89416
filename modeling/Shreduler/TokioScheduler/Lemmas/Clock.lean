import Shreduler.TokioScheduler.Lemmas.Step

/-!
This module proves that no operation of the scheduler moves the clock.
-/

namespace Shreduler
namespace State

variable {s s' : State}

@[simp]
theorem now_dropRx (s : State) (ch : ChanId) : (s.dropRx ch).now = s.now := by
  rw [dropRx_eq]

@[simp]
theorem now_dropTx (s : State) (ch : Option ChanId) : (s.dropTx ch).now = s.now := by
  rw [dropTx_eq]

@[simp]
theorem now_dropFuture (s : State) (future : Future) : (s.dropFuture future).now = s.now := by
  rw [dropFuture_eq]

@[simp]
theorem now_addTask (s : State) (f : FiberId) (future : Future)
    : (s.addTask f future).now = s.now := by
  unfold addTask
  dsimp only
  split
  . rfl
  . rw [now_dropFuture]
    rfl

@[simp]
theorem now_awaitNext (s : State) : s.awaitNext.now = s.now := by
  unfold awaitNext
  split <;> rfl

theorem now_spawn (s : State) (f : FiberId) (future : Future) : (s.spawn f future).2.now = s.now := by
  unfold spawn
  split
  . apply now_dropFuture
  . apply now_addTask

theorem now_spawnAndTransfer (s : State) (f : FiberId) (future : Future)
    : (s.spawnAndTransfer f future).2.now = s.now := by
  have hspawn := now_spawn s f future
  unfold spawnAndTransfer
  split
  . next heq =>
    rw [heq] at hspawn
    exact hspawn
  . next heq =>
    rw [heq] at hspawn
    split
    . exact hspawn
    . exact hspawn

theorem now_block (s : State) (f : FiberId) (timeout : Option Duration)
    : (s.block f timeout).2.now = s.now := by
  unfold block
  dsimp only
  split
  . rfl
  . rw [now_spawnAndTransfer]
    apply now_dropTx

theorem now_unblock (s : State) (current : Option FiberId) (fiberToWake : Value)
    : (s.unblock current fiberToWake).2.now = s.now := by
  unfold unblock
  split
  . rfl
  . split
    . rfl
    . split
      . rfl
      . dsimp only
        split
        . rfl
        . split <;> rfl

theorem now_timeoutAfter (s : State) (f : FiberId) (duration : Duration)
    : (s.timeoutAfter f duration).2.now = s.now := by
  have hspawn := now_spawn s f (.timeout (s.now + duration) f)
  unfold timeoutAfter
  dsimp only
  split
  . next heq =>
    rw [heq] at hspawn
    exact hspawn
  . next heq =>
    rw [heq] at hspawn
    exact hspawn

theorem now_finish (s : State) (f : FiberId) (result : Result Value)
    : (s.finish f result).now = s.now := by
  unfold finish
  split
  . rfl
  . split
    . rfl
    . split
      . rfl
      . next error =>
        cases error <;> rfl

theorem now_startRun (s : State) : s.startRun.now = s.now := by
  unfold startRun
  split
  . apply now_awaitNext
  . rfl

theorem now_finishBlock (s : State) (t : TaskId) (result : Result Value)
    : (s.finishBlock t result).now = s.now := by
  unfold finishBlock
  split
  . rfl
  . apply now_dropTx

theorem now_pollFuture (s : State) (t : TaskId) (env : PollEnv) (future : Future)
    : (s.pollFuture t env future).now = s.now := by
  unfold pollFuture
  split
  . rfl
  . split <;> rfl
  . split
    . rfl
    . rfl
    . apply now_dropFuture
  . unfold pollBlock
    dsimp only
    split
    . apply now_dropFuture
    . split
      . apply now_finishBlock
      . apply now_finishBlock
      all_goals
        split
        . rw [now_finishBlock]
          apply now_dropRx
        . rfl
  . unfold pollTimeout
    split
    . split
      . rfl
      . rfl
      . split <;> rfl
    . rfl

theorem now_resumeIfAlive (s : State) (t : TaskId) (fiber : FiberId) (value : Result Value)
    : (s.resumeIfAlive t fiber value).now = s.now := by
  unfold resumeIfAlive
  split
  . apply now_awaitNext
  . split
    . rfl
    . dsimp only
      split
      . rfl
      . next error =>
        cases error <;> rfl

theorem now_of_switch (hstep : s.switch = some s') : s'.now = s.now := by
  unfold switch at hstep
  split at hstep
  . contradiction
  . split at hstep
    . injection hstep with hstep
      exact hstep ▸ rfl
    . injection hstep with hstep
      exact hstep ▸ rfl
    . injection hstep with hstep
      exact hstep ▸ rfl
    . split at hstep
      . injection hstep with hstep
        subst hstep
        apply now_awaitNext
      . injection hstep with hstep
        exact hstep ▸ rfl
    . injection hstep with hstep
      exact hstep ▸ rfl
    all_goals contradiction

theorem now_of_endTimeout {f : FiberId} (hstep : s.endTimeout f = some s') : s'.now = s.now := by
  unfold endTimeout at hstep
  split at hstep
  . contradiction
  . injection hstep with hstep
    exact hstep ▸ rfl

theorem now_of_poll {t : TaskId} {env : PollEnv} (hstep : s.poll t env = some s') : s'.now = s.now := by
  unfold poll at hstep
  split at hstep
  . contradiction
  . split at hstep
    . injection hstep with hstep
      subst hstep
      apply now_pollFuture
    . injection hstep with hstep
      subst hstep
      apply now_dropFuture
    all_goals contradiction

theorem now_of_join {t : TaskId} (hstep : s.join t = some s') : s'.now = s.now := by
  unfold join at hstep
  split at hstep
  . contradiction
  . split at hstep
    . injection hstep with hstep
      subst hstep
      apply now_resumeIfAlive
    . injection hstep with hstep
      subst hstep
      apply now_awaitNext
    all_goals contradiction

theorem now_of_returnRuby (hstep : s.returnRuby = some s') : s'.now = s.now := by
  unfold returnRuby at hstep
  split at hstep
  . simp only [Option.ite_none_right_eq_some, Option.some.injEq] at hstep
    obtain ⟨-, rfl⟩ := hstep
    rfl
  all_goals contradiction

theorem now_le_of_step {e : Event} (hstep : step s e = some s') : s.now ≤ s'.now := by
  have hsame (h : s'.now = s.now) : s.now ≤ s'.now := Nat.le_of_eq h.symm
  cases e with
  | elapse duration =>
    injection hstep with hstep
    subst hstep
    apply Nat.le_add_right
  | switch => exact hsame (now_of_switch hstep)
  | fiber =>
    obtain ⟨f, hf, rfl⟩ := Option.map_eq_some_iff.mp hstep
    exact hsame rfl
  | hook hook =>
    obtain ⟨f, hf, rfl⟩ := Option.map_eq_some_iff.mp hstep
    apply hsame (now_spawnAndTransfer _ _ _)
  | block timeout =>
    obtain ⟨f, hf, rfl⟩ := Option.map_eq_some_iff.mp hstep
    apply hsame (now_block _ _ _)
  | unblock fiberToWake =>
    obtain ⟨f, hf, rfl⟩ := Option.map_eq_some_iff.mp hstep
    apply hsame (now_unblock _ _ _)
  | timeoutAfter duration =>
    obtain ⟨f, hf, rfl⟩ := Option.map_eq_some_iff.mp hstep
    apply hsame (now_timeoutAfter _ _ _)
  | endTimeout =>
    obtain ⟨f, hf, hend⟩ := Option.bind_eq_some_iff.mp hstep
    exact hsame (now_of_endTimeout hend)
  | finish result =>
    obtain ⟨f, -, -, -, rfl⟩ := finish_of_step hstep
    apply hsame (now_finish _ _ _)
  | remoteUnblock fiberToWake =>
    injection hstep with hstep
    subst hstep
    apply hsame (now_unblock _ _ _)
  | run | close =>
    simp only [step, Option.ite_none_right_eq_some, Option.some.injEq] at hstep
    obtain ⟨-, rfl⟩ := hstep
    apply hsame (now_startRun _)
  | poll t env =>
    simp only [step, Option.ite_none_right_eq_some] at hstep
    exact hsame (now_of_poll hstep.2)
  | join t =>
    simp only [step, Option.ite_none_right_eq_some] at hstep
    exact hsame (now_of_join hstep.2)
  | joinNone =>
    simp only [step, joinNone, Option.ite_none_right_eq_some, Option.some.injEq] at hstep
    obtain ⟨-, -, rfl⟩ := hstep
    exact hsame rfl
  | interrupt error =>
    simp only [step, Option.ite_none_right_eq_some, Option.some.injEq] at hstep
    obtain ⟨-, rfl⟩ := hstep
    exact hsame rfl
  | callRuby t =>
    simp only [step, callRuby, Option.ite_none_right_eq_some, Option.some.injEq] at hstep
    obtain ⟨-, -, rfl⟩ := hstep
    exact hsame rfl
  | returnRuby => exact hsame (now_of_returnRuby hstep)

end State
end Shreduler
