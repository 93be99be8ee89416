import Shreduler.TokioScheduler.Lemmas.Waitpid

/-!
This module proves for which arguments a `process_wait` raises the errors of its attempts to wait.
-/

namespace Shreduler
namespace ProcessWait

open Posix (Pid Child WaitEnv)

variable {config : Config} {s : State} {t : TaskId} {pid : Pid} {flags : UInt32}

def ErrorsReach (config : Config) (pid : Pid) (flags : UInt32) (s : State) (e : Event) (s' : State)
    : Prop :=
  ∀ t phase waiter env error children, e = .tryWait env → s.polling = some (t, phase) →
    s.waiters t = some waiter → waiter.pid = pid → waiter.flags = flags →
      waiter.tryWait config s.children env = .returns (.error error) children →
        s'.polling = none ∧
          ∃ task, s'.scheduler.findTask t = some task ∧ task.status = .ready (.error error)

theorem exists_waitSelector (hpid : -1 ≤ pid) : ∃ selector, waitSelector pid = .ok selector := by
  obtain rfl | rfl | hpos | hlt := pid_cases pid
  . exact ⟨_, rfl⟩
  . exact ⟨_, rfl⟩
  . exact ⟨_, waitSelector_of_pos hpos⟩
  . exact absurd hpid (Int32.not_le.mpr hlt)

theorem tryWait_accepted {waiter : PidWaiter}
    (hflags : (waitOptionsFromBits config.accepted waiter.flags).isSome) (hpid : -1 ≤ waiter.pid)
    {children children' : List Child} {env : WaitEnv} {error : Error}
    : waiter.tryWait config children env ≠ .returns (.error error) children' := by
  obtain ⟨options, hoptions⟩ := Option.isSome_iff_exists.mp hflags
  obtain ⟨selector, hselector⟩ := exists_waitSelector hpid
  simp only [PidWaiter.tryWait, hoptions, hselector]
  cases waitpid config.pgrp children selector options env <;> simp

theorem tryWait_rejected
    (h : ¬ ((waitOptionsFromBits config.accepted flags).isSome ∧ -1 ≤ pid))
    : ∃ error, ∀ signal children env, PidWaiter.tryWait { pid, flags, signal } config children env
        = .returns (.error error) children := by
  cases hoptions : waitOptionsFromBits config.accepted flags with
  | none =>
    refine ⟨newBaseError s!"invalid process wait flags: {flags}", ?_⟩
    intro signal children env
    simp only [PidWaiter.tryWait, hoptions]
  | some options =>
    have hpid : pid < -1 := by
      rw [hoptions, Option.isSome_some] at h
      exact Int32.not_le.mp fun hle => h ⟨rfl, hle⟩
    refine ⟨newBaseError s!"Invalid PID for process: {pid}", ?_⟩
    intro signal children env
    simp only [PidWaiter.tryWait, hoptions, waitSelector_of_lt hpid]

theorem step_tryWait_error (h : Sane s) {registeredInterest : Bool} {waiter : PidWaiter}
    {env : WaitEnv} {error : Error} {children : List Child}
    (hpolling : s.polling = some (t, .waiting registeredInterest))
    (hwaiter : s.waiters t = some waiter)
    (htry : waiter.tryWait config s.children env = .returns (.error error) children)
    : step config s (.tryWait env)
        =
      some
        { s with
          children
          polling := if registeredInterest then none else some (t, .receiving)
        } := by
  have hafter := h.afterTryWait_eq hpolling children registeredInterest (.error error)
  rw [← hafter]
  simp only [step, State.tryWait, hpolling, hwaiter, htry]

theorem exists_not_errorsReach
    (hrejected : ¬ ((waitOptionsFromBits config.accepted flags).isSome ∧ -1 ≤ pid))
    : ∃ s e s', Reachable config s ∧ step config s e = some s' ∧
        ¬ ErrorsReach config pid flags s e s' := by
  obtain ⟨error, htry⟩ := tryWait_rejected hrejected
  have hrun : Lts.run (step config) .new [] = some { State.new with children := [] } := rfl
  obtain ⟨s, hreach, hpolling, hwaiter, -⟩ := exists_attempt pid flags hrun
  have htry := htry (some false) s.children {}
  have hstep := step_tryWait_error hreach.sane hpolling hwaiter htry
  refine ⟨s, _, _, hreach, hstep, ?_⟩
  intro hreaches
  obtain ⟨-, task', hfind', hready⟩ :=
    hreaches 0 _ _ {} error _ rfl hpolling hwaiter rfl rfl htry
  obtain ⟨task, -, hfind, hpending, -⟩ := hreach.sane.task (hreach.sane.polling 0 _ hpolling).2
  have heq : task = task' := Option.some.inj (hfind.symm.trans hfind')
  rw [← heq, hpending] at hready
  contradiction

/--
A `process_wait` raises every error of its attempts in its fiber if and only if there are none:
`WaitOptions` accepts the flags, and the selector is not that of a process group.
-/
theorem errors_reach_iff (config : Config) (pid : Pid) (flags : UInt32)
    : (∀ s e s', Reachable config s → step config s e = some s' →
        ErrorsReach config pid flags s e s') ↔
      (waitOptionsFromBits config.accepted flags).isSome ∧ -1 ≤ pid := by
  constructor
  . intro hall
    by_contra hrejected
    obtain ⟨s, e, s', hreach, hstep, hnot⟩ := exists_not_errorsReach hrejected
    exact hnot (hall s e s' hreach hstep)
  . rintro ⟨hflags, hpid⟩ s e s' - - t phase waiter env error children - - - rfl rfl htry
    exact absurd htry (tryWait_accepted hflags hpid)

theorem errors_not_reach
    : ¬ ∀ config pid flags s e s', Reachable config s → step config s e = some s' →
        ErrorsReach config pid flags s e s' := by
  intro hall
  have hrejected : ¬ ((waitOptionsFromBits 11 0).isSome ∧ (-1 : Pid) ≤ -7) := by decide
  obtain ⟨s, e, s', hreach, hstep, hnot⟩ := @exists_not_errorsReach ⟨11, 1⟩ (-7) 0 hrejected
  exact hnot (hall ⟨11, 1⟩ (-7) 0 s e s' hreach hstep)

end ProcessWait
end Shreduler
