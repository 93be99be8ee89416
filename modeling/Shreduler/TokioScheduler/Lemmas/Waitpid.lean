import Shreduler.TokioScheduler.Lemmas.ProcessWait

/-!
This module compares a `process_wait` with the `waitpid` of the same selector and the same flags.
-/

namespace Shreduler
namespace ProcessWait

open Posix (Pid Child WaitEnv)
open Shreduler.State (findTask_mem findTask_unique findTask_complete ready_of_step)

variable {config : Config} {s s' : State} {t : TaskId} {pid : Pid} {flags : UInt32}

/-! ### The selector -/

theorem waitSelector_of_pos (hpid : 0 < pid) : waitSelector pid = .ok (some pid) := by
  have hzero : pid ≠ 0 := by
    rintro rfl
    contradiction
  have hany : pid ≠ -1 := by
    rintro rfl
    contradiction
  unfold waitSelector
  rw [if_neg hzero, if_neg hany, if_pos hpid, ite_self]

theorem waitSelector_of_lt (hpid : pid < -1)
    : waitSelector pid = .error (newBaseError s!"Invalid PID for process: {pid}") := by
  have hzero : pid ≠ 0 := by
    rintro rfl
    contradiction
  have hany : pid ≠ -1 := by
    rintro rfl
    contradiction
  have hone : (-1 : Pid).toInt = -1 := rfl
  have hlt := Int32.lt_iff_toInt_lt.mp hpid
  have hmin := Int32.le_toInt pid
  have hneg : ¬ -pid < pid := by
    rw [Int32.lt_iff_toInt_lt, Int32.toInt_neg, Int.bmod_def]
    omega
  have hpos : ¬ 0 < pid := by
    rw [Int32.lt_iff_toInt_lt, Int32.toInt_zero]
    omega
  unfold waitSelector
  rw [if_neg hzero, if_neg hany, if_neg hneg, if_neg hpos]

theorem pid_cases (pid : Pid) : pid = 0 ∨ pid = -1 ∨ 0 < pid ∨ pid < -1 := by
  have hone : (-1 : Pid).toInt = -1 := rfl
  simp only [← Int32.toInt_inj, Int32.lt_iff_toInt_lt, Int32.toInt_zero, hone]
  omega

theorem noHang_of_waitOptionsFromBits {options : Posix.WaitOptions}
    (h : waitOptionsFromBits config.accepted flags = some options)
    : options.noHang = true ↔ flags &&& 1 ≠ 0 := by
  unfold waitOptionsFromBits at h
  split at h
  . injection h with h
    simp [← h]
  . contradiction

/-! ### What a step completes -/

def Completes (s s' : State) (t : TaskId) (value : Value) : Prop :=
  s.Waits t ∧ ∃ task, s'.scheduler.findTask t = some task ∧ task.status = .ready (.ok value)

theorem not_completes_of_eq {value : Value} (heq : s'.scheduler = s.scheduler)
    : ¬ Completes s s' t value := by
  rintro ⟨⟨hpending, -⟩, task, hfind, hstatus⟩
  rw [← heq, hfind] at hpending
  simp [hstatus] at hpending

theorem not_completes_of_step (h : Sane s) {e : Shreduler.Event} {value : Value}
    (hstep : s.scheduler.step e = some s'.scheduler) (hpoll : ∀ env, e ≠ .poll t env)
    : ¬ Completes s s' t value := by
  rintro ⟨hwaits, task', hfind', hstatus'⟩
  obtain ⟨task, waiter, hfind, hstatus, hfuture, -⟩ := h.task hwaits
  obtain ⟨hmem, hid⟩ := findTask_mem hfind
  obtain ⟨hmem', hid'⟩ := findTask_mem hfind'
  rcases ready_of_step h.wf hstep hmem' hstatus' with hold | ⟨env, rfl⟩ | ⟨-, hraise⟩
  . rw [findTask_unique h.owned.nodup hfind hold hid', hstatus] at hstatus'
    contradiction
  . exact hpoll env (by rw [hid'])
  . obtain ⟨htimeout, -⟩ := (h.owned.raising _ hraise).2 task hmem (hid.trans hid'.symm)
    simp [Task.isTimeout, hfuture] at htimeout

theorem completes_complete (h : Sane s) {t' : TaskId} {result : Result Value} {value : Value}
    (hscheduler : s'.scheduler = s.scheduler.complete t' result) (hcompletes : Completes s s' t value)
    : t = t' ∧ result = .ok value := by
  obtain ⟨hwaits, task', hfind', hstatus'⟩ := hcompletes
  obtain ⟨task, waiter, hfind, hstatus, -⟩ := h.task hwaits
  rw [hscheduler, findTask_complete, hfind, Option.map_some, Option.some.injEq] at hfind'
  subst hfind'
  split at hstatus'
  . next hid =>
    injection hstatus' with hresult
    exact ⟨(findTask_mem hfind).2.symm.trans hid, hresult⟩
  . rw [hstatus] at hstatus'
    contradiction

theorem completes_cases (h : Sane s) {e : Event} {value : Value}
    (hstep : step config s e = some s') (hcompletes : Completes s s' t value)
    : ∃ env phase waiter status children, e = .tryWait env ∧ s.polling = some (t, phase) ∧
        s.waiters t = some waiter ∧
        waiter.tryWait config s.children env = .returns (.ok (some status)) children ∧
        value = .object "Process::Status" s.statuses.length ∧
        s'.statuses = s.statuses ++ [status] ∧ s'.children = children := by
  cases step_outcome hstep with
  | fork | change | setpgid | sigchld | poll | pollRecv | blocks =>
    exact absurd hcompletes (not_completes_of_eq rfl)
  | refused _ hhook | processWait _ hhook =>
    exact absurd hcompletes (not_completes_of_step h hhook (by simp))
  | pollFails _ hloop hwaits hend =>
    rw [h.endPoll_eq hloop hwaits (by rfl)] at hend
    injection hend with hend
    subst hend
    have hresult := (completes_complete h rfl hcompletes).2
    contradiction
  | @returns env t' phase registeredInterest waiter result children _ hpolling _ hwaiter htry hafter =>
    rw [h.afterTryWait_eq hpolling] at hafter
    injection hafter with hafter
    split at hafter
    . next status =>
      subst hafter
      obtain ⟨rfl, hvalue⟩ := completes_complete h rfl hcompletes
      injection hvalue with hvalue
      exact ⟨env, phase, waiter, status, children, rfl, hpolling, hwaiter, htry, hvalue.symm, rfl, rfl⟩
    all_goals exact absurd hcompletes (not_completes_of_eq (hafter ▸ rfl))
  | scheduler _ hpoll hscheduler =>
    refine absurd hcompletes (not_completes_of_step h hscheduler ?_)
    rintro env rfl
    exact hpoll t env rfl hcompletes.1

/-! ### The comparison with `waitpid` -/

def Reports (s s' : State) (value : Value) : Posix.Waited → Prop
  | .child child status =>
    (∃ id, value = .object "Process::Status" id ∧ s'.statuses[id]? = some ⟨child.pid, status, 0⟩) ∧
      s'.children = Posix.reap s.children child
  | .failed errno =>
    (∃ id, value = .object "Process::Status" id ∧ s'.statuses[id]? = some ⟨-1, 0, errno⟩) ∧
      s'.children = s.children
  | .none => value = .nil ∧ s'.children = s.children
  | .blocks => False

structure RefinesWaitpid (config : Config) (pid : Pid) (flags : UInt32) (s : State) (e : Event)
    (s' : State) : Prop where
  -- A `process_wait` completes with what `waitpid` may give back for the same selector.
  completes : ∀ t waiter value, s.waiters t = some waiter → waiter.pid = pid → waiter.flags = flags →
    Completes s s' t value → ∃ options env pick,
      waitOptionsFromBits config.accepted flags = some options ∧ e = .tryWait env ∧
        Reports s s' value
          (Posix.waitpid config.pgrp s.children pid options { pick, error := env.error })
  -- With `WNOHANG` it completes at once if there is no change to report.
  noHang : ∀ t phase waiter options env, e = .tryWait env → s.polling = some (t, phase) →
    s.waiters t = some waiter → waiter.pid = pid → waiter.flags = flags →
      waitOptionsFromBits config.accepted flags = some options → options.noHang = true →
        (∀ child ∈ s.children, Posix.Selects config.pgrp pid child → child.change options = none) →
          ∃ value, Completes s s' t value ∧
            Reports s s' value (Posix.waitpid config.pgrp s.children pid options env)

theorem refinesWaitpid_of_not_noHang (h : Sane s) {e : Event} (hstep : step config s e = some s')
    (hnohang : flags &&& 1 = 0) (hpid : 0 < pid ∨ pid < -1)
    : RefinesWaitpid config pid flags s e s' where
  completes t waiter value hwaiter hwaiterPid hwaiterFlags hcompletes := by
    obtain ⟨env, phase, waiter', status, children, rfl, -, hwaiter', htry, rfl, hstatuses, hchildren⟩ :=
      completes_cases h hstep hcompletes
    obtain rfl : waiter = waiter' := Option.some.inj (hwaiter.symm.trans hwaiter')
    have hobject : s'.statuses[s.statuses.length]? = some status := by simp [hstatuses]
    subst hwaiterPid hwaiterFlags
    cases hoptions : waitOptionsFromBits config.accepted waiter.flags with
    | none => simp [PidWaiter.tryWait, hoptions] at htry
    | some options =>
      refine ⟨options, env, env.pick, rfl, rfl, ?_⟩
      cases hpid with
      | inl hpid =>
        simp only [PidWaiter.tryWait, hoptions, waitSelector_of_pos hpid, waitpid, Option.getD_some]
          at htry
        cases hwaited : Posix.waitpid config.pgrp s.children waiter.pid options env with
        | blocks => simp [hwaited] at htry
        | none => simp [hwaited] at htry
        | failed errno =>
          simp only [hwaited, TryWait.returns.injEq, Except.ok.injEq, Option.some.injEq] at htry
          exact ⟨⟨_, rfl, by rw [hobject, htry.1]⟩, by rw [hchildren, htry.2]⟩
        | child child status' =>
          simp only [hwaited, TryWait.returns.injEq, Except.ok.injEq, Option.some.injEq] at htry
          have hselects := (Posix.mem_of_waitpid hwaited).2.1
          rw [Posix.Selects, if_pos hpid] at hselects
          exact ⟨⟨_, rfl, by rw [hobject, ← htry.1, hselects]⟩, by rw [hchildren, htry.2]⟩
      | inr hpid =>
        simp [PidWaiter.tryWait, hoptions, waitSelector_of_lt hpid] at htry
  noHang t phase waiter options env _ _ _ _ _ hoptions hoptionsNoHang := by
    have := (noHang_of_waitOptionsFromBits hoptions).mp hoptionsNoHang
    contradiction

/-! ### Attempts that differ from `waitpid` -/

theorem Reachable.sane (h : Reachable config s) : Sane s := by
  obtain ⟨es, hrun⟩ := h
  exact Lts.invariant (fun _ _ _ hsane hstep => hsane.step hstep) .new hrun

theorem exists_polling
    : ∃ s₁ s₂ s₃ s₄, Shreduler.State.step .new .fiber = some s₁ ∧ s₁.nextTask = 0 ∧
        s₁.step (.hook .processWait) = some s₂ ∧ s₂.nextTask = 1 ∧ s₂.step .switch = some s₃ ∧
        s₃.step .run = some s₄ ∧ s₄.AtJoinNext ∧ (s₄.findTask 0).any (·.status = .pending) := by
  refine ⟨_, _, _, _, rfl, rfl, rfl, rfl, rfl, rfl, ?_, ?_⟩
  all_goals decide

theorem exists_attempt (pid : Pid) (flags : UInt32) {es : List Event} {children : List Child}
    (hrun : Lts.run (step config) .new es = some { State.new with children })
    : ∃ s, Reachable config s ∧ s.polling = some (0, .waiting true) ∧
        s.waiters 0 = some { pid, flags, signal := some false } ∧ s.children = children := by
  obtain ⟨s₁, s₂, s₃, s₄, h₁, hnext₁, h₂, hnext₂, h₃, h₄, hloop, hpending⟩ := exists_polling
  obtain ⟨s, hattempt, hs⟩ : ∃ s, Lts.run (step config) { State.new with children }
        [.scheduler .fiber, .processWait pid flags, .scheduler .switch, .scheduler .run, .poll 0 none,
          .pollRecv] = some s ∧ s.polling = some (0, .waiting true) ∧
        s.waiters 0 = some { pid, flags, signal := some false } ∧ s.children = children := by
    simp [Lts.run, step, State.new, State.schedulerStep, State.lift, State.processWait, State.setWaiter,
      State.poll, State.Waits, State.pollRecv, h₁, hnext₁, h₂, hnext₂, h₃, h₄, hloop, hpending]
  exact ⟨s, ⟨_, (Lts.run_append_of_run hrun _).trans hattempt⟩, hs⟩

theorem step_tryWait (h : Sane s) {registeredInterest : Bool} {waiter : PidWaiter} {env : WaitEnv}
    {result : Result (Option ProcessStatus)} {children : List Child}
    (hpolling : s.polling = some (t, .waiting registeredInterest))
    (hwaiter : s.waiters t = some waiter)
    (htry : waiter.tryWait config s.children env = .returns result children)
    : ∃ s', step config s (.tryWait env) = some s' ∧
        match result with
        | .ok (some status) =>
          Completes s s' t (.object "Process::Status" s.statuses.length) ∧
            s'.statuses = s.statuses ++ [status]
        | .ok none | .error _ => ∀ value, ¬ Completes s s' t value := by
  obtain ⟨s', hafter⟩ : ∃ s', { s with children }.afterTryWait t registeredInterest result = some s' :=
    ⟨_, h.afterTryWait_eq hpolling children registeredInterest result⟩
  refine ⟨s', ?_, ?_⟩
  . rw [← hafter]
    simp only [step, State.tryWait, hpolling, hwaiter, htry]
  . rw [h.afterTryWait_eq hpolling] at hafter
    injection hafter with hafter
    split
    . subst hafter
      have hwaits := (h.polling t _ hpolling).2
      obtain ⟨task, -, hfind, -⟩ := h.task hwaits
      refine ⟨⟨hwaits, { task with status := .ready _ }, ?_, rfl⟩, rfl⟩
      rw [findTask_complete, hfind, Option.map_some, if_pos (findTask_mem hfind).2]
    all_goals
      intro value
      exact not_completes_of_eq (hafter ▸ rfl)

def exitedChild (pgid : Pid) : Child := ⟨7, pgid, .exited 0⟩

theorem exitedChild_changed (options : Posix.WaitOptions)
    (hselects : Posix.Selects config.pgrp pid (exitedChild config.pgrp))
    : ∃ child ∈ [exitedChild config.pgrp], Posix.Selects config.pgrp pid child ∧
        child.change options ≠ none :=
  ⟨_, List.mem_singleton_self _, hselects, by simp [exitedChild, Child.change]⟩

theorem not_refines_of_exited
    (hselects : Posix.Selects config.pgrp pid (exitedChild config.pgrp)) {status : ProcessStatus}
    {children : List Child}
    (htry : PidWaiter.tryWait { pid, flags, signal := some false } config [exitedChild config.pgrp] {}
      = .returns (.ok (some status)) children) (hne : status.pid ≠ 7)
    : ∃ s e s', Reachable config s ∧ step config s e = some s' ∧
        ¬ RefinesWaitpid config pid flags s e s' := by
  have hrun : Lts.run (step config) .new [.fork 7 config.pgrp, .change 7 (.exited 0)]
      = some { State.new with children := [exitedChild config.pgrp] } := rfl
  obtain ⟨s, hreach, hpolling, hwaiter, hchildren⟩ := exists_attempt pid flags hrun
  obtain ⟨s', hstep, hcompletes, hstatuses⟩ :=
    step_tryWait hreach.sane hpolling hwaiter (hchildren ▸ htry)
  refine ⟨s, .tryWait {}, s', hreach, hstep, ?_⟩
  intro hrefines
  obtain ⟨options, env, pick, hoptions, henv, hreports⟩ :=
    hrefines.completes 0 _ _ hwaiter rfl rfl hcompletes
  injection henv with henv
  subst henv
  obtain ⟨child, status', hwaited, hmem, -⟩ :=
    Posix.waitpid_of_changed { pick } rfl (exitedChild_changed options hselects)
  rw [List.mem_singleton] at hmem
  rw [hchildren, hwaited] at hreports
  obtain ⟨⟨id, hid, hstatus⟩, -⟩ := hreports
  injection hid with _ hid
  rw [← hid, hstatuses, List.getElem?_concat_length, Option.some.injEq] at hstatus
  exact hne (by rw [hstatus, hmem]; rfl)

theorem not_refines_of_noHang {options : Posix.WaitOptions}
    (hoptions : waitOptionsFromBits config.accepted flags = some options)
    (hnohang : options.noHang = true) {es : List Event} {children : List Child}
    (hrun : Lts.run (step config) .new es = some { State.new with children })
    (hquiet : ∀ child ∈ children, Posix.Selects config.pgrp pid child → child.change options = none)
    {result : Result (Option ProcessStatus)} {children' : List Child}
    (htry : PidWaiter.tryWait { pid, flags, signal := some false } config children {}
      = .returns result children') (hresult : ∀ status, result ≠ .ok (some status))
    : ∃ s e s', Reachable config s ∧ step config s e = some s' ∧
        ¬ RefinesWaitpid config pid flags s e s' := by
  obtain ⟨s, hreach, hpolling, hwaiter, rfl⟩ := exists_attempt pid flags hrun
  obtain ⟨s', hstep, hnot⟩ := step_tryWait hreach.sane hpolling hwaiter htry
  refine ⟨s, .tryWait {}, s', hreach, hstep, ?_⟩
  intro hrefines
  obtain ⟨value, hcompletes, -⟩ :=
    hrefines.noHang 0 _ _ options {} rfl hpolling hwaiter rfl rfl hoptions hnohang hquiet
  split at hnot
  . exact hresult _ rfl
  all_goals exact hnot value hcompletes

theorem exists_not_refines_of_zero (hflags : (waitOptionsFromBits config.accepted flags).isSome)
    : ∃ s e s', Reachable config s ∧ step config s e = some s' ∧
        ¬ RefinesWaitpid config 0 flags s e s' := by
  obtain ⟨options, hoptions⟩ := Option.isSome_iff_exists.mp hflags
  have hselects : Posix.Selects config.pgrp 0 (exitedChild config.pgrp) := by
    simp [Posix.Selects, exitedChild]
  obtain ⟨child, status, hwaited, -⟩ :=
    Posix.waitpid_of_changed {} rfl (exitedChild_changed options hselects)
  have htry : PidWaiter.tryWait ⟨0, flags, some false⟩ config [exitedChild config.pgrp] {}
      = .returns (.ok (some ⟨0, status, 0⟩)) (Posix.reap [exitedChild config.pgrp] child) := by
    simp only [PidWaiter.tryWait, hoptions, waitSelector, if_true, waitpid, Option.getD_none, hwaited]
  exact not_refines_of_exited hselects htry (by simp)

theorem exists_not_refines_of_any (hflags : (waitOptionsFromBits config.accepted flags).isSome)
    : ∃ s e s', Reachable config s ∧ step config s e = some s' ∧
        ¬ RefinesWaitpid config (-1) flags s e s' := by
  obtain ⟨options, hoptions⟩ := Option.isSome_iff_exists.mp hflags
  have hselects : Posix.Selects config.pgrp (-1) (exitedChild config.pgrp) := trivial
  have hnone : ∀ child ∈ [exitedChild config.pgrp], ¬ Posix.Selects config.pgrp rawPidMax child := by
    simp [Posix.Selects, exitedChild, rawPidMax]
  have htry : PidWaiter.tryWait ⟨-1, flags, some false⟩ config [exitedChild config.pgrp] {}
      = .returns (.ok (some ⟨-1, 0, Posix.echild⟩)) [exitedChild config.pgrp] := by
    have hwaited : Posix.waitpid config.pgrp [exitedChild config.pgrp] rawPidMax options {}
        = .failed Posix.echild := Posix.waitpid_of_not_selects rfl hnone
    have hselector : waitSelector (-1) = .ok (some rawPidMax) := rfl
    simp only [PidWaiter.tryWait, hoptions, hselector, waitpid, Option.getD_some, hwaited]
  exact not_refines_of_exited hselects htry (by decide)

theorem exists_not_refines_of_noHang (hflags : (waitOptionsFromBits config.accepted flags).isSome)
    (hnohang : flags &&& 1 ≠ 0) (hpid : 0 < pid ∨ pid < -1)
    : ∃ s e s', Reachable config s ∧ step config s e = some s' ∧
        ¬ RefinesWaitpid config pid flags s e s' := by
  obtain ⟨options, hoptions⟩ := Option.isSome_iff_exists.mp hflags
  have hnohang := (noHang_of_waitOptionsFromBits hoptions).mpr hnohang
  cases hpid with
  | inl hpid =>
    have hrun : Lts.run (step config) .new [.fork pid 1]
        = some { State.new with children := [⟨pid, 1, .quiet⟩] } := by
      simp [Lts.run, step, State.fork, State.new, hpid]
    have hquiet : ∀ child ∈ [Child.mk pid 1 .quiet], Posix.Selects config.pgrp pid child →
        child.change options = none := by
      simp [Child.change]
    have hselects : Posix.Selects config.pgrp pid ⟨pid, 1, .quiet⟩ := by
      simp [Posix.Selects, hpid]
    have htry : PidWaiter.tryWait ⟨pid, flags, some false⟩ config [⟨pid, 1, .quiet⟩] {}
        = .returns (.ok none) [⟨pid, 1, .quiet⟩] := by
      have hwaited : Posix.waitpid config.pgrp [⟨pid, 1, .quiet⟩] pid options {} = _ :=
        Posix.waitpid_of_unchanged rfl ⟨⟨_, List.mem_singleton_self _, hselects⟩, hquiet⟩
      simp only [PidWaiter.tryWait, hoptions, waitSelector_of_pos hpid, waitpid, Option.getD_some,
        hwaited, hnohang, if_true]
    exact not_refines_of_noHang hoptions hnohang hrun hquiet htry (by simp)
  | inr hpid =>
    have htry : PidWaiter.tryWait ⟨pid, flags, some false⟩ config [] {}
        = .returns (.error (newBaseError s!"Invalid PID for process: {pid}")) [] := by
      simp only [PidWaiter.tryWait, hoptions, waitSelector_of_lt hpid]
    exact not_refines_of_noHang hoptions hnohang (Lts.run_nil _) (by simp) htry (by simp)

/--
For any flags that `WaitOptions` accepts, `process_wait` refines `waitpid` if and only if `WNOHANG` is
not among them and the selector is a pid, or a process group: with the latter it never completes.
-/
theorem refines_waitpid_iff (hflags : (waitOptionsFromBits config.accepted flags).isSome)
    : (∀ s e s', Reachable config s → step config s e = some s' →
        RefinesWaitpid config pid flags s e s') ↔ flags &&& 1 = 0 ∧ (0 < pid ∨ pid < -1) := by
  constructor
  . intro hall
    have hnot (h : ∃ s e s', Reachable config s ∧ step config s e = some s' ∧
        ¬ RefinesWaitpid config pid flags s e s') : False := by
      obtain ⟨s, e, s', hreach, hstep, hnot⟩ := h
      exact hnot (hall s e s' hreach hstep)
    have hpid : 0 < pid ∨ pid < -1 := by
      obtain rfl | rfl | hpid := pid_cases pid
      . exact (hnot (exists_not_refines_of_zero hflags)).elim
      . exact (hnot (exists_not_refines_of_any hflags)).elim
      . exact hpid
    refine ⟨?_, hpid⟩
    by_contra hnohang
    exact hnot (exists_not_refines_of_noHang hflags hnohang hpid)
  . rintro ⟨hnohang, hpid⟩ s e s' hreach hstep
    exact refinesWaitpid_of_not_noHang hreach.sane hstep hnohang hpid

theorem refines_waitpid_seven
    : (∀ s e s', Reachable ⟨11, 1⟩ s → step ⟨11, 1⟩ s e = some s' →
        RefinesWaitpid ⟨11, 1⟩ 7 0 s e s') ↔ (0 : UInt32) &&& 1 = 0 ∧ ((0 : Pid) < 7 ∨ (7 : Pid) < -1) :=
  refines_waitpid_iff (by decide)

theorem not_refines_waitpid
    : ¬ ∀ config pid flags, (waitOptionsFromBits config.accepted flags).isSome →
        ∀ s e s', Reachable config s → step config s e = some s' →
          RefinesWaitpid config pid flags s e s' := by
  intro hall
  obtain ⟨s, e, s', hreach, hstep, hnot⟩ :
      ∃ s e s', Reachable ⟨11, 1⟩ s ∧ step ⟨11, 1⟩ s e = some s' ∧
        ¬ RefinesWaitpid ⟨11, 1⟩ (-1) 0 s e s' :=
    exists_not_refines_of_any (by decide)
  exact hnot (hall ⟨11, 1⟩ (-1) 0 (by decide) s e s' hreach hstep)

end ProcessWait
end Shreduler
