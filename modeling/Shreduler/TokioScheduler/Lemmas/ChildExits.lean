import Shreduler.Lts.Refinement
import Shreduler.TokioScheduler.Lemmas.Waitpid

/-!
This module proves that the exits of the children are conserved by `process_wait`: each of them is
reported by one `Process::Status` of one task, or has yet to be reported.
-/

namespace Shreduler

open Posix (Pid Child WaitEnv)

namespace ProcessWait

variable {config : Config} {s s' : State} {t : TaskId}

structure Reap where
  task : TaskId
  object : Nat
  child : Child
  status : Int32

namespace PidWaiter

def reported (waiter : PidWaiter) (config : Config) (children : List Child) (env : WaitEnv)
    : Option (Child × Int32) :=
  match waitOptionsFromBits config.accepted waiter.flags with
  | none => none
  | some options =>
    match waitSelector waiter.pid with
    | .error _ => none
    | .ok pid =>
      match waitpid config.pgrp children pid options env with
      | .child child status => some (child, status)
      | .blocks | .none | .failed _ => none

inductive Attempt (waiter : PidWaiter) (config : Config) (children : List Child) (env : WaitEnv)
    : Result (Option ProcessStatus) → List Child → Prop
  | reports (child : Child) (status : Int32) (hmem : child ∈ children)
    (hstatus : ∀ exit, child.exit = some exit → exit = (child.pid, status))
    (hreported : waiter.reported config children env = some (child, status))
    : Attempt waiter config children env (.ok (some { pid := waiter.pid, status, error := 0 }))
        (Posix.reap children child)
  | reportsNone (result : Result (Option ProcessStatus))
    (hreported : waiter.reported config children env = none)
    : Attempt waiter config children env result children

theorem attempt_of_tryWait {waiter : PidWaiter} {children children' : List Child} {env : WaitEnv}
    {result : Result (Option ProcessStatus)}
    (h : waiter.tryWait config children env = .returns result children')
    : Attempt waiter config children env result children' := by
  unfold tryWait at h
  dsimp only at h
  cases hoptions : waitOptionsFromBits config.accepted waiter.flags with
  | none =>
    simp only [hoptions, TryWait.returns.injEq] at h
    rw [← h.2]
    apply Attempt.reportsNone
    simp [reported, hoptions]
  | some options =>
    rw [hoptions] at h
    dsimp only at h
    cases hselector : waitSelector waiter.pid with
    | error e =>
      simp only [hselector, TryWait.returns.injEq] at h
      rw [← h.2]
      apply Attempt.reportsNone
      simp [reported, hoptions, hselector]
    | ok pid =>
      rw [hselector] at h
      dsimp only at h
      cases hwaited : waitpid config.pgrp children pid options env with
      | blocks => simp [hwaited] at h
      | none | failed errno =>
        simp only [hwaited, TryWait.returns.injEq] at h
        rw [← h.2]
        apply Attempt.reportsNone
        simp [reported, hoptions, hselector, hwaited]
      | child child status =>
        simp only [hwaited, TryWait.returns.injEq] at h
        obtain ⟨hresult, hchildren⟩ := h
        subst hresult hchildren
        obtain ⟨hmem, -, hchange⟩ := Posix.mem_of_waitpid hwaited
        apply Attempt.reports child status hmem
        . intro exit hexit
          exact Child.eq_of_change hchange hexit
        . simp [reported, hoptions, hselector, hwaited]

theorem reported_of_blocks {waiter : PidWaiter} {children : List Child} {env : WaitEnv}
    (h : waiter.tryWait config children env = .blocks) : waiter.reported config children env = none := by
  unfold tryWait at h
  unfold reported
  cases hoptions : waitOptionsFromBits config.accepted waiter.flags with
  | none => simp [hoptions] at h
  | some options =>
    cases hselector : waitSelector waiter.pid with
    | error e => simp [hoptions, hselector] at h
    | ok pid =>
      simp only [hoptions, hselector] at h ⊢
      cases hwaited : waitpid config.pgrp children pid options env with
      | blocks => rfl
      | none | failed errno | child child status => simp [hwaited] at h

end PidWaiter

/-! ### The history of a run -/

def exited (s : State) (e : Event) (_ : State) : List (Pid × Int32) :=
  match e with
  | .change pid state =>
    ((s.children.find? (·.pid = pid)).bind fun child => { child with state : Child }.exit).toList
  | _ => []

def reaped (config : Config) (s : State) (e : Event) (_ : State) : List Reap :=
  match e with
  | .tryWait env =>
    match s.polling with
    | some (t, _) =>
      match (s.waiters t).bind fun waiter => waiter.reported config s.children env with
      | some (child, status) => [{ task := t, object := s.statuses.length, child, status }]
      | none => []
    | none => []
  | _ => []

/-- The objects and tasks behind the reports of a run. -/
structure Reported (s : State) (reaps : List Reap) : Prop where
  status : ∀ r ∈ reaps, ∃ pid, s.statuses[r.object]? = some { pid, status := r.status, error := 0 }
  exit : ∀ r ∈ reaps, ∀ exit, r.child.exit = some exit → exit = (r.child.pid, r.status)
  objects : (reaps.map (·.object)).Pairwise (· < ·)
  done : ∀ r ∈ reaps, s.waiters r.task = none ∧ r.task < s.scheduler.nextTask
  tasks : (reaps.map (·.task)).Nodup

structure Conserved (s : State) (exits : List (Pid × Int32)) (reaps : List Reap) : Prop where
  sane : Sane s
  nodup : (s.children.map (·.pid)).Nodup
  perm : exits.Perm (reaps.filterMap (·.child.exit) ++ Posix.exits s.children)
  reported : Reported s reaps

theorem Reported.frame {reaps : List Reap} (h : Reported s reaps)
    (hstatuses : s.statuses <+: s'.statuses) (hnext : s.scheduler.nextTask ≤ s'.scheduler.nextTask)
    (hwaiters : ∀ t < s.scheduler.nextTask, s.waiters t = none → s'.waiters t = none)
    : Reported s' reaps where
  status r hr := by
    obtain ⟨pid, hstatus⟩ := h.status r hr
    obtain ⟨rest, hrest⟩ := hstatuses
    obtain ⟨hlt, -⟩ := List.getElem?_eq_some_iff.mp hstatus
    refine ⟨pid, ?_⟩
    rw [← hrest, List.getElem?_append_left hlt]
    exact hstatus
  exit := h.exit
  objects := h.objects
  done r hr := by
    obtain ⟨hnone, hlt⟩ := h.done r hr
    exact ⟨hwaiters r.task hlt hnone, Nat.lt_of_lt_of_le hlt hnext⟩
  tasks := h.tasks

theorem Reported.add {reaps : List Reap} (h : Reported s reaps) {r : Reap} {pid : Pid}
    (hobject : r.object = s.statuses.length)
    (hexit : ∀ exit, r.child.exit = some exit → exit = (r.child.pid, r.status))
    (hwaiter : s.waiters r.task ≠ none) (hlt : r.task < s.scheduler.nextTask)
    (hstatuses : s'.statuses = s.statuses ++ [{ pid, status := r.status, error := 0 }])
    (hnext : s.scheduler.nextTask ≤ s'.scheduler.nextTask)
    (hwaiters : s'.waiters = Function.update s.waiters r.task none)
    : Reported s' (reaps ++ [r]) := by
  have hold : Reported s' reaps := by
    apply h.frame
    . rw [hstatuses]
      apply List.prefix_append
    . exact hnext
    . intro t _ hnone
      rw [hwaiters]
      by_cases heq : t = r.task
      . rw [heq, Function.update_self]
      . rw [Function.update_of_ne heq]
        exact hnone
  constructor
  . intro r' hr'
    cases List.mem_append.mp hr' with
    | inl hr' => exact hold.status r' hr'
    | inr hr' =>
      rw [List.mem_singleton.mp hr', hstatuses, hobject, List.getElem?_concat_length]
      exact ⟨pid, rfl⟩
  . intro r' hr'
    cases List.mem_append.mp hr' with
    | inl hr' => exact h.exit r' hr'
    | inr hr' => exact List.mem_singleton.mp hr' ▸ hexit
  . rw [List.map_append, List.pairwise_append]
    refine ⟨h.objects, by simp, ?_⟩
    intro object hmem object' hmem'
    obtain ⟨r', hr', rfl⟩ := List.mem_map.mp hmem
    obtain rfl := List.mem_singleton.mp hmem'
    obtain ⟨pid', hstatus⟩ := h.status r' hr'
    obtain ⟨hlt', -⟩ := List.getElem?_eq_some_iff.mp hstatus
    change r'.object < r.object
    rw [hobject]
    exact hlt'
  . intro r' hr'
    cases List.mem_append.mp hr' with
    | inl hr' => exact hold.done r' hr'
    | inr hr' =>
      rw [List.mem_singleton.mp hr', hwaiters, Function.update_self]
      exact ⟨rfl, Nat.lt_of_lt_of_le hlt hnext⟩
  . apply nodup_map_append_singleton h.tasks
    intro r' hr' heq
    exact hwaiter (heq ▸ (h.done r' hr').1)

namespace Conserved

variable {exits : List (Pid × Int32)} {reaps : List Reap}

theorem new : Conserved .new [] [] where
  sane := .new
  nodup := List.nodup_nil
  perm := .refl _
  reported := ⟨by simp, by simp, by simp, by simp, by simp⟩

theorem frame (h : Conserved s exits reaps) (hsane : Sane s') (hchildren : s'.children = s.children)
    (hstatuses : s.statuses <+: s'.statuses) (hnext : s.scheduler.nextTask ≤ s'.scheduler.nextTask)
    (hwaiters : ∀ t < s.scheduler.nextTask, s.waiters t = none → s'.waiters t = none)
    : Conserved s' exits reaps where
  sane := hsane
  nodup := hchildren ▸ h.nodup
  perm := hchildren ▸ h.perm
  reported := h.reported.frame hstatuses hnext hwaiters

theorem children (h : Conserved s exits reaps) {children : List Child} {exits' : List (Pid × Int32)}
    (hnodup : (children.map (·.pid)).Nodup)
    (hperm : (Posix.exits children).Perm (exits' ++ Posix.exits s.children))
    : Conserved { s with children } (exits ++ exits') reaps where
  sane := h.sane.children children
  nodup := hnodup
  perm := by
    have hexits := h.perm.append_right exits'
    rw [List.append_assoc] at hexits
    apply hexits.trans
    apply List.Perm.append_left
    exact List.perm_append_comm.trans hperm.symm
  reported := h.reported.frame List.prefix_rfl (Nat.le_refl _) fun _ _ hnone => hnone

theorem quietChildren (h : Conserved s exits reaps) {children : List Child}
    (hnodup : (children.map (·.pid)).Nodup) (hexits : Posix.exits children = Posix.exits s.children)
    : Conserved { s with children } exits reaps := by
  rw [← List.append_nil exits]
  apply h.children hnodup
  rw [hexits]
  exact .refl _

theorem nodup_updateChild (h : Conserved s exits reaps) (pid : Pid) {f : Child → Child}
    (hf : ∀ child, (f child).pid = child.pid)
    : ((s.updateChild pid f).children.map (·.pid)).Nodup := by
  have hpids : (s.updateChild pid f).children.map (·.pid) = s.children.map (·.pid) := by
    simp only [State.updateChild, List.map_map]
    apply List.map_congr_left
    intro child _
    simp only [Function.comp_apply]
    split
    . exact hf child
    . rfl
  rw [hpids]
  exact h.nodup

theorem returns (h : Conserved s exits reaps) {env : WaitEnv} {phase : Phase} {registeredInterest : Bool}
    {waiter : PidWaiter} {result : Result (Option ProcessStatus)} {children : List Child}
    (hpolling : s.polling = some (t, phase)) (hwaiter : s.waiters t = some waiter)
    (htry : waiter.tryWait config s.children env = .returns result children)
    (hafter : { s with children }.afterTryWait t registeredInterest result = some s')
    : Conserved s' exits (reaps ++ reaped config s (.tryWait env) s') := by
  have hsane : Sane s' := (h.sane.children children).afterTryWait hpolling hafter
  rw [h.sane.afterTryWait_eq hpolling, Option.some.injEq] at hafter
  have hreaped : reaped config s (.tryWait env) s'
      = match waiter.reported config s.children env with
        | some (child, status) => [{ task := t, object := s.statuses.length, child, status }]
        | none => [] := by
    simp only [reaped, hpolling, hwaiter, Option.bind_some]
  rw [hreaped]
  cases PidWaiter.attempt_of_tryWait htry with
  | reports child status hmem hstatus hreported =>
    rw [hreported]
    dsimp only at hafter ⊢
    constructor
    . exact hsane
    . rw [← hafter]
      exact (Posix.map_pid_reap_sublist s.children child).nodup h.nodup
    . rw [← hafter, List.filterMap_append, List.append_assoc]
      apply h.perm.trans
      apply List.Perm.append_left
      have hreap := Posix.exits_reap h.nodup hmem
      cases hexit : child.exit with
      | none => simpa [hexit] using hreap
      | some exit => simpa [hexit] using hreap
    . have hlt := (h.sane.waiter t waiter hwaiter).1
      apply h.reported.add rfl hstatus (by simp [hwaiter]) hlt
      . rw [← hafter]
      . rw [← hafter]
        exact Nat.le_refl _
      . rw [← hafter]
        rfl
  | reportsNone _ hreported =>
    rw [hreported]
    dsimp only
    rw [List.append_nil]
    split at hafter
    . apply h.frame hsane
      . rw [← hafter]
      . rw [← hafter]
        apply List.prefix_append
      . rw [← hafter]
        exact Nat.le_refl _
      . rw [← hafter]
        intro t' _ hnone
        by_cases heq : t' = t
        . rw [heq]
          exact Function.update_self ..
        . exact (Function.update_of_ne heq ..).trans hnone
    all_goals
      rw [← hafter]
      rw [← hafter] at hsane
      exact h.frame hsane rfl List.prefix_rfl (Nat.le_refl _) fun _ _ hnone => hnone

theorem step (h : Conserved s exits reaps) {e : Event} (hstep : ProcessWait.step config s e = some s')
    : Conserved s' (exits ++ exited s e s') (reaps ++ reaped config s e s') := by
  have hsane := h.sane.step hstep
  have hwaiter {t : TaskId} {waiter waiter' : PidWaiter} (hold : s.waiters t = some waiter) (t' : TaskId)
      (hnone : s.waiters t' = none) : Function.update s.waiters t (some waiter') t' = none := by
    by_cases heq : t' = t
    . rw [heq, hold] at hnone
      contradiction
    . rw [Function.update_of_ne heq]
      exact hnone
  cases step_outcome hstep with
  | @fork pid pgid hpid hnew =>
    simp only [exited, reaped, List.append_nil]
    apply h.quietChildren
    . exact nodup_map_append_singleton h.nodup hnew
    . rw [Posix.exits_append]
      apply List.append_nil
  | @change pid state hexited =>
    simp only [reaped, List.append_nil]
    apply h.children
    . exact h.nodup_updateChild pid fun _ => rfl
    . apply Posix.exits_update h.nodup
      intro child hmem hpid
      exact Child.exit_eq_none_iff.mpr (hexited child hmem hpid)
  | @setpgid pid pgid =>
    simp only [exited, reaped, List.append_nil]
    apply h.quietChildren
    . exact h.nodup_updateChild pid fun _ => rfl
    . apply Posix.exits_map
      intro child _
      split
      . rfl
      . rfl
  | sigchld =>
    simp only [exited, reaped, List.append_nil]
    apply h.frame hsane rfl List.prefix_rfl (Nat.le_refl _)
    intro t _ hnone
    simp [State.sigchld, hnone]
  | refused hpolling hhook =>
    simp only [exited, reaped, List.append_nil]
    apply h.frame hsane rfl List.prefix_rfl
    . exact State.nextTask_le_of_step h.sane.wf h.sane.owned hhook
    . exact fun _ _ hnone => hnone
  | processWait hpolling hhook hnext =>
    simp only [exited, reaped, List.append_nil]
    apply h.frame hsane rfl List.prefix_rfl
    . exact State.nextTask_le_of_step h.sane.wf h.sane.owned hhook
    . intro t hlt hnone
      exact (Function.update_of_ne (Nat.ne_of_lt hlt) ..).trans hnone
  | poll signal _ _ _ hold =>
    simp only [exited, reaped, List.append_nil]
    exact h.frame hsane rfl List.prefix_rfl (Nat.le_refl _) fun t _ hnone => hwaiter hold t hnone
  | @pollFails t signalError error _ _ hidle hloop hwaits hend =>
    simp only [exited, reaped, List.append_nil]
    have hends : (s.setWaiter t none).endPoll t (.ready (.error error)) = some _ :=
      h.sane.endPoll_eq hloop hwaits (by rfl) _
    rw [hends, Option.some.injEq] at hend
    rw [← hend]
    rw [← hend] at hsane
    apply h.frame hsane rfl List.prefix_rfl (Nat.le_refl _)
    intro t' _ hnone
    by_cases heq : t' = t
    . rw [heq]
      exact Function.update_self ..
    . exact (Function.update_of_ne heq ..).trans hnone
  | pollRecv _ hold =>
    simp only [exited, reaped, List.append_nil]
    exact h.frame hsane rfl List.prefix_rfl (Nat.le_refl _) fun t _ hnone => hwaiter hold t hnone
  | @blocks env t registeredInterest waiter hpolling hwaiter htry =>
    have hnone := PidWaiter.reported_of_blocks htry
    simp only [exited, reaped, hpolling, hwaiter, Option.bind_some, hnone, List.append_nil]
    exact h.frame hsane rfl List.prefix_rfl (Nat.le_refl _) fun _ _ hnone => hnone
  | returns hpolling _ hwaiter htry hafter =>
    simp only [exited, List.append_nil]
    exact h.returns hpolling hwaiter htry hafter
  | scheduler hpolling hpoll hscheduler =>
    simp only [exited, reaped, List.append_nil]
    apply h.frame hsane rfl List.prefix_rfl
    . exact State.nextTask_le_of_step h.sane.wf h.sane.owned hscheduler
    . exact fun _ _ hnone => hnone

end Conserved

structure Takes (s : State) (e : Event) (s' : State) (r : Reap) (waiter : PidWaiter) : Prop where
  attempt : ∃ env, e = .tryWait env
  polling : ∃ phase, s.polling = some (r.task, phase)
  held : s.waiters r.task = some waiter
  object : r.object = s.statuses.length
  statuses : s'.statuses = s.statuses ++ [{ pid := waiter.pid, status := r.status, error := 0 }]
  ended : s'.polling = none
  complete : s'.scheduler = s.scheduler.complete r.task (.ok (.object "Process::Status" r.object))

theorem takes_of_reaped (h : Sane s) {e : Event} (hstep : step config s e = some s') {r : Reap}
    (hr : r ∈ reaped config s e s') : ∃ waiter, Takes s e s' r waiter := by
  cases step_outcome hstep with
  | @blocks env t registeredInterest waiter hpolling hwaiter htry =>
    have hnone := PidWaiter.reported_of_blocks htry
    simp [reaped, hpolling, hwaiter, hnone] at hr
  | @returns env t phase registeredInterest waiter result children _ hpolling _ hwaiter htry hafter =>
    simp only [reaped, hpolling, hwaiter, Option.bind_some] at hr
    rw [h.afterTryWait_eq hpolling, Option.some.injEq] at hafter
    cases PidWaiter.attempt_of_tryWait htry with
    | reports child status _ _ hreported =>
      simp only [hreported, List.mem_singleton] at hr
      subst hr hafter
      exact ⟨waiter, ⟨env, rfl⟩, ⟨phase, hpolling⟩, hwaiter, rfl, rfl, rfl, rfl⟩
    | reportsNone _ hreported => simp [hreported] at hr
  | _ => simp [reaped] at hr

/--
In every run, whatever the pids and flags: the exits of the children are those that `waitpid` has
reported to tasks and those that no one has waited for. Each report is in a `Process::Status` of its
own, with the status of the child, and completes its task on the spot. No task gets two of them.
-/
theorem exits_conserved (config : Config) (es : List Event) (s : State)
    (hrun : Lts.run (step config) .new es = some s)
    : (Lts.trace (step config) exited .new es).Perm
          ((Lts.trace (step config) (reaped config) .new es).filterMap (·.child.exit) ++
            Posix.exits s.children) ∧
        Reported s (Lts.trace (step config) (reaped config) .new es) ∧
        Lts.Along (step config)
          (fun s e => ∀ s' r, step config s e = some s' → r ∈ reaped config s e s' →
            s'.scheduler = s.scheduler.complete r.task (.ok (.object "Process::Status" r.object)))
          .new es := by
  have hconserved := Lts.run_induction
    (Q := fun es s => Conserved s (Lts.trace (step config) exited .new es)
      (Lts.trace (step config) (reaped config) .new es))
    .new
    (fun es e s₁ s₂ hrun h hstep => by
      rw [Lts.trace_append_singleton hrun hstep, Lts.trace_append_singleton hrun hstep]
      exact h.step hstep)
    hrun
  refine ⟨hconserved.perm, hconserved.reported, ?_⟩
  rw [Lts.along_iff_append]
  intro pre e post s₁ _ _ hpre _ s₂ r hstep hr
  obtain ⟨waiter, htakes⟩ := takes_of_reaped (Reachable.sane ⟨pre, hpre⟩) hstep hr
  exact htakes.complete

theorem exits_conserved_two
    : ∃ s, Lts.run (step ⟨11, 1⟩) .new [.fork 7 1, .fork 8 1, .scheduler .fiber, .processWait 7 1,
          .scheduler .switch, .change 8 (.exited 1), .change 7 (.exited 0), .scheduler .run,
          .poll 0 none, .pollRecv, .tryWait {}] = some s ∧
        [((8, 1) : Pid × Int32), (7, 0)].Perm ([(7, 0)] ++ Posix.exits s.children) :=
  ⟨_, rfl, (exits_conserved ⟨11, 1⟩ [.fork 7 1, .fork 8 1, .scheduler .fiber, .processWait 7 1,
    .scheduler .switch, .change 8 (.exited 1), .change 7 (.exited 0), .scheduler .run, .poll 0 none,
    .pollRecv, .tryWait {}] _ rfl).1⟩

end ProcessWait
end Shreduler
