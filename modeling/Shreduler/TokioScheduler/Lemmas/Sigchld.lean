import Shreduler.TokioScheduler.Impl.Sigchld
import Shreduler.TokioScheduler.Lemmas.Waitpid

/-!
This module proves that `process_wait` misses no exit of a child if it is called with `WNOHANG`, by
one fiber for each child.
-/

namespace Shreduler

open Posix (Pid Child WaitEnv)

namespace ProcessWait

open Shreduler.State (findTask_mem findTask_of_mem findTask_complete older_of_step)

variable {config : Config} {s s' : State} {t : TaskId} {waiter waiter' : PidWaiter}

/-! ### A single attempt -/

def PidWaiter.Same (waiter waiter' : PidWaiter) : Prop :=
  waiter.pid = waiter'.pid ∧ waiter.flags = waiter'.flags

def PidWaiter.OfChild (waiter : PidWaiter) (config : Config) : Prop :=
  0 < waiter.pid ∧ ∃ options,
    waitOptionsFromBits config.accepted waiter.flags = some options ∧ options.noHang = true

def exitReport (pid : Pid) (status : Int32) (env : WaitEnv) : ProcessStatus :=
  match env.error with
  | some errno => { pid := -1, status := 0, error := errno }
  | none => { pid, status, error := 0 }

namespace PidWaiter

theorem Same.ofChild (h : waiter.Same waiter') (hchild : waiter.OfChild config)
    : waiter'.OfChild config := by
  unfold OfChild
  rw [← h.1, ← h.2]
  exact hchild

theorem OfChild.tryWait_eq (h : waiter.OfChild config) (children : List Child) (env : WaitEnv)
    : ∃ options, options.noHang = true ∧ waiter.tryWait config children env
        =
      match Posix.waitpid config.pgrp children waiter.pid options env with
      | .blocks => .blocks
      | .none => .returns (.ok none) children
      | .failed errno => .returns (.ok (some { pid := -1, status := 0, error := errno })) children
      | .child child status =>
        .returns (.ok (some { pid := waiter.pid, status, error := 0 }))
          (Posix.reap children child) := by
  obtain ⟨hpid, options, hoptions, hnohang⟩ := h
  refine ⟨options, hnohang, ?_⟩
  cases hwaited : Posix.waitpid config.pgrp children waiter.pid options env
  all_goals simp [PidWaiter.tryWait, hoptions, waitSelector_of_pos hpid, waitpid, hwaited]

theorem OfChild.noHang (h : waiter.OfChild config) : waiter.NoHang config := by
  obtain ⟨hpid, options, hoptions, hnohang⟩ := h
  simp only [NoHang, hoptions, waitSelector_of_pos hpid, hnohang]

theorem OfChild.selects_iff (h : waiter.OfChild config) (child : Child)
    : Posix.Selects config.pgrp waiter.pid child ↔ child.pid = waiter.pid := by
  rw [Posix.Selects, if_pos h.1]

theorem OfChild.mem_of_tryWait (h : waiter.OfChild config) {children children' : List Child}
    {env : WaitEnv} {result : Result (Option ProcessStatus)}
    (htry : waiter.tryWait config children env = .returns result children') {child : Child}
    (hmem : child ∈ children) (hpid : child.pid ≠ waiter.pid) : child ∈ children' := by
  obtain ⟨options, -, heq⟩ := h.tryWait_eq children env
  rw [heq] at htry
  cases hwaited : Posix.waitpid config.pgrp children waiter.pid options env with
  | blocks => simp [hwaited] at htry
  | none | failed errno =>
    simp only [hwaited, TryWait.returns.injEq] at htry
    exact htry.2 ▸ hmem
  | child reported status =>
    simp only [hwaited, TryWait.returns.injEq] at htry
    have hreported := (h.selects_iff reported).mp (Posix.mem_of_waitpid hwaited).2.1
    rw [← htry.2]
    exact Posix.mem_reap hmem (hreported ▸ hpid)

theorem OfChild.eq_ok_none_of_tryWait (h : waiter.OfChild config) {children children' : List Child}
    {env : WaitEnv} {result : Result (Option ProcessStatus)}
    (htry : waiter.tryWait config children env = .returns result children')
    (hresult : ∀ status, result ≠ .ok (some status)) : result = .ok none := by
  obtain ⟨options, -, heq⟩ := h.tryWait_eq children env
  rw [heq] at htry
  split at htry
  . contradiction
  . injection htry with htry
    exact htry.symm
  all_goals
    injection htry with htry
    exact absurd htry.symm (hresult _)

theorem OfChild.not_exited_of_tryWait (h : waiter.OfChild config) {children children' : List Child}
    {env : WaitEnv} (htry : waiter.tryWait config children env = .returns (.ok none) children')
    : children' = children ∧
        ∀ child ∈ children, child.pid = waiter.pid → child.state.isExited = false := by
  obtain ⟨options, -, heq⟩ := h.tryWait_eq children env
  rw [heq] at htry
  cases hwaited : Posix.waitpid config.pgrp children waiter.pid options env with
  | blocks | failed errno | child reported status => simp [hwaited] at htry
  | none =>
    simp only [hwaited, TryWait.returns.injEq] at htry
    refine ⟨htry.2.symm, ?_⟩
    intro child hmem hpid
    by_contra hexited
    have hchange : child.change options ≠ none := by
      unfold Posix.ChildState.isExited at hexited
      unfold Child.change
      split at hexited <;> simp_all
    have herror := Posix.error_of_waitpid_none hwaited
    obtain ⟨_, _, hreports, -⟩ := Posix.waitpid_of_changed env herror
      ⟨child, hmem, (h.selects_iff child).mpr hpid, hchange⟩
    rw [hwaited] at hreports
    contradiction

theorem OfChild.tryWait_of_exited (h : waiter.OfChild config) {children : List Child}
    (hnodup : (children.map (·.pid)).Nodup) (env : WaitEnv) {child : Child} {status : Int32}
    (hmem : child ∈ children) (hpid : child.pid = waiter.pid) (hexited : child.state = .exited status)
    : ∃ children', waiter.tryWait config children env
        =
      .returns (.ok (some (exitReport waiter.pid status env))) children' := by
  obtain ⟨options, -, heq⟩ := h.tryWait_eq children env
  rw [heq]
  unfold exitReport
  cases herror : env.error with
  | some errno => exact ⟨children, by rw [Posix.waitpid_of_error herror]⟩
  | none =>
    have hchange : child.change options ≠ none := by simp [Child.change, hexited]
    obtain ⟨reported, status', hreports, hmem', hselects, hstatus⟩ :=
      Posix.waitpid_of_changed env herror ⟨child, hmem, (h.selects_iff child).mpr hpid, hchange⟩
    have hpid' := (h.selects_iff reported).mp hselects
    obtain rfl : reported = child :=
      List.inj_on_of_nodup_map hnodup hmem' hmem (hpid'.trans hpid.symm)
    simp only [Child.change, hexited, Option.some.injEq] at hstatus
    exact ⟨Posix.reap children reported, by rw [hreports, hstatus]⟩

end PidWaiter

/-! ### The tasks that wait -/

structure Awaits (s : State) (t : TaskId) (waiter : PidWaiter) : Prop where
  pending : (s.scheduler.findTask t).any (·.status = .pending)
  waiter : s.waiters t = some waiter

theorem Awaits.waits (h : Awaits s t waiter) : s.Waits t :=
  ⟨h.pending, by rw [h.waiter, Option.isSome_some]⟩

theorem exists_awaits (h : s.Waits t) : ∃ waiter, Awaits s t waiter := by
  obtain ⟨waiter, hwaiter⟩ := Option.isSome_iff_exists.mp h.2
  exact ⟨waiter, h.1, hwaiter⟩

theorem Sane.pending_of_step (h : Sane s) {e : Shreduler.Event} {scheduler : Shreduler.State}
    (hstep : s.scheduler.step e = some scheduler) (hlt : t < s.scheduler.nextTask)
    (hpending : (scheduler.findTask t).any (·.status = .pending))
    : (s.scheduler.findTask t).any (·.status = .pending) := by
  obtain ⟨task', hfind', hstatus'⟩ := Option.any_eq_true _ _ |>.mp hpending
  obtain ⟨hmem', hid'⟩ := findTask_mem hfind'
  cases older_of_step h.wf h.owned hstep hmem' with
  | inl hold =>
    obtain ⟨task, hmem, holder⟩ := hold
    rw [← hid', ← holder.id, findTask_of_mem h.owned.nodup hmem, Option.any_some]
    exact decide_eq_true (holder.pending (of_decide_eq_true hstatus'))
  | inr hnew =>
    obtain ⟨f, future, rfl⟩ := hnew
    exact absurd (hid' ▸ hlt) (Nat.lt_irrefl _)

theorem awaits_of_scheduler (h : Sane s) {e : Shreduler.Event} {scheduler : Shreduler.State}
    (hstep : s.scheduler.step e = some scheduler) (ha : Awaits { s with scheduler } t waiter)
    : Awaits s t waiter :=
  ⟨h.pending_of_step hstep (h.waiter t waiter ha.waiter).1 ha.pending, ha.waiter⟩

theorem awaits_of_endPoll (h : Sane s) {t' : TaskId} {external : ExternalPoll}
    (hstep : (s.setWaiter t' none).endPoll t' external = some s') (ha : Awaits s' t waiter)
    : Awaits (s.setWaiter t' none) t waiter := by
  unfold State.endPoll at hstep
  split at hstep
  . next scheduler hscheduler =>
    injection hstep with hstep
    subst hstep
    have hdropped := awaits_of_scheduler (h.dropWaiter t') hscheduler ⟨ha.pending, ha.waiter⟩
    exact ⟨hdropped.pending, hdropped.waiter⟩
  . contradiction

theorem waiters_of_dropWaiter {t' : TaskId} (h : (s.setWaiter t' none).waiters t = some waiter)
    : t ≠ t' ∧ s.waiters t = some waiter := by
  have hne : t ≠ t' := by
    rintro rfl
    simp [State.setWaiter] at h
  simp only [State.setWaiter, Function.update_of_ne hne] at h
  exact ⟨hne, h⟩

theorem awaits_of_dropWaiter {t' : TaskId} (ha : Awaits (s.setWaiter t' none) t waiter)
    : t ≠ t' ∧ Awaits s t waiter := by
  obtain ⟨hne, hwaiter⟩ := waiters_of_dropWaiter ha.waiter
  exact ⟨hne, ha.pending, hwaiter⟩

theorem awaits_of_setWaiter {t' : TaskId} {old new : PidWaiter} (hold : s.waiters t' = some old)
    (ha : Awaits (s.setWaiter t' (some new)) t waiter) (hsame : old.Same new)
    : ∃ waiter', Awaits s t waiter' ∧ waiter'.Same waiter := by
  have hwaiter := ha.waiter
  by_cases heq : t = t'
  . subst heq
    simp only [State.setWaiter, Function.update_self, Option.some.injEq] at hwaiter
    exact ⟨old, ⟨ha.pending, hold⟩, hwaiter ▸ hsame⟩
  . simp only [State.setWaiter, Function.update_of_ne heq] at hwaiter
    exact ⟨waiter, ⟨ha.pending, hwaiter⟩, rfl, rfl⟩

theorem Sane.awaits_of_afterTryWait (h : Sane s) {t' : TaskId} {phase : Phase}
    (hpolling : s.polling = some (t', phase)) {children : List Child} {registeredInterest : Bool}
    {result : Result (Option ProcessStatus)}
    (hstep : { s with children }.afterTryWait t' registeredInterest result = some s')
    (ha : Awaits s' t waiter) : Awaits s t waiter ∧ (t = t' → ∀ status, result ≠ .ok (some status)) := by
  rw [h.afterTryWait_eq hpolling] at hstep
  injection hstep with hstep
  subst hstep
  split at ha
  . obtain ⟨hne, hwaiter⟩ := waiters_of_dropWaiter ha.waiter
    refine ⟨⟨?_, hwaiter⟩, fun heq => absurd heq hne⟩
    have hpending := ha.pending
    rw [findTask_complete] at hpending
    cases hfind : s.scheduler.findTask t with
    | none => simp [hfind] at hpending
    | some task =>
      have hid : task.id ≠ t' := (findTask_mem hfind).2.trans_ne hne
      simpa [hfind, hid] using hpending
  all_goals
    refine ⟨⟨ha.pending, ha.waiter⟩, ?_⟩
    rintro - status ⟨⟩

theorem awaits_of_step (h : Sane s) {e : Event} (hstep : step config s e = some s')
    (ha : Awaits s' t waiter)
    : (∃ waiter', Awaits s t waiter' ∧ waiter'.Same waiter) ∨
        e = .processWait waiter.pid waiter.flags ∧ t = s.scheduler.nextTask ∧
          s'.scheduler.nextTask ≠ t := by
  cases step_outcome hstep with
  | fork | change | setpgid | blocks => exact .inl ⟨waiter, ⟨ha.pending, ha.waiter⟩, rfl, rfl⟩
  | sigchld =>
    obtain ⟨old, hold, hnew⟩ := Option.map_eq_some_iff.mp ha.waiter
    exact .inl ⟨old, ⟨ha.pending, hold⟩, hnew ▸ ⟨rfl, rfl⟩⟩
  | refused _ hhook => exact .inl ⟨waiter, awaits_of_scheduler h hhook ha, rfl, rfl⟩
  | processWait _ hhook hnext =>
    have hwaiter := ha.waiter
    by_cases heq : t = s.scheduler.nextTask
    . simp only [State.setWaiter, heq, Function.update_self, Option.some.injEq] at hwaiter
      exact .inr ⟨by rw [← hwaiter], heq, heq ▸ hnext⟩
    . simp only [State.setWaiter, Function.update_of_ne heq] at hwaiter
      exact .inl ⟨waiter, awaits_of_scheduler h hhook ⟨ha.pending, hwaiter⟩, rfl, rfl⟩
  | poll _ _ _ _ hwaiter => exact .inl (awaits_of_setWaiter hwaiter ⟨ha.pending, ha.waiter⟩ ⟨rfl, rfl⟩)
  | pollFails _ _ _ hend =>
    exact .inl ⟨waiter, (awaits_of_dropWaiter (awaits_of_endPoll h hend ha)).2, rfl, rfl⟩
  | pollRecv _ hwaiter => exact .inl (awaits_of_setWaiter hwaiter ⟨ha.pending, ha.waiter⟩ ⟨rfl, rfl⟩)
  | returns hpolling _ _ _ hafter =>
    exact .inl ⟨waiter, (h.awaits_of_afterTryWait hpolling hafter ha).1, rfl, rfl⟩
  | scheduler _ _ hscheduler => exact .inl ⟨waiter, awaits_of_scheduler h hscheduler ha, rfl, rfl⟩

/-! ### The children -/

theorem map_pid_updateChild (pid : Pid) {f : Child → Child} (hf : ∀ child, (f child).pid = child.pid)
    : (s.updateChild pid f).children.map (·.pid) = s.children.map (·.pid) := by
  simp only [State.updateChild, List.map_map]
  apply List.map_congr_left
  intro child _
  simp only [Function.comp_apply]
  split
  . exact hf child
  . rfl

theorem map_pid_tryWait {children children' : List Child} {env : WaitEnv}
    {result : Result (Option ProcessStatus)}
    (htry : waiter.tryWait config children env = .returns result children')
    : (children'.map (·.pid)).Sublist (children.map (·.pid)) := by
  unfold PidWaiter.tryWait at htry
  dsimp only at htry
  split at htry
  . injection htry with _ htry
    rw [htry]
  . split at htry
    . injection htry with _ htry
      rw [htry]
    . split at htry
      . contradiction
      . injection htry with _ htry
        rw [htry]
      . injection htry with _ htry
        rw [htry]
      . injection htry with _ htry
        exact htry ▸ Posix.map_pid_reap_sublist children _

theorem children_afterTryWait (h : Sane s) {phase : Phase} (hpolling : s.polling = some (t, phase))
    {children : List Child} {registeredInterest : Bool} {result : Result (Option ProcessStatus)}
    (hstep : { s with children }.afterTryWait t registeredInterest result = some s')
    : s'.children = children := by
  rw [h.afterTryWait_eq hpolling] at hstep
  injection hstep with hstep
  subst hstep
  split <;> rfl

theorem children_endPoll {external : ExternalPoll} (hstep : s.endPoll t external = some s')
    : s'.children = s.children := by
  unfold State.endPoll at hstep
  split at hstep
  . injection hstep with hstep
    rw [← hstep]
  . contradiction

/-! ### One task for each child -/

def CallsOnce (config : Config) (s : State) : Event → Prop
  | .processWait pid flags =>
    PidWaiter.OfChild { pid, flags, signal := none } config ∧
      ∀ t waiter, Awaits s t waiter → waiter.pid ≠ pid
  | _ => True

structure OnePerChild (config : Config) (s : State) : Prop where
  sane : Sane s
  notBlocked : ¬ Blocked s
  nodup : (s.children.map (·.pid)).Nodup
  ofChild : ∀ t waiter, Awaits s t waiter → waiter.OfChild config
  distinct : ∀ t t' waiter waiter', Awaits s t waiter → Awaits s t' waiter' →
    waiter.pid = waiter'.pid → t = t'

namespace OnePerChild

theorem new : OnePerChild config .new where
  sane := .new
  notBlocked := by simp [Blocked, State.new]
  nodup := List.nodup_nil
  ofChild t waiter ha := by simpa [State.new] using ha.waiter
  distinct t t' waiter waiter' ha := by simpa [State.new] using ha.waiter

theorem awaits (h : OnePerChild config s) {phase : Phase} (hpolling : s.polling = some (t, phase))
    (hwaiter : s.waiters t = some waiter) : Awaits s t waiter :=
  ⟨(h.sane.polling t phase hpolling).2.1, hwaiter⟩

theorem prompt (h : OnePerChild config s) : Prompt config s where
  sane := h.sane
  notBlocked := h.notBlocked
  noHang t _ waiter hpolling hwaiter := (h.ofChild t waiter (h.awaits hpolling hwaiter)).noHang

theorem nodup_step (h : OnePerChild config s) {e : Event} (hstep : step config s e = some s')
    : (s'.children.map (·.pid)).Nodup := by
  cases step_outcome hstep with
  | @fork pid pgid hpid hnew => exact nodup_map_append_singleton h.nodup hnew
  | change | setpgid =>
    rw [map_pid_updateChild]
    . exact h.nodup
    . exact fun _ => rfl
  | pollFails _ _ _ hend => exact children_endPoll hend ▸ h.nodup
  | returns hpolling _ _ htry hafter =>
    rw [children_afterTryWait h.sane hpolling hafter]
    exact (map_pid_tryWait htry).nodup h.nodup
  | _ => exact h.nodup

theorem step (h : OnePerChild config s) {e : Event} (hC : CallsOnce config s e)
    (hstep : step config s e = some s') : OnePerChild config s' where
  sane := h.sane.step hstep
  notBlocked := h.prompt.notBlocked_step hstep
  nodup := h.nodup_step hstep
  ofChild t waiter ha := by
    cases awaits_of_step h.sane hstep ha with
    | inl hold =>
      obtain ⟨waiter', ha', hsame⟩ := hold
      exact hsame.ofChild (h.ofChild t waiter' ha')
    | inr hnew =>
      obtain ⟨rfl, -⟩ := hnew
      exact PidWaiter.Same.ofChild ⟨rfl, rfl⟩ hC.1
  distinct t t' waiter waiter' ha ha' hpid := by
    rcases awaits_of_step h.sane hstep ha with ⟨old, hold, hsame⟩ | ⟨rfl, rfl, -⟩
    . rcases awaits_of_step h.sane hstep ha' with ⟨old', hold', hsame'⟩ | ⟨rfl, rfl, -⟩
      . exact h.distinct t t' old old' hold hold' (hsame.1.trans (hpid.trans hsame'.1.symm))
      . exact absurd (hsame.1.trans hpid) (hC.2 t old hold)
    . rcases awaits_of_step h.sane hstep ha' with ⟨old', hold', hsame'⟩ | ⟨-, rfl, -⟩
      . exact absurd (hsame'.1.trans hpid.symm) (hC.2 t' old' hold')
      . rfl

theorem exited_of_step (h : OnePerChild config s) {e : Event}
    (hstep : ProcessWait.step config s e = some s')
    (ha : Awaits s t waiter) (hwaits' : s'.Waits t) {child : Child} {status : Int32}
    (hmem : child ∈ s.children) (hpid : child.pid = waiter.pid) (hexited : child.state = .exited status)
    : ∃ child' ∈ s'.children, child'.pid = waiter.pid ∧ child'.state = .exited status := by
  cases step_outcome hstep with
  | fork => exact ⟨child, List.mem_append_left _ hmem, hpid, hexited⟩
  | @change pid state hguard =>
    have hne : child.pid ≠ pid := by
      intro heq
      simpa [hexited, Posix.ChildState.isExited] using hguard child hmem heq
    exact ⟨child, List.mem_map.mpr ⟨child, hmem, if_neg hne⟩, hpid, hexited⟩
  | setpgid =>
    refine ⟨_, List.mem_map_of_mem hmem, ?_, ?_⟩
    all_goals
      split
      . assumption
      . assumption
  | pollFails _ _ _ hend => exact ⟨child, children_endPoll hend ▸ hmem, hpid, hexited⟩
  | @returns env t' phase registeredInterest waiter' result children _ hpolling _ hwaiter' htry hafter =>
    have ha' := h.awaits hpolling hwaiter'
    have hchild := h.ofChild t' waiter' ha'
    rw [children_afterTryWait h.sane hpolling hafter]
    by_cases heq : t = t'
    . subst heq
      obtain rfl : waiter = waiter' := Option.some.inj (ha.waiter.symm.trans hwaiter')
      obtain ⟨waiter'', hawaits'⟩ := exists_awaits hwaits'
      have hresult := (h.sane.awaits_of_afterTryWait hpolling hafter hawaits').2 rfl
      obtain ⟨children', hreports⟩ := hchild.tryWait_of_exited h.nodup env hmem hpid hexited
      rw [htry] at hreports
      injection hreports with hreports
      exact absurd hreports (hresult _)
    . have hne : child.pid ≠ waiter'.pid := by
        intro hpid'
        exact heq (h.distinct t t' waiter waiter' ha ha' (hpid.symm.trans hpid'))
      exact ⟨child, hchild.mem_of_tryWait htry hmem hne, hpid, hexited⟩
  | _ => exact ⟨child, hmem, hpid, hexited⟩

end OnePerChild

/-! ### Polls -/

def ReadyWith (s : State) (t : TaskId) (status : ProcessStatus) : Prop :=
  s.polling = none ∧ ∃ task id, s.scheduler.findTask t = some task ∧
    task.status = .ready (.ok (.object "Process::Status" id)) ∧ s.statuses[id]? = some status

structure ExitReported (config : Config) (s : State) : Prop where
  -- The child had not exited when a poll that returns `Pending` looked at it.
  pending : ∀ env s' t phase waiter, step config s (.tryWait env) = some s' →
    s.polling = some (t, phase) → s.waiters t = some waiter → s'.polling = none → s'.Waits t →
      ∀ child ∈ s.children, child.pid = waiter.pid → child.state.isExited = false
  -- A child that has exited is there for as long as a task waits for it.
  stays : ∀ e s' t waiter child status, step config s e = some s' → Awaits s t waiter → s'.Waits t →
    child ∈ s.children → child.pid = waiter.pid → child.state = .exited status →
      ∃ child' ∈ s'.children, child'.pid = waiter.pid ∧ child'.state = .exited status
  -- A poll reports a child that has exited.
  reports : ∀ env s' t phase waiter child status, step config s (.tryWait env) = some s' →
    s.polling = some (t, phase) → s.waiters t = some waiter → child ∈ s.children →
      child.pid = waiter.pid → child.state = .exited status →
        ReadyWith s' t (exitReport waiter.pid status env)
  -- A poll goes on by itself until it returns.
  goesOn : s.polling ≠ none → ∃ e s', e.Own ∧ step config s e = some s'
  -- It returns unless there are deliveries without end.
  returns : ∀ es s', Lts.run (step config) s es = some s' →
    Lts.Always (step config) (·.polling ≠ none) s es →
      es.countP Event.isAttempt ≤ 5 + 2 * es.countP Event.isDelivery

namespace OnePerChild

theorem readyWith_of_afterTryWait (h : Sane s) {phase : Phase} (hpolling : s.polling = some (t, phase))
    {children : List Child} {registeredInterest : Bool} {status : ProcessStatus}
    (hstep : { s with children }.afterTryWait t registeredInterest (.ok (some status)) = some s')
    : ReadyWith s' t status := by
  obtain ⟨task, -, hfind, -⟩ := h.task (h.polling t phase hpolling).2
  rw [h.afterTryWait_eq hpolling] at hstep
  injection hstep with hstep
  subst hstep
  refine ⟨rfl, { task with status := .ready _ }, s.statuses.length, ?_, rfl, ?_⟩
  . rw [findTask_complete, hfind, Option.map_some, if_pos (findTask_mem hfind).2]
  . exact List.getElem?_concat_length

theorem exists_afterTryWait (h : OnePerChild config s) {env : WaitEnv} {phase : Phase}
    (hstep : ProcessWait.step config s (.tryWait env) = some s')
    (hpolling : s.polling = some (t, phase)) (hwaiter : s.waiters t = some waiter)
    : ∃ registeredInterest result children, phase = .waiting registeredInterest ∧
        waiter.tryWait config s.children env = .returns result children ∧
        { s with children }.afterTryWait t registeredInterest result = some s' := by
  cases step_outcome hstep with
  | blocks hpolling hwaiter htry => exact absurd htry (h.prompt.tryWait_ne_blocks hpolling hwaiter)
  | returns hpolling' hphase hwaiter' htry hafter =>
    rw [hpolling, Option.some.injEq, Prod.mk.injEq] at hpolling'
    obtain ⟨rfl, rfl⟩ := hpolling'
    obtain rfl := Option.some.inj (hwaiter.symm.trans hwaiter')
    rcases hphase with rfl | rfl
    . exact ⟨_, _, _, rfl, htry, hafter⟩
    . exact absurd ⟨_, _, hpolling⟩ h.notBlocked

theorem exitReported (h : OnePerChild config s) : ExitReported config s where
  pending env s' t phase waiter hstep hpolling hwaiter hidle hwaits' := by
    obtain ⟨registeredInterest, result, children, -, htry, hafter⟩ :=
      h.exists_afterTryWait hstep hpolling hwaiter
    obtain ⟨waiter', ha'⟩ := exists_awaits hwaits'
    have hresult := (h.sane.awaits_of_afterTryWait hpolling hafter ha').2 rfl
    have hchild := h.ofChild t waiter (h.awaits hpolling hwaiter)
    obtain rfl := hchild.eq_ok_none_of_tryWait htry hresult
    exact (hchild.not_exited_of_tryWait htry).2
  stays e s' t waiter child status hstep ha hwaits' := h.exited_of_step hstep ha hwaits'
  reports env s' t phase waiter child status hstep hpolling hwaiter hmem hpid hexited := by
    obtain ⟨registeredInterest, result, children, -, htry, hafter⟩ :=
      h.exists_afterTryWait hstep hpolling hwaiter
    have hchild := h.ofChild t waiter (h.awaits hpolling hwaiter)
    obtain ⟨children', hreports⟩ := hchild.tryWait_of_exited h.nodup env hmem hpid hexited
    rw [htry] at hreports
    injection hreports with hresult
    subst hresult
    exact readyWith_of_afterTryWait h.sane hpolling hafter
  goesOn := h.prompt.exists_own
  returns es s' hrun hpolling := (h.prompt.responsive.returns es s' hrun hpolling).1

end OnePerChild

def Arming (s : State) (t : TaskId) : Prop :=
  ∃ phase, s.polling = some (t, phase) ∧ phase ≠ .waiting true

theorem arming_of_step (h : OnePerChild config s) {e : Event}
    (hstep : step config s e = some s') (hwaits' : s'.Waits t) (harming : Arming s t)
    : Arming s' t ∨ e = .pollRecv ∧ s'.polling = some (t, .waiting true) := by
  obtain ⟨phase, hpolling, hphase⟩ := harming
  have hbusy : s.polling ≠ none := by simp [hpolling]
  cases step_outcome hstep with
  | refused hidle | processWait hidle | poll _ hidle | pollFails hidle => exact absurd hidle hbusy
  | @pollRecv t' waiter hpolling' _ =>
    rw [hpolling, Option.some.injEq, Prod.mk.injEq] at hpolling'
    obtain ⟨rfl, rfl⟩ := hpolling'
    by_cases hsignal : waiter.signal = some true
    . exact .inl ⟨_, rfl, by simp [hsignal]⟩
    . exact .inr ⟨rfl, by simp [hsignal]⟩
  | blocks hpolling' =>
    rw [hpolling, Option.some.injEq, Prod.mk.injEq] at hpolling'
    exact .inl ⟨_, by rw [hpolling'.1], by simp⟩
  | @returns env t' phase' registeredInterest waiter result children _ hpolling' hphase' _ _ hafter =>
    obtain ⟨waiter', ha'⟩ := exists_awaits hwaits'
    have hresult := (h.sane.awaits_of_afterTryWait hpolling' hafter ha').2
    rw [h.sane.afterTryWait_eq hpolling'] at hafter
    injection hafter with hafter
    rw [hpolling, Option.some.injEq, Prod.mk.injEq] at hpolling'
    obtain ⟨rfl, rfl⟩ := hpolling'
    rcases hphase' with rfl | rfl
    . obtain rfl : registeredInterest = false := by simpa using hphase
      split at hafter
      . exact absurd rfl (hresult rfl _)
      all_goals exact .inl ⟨.receiving, by rw [← hafter]; rfl, by simp⟩
    . exact absurd ⟨_, _, hpolling⟩ h.notBlocked
  | _ => exact .inl ⟨phase, hpolling, hphase⟩

theorem arming_of_pollRecv {phase : Phase} (hstep : step config s .pollRecv = some s')
    (hpolling : s'.polling = some (t, phase)) : Arming s t := by
  cases step_outcome hstep with
  | pollRecv hreceiving =>
    simp only [Option.some.injEq, Prod.mk.injEq] at hpolling
    exact ⟨.receiving, hpolling.1 ▸ hreceiving, by simp⟩

theorem arming_of_poll (h : Sane s) {signalError : Option String}
    (hstep : step config s (.poll t signalError) = some s') (hwaits' : s'.Waits t) : Arming s' t := by
  cases step_outcome hstep with
  | poll => exact ⟨.receiving, rfl, by simp⟩
  | pollFails _ _ _ hend =>
    obtain ⟨waiter, ha'⟩ := exists_awaits hwaits'
    exact absurd rfl (awaits_of_dropWaiter (awaits_of_endPoll h hend ha')).1

end ProcessWait

namespace Sigchld

open ProcessWait (Config CallsOnce OnePerChild Arming ExitReported exists_awaits)

variable {config : Config} {s s' : State}

structure NoExitMissed (config : Config) (s : State) : Prop where
  process : ExitReported config s.process
  -- The next delivery makes the executor poll a task that waits.
  woken : ∀ t, s.process.Waits t → (∀ phase, s.process.polling ≠ some (t, phase)) →
    ∀ s', step config s .sigchld = some s' → s'.woken t = true
  -- It stays so until the executor does.
  stays : ∀ e s' t, step config s e = some s' → s.woken t = true →
    (∀ signalError, e ≠ .poll t signalError) → s'.woken t = true

structure Armed (config : Config) (s : State) : Prop where
  onePerChild : OnePerChild config s.process
  armed : ∀ t, s.process.Waits t → ¬ Arming s.process t →
    s.registered t = true ∨ s.woken t = true

theorem step_eq_some {e : ProcessWait.Event} (hstep : step config s e = some s')
    : ProcessWait.step config s.process e = some s'.process := by
  obtain ⟨process, hprocess, rfl⟩ := Option.map_eq_some_iff.mp hstep
  rw [hprocess, Option.some.injEq]
  cases e with
  | processWait pid flags =>
    dsimp only [State.spawned]
    split <;> rfl
  | pollRecv =>
    dsimp only [State.received]
    split <;> rfl
  | _ => rfl

theorem woken_of_step {e : ProcessWait.Event} {t : TaskId} (hstep : step config s e = some s')
    (hwoken : s.woken t = true) (hpoll : ∀ signalError, e ≠ .poll t signalError)
    : s'.woken t = true := by
  obtain ⟨process, hprocess, rfl⟩ := Option.map_eq_some_iff.mp hstep
  cases e with
  | processWait pid flags =>
    dsimp only [State.spawned]
    split
    . exact hwoken
    . simp only [Function.update_apply, hwoken, ite_self]
  | poll t' signalError =>
    have hne : t ≠ t' := by
      rintro rfl
      exact hpoll signalError rfl
    dsimp only [State.polled]
    rw [Function.update_of_ne hne]
    exact hwoken
  | pollRecv =>
    dsimp only [State.received]
    split <;> exact hwoken
  | sigchld => simp [State.delivered, hwoken]
  | _ => exact hwoken

theorem registered_of_step {e : ProcessWait.Event} {t : TaskId} (hstep : step config s e = some s')
    (hregistered : s.registered t = true)
    (hpolling : e = .pollRecv → ∀ phase, s'.process.polling ≠ some (t, phase))
    : s'.registered t = true ∨ s'.woken t = true := by
  obtain ⟨process, hprocess, rfl⟩ := Option.map_eq_some_iff.mp hstep
  cases e with
  | processWait pid flags =>
    dsimp only [State.spawned]
    split <;> exact .inl hregistered
  | pollRecv =>
    rw [← Option.some.inj (hprocess.symm.trans (step_eq_some hstep))] at hpolling
    dsimp only [State.received]
    split
    . next t' registeredInterest hpolling' =>
      have hne : t ≠ t' := by
        rintro rfl
        exact hpolling rfl _ hpolling'
      dsimp only
      rw [Function.update_of_ne hne]
      exact .inl hregistered
    . exact .inl hregistered
  | sigchld => simp [State.delivered, hregistered]
  | _ => exact .inl hregistered

theorem registered_of_pollRecv {t : TaskId} (hstep : step config s .pollRecv = some s')
    (hpolling : s'.process.polling = some (t, .waiting true)) : s'.registered t = true := by
  obtain ⟨process, hprocess, rfl⟩ := Option.map_eq_some_iff.mp hstep
  rw [← Option.some.inj (hprocess.symm.trans (step_eq_some hstep))] at hpolling
  simp [State.received, hpolling]

theorem woken_of_processWait {pid : Pid} {flags : UInt32}
    (hstep : step config s (.processWait pid flags) = some s')
    (hnext : s'.process.scheduler.nextTask ≠ s.process.scheduler.nextTask)
    : s'.woken s.process.scheduler.nextTask = true := by
  obtain ⟨process, hprocess, rfl⟩ := Option.map_eq_some_iff.mp hstep
  rw [← Option.some.inj (hprocess.symm.trans (step_eq_some hstep))] at hnext
  simp [State.spawned, hnext]

namespace Armed

theorem new : Armed config .new where
  onePerChild := .new
  armed t hwaits := by simpa [State.new, ProcessWait.State.new] using hwaits.2

theorem step (h : Armed config s) {e : ProcessWait.Event} (hC : CallsOnce config s.process e)
    (hstep : step config s e = some s') : Armed config s' where
  onePerChild := h.onePerChild.step hC (step_eq_some hstep)
  armed t hwaits' harming' := by
    have hprocess := step_eq_some hstep
    obtain ⟨waiter, ha'⟩ := exists_awaits hwaits'
    rcases ProcessWait.awaits_of_step h.onePerChild.sane hprocess ha' with
      ⟨waiter', ha, -⟩ | ⟨rfl, rfl, hnext⟩
    . by_cases harming : Arming s.process t
      . -- the poll has just been told that there is no delivery to report
        rcases ProcessWait.arming_of_step h.onePerChild hprocess hwaits' harming with
          hagain | ⟨rfl, hpolling⟩
        . exact absurd hagain harming'
        . exact .inl (registered_of_pollRecv hstep hpolling)
      . cases h.armed t ha.waits harming with
        | inl hregistered =>
          apply registered_of_step hstep hregistered
          rintro rfl phase hpolling
          exact harming (ProcessWait.arming_of_pollRecv hprocess hpolling)
        | inr hwoken =>
          refine .inr (woken_of_step hstep hwoken ?_)
          rintro signalError rfl
          exact harming' (ProcessWait.arming_of_poll h.onePerChild.sane hprocess hwaits')
    . exact .inr (woken_of_processWait hstep hnext)

theorem noExitMissed (h : Armed config s) : NoExitMissed config s where
  process := h.onePerChild.exitReported
  woken t hwaits hpolling s' hstep := by
    have harming : ¬ Arming s.process t := fun ⟨phase, heq, _⟩ => hpolling phase heq
    injection hstep with hstep
    rw [← hstep]
    rcases h.armed t hwaits harming with hregistered | hwoken
    . simp [State.delivered, hregistered]
    . simp [State.delivered, hwoken]
  stays e s' t hstep := woken_of_step hstep

end Armed

/--
If `process_wait` is called with `WNOHANG`, by one fiber for each child, then a poll that returns
`Pending` has left nothing out: the child had not exited, and the next `SIGCHLD` brings the next poll,
which reports the exit if there has been one.
-/
theorem no_exit_missed (es : List ProcessWait.Event)
    (hcalls : Lts.Along (step config) (fun s e => CallsOnce config s.process e) .new es)
    : Lts.Always (step config) (NoExitMissed config) .new es := by
  apply Lts.Along.always (J := Armed config)
  . intro s e s' h hC hstep
    exact h.step hC hstep
  . exact fun s h => h.noExitMissed
  . exact .new
  . exact hcalls

theorem no_exit_missed_between_halves
    : Lts.Always (step ⟨11, 1⟩) (NoExitMissed ⟨11, 1⟩) .new
        [.scheduler .fiber, .fork 7 1, .processWait 7 1, .scheduler .switch, .scheduler .run,
          .poll 0 none, .pollRecv, .change 7 (.exited 0), .sigchld, .tryWait {}] := by
  apply no_exit_missed
  intro s₁ h₁
  refine ⟨trivial, fun s₂ h₂ => ⟨trivial, fun s₃ h₃ => ⟨?_, ?_⟩⟩⟩
  . obtain rfl := Option.some.inj h₁
    obtain rfl := Option.some.inj h₂
    refine ⟨⟨by decide, _, rfl, rfl⟩, ?_⟩
    intro t waiter hawaits
    have hwaiter := hawaits.waiter
    contradiction
  . simp [Lts.Along, CallsOnce]

end Sigchld
end Shreduler
