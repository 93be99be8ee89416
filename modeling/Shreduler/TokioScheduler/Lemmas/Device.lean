import Shreduler.TokioScheduler.Impl.Device
import Shreduler.TokioScheduler.Lemmas.ProcessWait
import Shreduler.TokioScheduler.Lemmas.Settlement
import Shreduler.TokioScheduler.Lemmas.Wakeups

/-!
This module proves that the scheduler with a device refines both the scheduler and the device, and that what
the device answers to a call reaches the fiber that made it.
-/

namespace Shreduler
namespace Device
namespace Attached

open Shreduler.State (Accountable letters mail findTask_mem findTask_complete not_mem_letters)

variable {d : Device} {s s' : Attached d} {t : TaskId}

/-! ### What a step does -/

inductive Outcome (s : Attached d) : Event d → Attached d → Prop where
  | refused {args : d.Args} {scheduler : Shreduler.State}
    (hhook : s.scheduler.step (.hook (d.hook args)) = some scheduler) (hspawns : ¬ s.Spawns scheduler)
    : Outcome s (.call args) { s with scheduler }
  | call {args : d.Args} {scheduler : Shreduler.State} {device : d.State}
    (hhook : s.scheduler.step (.hook (d.hook args)) = some scheduler) (hspawns : s.Spawns scheduler)
    (hbegins : d.step s.device (d.begins args) = some device)
    : Outcome s (.call args)
        { scheduler, device,
          names := Function.update s.names s.scheduler.nextTask (some (d.name s.device args)) }
  | poll {t : TaskId} {es : List d.Event} {name : d.Name} {device : d.State} {scheduler : Shreduler.State}
    (hname : s.names t = some name) (hwaits : s.Waits t) (hpolls : es.all (d.polls name))
    (hrun : Lts.run d.step s.device es = some device)
    (hpoll : s.scheduler.step (.poll t { external := external device name }) = some scheduler)
    : Outcome s (.poll t es) { s with scheduler, device }
  | happen {e : d.Event} {device : d.State} (hhappens : d.happens e)
    (hstep : d.step s.device e = some device) : Outcome s (.happen e) { s with device }
  | scheduler {e : Shreduler.Event} {scheduler : Shreduler.State}
    (hpoll : ∀ t env, e = .poll t env → ¬ s.Waits t) (hstep : s.scheduler.step e = some scheduler)
    : Outcome s (.scheduler e) { s with scheduler }

theorem call_outcome {args : d.Args} (hstep : s.call args = some s') : Outcome s (.call args) s' := by
  unfold call at hstep
  split at hstep
  . next scheduler hhook =>
    split at hstep
    . next hspawns =>
      obtain ⟨device, hbegins, rfl⟩ := Option.map_eq_some_iff.mp hstep
      exact .call hhook hspawns hbegins
    . next hspawns =>
      injection hstep with hstep
      exact hstep ▸ .refused hhook hspawns
  . contradiction

theorem poll_outcome {es : List d.Event} (hstep : s.poll t es = some s') : Outcome s (.poll t es) s' := by
  unfold poll at hstep
  split at hstep
  . next name hname =>
    split at hstep
    . next hguard =>
      split at hstep
      . next device hrun =>
        obtain ⟨scheduler, hpoll, rfl⟩ := Option.map_eq_some_iff.mp hstep
        exact .poll hname hguard.1 hguard.2 hrun hpoll
      . contradiction
    . contradiction
  . contradiction

theorem schedulerStep_outcome {e : Shreduler.Event} (hstep : s.schedulerStep e = some s')
    : Outcome s (.scheduler e) s' := by
  have hlift (hpoll : ∀ t env, e = .poll t env → ¬ s.Waits t) (hlift : s.lift e = some s')
      : Outcome s (.scheduler e) s' := by
    obtain ⟨scheduler, hscheduler, rfl⟩ := Option.map_eq_some_iff.mp hlift
    exact .scheduler hpoll hscheduler
  unfold schedulerStep at hstep
  split at hstep
  . split at hstep
    . contradiction
    . next hwaits =>
      apply hlift ?_ hstep
      rintro t env ⟨⟩
      exact hwaits
  . next hne => exact hlift (fun t env heq => absurd heq (hne t env)) hstep

theorem step_outcome {e : Event d} (hstep : step s e = some s') : Outcome s e s' := by
  cases e with
  | call args => exact call_outcome hstep
  | poll t es => exact poll_outcome hstep
  | happen e =>
    simp only [step, happen, Option.ite_none_right_eq_some] at hstep
    obtain ⟨hhappens, hstep⟩ := hstep
    obtain ⟨device, hdevice, rfl⟩ := Option.map_eq_some_iff.mp hstep
    exact .happen hhappens hdevice
  | scheduler e => exact schedulerStep_outcome hstep

/-! ### The two refinements -/

def shown (s : Attached d) (e : Event d) (s' : Attached d) : List Shreduler.Event :=
  match e with
  | .call args => [.hook (d.hook args)]
  | .poll t _ => (s.names t).toList.map fun name => .poll t { external := external s'.device name }
  | .happen _ => []
  | .scheduler e => [e]

def seen (s : Attached d) (e : Event d) (s' : Attached d) : List d.Event :=
  match e with
  | .call args => if s.Spawns s'.scheduler then [d.begins args] else []
  | .poll _ es => es
  | .happen e => [e]
  | .scheduler _ => []

theorem refines_scheduler (d : Device)
    : Lts.Refines (step (d := d)) Shreduler.State.step (fun _ => True) (·.scheduler) shown where
  keeps _ _ _ _ _ := trivial
  simulates s e s' _ hstep := by
    cases step_outcome hstep with
    | refused hhook => exact Lts.run_singleton hhook
    | call hhook => exact Lts.run_singleton hhook
    | poll hname _ _ _ hpoll =>
      simp only [shown, hname, Option.toList_some, List.map_cons, List.map_nil]
      exact Lts.run_singleton hpoll
    | happen => rfl
    | scheduler _ hscheduler => exact Lts.run_singleton hscheduler

theorem refines_device (d : Device)
    : Lts.Refines (step (d := d)) d.step (fun _ => True) (·.device) seen where
  keeps _ _ _ _ _ := trivial
  simulates s e s' _ hstep := by
    cases step_outcome hstep with
    | refused _ hspawns =>
      simp only [seen]
      rw [if_neg hspawns, Lts.run_nil]
    | call _ hspawns hbegins =>
      simp only [seen]
      rw [if_pos hspawns]
      exact Lts.run_singleton hbegins
    | poll _ _ _ hrun => exact hrun
    | happen _ hdevice => exact Lts.run_singleton hdevice
    | scheduler => rfl

def schedulerEvents (device : d.State) (es : List (Event d)) : List Shreduler.Event :=
  Lts.trace step shown (new device) es

def deviceEvents (device : d.State) (es : List (Event d)) : List d.Event :=
  Lts.trace step seen (new device) es

theorem run_schedulerEvents {device : d.State} {es : List (Event d)}
    (hrun : Lts.run step (new device) es = some s)
    : Lts.run Shreduler.State.step .new (schedulerEvents device es) = some s.scheduler :=
  (refines_scheduler d).run trivial hrun

theorem run_deviceEvents {device : d.State} {es : List (Event d)}
    (hrun : Lts.run step (new device) es = some s)
    : Lts.run d.step device (deviceEvents device es) = some s.device :=
  (refines_device d).run trivial hrun

/-! ### Calls and answers -/

structure Call (d : Device) where
  task : TaskId
  fiber : FiberId
  args : d.Args
  name : d.Name

def called (s : Attached d) (e : Event d) (s' : Attached d) : List (Call d) :=
  match e with
  | .call args =>
    if s.Spawns s'.scheduler then
      s.scheduler.rubyFiber.toList.map fun fiber =>
        { task := s.scheduler.nextTask, fiber, args, name := d.name s.device args }
    else
      []
  | _ => []

def calls (device : d.State) (es : List (Event d)) : List (Call d) :=
  Lts.trace step called (new device) es

theorem output_of_run {device device' : d.State} {es : List d.Event}
    (hrun : Lts.run d.step device es = some device') {name : d.Name} {result : Result Value}
    (houtput : d.output device name = some result) : d.output device' name = some result := by
  apply Lts.run_induction (Q := fun _ device' => d.output device' name = some result) houtput ?_ hrun
  intro es e device₁ device₂ _ h hstep
  exact d.output_of_step _ _ _ _ _ hstep h

/-- What the calls and the answers of a run are in the ledger of the scheduler. -/
structure Routed (device : d.State) (es : List (Event d)) (s : Attached d) : Prop where
  run : Lts.run step (new device) es = some s
  accountable : s.scheduler.Accountable
  external : ∀ t name, s.names t = some name → t < s.scheduler.nextTask ∧
    ∀ task ∈ s.scheduler.tasks, task.id = t → task.future = .external
  made : ∀ c ∈ calls device es, s.names c.task = some c.name ∧
    (c.task, .make c.fiber) ∈ letters (schedulerEvents device es)
  kept : ∀ t name result, s.names t = some name →
    (t, .keep result) ∈ letters (schedulerEvents device es) → d.output s.device name = some result

namespace Routed

variable {device : d.State} {es : List (Event d)}

theorem new (device : d.State) : Routed device [] (.new device) where
  run := rfl
  accountable := .new
  external := by simp [Attached.new]
  made := by simp [calls]
  kept := by simp [Attached.new]

theorem letters_append (h : Routed device es s) {e : Event d} (hstep : Attached.step s e = some s')
    : letters (schedulerEvents device (es ++ [e]))
        =
      letters (schedulerEvents device es) ++
        Lts.trace Shreduler.State.step mail s.scheduler (shown s e s') := by
  have hrun := run_schedulerEvents h.run
  unfold letters
  rw [schedulerEvents, Lts.trace_append_singleton h.run hstep]
  rw [← schedulerEvents, Lts.trace_append_of_run hrun]

theorem external_of_step (h : Routed device es s) {e : Shreduler.Event} {scheduler : Shreduler.State}
    (hstep : s.scheduler.step e = some scheduler) {name : d.Name} (hname : s.names t = some name)
    : t < scheduler.nextTask ∧ ∀ task ∈ scheduler.tasks, task.id = t → task.future = .external := by
  obtain ⟨hlt, hfuture⟩ := h.external t name hname
  have hwf := h.accountable.wf
  have howned := h.accountable.owned
  refine ⟨Nat.lt_of_lt_of_le hlt (Shreduler.State.nextTask_le_of_step hwf howned hstep), ?_⟩
  intro task' hmem hid
  cases Shreduler.State.older_of_step hwf howned hstep hmem with
  | inl hold =>
    obtain ⟨task, htask, holder⟩ := hold
    have hexternal := hfuture task htask (holder.id.trans hid)
    cases holder.future with
    | inl heq => rw [heq, hexternal]
    | inr hblock => simp [Task.isBlock, hexternal] at hblock
  | inr hnew =>
    obtain ⟨f, future, rfl⟩ := hnew
    exact absurd (hid ▸ hlt) (Nat.lt_irrefl _)

theorem not_raising (h : Routed device es s) {name : d.Name} (hname : s.names t = some name)
    : s.scheduler.status rootFiber ≠ .suspended (.timeoutRaise t) := by
  intro hraise
  obtain ⟨task, hmem, hid⟩ := h.accountable.held t hraise
  have hfuture := (h.external t name hname).2 task hmem hid
  have htimeout := ((h.accountable.owned.raising t hraise).2 task hmem hid).1
  simp [Task.isTimeout, hfuture] at htimeout

theorem output_of_poll (h : Routed device es s) {name name' : d.Name} (hname : s.names t = some name)
    (hwaits : s.Waits t) {device' : d.State} {scheduler : Shreduler.State}
    (hpoll : s.scheduler.step (.poll t { external := Attached.external device' name }) = some scheduler)
    {t' : TaskId} (hname' : s.names t' = some name') {result : Result Value}
    (hkeep : (t', .keep result)
      ∈ mail s.scheduler (.poll t { external := Attached.external device' name }) scheduler)
    : d.output device' name' = some result := by
  cases Shreduler.State.keep_cases hkeep with
  | inr hraise => exact absurd hraise (h.not_raising hname')
  | inl hready =>
    obtain ⟨env, task', heq, hfind', hready⟩ := hready
    obtain ⟨rfl, -⟩ := Shreduler.Event.poll.inj heq
    obtain rfl := Option.some.inj (hname.symm.trans hname')
    obtain ⟨task, hfind, hpending⟩ := Option.any_eq_true _ _ |>.mp hwaits.1
    obtain ⟨hmem, hid⟩ := findTask_mem hfind
    have hfuture := (h.external t name hname).2 task hmem hid
    have hloop : s.scheduler.AtJoinNext := by
      simp only [Shreduler.State.step, Option.ite_none_right_eq_some] at hpoll
      exact hpoll.1
    rw [ProcessWait.step_poll_external hloop hfind (of_decide_eq_true hpending) hfuture,
      Option.some.injEq] at hpoll
    subst hpoll
    unfold Attached.external at hfind'
    cases houtput : d.output device' name with
    | none =>
      simp only [houtput, hfind, Option.some.injEq] at hfind'
      rw [hfind', hready] at hpending
      contradiction
    | some result' =>
      simp only [houtput, findTask_complete, hfind, Option.map_some, hid, if_true,
        Option.some.injEq] at hfind'
      rw [← hfind'] at hready
      exact congrArg some (TaskStatus.ready.inj hready)

theorem not_keep_of_step (h : Routed device es s) {e : Shreduler.Event} {scheduler : Shreduler.State}
    (hstep : s.scheduler.step e = some scheduler) (hpoll : ∀ t env, e = .poll t env → ¬ s.Waits t)
    {name : d.Name} (hname : s.names t = some name) (result : Result Value)
    : (t, .keep result) ∉ mail s.scheduler e scheduler := by
  intro hkeep
  cases Shreduler.State.keep_cases hkeep with
  | inr hraise => exact h.not_raising hname hraise
  | inl hready =>
    obtain ⟨env, task', rfl, hfind', hready⟩ := hready
    obtain ⟨task, hfind, -⟩ := Shreduler.State.pending_of_poll hstep
    have hpending : task.status ≠ .pending := by
      intro hpending
      apply hpoll t env rfl
      refine ⟨?_, ?_⟩
      . rw [hfind, Option.any_some]
        exact decide_eq_true hpending
      . rw [hname]
        rfl
    obtain ⟨hmem', hid'⟩ := findTask_mem hfind'
    have hcancelled := Shreduler.State.cancelled_of_poll h.accountable.owned.nodup hstep hfind
      hpending hmem' hid'
    rw [hcancelled.2] at hready
    contradiction

theorem letter_called {args : d.Args} {scheduler : Shreduler.State} (hspawns : s.Spawns scheduler)
    {f : FiberId} (hf : s.scheduler.rubyFiber = some f)
    : mail s.scheduler (.hook (d.hook args)) scheduler = [(s.scheduler.nextTask, .make f)] := by
  rw [mail, hf, Option.elim_some, Shreduler.State.madeBy, if_neg hspawns.1, if_pos hspawns.2]

theorem external_of_call (h : Routed device es s) {args : d.Args} {scheduler : Shreduler.State}
    (hhook : s.scheduler.step (.hook (d.hook args)) = some scheduler) (hspawns : s.Spawns scheduler)
    : s.scheduler.nextTask < scheduler.nextTask ∧
        ∀ task ∈ scheduler.tasks, task.id = s.scheduler.nextTask → task.future = .external := by
  have hwf := h.accountable.wf
  have howned := h.accountable.owned
  have hle := Shreduler.State.nextTask_le_of_step hwf howned hhook
  refine ⟨Nat.lt_of_le_of_ne hle (Ne.symm hspawns.1), ?_⟩
  intro task hmem hid
  obtain ⟨f, htasks⟩ := Shreduler.State.tasks_of_hook hwf howned hhook hspawns.1
  rw [htasks] at hmem
  cases List.mem_append.mp hmem with
  | inl hmem => exact absurd hid (Nat.ne_of_lt (howned.lt task hmem))
  | inr hmem =>
    rw [List.mem_singleton.mp hmem]
    exact d.hook_future args s.scheduler.now

theorem called_eq (h : Routed device es s) {args : d.Args} (hstep : Attached.step s (.call args) = some s')
    (hspawns : s.Spawns s'.scheduler)
    : ∃ f, s.scheduler.rubyFiber = some f ∧
        called s (.call args) s'
          =
        [{ task := s.scheduler.nextTask, fiber := f, args, name := d.name s.device args }] := by
  have hhook : s.scheduler.step (.hook (d.hook args)) = some s'.scheduler := by
    cases step_outcome hstep with
    | refused hhook => exact hhook
    | call hhook => exact hhook
  obtain ⟨f, -, hf, -⟩ := Shreduler.State.spawned_of_step h.accountable.wf h.accountable.owned hhook
    hspawns.1
  refine ⟨f, hf, ?_⟩
  simp only [called]
  rw [if_pos hspawns, hf, Option.toList_some, List.map_singleton]

theorem call (h : Routed device es s) {args : d.Args}
    (hstep : Attached.step s (.call args) = some s')
    (hhook : s.scheduler.step (.hook (d.hook args)) = some s'.scheduler) (hspawns : s.Spawns s'.scheduler)
    (hbegins : d.step s.device (d.begins args) = some s'.device)
    (hnames : s'.names = Function.update s.names s.scheduler.nextTask (some (d.name s.device args)))
    : Routed device (es ++ [.call args]) s' := by
  have hletters := h.letters_append hstep
  have hcalls : calls device (es ++ [.call args]) = calls device es ++ called s (.call args) s' :=
    Lts.trace_append_singleton h.run hstep
  have hshown : Lts.trace Shreduler.State.step mail s.scheduler [.hook (d.hook args)]
      = mail s.scheduler (.hook (d.hook args)) s'.scheduler := by
    rw [Lts.trace_cons_of_step hhook, Lts.trace_nil, List.append_nil]
  obtain ⟨f, hf, hcalled⟩ := h.called_eq hstep hspawns
  rw [hcalled] at hcalls
  simp only [shown] at hletters
  rw [hshown, letter_called hspawns hf] at hletters
  constructor
  . exact Lts.run_append_singleton h.run hstep
  . exact h.accountable.step hhook
  . intro t name hname
    rw [hnames] at hname
    by_cases ht : t = s.scheduler.nextTask
    . rw [ht]
      exact h.external_of_call hhook hspawns
    . rw [Function.update_of_ne ht] at hname
      exact h.external_of_step hhook hname
  . rw [hcalls, hletters, hnames]
    intro c hc
    cases List.mem_append.mp hc with
    | inl hc =>
      obtain ⟨hname, hmake⟩ := h.made c hc
      have hlt := (h.external c.task c.name hname).1
      refine ⟨?_, List.mem_append_left _ hmake⟩
      rw [Function.update_of_ne (Nat.ne_of_lt hlt), hname]
    | inr hc =>
      rw [List.mem_singleton.mp hc]
      refine ⟨Function.update_self .., List.mem_append_right _ ?_⟩
      apply List.mem_singleton_self
  . rw [hletters, hnames]
    intro t name result hname hkeep
    cases List.mem_append.mp hkeep with
    | inl hkeep =>
      have ht : t ≠ s.scheduler.nextTask := by
        intro ht
        exact not_mem_letters (run_schedulerEvents h.run) _ (ht ▸ hkeep)
      rw [Function.update_of_ne ht] at hname
      exact d.output_of_step _ _ _ _ _ hbegins (h.kept t name result hname hkeep)
    | inr hkeep => simp at hkeep

theorem frame (h : Routed device es s) {e : Event d} (hstep : Attached.step s e = some s')
    (hnames : s'.names = s.names) (hcalled : called s e s' = []) (haccountable : s'.scheduler.Accountable)
    (hexternal : ∀ t name, s.names t = some name → t < s'.scheduler.nextTask ∧
      ∀ task ∈ s'.scheduler.tasks, task.id = t → task.future = .external)
    (houtput : ∀ name result, d.output s.device name = some result →
      d.output s'.device name = some result)
    (hkept : ∀ t name result, s.names t = some name →
      (t, .keep result) ∈ Lts.trace Shreduler.State.step mail s.scheduler (shown s e s') →
        d.output s'.device name = some result)
    : Routed device (es ++ [e]) s' := by
  have hletters := h.letters_append hstep
  have hcalls : calls device (es ++ [e]) = calls device es ++ called s e s' :=
    Lts.trace_append_singleton h.run hstep
  constructor
  . exact Lts.run_append_singleton h.run hstep
  . exact haccountable
  . rw [hnames]
    exact hexternal
  . rw [hcalls, hcalled, List.append_nil, hletters, hnames]
    intro c hc
    obtain ⟨hname, hmake⟩ := h.made c hc
    exact ⟨hname, List.mem_append_left _ hmake⟩
  . rw [hletters, hnames]
    intro t name result hname hkeep
    cases List.mem_append.mp hkeep with
    | inl hkeep => exact houtput name result (h.kept t name result hname hkeep)
    | inr hkeep => exact hkept t name result hname hkeep

theorem step (h : Routed device es s) {e : Event d} (hstep : Attached.step s e = some s')
    : Routed device (es ++ [e]) s' := by
  have hone {e : Shreduler.Event} {scheduler : Shreduler.State}
      (hscheduler : s.scheduler.step e = some scheduler)
      : Lts.trace Shreduler.State.step mail s.scheduler [e] = mail s.scheduler e scheduler := by
    rw [Lts.trace_cons_of_step hscheduler, Lts.trace_nil, List.append_nil]
  cases step_outcome hstep with
  | refused hhook hspawns =>
    apply h.frame hstep rfl (if_neg hspawns) (h.accountable.step hhook)
    . intro t name hname
      exact h.external_of_step hhook hname
    . exact fun _ _ houtput => houtput
    . intro t name result hname hkeep
      simp only [shown] at hkeep
      rw [hone hhook] at hkeep
      exact absurd hkeep (h.not_keep_of_step hhook (by simp) hname result)
  | call hhook hspawns hbegins => exact h.call hstep hhook hspawns hbegins rfl
  | poll hname hwaits hpolls hrun hpoll =>
    apply h.frame hstep rfl rfl (h.accountable.step hpoll)
    . intro t name hname
      exact h.external_of_step hpoll hname
    . intro name result houtput
      exact output_of_run hrun houtput
    . intro t' name' result hname' hkeep
      simp only [shown, hname, Option.toList_some, List.map_cons, List.map_nil] at hkeep
      rw [hone hpoll] at hkeep
      exact h.output_of_poll hname hwaits hpoll hname' hkeep
  | happen hhappens hdevice =>
    apply h.frame hstep rfl rfl h.accountable h.external
    . intro name result houtput
      exact d.output_of_step _ _ _ _ _ hdevice houtput
    . intro t name result hname hkeep
      simp [shown] at hkeep
  | scheduler hpoll hscheduler =>
    apply h.frame hstep rfl rfl (h.accountable.step hscheduler)
    . intro t name hname
      exact h.external_of_step hscheduler hname
    . exact fun _ _ houtput => houtput
    . intro t name result hname hkeep
      simp only [shown] at hkeep
      rw [hone hscheduler] at hkeep
      exact absurd hkeep (h.not_keep_of_step hscheduler hpoll hname result)

end Routed

theorem routed_of_run {device : d.State} {es : List (Event d)}
    (hrun : Lts.run step (new device) es = some s) : Routed device es s := by
  apply Lts.run_induction (Routed.new device) ?_ hrun
  intro es e s₁ s₂ _ h hstep
  exact h.step hstep

theorem answer_of_returns {device : d.State} {es : List (Event d)}
    (hrun : Lts.run step (new device) es = some s) {c : Call d} (hc : c ∈ calls device es) {ret : Return}
    (hret : ret ∈ s.scheduler.returns) (horigin : ret.payload.origin = .task c.task)
    : ret.fiber = c.fiber ∧ d.output s.device c.name = some ret.payload.result := by
  have h := routed_of_run hrun
  obtain ⟨hname, hmake⟩ := h.made c hc
  have hcollected := Shreduler.State.collected_of_returns (run_schedulerEvents hrun) hret horigin
  constructor
  . exact (hcollected.owner_eq (Lts.mem_project.mpr hmake)).symm
  . exact h.kept c.task c.name _ hname (Lts.mem_project.mp hcollected.mem_keep)

theorem answer_of_settled {device : d.State} {es : List (Event d)}
    (hrun : Lts.run step (new device) es = some s)
    (hkeeps : Lts.Along Shreduler.State.step Shreduler.State.LosesNothing .new (schedulerEvents device es))
    (hempty : s.scheduler.tasks = []) {c : Call d} (hc : c ∈ calls device es)
    : ∃ result, d.output s.device c.name = some result ∧
        Promise.Collected c.fiber result (Lts.project c.task (letters (schedulerEvents device es))) := by
  have h := routed_of_run hrun
  obtain ⟨hname, hmake⟩ := h.made c hc
  have hgone : s.scheduler.findTask c.task = none := by
    unfold Shreduler.State.findTask
    rw [hempty, List.find?_nil]
  obtain ⟨f, result, hcollected⟩ := Shreduler.State.collected_of_run (run_schedulerEvents hrun) hkeeps
    (h.external c.task c.name hname).1 hgone
  obtain rfl := hcollected.owner_eq (Lts.mem_project.mpr hmake)
  exact ⟨result, h.kept c.task c.name _ hname (Lts.mem_project.mp hcollected.mem_keep), hcollected⟩

end Attached
end Device
end Shreduler
