import Shreduler.TokioScheduler.Lemmas.FiberSpawn

/-!
This module proves when a call of `spawn_and_transfer` returns the output of its own future, or an
exception of a `timeout_after` block around it.
-/

namespace Shreduler

/--
What the call returned is the output of its own task or an exception of an enclosing timeout, which
is raised in the middle of its poll, or after its join if the exception could not be made.
-/
def Return.WellRouted (r : Return) : Prop :=
  match r.payload.origin with
  | .task t => t = r.task ∨ t ∈ r.timeouts ∧ ∃ e, r.payload.result = .error e
  | .timeout t => t ∈ r.timeouts
  | .fiber _ => False

def Task.Delivers (task : Task) : Prop :=
  match task.status with
  | .pending | .polling => True
  | .ready (.error (.jump _)) => False
  | .ready _ => True
  | .aborted | .joinError => False

instance (task : Task) : Decidable task.Delivers := by
  unfold Task.Delivers
  generalize task.status = status
  casesm* TaskStatus, Result Value, Error <;> infer_instance

def Task.OnlyRaises (task : Task) : Prop :=
  task.isTimeout ∧
    match task.status with
    | .pending | .ready (.error _) => True
    | _ => False

instance (task : Task) : Decidable task.OnlyRaises := by
  unfold Task.OnlyRaises
  generalize task.status = status
  casesm* TaskStatus, Result Value <;> infer_instance

namespace Task

variable {task task' : Task}

theorem Next.delivers (h : Next task task') (hdelivers : task'.Delivers) : task.Delivers := by
  unfold Delivers at *
  have hstatus := h.status
  generalize task.status = status, task'.status = status' at *
  cases hstatus <;> simp_all

theorem Next.onlyRaises (h : Next task task') (hdelivers : task'.Delivers)
    (hraises : task.OnlyRaises) : task'.OnlyRaises := by
  obtain ⟨htimeout, hraises⟩ := hraises
  refine ⟨h.isTimeout ▸ htimeout, ?_⟩
  have hstatus := h.status
  rw [htimeout] at hstatus
  unfold Delivers at hdelivers
  generalize task.status = status, task'.status = status' at *
  cases hstatus with
  | same => exact hraises
  | ready herror =>
    obtain ⟨e, rfl⟩ := herror rfl
    trivial
  | aborted | panicked | cancelled => exact hdelivers.elim

theorem OnlyRaises.error (h : task.OnlyRaises) {result : Result Value}
    (hstatus : task.status = .ready result) : ∃ e, result = .error e := by
  have hraises := h.2
  rw [hstatus] at hraises
  cases result with
  | ok v => exact hraises.elim
  | error e => exact ⟨e, rfl⟩

theorem OnlyRaises.not_polling (h : task.OnlyRaises) : task.status ≠ .polling := by
  intro hstatus
  have hraises := h.2
  rw [hstatus] at hraises
  exact hraises

end Task

namespace State

variable {s s' : State} {f g : FiberId} {t : TaskId}

def ReturnsRouted (s : State) : Prop := ∀ r ∈ s.returns, r.WellRouted

def NoOtherTask (s : State) (f : FiberId) (t : TaskId) : Prop :=
  ∀ task ∈ s.tasks, task.fiber = f → task.Delivers →
    task.id = t ∨ task.id ∈ s.timeouts f ∧ task.OnlyRaises

def NoChild (s : State) (f : FiberId) : Prop :=
  ∀ child < s.nextFiber, s.transferBackTo child = some f → ¬ s.Unfinished child

/--
A hook call that spawns its task finds no older task of its fiber, apart from the enclosing timeouts,
and no nested fiber that may still hand something to the fiber.
-/
def SpawnsAlone (s : State) : Event → Prop
  | .hook _ | .block _ =>
    match s.rubyFiber with
    | some f =>
      f ≠ rootFiber → ¬ s.runLoop.Borrows → s.NoOtherTask f s.nextTask ∧ s.NoChild f
    | none => True
  | _ => True

instance (s : State) (e : Event) : Decidable (s.SpawnsAlone e) := by
  have (f : FiberId) : Decidable (s.NoOtherTask f s.nextTask) :=
    inferInstanceAs (Decidable (∀ task ∈ s.tasks, _))
  have (f : FiberId) : Decidable (s.NoChild f) :=
    inferInstanceAs (Decidable (∀ child < s.nextFiber, _))
  unfold SpawnsAlone
  generalize s.rubyFiber = fiber
  casesm* Event, Option FiberId <;> infer_instance

/-- The invariant of a fiber `f` in a hook, for as long as control is not on its way to it. -/
structure Alone (s : State) (f : FiberId) (t : TaskId) : Prop where
  task : s.NoOtherTask f t
  child : s.NoChild f

structure Routed (s : State) : Prop where
  returns : s.ReturnsRouted
  transit : ∀ f t payload, s.control = .transfer f payload →
    s.status f = .suspended (.spawnAndTransfer t) → (⟨f, t, s.timeouts f, payload⟩ : Return).WellRouted
  alone : ∀ f t, s.status f = .suspended (.spawnAndTransfer t) →
    (∀ payload, s.control ≠ .transfer f payload) → s.Alone f t

namespace Alone

theorem stays (h : s.Alone f t) (hstays : Stays s s') : s'.Alone f t where
  task := by
    intro task' hmem' hf hdelivers
    obtain ⟨task, hmem, hnext⟩ := hstays.old hmem'
    rw [hnext.id, hstays.thread.timeouts]
    cases h.task task hmem (hnext.fiber ▸ hf) (hnext.delivers hdelivers) with
    | inl hid => exact .inl hid
    | inr htimeout => exact .inr ⟨htimeout.1, hnext.onlyRaises hdelivers htimeout.2⟩
  child := by
    have hthread := hstays.thread
    intro child hlt hback
    rw [hthread.nextFiber] at hlt
    rw [hthread.transferBackTo] at hback
    simpa only [Unfinished, isAlive, hthread.status] using h.child child hlt hback

theorem keep (h : s.Alone f t) (htimeouts : s'.timeouts f = s.timeouts f)
    (htasks : ∀ task ∈ s'.tasks, task.fiber = f → task ∈ s.tasks)
    (hchild : ∀ child < s'.nextFiber, s'.transferBackTo child = some f → s'.Unfinished child →
      child < s.nextFiber ∧ s.transferBackTo child = some f ∧ s.Unfinished child)
    : s'.Alone f t where
  task := by
    intro task hmem hf hdelivers
    rw [htimeouts]
    exact h.task task (htasks task hmem hf) hf hdelivers
  child := by
    intro child hlt hback hunfinished
    obtain ⟨hlt, hback, hunfinished⟩ := hchild child hlt hback hunfinished
    exact h.child child hlt hback hunfinished

theorem update (h : s.Alone f t) {status : FiberStatus}
    (hstatus : s'.status = Function.update s.status g status)
    (hg : s.Unfinished g ∨ status = .terminated) (htimeouts : s'.timeouts f = s.timeouts f)
    (htasks : ∀ task ∈ s'.tasks, task.fiber = f → task ∈ s.tasks)
    (hnext : s'.nextFiber = s.nextFiber) (hback : s'.transferBackTo = s.transferBackTo)
    : s'.Alone f t := by
  apply h.keep htimeouts htasks
  intro child hlt hchild hunfinished
  exact ⟨hnext ▸ hlt, hback ▸ hchild, hunfinished.update hstatus hg⟩

theorem child_of_yield {future : Future} (hspawn : Spawned s g future s') (hg : s.Unfinished g)
    {child : FiberId} (hlt : child < (s'.yield g s.nextTask).nextFiber)
    (hback : (s'.yield g s.nextTask).transferBackTo child = some f)
    (hchild : (s'.yield g s.nextTask).Unfinished child)
    : child < s.nextFiber ∧ s.transferBackTo child = some f ∧ s.Unfinished child := by
  have hthread := hspawn.thread
  refine ⟨hthread.nextFiber ▸ hlt, hthread.transferBackTo ▸ hback, ?_⟩
  have hstatus := status_yield s' g s.nextTask
  rw [hthread.status] at hstatus
  exact hchild.update hstatus (.inl hg)

theorem yield {future : Future} (hspawn : Spawned s g future s') (hg : s.Unfinished g)
    (hother : s.NoOtherTask g s.nextTask) (hchild : s.NoChild g)
    : (s'.yield g s.nextTask).Alone g s.nextTask where
  task := by
    intro task hmem hfiber hdelivers
    change task ∈ s'.tasks at hmem
    rw [hspawn.tasks, List.mem_append, List.mem_singleton] at hmem
    cases hmem with
    | inl hold =>
      have htimeouts : (s'.yield g s.nextTask).timeouts = s.timeouts := hspawn.thread.timeouts
      rw [htimeouts]
      exact hother task hold hfiber hdelivers
    | inr hnew => exact .inl (hnew ▸ rfl)
  child := by
    intro child hlt hback hunfinished
    obtain ⟨hlt, hback, hunfinished⟩ := child_of_yield hspawn hg hlt hback hunfinished
    exact hchild child hlt hback hunfinished

theorem yielded (h : s.Alone f t) {future : Future} (hspawn : Spawned s g future s')
    (hg : s.Unfinished g) (hne : f ≠ g) : (s'.yield g s.nextTask).Alone f t := by
  refine h.keep (congrFun hspawn.thread.timeouts f) ?_ fun child => child_of_yield hspawn hg
  intro task hmem hfiber
  change task ∈ s'.tasks at hmem
  rw [hspawn.tasks, List.mem_append, List.mem_singleton] at hmem
  cases hmem with
  | inl hold => exact hold
  | inr hnew =>
    rw [hnew] at hfiber
    exact absurd hfiber.symm hne

end Alone

namespace Routed

theorem erase_iff (s : State) : Routed s.erase ↔ Routed s := by
  constructor
  all_goals
    intro h
    refine ⟨h.returns, h.transit, ?_⟩
    intro f t hf hcontrol
    have halone := h.alone f t hf hcontrol
    exact ⟨halone.task, halone.child⟩

theorem new : Routed .new where
  returns := by simp [ReturnsRouted, State.new]
  transit := by simp [State.new]
  alone f t h := absurd (Owned.new.hook f t h).1 (Nat.not_lt_zero t)

theorem of_running (h : Routed s) (hg : s.control = .running g)
    (hf : s.status f = .suspended (.spawnAndTransfer t)) : s.Alone f t := by
  apply h.alone f t hf
  simp [hg]

theorem of_transfer (h : Routed s) {payload : Payload} (hg : s.control = .transfer g payload)
    (hne : f ≠ g) (hf : s.status f = .suspended (.spawnAndTransfer t)) : s.Alone f t := by
  apply h.alone f t hf
  intro payload' hcontrol
  rw [hg] at hcontrol
  injection hcontrol with heq
  exact hne heq.symm

theorem of_update {status : FiberStatus} (hstatus : s'.status = Function.update s.status g status)
    (hhook : ∀ t, status ≠ .suspended (.spawnAndTransfer t)) (hreturns : s'.ReturnsRouted)
    (htransit : ∀ f t payload, f ≠ g → s.status f = .suspended (.spawnAndTransfer t) →
      s'.control = .transfer f payload →
        (⟨f, t, s'.timeouts f, payload⟩ : Return).WellRouted)
    (halone : ∀ f t, f ≠ g → s.status f = .suspended (.spawnAndTransfer t) →
      (∀ payload, s'.control ≠ .transfer f payload) → s'.Alone f t) : Routed s' := by
  have hold {f : FiberId} {t : TaskId} (hf : s'.status f = .suspended (.spawnAndTransfer t))
      : f ≠ g ∧ s.status f = .suspended (.spawnAndTransfer t) := by
    rw [hstatus] at hf
    by_cases heq : f = g
    . rw [heq, Function.update_self] at hf
      exact absurd hf (hhook t)
    . rw [Function.update_of_ne heq] at hf
      exact ⟨heq, hf⟩
  constructor
  . exact hreturns
  . intro f t payload hcontrol hf
    obtain ⟨hne, hf⟩ := hold hf
    exact htransit f t payload hne hf hcontrol
  . intro f t hf hcontrol
    obtain ⟨hne, hf⟩ := hold hf
    exact halone f t hne hf hcontrol

theorem stays (h : Routed s) (hstays : Stays s s') : Routed s' := by
  have hthread := hstays.thread
  constructor
  . simpa only [ReturnsRouted, hthread.returns] using h.returns
  . intro f t payload hcontrol hf
    rw [hthread.control] at hcontrol
    rw [hthread.status] at hf
    rw [hthread.timeouts]
    exact h.transit f t payload hcontrol hf
  . intro f t hf hcontrol
    rw [hthread.control] at hcontrol
    rw [hthread.status] at hf
    exact (h.alone f t hf hcontrol).stays hstays

theorem arrive (hwf : Wf s) (h : Routed s) {payload : Payload} {status : FiberStatus}
    (hg : s.control = .transfer g payload)
    (hstatus : s'.status = Function.update s.status g status)
    (hhook : ∀ t, status ≠ .suspended (.spawnAndTransfer t))
    (hunfinished : s.Unfinished g ∨ status = .terminated) (hreturns : s'.ReturnsRouted)
    (hcontrol : s'.control = .running g ∨ ∃ payload, s'.control = .transfer rootFiber payload)
    (htimeouts : s'.timeouts = s.timeouts)
    (htasks : ∀ f t, s.Alone f t → s.status f = .suspended (.spawnAndTransfer t) →
      ∀ task ∈ s'.tasks, task.fiber = f → task ∈ s.tasks)
    (hnext : s'.nextFiber = s.nextFiber) (hback : s'.transferBackTo = s.transferBackTo)
    : Routed s' := by
  apply of_update hstatus hhook hreturns
  . intro f t payload hne hf hcontrol'
    cases hcontrol with
    | inl hrunning => simp [hrunning] at hcontrol'
    | inr htransfer =>
      obtain ⟨payload', htransfer⟩ := htransfer
      rw [htransfer] at hcontrol'
      injection hcontrol' with heq
      -- the root fiber is in no hook
      exact absurd heq.symm (hwf.position f _ hf)
  . intro f t hne hf _
    have halone := h.of_transfer hg hne hf
    exact halone.update hstatus hunfinished (by rw [htimeouts]) (htasks f t halone hf) hnext hback

theorem leave (h : Routed s) {status : FiberStatus} (hg : s.control = .running g)
    (hunfinished : s.Unfinished g) (hstatus : s'.status = Function.update s.status g status)
    (hhook : ∀ t, status ≠ .suspended (.spawnAndTransfer t)) (hreturns : s'.returns = s.returns)
    (htransit : ∀ f t payload, f ≠ g → s.status f = .suspended (.spawnAndTransfer t) →
      s.Alone f t → s'.control = .transfer f payload →
        (⟨f, t, s.timeouts f, payload⟩ : Return).WellRouted)
    (hsame : ∀ f, f ≠ g → s'.timeouts f = s.timeouts f ∧
      ((∀ payload, s'.control ≠ .transfer f payload) →
        ∀ task ∈ s'.tasks, task.fiber = f → task ∈ s.tasks))
    (hnext : s'.nextFiber = s.nextFiber) (hback : s'.transferBackTo = s.transferBackTo)
    : Routed s' := by
  apply of_update hstatus hhook
  . simpa only [ReturnsRouted, hreturns] using h.returns
  . intro f t payload hne hf hcontrol
    rw [(hsame f hne).1]
    exact htransit f t payload hne hf (h.of_running hg hf) hcontrol
  . intro f t hne hf hcontrol
    exact (h.of_running hg hf).update hstatus (.inl hunfinished) (hsame f hne).1
      ((hsame f hne).2 hcontrol) hnext hback

theorem enclose (h : Routed s) (hg : s.control = .running g) (hrunning : s.status g = .running)
    (hstatus : s'.status = s.status) (hcontrol : s'.control = s.control)
    (hreturns : s'.returns = s.returns) (htimeouts : ∀ f, f ≠ g → s'.timeouts f = s.timeouts f)
    (htasks : ∀ task ∈ s'.tasks, task ∈ s.tasks) (hnext : s'.nextFiber = s.nextFiber)
    (hback : s'.transferBackTo = s.transferBackTo) : Routed s' := by
  have hstatus' : s'.status = Function.update s.status g .running := by
    rw [hstatus, ← hrunning, Function.update_eq_self]
  refine h.leave hg ?_ hstatus' (by simp) hreturns ?_ ?_ hnext hback
  . simp [Unfinished, isAlive, hrunning]
  . intro f t payload _ _ _ htransfer
    rw [hcontrol, hg] at htransfer
    contradiction
  . exact fun f hne => ⟨htimeouts f hne, fun _ task hmem _ => htasks task hmem⟩

theorem spawned (h : Routed s) {future : Future} (hg : s.control = .running g)
    (hstatus : s.status g = .running) (hspawn : Spawned s g future s') : Routed s' := by
  have hthread := hspawn.thread
  have hstatus' : s'.status = Function.update s.status g .running := by
    rw [hthread.status, ← hstatus, Function.update_eq_self]
  refine h.leave hg ?_ hstatus' (by simp) hthread.returns ?_ ?_ hthread.nextFiber
    hthread.transferBackTo
  . simp [Unfinished, isAlive, hstatus]
  . intro f t payload hne _ _ hcontrol
    rw [hthread.control, hg] at hcontrol
    contradiction
  . intro f hne
    refine ⟨by rw [hthread.timeouts], ?_⟩
    intro _ task hmem hf
    rw [hspawn.tasks, List.mem_append, List.mem_singleton] at hmem
    cases hmem with
    | inl hold => exact hold
    | inr hnew =>
      rw [hnew] at hf
      exact absurd hf.symm hne

theorem yield (hwf : Wf s) (h : Routed s) {future : Future} (hg : s.control = .running g)
    (hne : g ≠ rootFiber) (hspawn : Spawned s g future s') (hother : s.NoOtherTask g s.nextTask)
    (hchild : s.NoChild g) : Routed (s'.yield g s.nextTask) := by
  have hthread := hspawn.thread
  have hunfinished := Unfinished.of_running hwf hg
  have hstatus : (s'.yield g s.nextTask).status
      = Function.update s.status g (.suspended (.spawnAndTransfer s.nextTask)) := by
    rw [status_yield, hthread.status]
  constructor
  . have : s'.ReturnsRouted := by simpa only [ReturnsRouted, hthread.returns] using h.returns
    exact this
  . -- control goes to the root fiber, which is in no hook
    intro f t payload hcontrol hf
    simp only [State.yield, transfer, Control.transfer.injEq] at hcontrol
    rw [← hcontrol.1, hstatus, Function.update_of_ne hne.symm] at hf
    exact absurd rfl (hwf.position _ _ hf)
  . intro f t hf hcontrol
    rw [hstatus] at hf
    by_cases heq : f = g
    . have ht : s.nextTask = t := by simpa [heq] using hf
      subst heq ht
      exact .yield hspawn hunfinished hother hchild
    . rw [Function.update_of_ne heq] at hf
      exact (h.of_running hg hf).yielded hspawn hunfinished heq

theorem fiberImpl (hwf : Wf s) (h : Routed s) (hg : s.control = .running g)
    : Routed (s.fiberImpl g) := by
  have hunfinished := Unfinished.of_running hwf hg
  have hold {f : FiberId} {t : TaskId}
      (hf : (s.fiberImpl g).status f = .suspended (.spawnAndTransfer t))
      : f ≠ g ∧ s.status f = .suspended (.spawnAndTransfer t) := by
    simp only [State.fiberImpl, setStatus] at hf
    by_cases hnew : f = s.nextFiber
    . simp [hnew] at hf
    . rw [Function.update_of_ne hnew] at hf
      by_cases heq : f = g
      . simp [heq] at hf
      . rw [Function.update_of_ne heq] at hf
        exact ⟨heq, hf⟩
  constructor
  . exact h.returns
  . intro f t payload hcontrol
    simp [State.fiberImpl] at hcontrol
  . intro f t hf _
    obtain ⟨hne, hf⟩ := hold hf
    have hborn : f < s.nextFiber := hwf.lt_nextFiber (isAlive_of_suspended hf)
    apply (h.of_running hg hf).keep
    . exact Function.update_of_ne (Nat.ne_of_lt hborn) _ _
    . exact fun task hmem _ => hmem
    . intro child hlt hback hchild
      simp only [State.fiberImpl, setStatus] at hlt hback
      by_cases hnew : child = s.nextFiber
      . rw [hnew, Function.update_self, ite_eq_iff] at hback
        obtain ⟨-, hnone⟩ | ⟨-, hsome⟩ := hback
        . contradiction
        . injection hsome with heq
          exact absurd heq.symm hne
      . rw [Function.update_of_ne hnew] at hback
        refine ⟨Nat.lt_of_le_of_ne (Nat.le_of_lt_succ hlt) hnew, hback, ?_⟩
        by_cases heq : child = g
        . exact heq ▸ hunfinished
        . simpa only [Unfinished, isAlive, State.fiberImpl, setStatus, Function.update_of_ne hnew,
            Function.update_of_ne heq] using hchild

theorem not_polled (howned : Owned s) (halone : s.Alone f t)
    (hf : s.status f = .suspended (.spawnAndTransfer t)) {task : Task} (hmem : task ∈ s.tasks)
    (htimeout : task.isTimeout) (hpolling : task.status = .polling) : task.fiber ≠ f := by
  intro hfiber
  have hdelivers : task.Delivers := by simp [Task.Delivers, hpolling]
  cases halone.task task hmem hfiber hdelivers with
  | inl hid =>
    have hhook := ((howned.hook f t hf).2 task hmem hid).2
    rw [htimeout] at hhook
    contradiction
  | inr hraises => exact hraises.2.not_polling hpolling

theorem effect (hwf : Wf s) (howned : Owned s) (h : Routed s) {e : Event}
    (hC : s.SpawnsAlone e) (heffect : Effect s e s') : Routed s' := by
  have hrunning {g : FiberId} (hg : s.control = .running g) : s.Unfinished g := .of_running hwf hg
  have hsuspended {g : FiberId} {sus : Suspension} (hg : s.status g = .suspended sus)
      (hne : sus ≠ .transferBack) : s.Unfinished g := by
    simp [Unfinished, isAlive, hg, hne]
  cases heffect with
  | still hstill => exact h.stays (hstill.stays howned.nodup)
  | @switchHook g t payload hcontrol hstatus =>
    refine h.arrive hwf hcontrol rfl (by simp) (.inl (hsuspended hstatus (by simp))) ?_ (.inl rfl) rfl
      (fun _ _ _ _ _ hmem _ => hmem) rfl rfl
    intro r hr
    cases hr with
    | head => exact h.transit g t payload hcontrol hstatus
    | tail _ hr => exact h.returns r hr
  | switchFiber hcontrol hstatus | switchLoop hcontrol hstatus =>
    exact h.arrive hwf hcontrol rfl (by simp) (.inl (hsuspended hstatus (by simp))) h.returns
      (.inl rfl) rfl (fun _ _ _ _ _ hmem _ => hmem) rfl rfl
  | switchBack hcontrol hstatus =>
    exact h.arrive hwf hcontrol rfl (by simp) (.inr rfl) h.returns (.inr ⟨_, rfl⟩) rfl
      (fun _ _ _ _ _ hmem _ => hmem) rfl rfl
  | switchTimeout hcontrol hstatus =>
    refine h.arrive hwf hcontrol rfl (by simp) (.inl (hsuspended hstatus (by simp))) h.returns
      (.inl rfl) rfl ?_ rfl rfl
    intro f t halone hf task' hmem' hfiber
    obtain ⟨task, htask, rfl⟩ := List.mem_map.mp hmem'
    -- the future that the root fiber polls gets its result, and it is none that `f` waits for
    split at hfiber
    . next hid =>
      obtain ⟨htimeout, hpolling⟩ := (howned.raising _ hstatus).2 task htask hid
      have hne := not_polled howned halone hf htask htimeout hpolling
      exact absurd hfiber hne
    . next hid =>
      rw [if_neg hid]
      exact htask
  | fiber hf => exact h.fiberImpl hwf (Wf.rubyFiber_running hf)
  | @hook g hook hf hloop hne =>
    simp only [SpawnsAlone, hf] at hC
    obtain ⟨hother, hchild⟩ := hC hne hloop
    exact h.yield hwf (Wf.rubyFiber_running hf) hne (.addTask s _ _) hother hchild
  | @block g timeout hf hloop hne =>
    simp only [SpawnsAlone, hf] at hC
    obtain ⟨hother, hchild⟩ := hC hne hloop
    exact h.yield hwf (Wf.rubyFiber_running hf) hne (.block s _ _) hother hchild
  | hookRoot hf =>
    have hg := Wf.rubyFiber_running hf
    exact h.spawned hg ((hwf.running _).mpr hg) (.addTask s _ _)
  | blockRoot hf =>
    have hg := Wf.rubyFiber_running hf
    exact h.spawned hg ((hwf.running _).mpr hg) (.block s _ _)
  | @timeoutAfter g duration hf =>
    have hg := Wf.rubyFiber_running hf
    have hspawn := Spawned.addTask s g (.timeout (s.now + duration) g)
    have hadd : Routed (s.addTask g (.timeout (s.now + duration) g)) :=
      h.spawned hg ((hwf.running _).mpr hg) hspawn
    have hg' : (s.addTask g (.timeout (s.now + duration) g)).control = .running g :=
      hspawn.thread.control.trans hg
    refine hadd.enclose hg' ?_ (by rfl) (by rfl) (by rfl) ?_ (fun _ hmem => hmem) (by rfl) (by rfl)
    . rw [hspawn.thread.status]
      exact (hwf.running g).mpr hg
    . intro f hne
      rw [hspawn.thread.timeouts]
      exact Function.update_of_ne hne _ _
  | @endTimeout g t ts hf htimeouts =>
    have hg := Wf.rubyFiber_running hf
    exact h.enclose hg ((hwf.running g).mpr hg) rfl rfl rfl
      (fun f hne => Function.update_of_ne hne _ _) (fun _ hmem => hmem) rfl rfl
  | finishDies hf hne =>
    have hg := Wf.rubyFiber_running hf
    refine h.leave hg (hrunning hg) rfl (by simp) (by rfl) ?_ ?_ (by rfl) (by rfl)
    . intro f t payload _ hf _ hcontrol
      simp only [terminate, Control.transfer.injEq] at hcontrol
      exact absurd hcontrol.1.symm (hwf.position f _ hf)
    . exact fun f _ => ⟨rfl, fun _ task hmem _ => hmem⟩
  | @finishBack g result parent hf hne hparent =>
    have hg := Wf.rubyFiber_running hf
    refine h.leave hg (hrunning hg) rfl (by simp) (by rfl) ?_ ?_ (by rfl) (by rfl)
    . intro f t payload _ hf halone hcontrol
      simp only [transfer, Control.transfer.injEq] at hcontrol
      rw [hcontrol.1] at hparent
      -- no nested fiber that still runs hands its result to a fiber in a hook
      have hborn := hwf.lt_nextFiber (hrunning hg).1
      exact absurd (hrunning hg) (halone.child g hborn hparent)
    . exact fun f _ => ⟨rfl, fun _ task hmem _ => hmem⟩
  | @pollRaise t env task timeoutAt g exception hloop hfind hstatus hfuture =>
    obtain ⟨hmem, hid⟩ := findTask_mem hfind
    have hfiber := howned.timer task hmem timeoutAt g hfuture
    have htimeout : task.isTimeout := by simp [Task.isTimeout, hfuture]
    refine h.leave hloop.2 (hrunning hloop.2) rfl (by simp) (by rfl) ?_ ?_ (by rfl) (by rfl)
    . intro f t' payload _ hf halone hcontrol
      simp only [transfer, Control.transfer.injEq] at hcontrol
      obtain ⟨heq, rfl⟩ := hcontrol
      have hdelivers : task.Delivers := by simp [Task.Delivers, hstatus]
      cases halone.task task hmem (hfiber.symm.trans heq) hdelivers with
      | inl hid =>
        have hhook := ((howned.hook f t' hf).2 task hmem hid).2
        rw [htimeout] at hhook
        contradiction
      | inr hraises => exact hid ▸ hraises.1
    . intro f _
      refine ⟨rfl, ?_⟩
      intro hcontrol task' hmem' hf
      obtain ⟨task₀, hmem₀, rfl⟩ := List.mem_map.mp hmem'
      split at hf
      . next heq =>
        -- control is on its way to the fiber of the task
        rw [findTask_unique howned.nodup hfind hmem₀ heq, ← hfiber] at hf
        exact absurd (by rw [← hf]; rfl) (hcontrol _)
      . next heq =>
        rw [if_neg heq]
        exact hmem₀
  | @joinResume t task result hloop hfind hstatus hjump =>
    obtain ⟨hmem, hid⟩ := findTask_mem hfind
    refine h.leave hloop.2 (hrunning hloop.2) rfl (by simp) (by rfl) ?_ ?_ (by rfl) (by rfl)
    . intro f t' payload _ hf halone hcontrol
      simp only [transfer, Control.transfer.injEq] at hcontrol
      obtain ⟨heq, rfl⟩ := hcontrol
      have hdelivers : task.Delivers := by
        unfold Task.Delivers
        rw [hstatus]
        split <;> simp_all
      -- the own task of the call, or the timeout of a block around it
      cases halone.task task hmem heq hdelivers with
      | inl hown => exact .inl (hid.symm.trans hown)
      | inr hraises => exact .inr ⟨hid ▸ hraises.1, hraises.2.error hstatus⟩
    . exact fun f _ => ⟨rfl, fun _ task hmem _ => List.mem_of_mem_filter hmem⟩
  | joinDrop hloop =>
    exact h.enclose hloop.2 ((hwf.running _).mpr hloop.2) rfl rfl rfl (fun _ _ => rfl)
      (fun _ hmem => List.mem_of_mem_filter hmem) rfl rfl

theorem step (hwf : Wf s) (howned : Owned s) (h : Routed s) {e : Event} (hC : s.SpawnsAlone e)
    (hstep : step s e = some s') : Routed s' :=
  (step_sound hwf hstep).preserves erase_iff fun _ => h.effect hwf howned hC

end Routed

/--
Every hook call of a run that returned did so with the output of its own future or an exception of a
`timeout_after` block around it, as long as no hook was called while an older task or a nested fiber
could still hand something else to its fiber.
-/
theorem returns_routed {es : List Event} (halong : Lts.Along step SpawnsAlone .new es)
    : Lts.Always step ReturnsRouted .new es := by
  refine Lts.Along.always (J := fun s => Wf s ∧ Owned s ∧ Routed s) ?_ (fun _ h => h.2.2.returns)
    ⟨.new, .new, .new⟩ halong
  intro s e s' ⟨hwf, howned, h⟩ hC hstep
  exact ⟨hwf.step hstep, howned.step hwf hstep, h.step hwf howned hC hstep⟩

theorem returns_routed_of_sleep
    : Lts.Always step ReturnsRouted .new [.fiber, .hook (.kernelSleep 0), .switch, .run, .poll 0 {},
        .join 0, .switch, .finish (.ok .nil)] :=
  returns_routed (by decide)

theorem return_misrouted : ¬ ∀ es, Lts.Always step ReturnsRouted .new es := by
  intro hall
  let failing : PollEnv :=
    { timerFired := true, newInstance := (.error (.exception .nil), .ok .nil) }
  have hrun : (Lts.run step .new [.fiber, .timeoutAfter 5000000, .hook (.kernelSleep 10000000), .switch,
      .run, .elapse 6000000, .poll 0 failing, .join 0, .switch, .endTimeout, .hook .ioWait, .switch,
      .elapse 5000000, .poll 1 { timerFired := true }, .join 1, .switch]).any fun s =>
        s.returns.head? = some ⟨1, 2, [], ⟨.ok (.integer 0), .task 1⟩⟩ := by
    decide
  refine Lts.not_always_of_run hrun ?_ (hall _)
  intro s hs hrouted
  have hmem := List.mem_of_mem_head? (of_decide_eq_true hs)
  cases hrouted _ hmem with
  | inl hown => contradiction
  | inr htimeout => exact List.not_mem_nil htimeout.1

end State
end Shreduler
