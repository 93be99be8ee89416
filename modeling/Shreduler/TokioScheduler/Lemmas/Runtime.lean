import Mathlib.Data.List.Basic
import Mathlib.Data.List.Nodup
import Shreduler.TokioScheduler.Impl.Runtime

/-!
This module proves when the tasks of a scheduler stay on the runtime of that scheduler.
-/

namespace Shreduler
namespace Thread

variable {s s' : State} {t : TaskId} {r : Running} {scheduler : SchedulerId}

/-! ### What the thread has entered -/

def guards (first : SchedulerId) : Nat → List Entry
  | 0 => []
  | n + 1 => .guard (first + n) :: guards first n

theorem blockOn_not_mem_guards {first n : Nat} : Entry.blockOn scheduler ∉ guards first n := by
  induction n with
  | zero => simp [guards]
  | succ n ih => simp [guards, ih]

theorem guards_append (first n : Nat) : guards first n ++ guards 0 first = guards 0 (first + n) := by
  induction n with
  | zero => rfl
  | succ n ih => simp [guards, ih]

namespace State

def History (s : State) : List Entry :=
  match s.running with
  | some r =>
    guards r.created (s.schedulers - r.created) ++ .blockOn r.scheduler :: guards 0 r.created
  | none => guards 0 s.schedulers

def lastEntered (s : State) : Option SchedulerId :=
  match s.running with
  | some r => if r.created = s.schedulers then some r.scheduler else some (s.schedulers - 1)
  | none => if s.schedulers = 0 then none else some (s.schedulers - 1)

end State

/-! ### What a step can do -/

inductive Outcome (s : State) : Event → State → Prop where
  | new : Outcome s .new s.newScheduler
  | spawn {scheduler : SchedulerId} {ios : Nat} (hborrowed : ¬ s.borrowed scheduler)
    : Outcome s (.spawn scheduler ios)
        ((s.pushAll scheduler (s.nextTask + ios) ios).addTask scheduler none)
  | enter {e : Event} {scheduler : SchedulerId} {closing : Bool} (hlt : scheduler < s.schedulers)
    (hidle : s.running = none)
    (hevent : ∀ scheduler ios, e ≠ .spawn scheduler ios)
    : Outcome s e
        { s with
          entered := .blockOn scheduler :: s.entered
          running := some { scheduler, closing, borrowed := true, created := s.schedulers }
        }
  -- Refused calls, with `f` the status that each task has, and polls.
  | tasks {e : Event} (f : Task → Status)
    (hevent : ∀ scheduler ios, e = .spawn scheduler ios → s.borrowed scheduler)
    : Outcome s e (s.mapTasks f)
  | join {t : TaskId} {resumes : Bool} {r : Running} (hrunning : s.running = some r)
    : Outcome s (.join t resumes)
        ({ s with tasks := s.tasks.filter fun task => task.id ≠ t }.setBorrowed r !resumes)
  | awaitNext {r : Running} (hrunning : s.running = some r)
    : Outcome s .awaitNext (s.setBorrowed r true)
  | leave {e : Event} {r : Running} {ok : Bool} (f : Task → Status) (hrunning : s.running = some r)
    (hevent : ∀ scheduler ios, e ≠ .spawn scheduler ios) : Outcome s e ((s.mapTasks f).leave r ok)

theorem mapTasks_status (s : State) : s.mapTasks Task.status = s := by
  simp [State.mapTasks]

theorem startRun_outcome {e : Event} {closing : Bool}
    (hevent : ∀ scheduler ios, e ≠ .spawn scheduler ios)
    (hstep : s.startRun scheduler closing = some s') : Outcome s e s' := by
  unfold State.startRun at hstep
  split at hstep
  . next hlt =>
    split at hstep
    all_goals
      injection hstep with hstep
      subst hstep
    . have hsame : Outcome s e (s.mapTasks Task.status) :=
        .tasks _ fun scheduler ios he => absurd he (hevent scheduler ios)
      rwa [mapTasks_status] at hsame
    . next hfree =>
      simp only [not_or, Option.not_isSome_iff_eq_none] at hfree
      exact .enter hlt hfree.2 hevent
  . contradiction

theorem poll_outcome {ready : Bool} (hstep : s.poll t ready = some s')
    : Outcome s (.poll t ready) s' := by
  have hpoll (f : Task → Status) : Outcome s (.poll t ready) (s.mapTasks f) := .tasks f (by simp)
  unfold State.poll at hstep
  split at hstep
  . split at hstep
    . split at hstep
      . split at hstep
        all_goals
          injection hstep with hstep
          subst hstep
        . exact hpoll _
        . have hsame := hpoll Task.status
          rwa [mapTasks_status] at hsame
      . injection hstep with hstep
        exact hstep ▸ hpoll _
      all_goals contradiction
    . contradiction
  . contradiction

theorem step_outcome {e : Event} (hstep : step s e = some s') : Outcome s e s' := by
  cases e with
  | new =>
    injection hstep with hstep
    exact hstep ▸ .new
  | spawn scheduler ios =>
    simp only [step, State.spawn] at hstep
    split at hstep
    . split at hstep
      all_goals
        injection hstep with hstep
        subst hstep
      . next hborrowed =>
        have hsame : Outcome s (.spawn scheduler ios) (s.mapTasks Task.status) := by
          refine .tasks _ ?_
          rintro _ _ ⟨⟩
          exact hborrowed
        rwa [mapTasks_status] at hsame
      . next hborrowed => exact .spawn hborrowed
    . contradiction
  | run scheduler => exact startRun_outcome (by simp) hstep
  | close scheduler => exact startRun_outcome (by simp) hstep
  | poll t ready => exact poll_outcome hstep
  | join t resumes =>
    simp only [step, State.join] at hstep
    split at hstep
    . next hrunning _ =>
      simp only [Option.ite_none_right_eq_some, Option.some.injEq] at hstep
      exact hstep.2 ▸ .join hrunning
    . contradiction
  | joinNone =>
    simp only [step, State.joinNone] at hstep
    split at hstep
    . next hrunning =>
      simp only [Option.ite_none_right_eq_some, Option.some.injEq] at hstep
      have hleave : Outcome s .joinNone ((s.mapTasks Task.status).leave _ true) :=
        .leave _ hrunning (by simp)
      rw [mapTasks_status, hstep.2] at hleave
      exact hleave
    . contradiction
  | interrupt =>
    simp only [step, State.interrupt] at hstep
    split at hstep
    . next hrunning =>
      simp only [Option.ite_none_right_eq_some, Option.some.injEq] at hstep
      exact hstep.2 ▸ .leave _ hrunning (by simp)
    . contradiction
  | awaitNext =>
    simp only [step, State.awaitNext] at hstep
    split at hstep
    . next hrunning =>
      split at hstep
      . contradiction
      . injection hstep with hstep
        exact hstep ▸ .awaitNext hrunning
    . contradiction
  | raised =>
    simp only [step, State.raised] at hstep
    split at hstep
    . next hrunning =>
      split at hstep
      . contradiction
      . injection hstep with hstep
        have hleave : Outcome s .raised ((s.mapTasks Task.status).leave _ false) :=
          .leave _ hrunning (by simp)
        rw [mapTasks_status, hstep] at hleave
        exact hleave
    . contradiction

/-! ### The invariant -/

structure Sane (s : State) : Prop where
  entered : s.entered = s.History
  running : ∀ r, s.running = some r → r.scheduler < r.created ∧ r.created ≤ s.schedulers
  nodup : (s.tasks.map (·.id)).Nodup
  lt : ∀ task ∈ s.tasks, task.id < s.nextTask

namespace Sane

theorem new : Sane .new where
  entered := rfl
  running r h := by contradiction
  nodup := .nil
  lt := by simp [State.new]

theorem current (h : Sane s) : s.current = s.lastEntered := by
  have hentered := h.entered
  unfold State.History at hentered
  unfold State.current State.lastEntered
  split at hentered
  . next r hrunning =>
    obtain ⟨-, hle⟩ := h.running r hrunning
    obtain ⟨n, hn⟩ := Nat.exists_eq_add_of_le hle
    rw [hentered, hn, Nat.add_sub_cancel_left]
    cases n with
    | zero => simp [guards, Entry.runtime]
    | succ n => simp [guards, Entry.runtime]
  . next hrunning =>
    rw [hentered]
    cases s.schedulers with
    | zero => rfl
    | succ n => simp [guards, Entry.runtime]

theorem keep (h : Sane s) (hentered : s'.entered = s.entered)
    (hschedulers : s'.schedulers = s.schedulers)
    (hrunning : s'.running = s.running ∨
      ∃ r borrowed, s.running = some r ∧ s'.running = some { r with borrowed })
    (hids : (s'.tasks.map (·.id)).Sublist (s.tasks.map (·.id))) (hnext : s'.nextTask = s.nextTask)
    : Sane s' where
  entered := by
    rw [hentered, h.entered]
    unfold State.History
    rw [hschedulers]
    obtain heq | ⟨r, borrowed, hr, hr'⟩ := hrunning
    . rw [heq]
    . rw [hr, hr']
  running r hr := by
    rw [hschedulers]
    obtain heq | ⟨r₀, borrowed, hr₀, hr'⟩ := hrunning
    . exact h.running r (heq ▸ hr)
    . rw [hr'] at hr
      injection hr with hr
      exact hr ▸ h.running r₀ hr₀
  nodup := hids.nodup h.nodup
  lt task hmem := by
    have hid := hids.subset (List.mem_map_of_mem hmem)
    obtain ⟨task₀, hmem₀, hid₀⟩ := List.mem_map.mp hid
    rw [hnext, ← hid₀]
    exact h.lt task₀ hmem₀

theorem mapTasks (h : Sane s) (f : Task → Status) : Sane (s.mapTasks f) := by
  refine h.keep rfl rfl (.inl rfl) ?_ rfl
  simp only [State.mapTasks, List.map_map]
  exact List.Sublist.refl _

theorem addTask (h : Sane s) (scheduler : SchedulerId) (set : Option TaskId)
    : Sane (s.addTask scheduler set) where
  entered := h.entered
  running := h.running
  nodup := nodup_map_append_singleton h.nodup fun task htask => Nat.ne_of_lt (h.lt task htask)
  lt task hmem := by
    simp only [State.addTask, List.mem_append, List.mem_singleton] at hmem ⊢
    cases hmem with
    | inl hold => exact Nat.lt_succ_of_lt (h.lt task hold)
    | inr hnew => exact hnew ▸ Nat.lt_succ_self _

theorem pushAll (h : Sane s) (scheduler : SchedulerId) (set : TaskId) (ios : Nat)
    : Sane (s.pushAll scheduler set ios) := by
  induction ios generalizing s with
  | zero => exact h
  | succ ios ih => exact ih (h.addTask scheduler (some set))

theorem newScheduler (h : Sane s) : Sane s.newScheduler where
  entered := by
    have hentered := h.entered
    unfold State.History at hentered ⊢
    simp only [State.newScheduler, hentered]
    split
    . next r hrunning =>
      obtain ⟨-, hle⟩ := h.running r hrunning
      obtain ⟨n, hn⟩ := Nat.exists_eq_add_of_le hle
      rw [hn, Nat.add_sub_cancel_left, Nat.add_assoc, Nat.add_sub_cancel_left]
      rfl
    . rw [guards, Nat.zero_add]
  running r hr := by
    obtain ⟨hlt, hle⟩ := h.running r hr
    exact ⟨hlt, Nat.le_succ_of_le hle⟩
  nodup := h.nodup
  lt := h.lt

theorem enter (h : Sane s) (hidle : s.running = none) (hlt : scheduler < s.schedulers)
    {closing borrowed : Bool}
    : Sane
        { s with
          entered := .blockOn scheduler :: s.entered
          running := some { scheduler, closing, borrowed, created := s.schedulers }
        } where
  entered := by
    have hentered := h.entered
    simp only [State.History, hidle] at hentered
    simp [State.History, hentered, guards]
  running r hr := by
    injection hr with hr
    exact hr ▸ ⟨hlt, Nat.le_refl _⟩
  nodup := h.nodup
  lt := h.lt

theorem leave (h : Sane s) (hrunning : s.running = some r) (ok : Bool) : Sane (s.leave r ok) := by
  have hleft : Sane { s with entered := s.entered.erase (.blockOn r.scheduler), running := none } := by
    refine ⟨?_, ?_, h.nodup, h.lt⟩
    . have hentered := h.entered
      obtain ⟨-, hle⟩ := h.running r hrunning
      obtain ⟨n, hn⟩ := Nat.exists_eq_add_of_le hle
      simp only [State.History, hrunning, hn, Nat.add_sub_cancel_left] at hentered
      simp only [State.History, hentered, hn]
      rw [List.erase_append_right _ blockOn_not_mem_guards, List.erase_cons_head, guards_append]
    . intro r hr
      contradiction
  unfold State.leave
  split
  . exact (hleft.mapTasks _).keep rfl rfl (.inl rfl) (.refl _) rfl
  . exact hleft

theorem setBorrowed (h : Sane s) (hrunning : s.running = some r) (borrowed : Bool)
    : Sane (s.setBorrowed r borrowed) :=
  h.keep rfl rfl (.inr ⟨r, borrowed, hrunning, rfl⟩) (.refl _) rfl

theorem step (h : Sane s) {e : Event} (hstep : step s e = some s') : Sane s' := by
  cases step_outcome hstep with
  | new => exact h.newScheduler
  | spawn => exact (h.pushAll _ _ _).addTask _ _
  | enter hlt hidle => exact h.enter hidle hlt
  | tasks f => exact h.mapTasks f
  | join hrunning =>
    exact h.keep rfl rfl (.inr ⟨_, _, hrunning, rfl⟩) (List.filter_sublist.map _) rfl
  | awaitNext hrunning => exact h.setBorrowed hrunning _
  | leave f hrunning => exact (h.mapTasks f).leave hrunning _

end Sane

/-! ### Where tasks are -/

def Task.Kept (s : State) (task' : Task) : Prop :=
  ∃ task ∈ s.tasks, task'.scheduler = task.scheduler ∧ task'.runtime = task.runtime

theorem kept_mapTasks {f : Task → Status} {task' : Task} (hmem : task' ∈ (s.mapTasks f).tasks)
    : task'.Kept s := by
  obtain ⟨task, htask, rfl⟩ := List.mem_map.mp hmem
  exact ⟨task, htask, rfl, rfl⟩

theorem kept_leave {ok : Bool} {task' : Task} (hmem : task' ∈ (s.leave r ok).tasks)
    : task'.Kept s := by
  unfold State.leave at hmem
  split at hmem
  . exact kept_mapTasks hmem
  . exact ⟨task', hmem, rfl, rfl⟩

theorem mem_addTask {set : Option TaskId} {task' : Task}
    (hmem : task' ∈ (s.addTask scheduler set).tasks)
    : task' ∈ s.tasks ∨
        task'.scheduler = scheduler ∧ task'.runtime = s.current.filter s.runtime := by
  simp only [State.addTask, List.mem_append, List.mem_singleton] at hmem
  refine hmem.imp_right ?_
  rintro rfl
  exact ⟨rfl, rfl⟩

theorem place_pushAll {set : TaskId} {ios : Nat}
    : (s.pushAll scheduler set ios).current.filter (s.pushAll scheduler set ios).runtime
        =
      s.current.filter s.runtime := by
  induction ios generalizing s with
  | zero => rfl
  | succ ios ih => exact ih

theorem mem_pushAll {set : TaskId} {ios : Nat} {task' : Task}
    (hmem : task' ∈ (s.pushAll scheduler set ios).tasks)
    : task' ∈ s.tasks ∨
        task'.scheduler = scheduler ∧ task'.runtime = s.current.filter s.runtime := by
  induction ios generalizing s with
  | zero => exact .inl hmem
  | succ ios ih => exact (ih hmem).elim mem_addTask .inr

theorem Outcome.kept {e : Event} (h : Outcome s e s') {task' : Task} (hmem : task' ∈ s'.tasks)
    : task'.Kept s ∨ ∃ ios, e = .spawn task'.scheduler ios ∧ ¬ s.borrowed task'.scheduler ∧
        task'.runtime = s.current.filter s.runtime := by
  have hold (hmem : task' ∈ s.tasks) : task'.Kept s := ⟨task', hmem, rfl, rfl⟩
  cases h with
  | new | enter | awaitNext => exact .inl (hold hmem)
  | @spawn scheduler ios hborrowed =>
    have hnew (h : task'.scheduler = scheduler ∧ task'.runtime = s.current.filter s.runtime)
        : ∃ ios', Event.spawn scheduler ios = .spawn task'.scheduler ios' ∧
            ¬ s.borrowed task'.scheduler ∧ task'.runtime = s.current.filter s.runtime :=
      ⟨ios, by rw [h.1], by rwa [h.1], h.2⟩
    obtain hpushed | ⟨hscheduler, hruntime⟩ := mem_addTask hmem
    . exact (mem_pushAll hpushed).imp hold hnew
    . rw [place_pushAll] at hruntime
      exact .inr (hnew ⟨hscheduler, hruntime⟩)
  | tasks => exact .inl (kept_mapTasks hmem)
  | join => exact .inl (hold (List.mem_of_mem_filter hmem))
  | leave =>
    obtain ⟨task, htask, hscheduler, hruntime⟩ := kept_leave hmem
    obtain ⟨task₀, htask₀, hscheduler₀, hruntime₀⟩ := kept_mapTasks htask
    exact .inl ⟨task₀, htask₀, hscheduler.trans hscheduler₀, hruntime.trans hruntime₀⟩

/-! ### Tasks that stay with their scheduler -/

structure AtHome (s : State) : Prop where
  -- Every task that was spawned through a scheduler is on the runtime of that scheduler.
  executed : ∀ task ∈ s.tasks, task.runtime = some task.scheduler
  -- The `run` of a scheduler polls the tasks that were spawned through it, and no others.
  progress : ∀ r, s.running = some r → r.borrowed → ∀ task ∈ s.tasks, task.status = .pending →
    ((∃ ready s', step s (.poll task.id ready) = some s') ↔ task.scheduler = r.scheduler)

/--
The scheduler of a `spawn` that is not refused has its runtime still, and is the one whose `new` or
`run` was called last.
-/
def SpawnsAtHome (s : State) : Event → Prop
  | .spawn scheduler _ =>
    s.borrowed scheduler ∨ s.runtime scheduler ∧ s.lastEntered = some scheduler
  | _ => True

instance (s : State) (e : Event) : Decidable (SpawnsAtHome s e) := by
  unfold SpawnsAtHome
  casesm Event <;> infer_instance

theorem findTask_of_mem (hnodup : (s.tasks.map (·.id)).Nodup) {task : Task} (hmem : task ∈ s.tasks)
    : s.findTask task.id = some task := by
  unfold State.findTask
  cases hfound : s.tasks.find? fun task' => task'.id = task.id with
  | none => exact absurd (List.find?_eq_none.mp hfound task hmem) (by simp)
  | some found =>
    have hid : found.id = task.id := by simpa using List.find?_some hfound
    rw [List.inj_on_of_nodup_map hnodup (List.mem_of_find?_eq_some hfound) hmem hid]

theorem Sane.progress (h : Sane s) (hexecuted : ∀ task ∈ s.tasks, task.runtime = some task.scheduler)
    : AtHome s where
  executed := hexecuted
  progress r hrunning hborrowed task hmem hpending := by
    have hfind := findTask_of_mem h.nodup hmem
    have hruntime := hexecuted task hmem
    simp only [Thread.step, State.poll, hrunning, hfind, hruntime, hborrowed, hpending, true_and,
      Option.some.injEq]
    constructor
    . rintro ⟨ready, s', hpoll⟩
      by_contra hne
      simp [hne] at hpoll
    . intro heq
      exact ⟨false, s, by simp [heq]⟩

/-- In a run, tasks stay with their schedulers if and only if they are spawned at home. -/
theorem tasks_stay_iff {es : List Event}
    : Lts.Always step AtHome .new es ↔ Lts.Along step SpawnsAtHome .new es := by
  apply Lts.always_iff_along
    (J := fun s => Sane s ∧ ∀ task ∈ s.tasks, task.runtime = some task.scheduler)
  . rintro s e s' ⟨h, hexecuted⟩ hC hstep
    refine ⟨h.step hstep, ?_⟩
    intro task' hmem
    obtain ⟨task, htask, hscheduler, hruntime⟩ | ⟨ios, rfl, hborrowed, hruntime⟩ :=
      (step_outcome hstep).kept hmem
    . rw [hruntime, hscheduler]
      exact hexecuted task htask
    . obtain hrefused | ⟨hslot, hlast⟩ := hC
      . contradiction
      . rw [hruntime, h.current, hlast, Option.filter_some, if_pos hslot]
  . exact fun s ⟨h, hexecuted⟩ => h.progress hexecuted
  . rintro s e s' ⟨h, -⟩ hstep hhome
    cases e with
    | spawn scheduler ios =>
      simp only [step, State.spawn, Option.ite_none_right_eq_some] at hstep
      obtain ⟨-, hstep⟩ := hstep
      split at hstep
      . next hborrowed => exact .inl hborrowed
      . injection hstep with hstep
        subst hstep
        have houter := hhome.executed _ (List.mem_append_right _ (List.mem_singleton_self _))
        rw [place_pushAll, Option.filter_eq_some_iff, h.current] at houter
        exact .inr houter.symm
    | _ => trivial
  . exact ⟨.new, by simp [State.new]⟩

theorem spawnsAtHome_of_single (h : Sane s) (hsingle : s.schedulers = 1) (hslot : s.runtime 0)
    (ios : Nat) : SpawnsAtHome s (.spawn 0 ios) := by
  refine .inr ⟨hslot, ?_⟩
  unfold State.lastEntered
  rw [hsingle]
  split
  . next r hrunning =>
    obtain ⟨hlt, hle⟩ := h.running r hrunning
    rw [hsingle] at hle
    have hzero := Nat.lt_one_iff.mp (Nat.lt_of_lt_of_le hlt hle)
    split
    . rw [hzero]
    . rfl
  . rfl

theorem task_strays : ¬ ∀ es, Lts.Always step AtHome .new es := by
  intro hall
  have hhome := (hall [.new, .new, .spawn 0 0]).last rfl
  have hruntime := hhome.executed _ (List.mem_singleton_self _)
  contradiction

end Thread
end Shreduler
