import Shreduler.Lts.Basic
import Shreduler.RubyIo.Lemmas.RubyIo
import Shreduler.TokioScheduler.Impl.IoSelectTasks
import Shreduler.TokioScheduler.Lemmas.IoSelect

/-!
This module proves when the arrays of `io_select` are those of the IOs that are ready.
-/

namespace Shreduler
namespace IoSelectTasks

open IoSelect (Interest RubyIoSet JoinNext JoinEnv Objects ArrayId place)

variable {call : Call} {found : Found} {s s' : State} {i : Nat} {task : Task} {io : Value}
  {interest : Interest} {env : JoinEnv}

def Call.list (call : Call) : Interest → List Value
  | .readable => call.readables.getD []
  | .writable => call.writables.getD []
  | .readableWritable => call.exceptables.getD []

def Conditions.holds (conditions : Conditions) : Interest → Bool
  | .readable => conditions.ready.readable
  | .writable => conditions.ready.writable
  | .readableWritable => conditions.exceptional

namespace State

def Holds (s : State) (call : Call) (io : Value) (interest : Interest) : Prop :=
  ∃ fd, call.fileno io = .ok fd ∧ (s.reactor.fds fd).isOpen ∧ (s.conditions fd).holds interest

def slot (s : State) (slots : List ArrayId) (interest : Interest) : List Value :=
  slots[interest.slot]?.elim [] s.objects.heap.contents

def memoContents (s : State) : List Value := s.objects.memo.elim [] s.objects.heap.contents

def Panics (s : State) (call : Call) (env : JoinEnv) : Prop :=
  s.phase = .created ∧ call.timeout.isSome ∧ env.withTimeoutPanics

instance (s : State) : Decidable (s.Panics call env) :=
  inferInstanceAs (Decidable (_ ∧ _))

def deadline (s : State) (call : Call) : Option Instant :=
  match s.phase with
  | .created => deadlineAt s.now call.timeout none
  | .waiting deadline => deadline
  | .returned _ | .panicked => none

end State

structure IsTriple (call : Call) (s s' : State) (slots : List ArrayId) : Prop where
  sound : ∀ io interest, io ∈ s'.slot slots interest → io ∈ call.list interest ∧ s.Holds call io interest
  complete : ∀ i io interest, (i, .ok (io, interest)) ∈ s.finished → io ∈ s'.slot slots interest

def ReturnsTriple (call : Call) (s : State) (e : Event) (s' : State) : Prop :=
  ∀ env slots, e = .poll env →
    s'.phase = .returned (.ok (.arrays slots)) → IsTriple call s s' slots

/--
The first of the finished tasks is right about its IO, and those after it have nothing to add. What the
program has put into the memo would have to be right as well.
-/
structure FindsOne (call : Call) (s : State) (io : Value) (interest : Interest)
    (rest : List (Nat × Result (Value × Interest))) : Prop where
  holds : s.Holds call io interest
  memo : ∀ io' ∈ s.memoContents, ∀ interest', interest' ≠ interest →
    io' ∈ call.list interest' ∧ s.Holds call io' interest'
  rest : ∀ i io' interest', (i, .ok (io', interest')) ∈ rest →
    if interest' = interest then io' = io else io' ∈ s.memoContents

def JoinsOne (call : Call) (s : State) : Event → Prop
  | .poll env =>
    ¬ s.Panics call env →
      ∀ i io interest rest, s.finished = (i, .ok (io, interest)) :: rest →
        FindsOne call s io interest rest
  | _ => True

/-! ### The tasks -/

theorem mem_ioSet : (io, interest) ∈ call.ioSet ↔ io ∈ call.list interest := by
  unfold Call.ioSet Call.list
  cases call.readables <;> cases call.writables <;> cases call.exceptables <;> cases interest <;>
    simp [RubyIoSet.pushAll]

def Usable (call : Call) (io : Value) : Prop := RubyIo.Usable io (call.newEnv io none)

def Task.entry (task : Task) : Value × Interest := (task.io, task.interest)

structure Inv (call : Call) (s : State) : Prop where
  tasks : s.tasks.map Task.entry = call.ioSet
  waiting : ∀ task ∈ s.tasks, ∀ rubyIo seen, task.phase = .waiting rubyIo seen →
    rubyIo.value = task.io ∧ Usable call task.io
  finished : ∀ i result, (i, result) ∈ s.finished →
    ∃ task, s.tasks[i]? = some task ∧ ∀ p, result = .ok p → p = task.entry ∧ Usable call p.1
  memo : ∀ m, s.objects.memo = some m → m < s.objects.heap.size

def State.Open (s : State) : Prop := s.phase = .created ∨ ∃ deadline, s.phase = .waiting deadline

inductive TaskStep (call : Call) (s : State) (i : Nat) (task : Task) : State → Prop where
  | waits (reactor : Reactor) (rubyIo : RubyIo) (seen : Ready) (hio : rubyIo.value = task.io)
    (husable : Usable call task.io)
    : TaskStep call s i task
        { s with
          reactor
          tasks := s.tasks.set i { task with phase := .waiting rubyIo seen }
        }
  | fails (reactor : Reactor) (e : Error)
    : TaskStep call s i task (({ s with reactor } : State).finishTask i task (.error e))
  | finishes (reactor : Reactor) (husable : Usable call task.io)
    : TaskStep call s i task
        (({ s with reactor } : State).finishTask i task (.ok task.entry))

theorem pollReady_step {rubyIo : RubyIo} (reactor : Reactor) (hio : rubyIo.value = task.io)
    (husable : Usable call task.io) (seen : Ready) (env : TaskEnv)
    : TaskStep call s i task (({ s with reactor } : State).pollReady i task rubyIo seen env) := by
  unfold State.pollReady
  split
  . exact .fails reactor _
  . split
    . exact hio ▸ .finishes reactor husable
    . exact .waits reactor rubyIo seen hio husable

theorem pollTask_step {env : TaskEnv} (hinv : Inv call s) (h : s.pollTask call i env = some s')
    : s.Open ∧ ∃ task, s.tasks[i]? = some task ∧ TaskStep call s i task s' := by
  unfold State.pollTask at h
  split at h
  . contradiction
  . contradiction
  all_goals
    next hphase =>
    refine ⟨by simp [State.Open, hphase], ?_⟩
    split at h
    . contradiction
    . next task htask =>
      refine ⟨task, htask, ?_⟩
      split at h
      . have hopened := RubyIo.newWithInterest_opened s.reactor (call.newEnv task.io env.refused) task.io
        generalize RubyIo.newWithInterest s.reactor (call.newEnv task.io env.refused) task.io = opened
          at h hopened
        cases hopened with
        | failed e _ =>
          obtain rfl := Option.some.inj h
          exact .fails _ e
        | @rejected _ e _ _ _ _ =>
          obtain rfl := Option.some.inj h
          exact .fails _ e
        | file fd husable _ =>
          obtain rfl := Option.some.inj h
          exact pollReady_step _ rfl husable .none env
        | socket hregisters _ _ =>
          obtain rfl := Option.some.inj h
          exact pollReady_step _ rfl hregisters.usable .none env
      . next rubyIo seen hphase =>
        obtain rfl := Option.some.inj h
        obtain ⟨hio, husable⟩ := hinv.waiting task (List.mem_of_getElem? htask) rubyIo seen hphase
        exact pollReady_step s.reactor hio husable seen env
      . contradiction

theorem map_set {tasks : List Task} (htask : tasks[i]? = some task) (phase : TaskPhase)
    : (tasks.set i { task with phase }).map Task.entry = tasks.map Task.entry := by
  rw [List.map_set]
  apply List.ext_getElem?
  intro j
  rw [List.getElem?_set, List.getElem?_map]
  split
  . next hij =>
    subst hij
    obtain ⟨hlt, rfl⟩ := List.getElem?_eq_some_iff.mp htask
    simp [hlt, Task.entry]
  . rfl

theorem exists_of_map_eq {tasks tasks' : List Task}
    (h : tasks'.map Task.entry = tasks.map Task.entry) (htask : tasks[i]? = some task)
    : ∃ task', tasks'[i]? = some task' ∧ task'.entry = task.entry := by
  have hentry : (tasks'.map Task.entry)[i]? = some task.entry := by
    rw [h, List.getElem?_map, htask, Option.map_some]
  rwa [List.getElem?_map, Option.map_eq_some_iff] at hentry

namespace Inv

theorem new (call : Call) (found : Found) : Inv call (.new call found) where
  tasks := by
    rw [State.new, List.map_map]
    exact List.map_id _
  waiting task hmem rubyIo seen hphase := by
    obtain ⟨_, -, rfl⟩ := List.mem_map.mp hmem
    contradiction
  finished i p hmem := absurd hmem (by simp [State.new])
  memo := found.memo_lt

theorem finished_of_map_eq {tasks : List Task} (h : Inv call s)
    (hmap : tasks.map Task.entry = s.tasks.map Task.entry) {result : Result (Value × Interest)}
    (hmem : (i, result) ∈ s.finished)
    : ∃ task, tasks[i]? = some task ∧ ∀ p, result = .ok p → p = task.entry ∧ Usable call p.1 := by
  obtain ⟨task, htask, hresult⟩ := h.finished i result hmem
  obtain ⟨task', htask', hentry⟩ := exists_of_map_eq hmap htask
  exact ⟨task', htask', hentry ▸ hresult⟩

theorem waiting_set (h : Inv call s) {phase : TaskPhase}
    (hphase : ∀ rubyIo seen, phase = .waiting rubyIo seen → rubyIo.value = task.io ∧ Usable call task.io)
    : ∀ task' ∈ s.tasks.set i { task with phase }, ∀ rubyIo seen,
        task'.phase = .waiting rubyIo seen → rubyIo.value = task'.io ∧ Usable call task'.io := by
  intro task' hmem rubyIo seen hwaiting
  obtain hmem | rfl := List.mem_or_eq_of_mem_set hmem
  . exact h.waiting task' hmem rubyIo seen hwaiting
  . exact hphase rubyIo seen hwaiting

theorem of_reactor (h : Inv call s) (reactor : Reactor) : Inv call { s with reactor } :=
  ⟨h.tasks, h.waiting, h.finished, h.memo⟩

theorem finishTask (h : Inv call s) (htask : s.tasks[i]? = some task)
    {result : Result (Value × Interest)}
    (hresult : ∀ p, result = .ok p → p = task.entry ∧ Usable call p.1)
    : Inv call (s.finishTask i task result) := by
  have hmap := map_set htask .finished
  refine ⟨hmap.trans h.tasks, h.waiting_set (by simp), ?_, h.memo⟩
  intro j result' hmem
  obtain hmem | hmem := List.mem_append.mp hmem
  . exact h.finished_of_map_eq hmap hmem
  . simp only [List.mem_singleton, Prod.mk.injEq] at hmem
    obtain ⟨rfl, rfl⟩ := hmem
    obtain ⟨task', htask', hentry⟩ := exists_of_map_eq hmap htask
    exact ⟨task', htask', hentry ▸ hresult⟩

theorem pollTask (h : Inv call s) (htask : s.tasks[i]? = some task) (hstep : TaskStep call s i task s')
    : Inv call s' := by
  cases hstep with
  | waits reactor rubyIo seen hio husable =>
    have hmap := map_set htask (.waiting rubyIo seen)
    refine ⟨hmap.trans h.tasks, h.waiting_set ?_, ?_, h.memo⟩
    . intro rubyIo' seen' hphase
      cases hphase
      exact ⟨hio, husable⟩
    . exact fun j result hmem => h.finished_of_map_eq hmap hmem
  | fails reactor e => exact (h.of_reactor reactor).finishTask htask (by simp)
  | finishes reactor husable =>
    apply (h.of_reactor reactor).finishTask htask
    intro p hp
    obtain rfl := Except.ok.inj hp
    exact ⟨rfl, husable⟩

theorem mem_ioSet_of_finished (h : Inv call s) {p : Value × Interest} (hmem : (i, .ok p) ∈ s.finished)
    : p ∈ call.ioSet := by
  obtain ⟨task, htask, hentry⟩ := h.finished i (.ok p) hmem
  rw [← h.tasks]
  exact List.mem_map.mpr ⟨task, List.mem_of_getElem? htask, (hentry p rfl).1.symm⟩

theorem tasks_eq_nil (h : Inv call s) : s.tasks = [] ↔ call.ioSet = [] := by
  rw [← h.tasks, List.map_eq_nil_iff]

theorem turn (h : Inv call s) : Inv call { s with tasks := s.tasks.map s.turnTask } := by
  have hmap : (s.tasks.map s.turnTask).map Task.entry = s.tasks.map Task.entry := by
    rw [List.map_map]
    congr 1
    funext task
    simp only [Function.comp_apply, State.turnTask]
    split <;> rfl
  refine ⟨hmap.trans h.tasks, ?_, fun j result hmem => h.finished_of_map_eq hmap hmem, h.memo⟩
  intro task' hmem rubyIo seen hphase
  obtain ⟨task, htask, rfl⟩ := List.mem_map.mp hmem
  unfold State.turnTask at hphase ⊢
  split at hphase
  . next hphase' =>
    cases hphase
    exact h.waiting task htask _ _ hphase'
  . exact h.waiting task htask rubyIo seen hphase
  . exact h.waiting task htask rubyIo seen hphase

theorem of_objects (h : Inv call s) {objects : Objects}
    (hmemo : ∀ m, objects.memo = some m → m < objects.heap.size) (phase : Phase)
    : Inv call { s with objects, phase } := ⟨h.tasks, h.waiting, h.finished, hmemo⟩

end Inv

theorem canJoin_joinNext (h : Inv call s) : call.ioSet.CanJoin (s.joinNext call) := by
  unfold State.joinNext
  split
  . next i io interest rest hfinished =>
    have hmem : (i, .ok (io, interest)) ∈ s.finished := hfinished ▸ .head _
    exact h.mem_ioSet_of_finished hmem
  . next i e rest hfinished =>
    obtain ⟨task, htask, -⟩ := h.finished i (.error e) (hfinished ▸ .head _)
    exact fun hempty => List.ne_nil_of_mem (List.mem_of_getElem? htask) (h.tasks_eq_nil.mpr hempty)
  . split
    . next hempty => exact h.tasks_eq_nil.mp hempty
    . next hempty => exact mt h.tasks_eq_nil.mpr hempty

/-! ### The future -/

def arrays (s : State) (io : Value) (interest : Interest) : State :=
  { s with
    objects := (s.objects.selected io interest).2
    phase := .returned (.ok (.arrays (s.objects.selected io interest).1.slots))
  }

inductive Join (call : Call) (s : State) (env : JoinEnv) : State → Prop where
  | joins (i : Nat) (io : Value) (interest : Interest) (rest : List (Nat × Result (Value × Interest)))
      (hfinished : s.finished = (i, .ok (io, interest)) :: rest) : Join call s env (arrays s io interest)
  | raises (i : Nat) (e e' : Error) (rest : List (Nat × Result (Value × Interest)))
      (hfinished : s.finished = (i, .error e) :: rest) : Join call s env (s.finish (.error e'))
  | empty (hfinished : s.finished = []) (htasks : s.tasks = []) : Join call s env (s.finish (.ok .nil))
  | timedOut (hfinished : s.finished = []) (htasks : s.tasks ≠ [])
      (hdeadline : (s.deadline call).any (timerOver env.timerFired s.now)) : Join call s env (s.finish (.ok .nil))
  | waits (hfinished : s.finished = []) (htasks : s.tasks ≠ [])
      (hdeadline : ¬ (s.deadline call).any (timerOver env.timerFired s.now))
      : Join call s env { s with phase := .waiting (s.deadline call) }

theorem pollJoin_join : Join call s env (s.pollJoin call (s.deadline call) env) := by
  unfold State.pollJoin State.joinNext
  split
  . next hpending =>
    split at hpending
    . contradiction
    . contradiction
    . next hfinished =>
      split at hpending
      . contradiction
      . next htasks =>
        split
        . next hdeadline => exact .timedOut hfinished htasks hdeadline
        . next hdeadline => exact .waits hfinished htasks hdeadline
  . next hnone =>
    split at hnone
    . contradiction
    . contradiction
    . next hfinished =>
      split at hnone
      . next htasks => exact .empty hfinished htasks
      . contradiction
  . next hjoin =>
    split at hjoin
    . contradiction
    . contradiction
    . split at hjoin <;> contradiction
  . next hfailed =>
    split at hfailed
    . contradiction
    . next i e rest hfinished => exact .raises i e _ rest hfinished
    . split at hfailed <;> contradiction
  . next io interest hready =>
    split at hready
    . next i io' interest' rest hfinished =>
      cases hready
      exact .joins i io interest rest hfinished
    . contradiction
    . split at hready <;> contradiction

theorem poll_join (h : s.poll call env = some s')
    : s.Open ∧ (s.Panics call env ∧ s' = { s with phase := .panicked } ∨
        ¬ s.Panics call env ∧ Join call s env s') := by
  unfold State.poll at h
  have hjoin : Join call s env (s.pollJoin call (s.deadline call) env) := pollJoin_join
  split at h
  . next hphase =>
    refine ⟨.inl hphase, ?_⟩
    simp only [State.Panics, State.deadline, hphase, true_and] at hjoin ⊢
    split at h
    . next hpanics => exact .inl ⟨hpanics, (Option.some.inj h).symm⟩
    . next hpanics => exact .inr ⟨hpanics, Option.some.inj h ▸ hjoin⟩
  . next deadline hphase =>
    refine ⟨.inr ⟨deadline, hphase⟩, .inr ?_⟩
    simp only [State.Panics, State.deadline, hphase, reduceCtorEq, false_and, not_false_eq_true,
      true_and] at hjoin ⊢
    exact Option.some.inj h ▸ hjoin
  . contradiction
  . contradiction

/-! ### The arrays -/

theorem getElem?_place {α : Type} (interest interest' : Interest) (x m : α)
    : (place interest x m)[interest'.slot]? = some (if interest' = interest then x else m) := by
  cases interest <;> cases interest' <;> rfl

theorem slot_arrays (h : Inv call s) (io : Value) (interest : Interest)
    : ∃ slots, (arrays s io interest).phase = .returned (.ok (.arrays slots)) ∧
        ∀ interest', (arrays s io interest).slot slots interest' =
          if interest' = interest then [io] else s.memoContents := by
  obtain ⟨new, m, hselected⟩ := IoSelect.selected_spec h.memo io interest
  refine ⟨_, rfl, ?_⟩
  intro interest'
  have hslots := hselected.consists.slots
  rw [hselected.interest] at hslots
  rw [State.slot, arrays, hslots, getElem?_place, Option.elim_some]
  split
  . rw [hselected.intact.io, hselected.rubyIo]
  . unfold State.memoContents
    have hm := hselected.consists.memo
    cases hmemo : s.objects.memo with
    | some m' =>
      have heq := hselected.extend.memo m' hmemo
      rw [hm] at heq
      obtain rfl := Option.some.inj heq
      exact hselected.extend.contents m (h.memo m hmemo)
    | none =>
      obtain hold | hnew := hselected.extend.memoNew m hm
      . rw [hmemo] at hold
        contradiction
      . exact hnew

theorem isTriple_arrays_iff (h : Inv call s)
    {rest : List (Nat × Result (Value × Interest))}
    (hfinished : s.finished = (i, .ok (io, interest)) :: rest) {slots : List ArrayId}
    (hphase : (arrays s io interest).phase = .returned (.ok (.arrays slots)))
    : IsTriple call s (arrays s io interest) slots ↔ FindsOne call s io interest rest := by
  obtain ⟨slots', hphase', hslot⟩ := slot_arrays h io interest
  have heq : slots = slots' := by
    rw [hphase'] at hphase
    cases hphase
    rfl
  subst heq
  have hmem : io ∈ call.list interest := by
    have hhead : (i, .ok (io, interest)) ∈ s.finished := hfinished ▸ .head _
    exact mem_ioSet.mp (h.mem_ioSet_of_finished hhead)
  constructor
  . intro htriple
    refine ⟨?_, ?_, ?_⟩
    . refine (htriple.sound io interest ?_).2
      simp [hslot]
    . intro io' hio' interest' hne
      apply htriple.sound io' interest'
      rwa [hslot, if_neg hne]
    . intro j io' interest' hrest
      have hio' := htriple.complete j io' interest' (hfinished ▸ .tail _ hrest)
      rw [hslot] at hio'
      split at hio'
      . next heq => rwa [if_pos heq, ← List.mem_singleton]
      . next hne => rwa [if_neg hne]
  . intro hone
    constructor
    . intro io' interest' hio'
      rw [hslot] at hio'
      split at hio'
      . next heq =>
        obtain rfl := List.mem_singleton.mp hio'
        exact heq ▸ ⟨hmem, hone.holds⟩
      . next hne => exact hone.memo io' hio' interest' hne
    . intro j io' interest' hio'
      rw [hfinished] at hio'
      rw [hslot]
      cases hio' with
      | head => simp
      | tail _ hrest =>
        have hone := hone.rest j io' interest' hrest
        split
        . next heq => rwa [if_pos heq, ← List.mem_singleton] at hone
        . next hne => rwa [if_neg hne] at hone

/-! ### Runs -/

theorem Inv.poll (h : Inv call s) (hstep : s.poll call env = some s') : Inv call s' := by
  obtain ⟨-, ⟨-, rfl⟩ | ⟨-, hjoin⟩⟩ := poll_join hstep
  . exact h.of_objects h.memo .panicked
  . cases hjoin with
    | joins i io interest rest hfinished =>
      apply h.of_objects
      intro m hm
      obtain ⟨new, m', hselected⟩ := IoSelect.selected_spec h.memo io interest
      have hm' := hselected.consists.memo
      rw [hm] at hm'
      obtain rfl := Option.some.inj hm'
      exact hselected.consists.lt m (hselected.consists.mem_arrays.mpr (.inr (.inr rfl)))
    | raises | empty | timedOut | waits => exact h.of_objects h.memo _

theorem Inv.step (h : Inv call s) {e : Event} (hstep : IoSelectTasks.step call s e = some s')
    : Inv call s' := by
  cases e with
  | pollTask i env =>
    obtain ⟨-, task, htask, htaskStep⟩ := pollTask_step h hstep
    exact h.pollTask htask htaskStep
  | poll => exact h.poll hstep
  | turn => exact Option.some.inj hstep ▸ h.turn
  | change | elapse | fromStd | close =>
    exact Option.some.inj hstep ▸ ⟨h.tasks, h.waiting, h.finished, h.memo⟩
  | fromSlice values =>
    obtain rfl := Option.some.inj hstep
    apply h.of_objects
    intro m hm
    rw [Objects.fromSlice, ArrayHeap.size_alloc]
    exact Nat.lt_succ_of_lt (h.memo m hm)
  | emptyArray =>
    obtain rfl := Option.some.inj hstep
    apply h.of_objects
    intro m hm
    unfold Objects.emptyArray at hm ⊢
    split
    . next hmemo =>
      rw [hmemo] at hm
      exact h.memo m (hmemo ▸ hm)
    . next hmemo =>
      simp only [hmemo, Objects.fromSlice, Option.some.injEq] at hm
      simp [Objects.fromSlice, ← hm]
  | modify array values =>
    obtain rfl := Option.some.inj hstep
    apply h.of_objects
    intro m hm
    rw [ArrayHeap.size_modify]
    exact h.memo m hm

theorem returnsTriple_of_ne {e : Event} (h : ∀ slots, s'.phase ≠ .returned (.ok (.arrays slots)))
    : ReturnsTriple call s e s' := fun _ slots _ hphase => absurd hphase (h slots)

theorem joinsOne_of_ne (h : ∀ i p rest, s.finished ≠ (i, .ok p) :: rest)
    : JoinsOne call s (.poll env) :=
  fun _ i io interest rest hfinished => absurd hfinished (h i (io, interest) rest)

theorem returnsTriple_iff (h : Inv call s) {e : Event} (hstep : step call s e = some s')
    : ReturnsTriple call s e s' ↔ JoinsOne call s e := by
  cases e with
  | poll env =>
    obtain ⟨-, ⟨hpanics, rfl⟩ | ⟨hpanics, hjoin⟩⟩ := poll_join hstep
    . exact iff_of_true (returnsTriple_of_ne (by simp)) (absurd hpanics)
    . cases hjoin with
      | joins i io interest rest hfinished =>
        constructor
        . intro htriple _ i' io' interest' rest' hfinished'
          rw [hfinished] at hfinished'
          cases hfinished'
          exact (isTriple_arrays_iff h hfinished rfl).mp (htriple env _ rfl rfl)
        . intro hone _ slots _ hphase
          exact (isTriple_arrays_iff h hfinished hphase).mpr (hone hpanics i io interest rest hfinished)
      | raises i e e' rest hfinished =>
        refine iff_of_true (returnsTriple_of_ne (by simp [State.finish])) (joinsOne_of_ne ?_)
        simp [hfinished]
      | empty hfinished | timedOut hfinished =>
        refine iff_of_true (returnsTriple_of_ne (by simp [State.finish])) (joinsOne_of_ne ?_)
        simp [hfinished]
      | waits hfinished =>
        refine iff_of_true (returnsTriple_of_ne (by simp)) (joinsOne_of_ne ?_)
        simp [hfinished]
  | pollTask | change | turn | elapse | fromStd | close | fromSlice | emptyArray | modify =>
    refine iff_of_true ?_ trivial
    rintro _ _ ⟨⟩

/--
The arrays of `io_select` are those of the IOs that are ready, in every run, if and only if every poll
that finds finished tasks finds the first of them right, and nothing in the others and in the memo that
it leaves out or adds.
-/
theorem returns_triple_iff (call : Call) (found : Found) (es : List Event)
    : Lts.Along (step call) (fun s e => ∀ s', step call s e = some s' → ReturnsTriple call s e s')
          (.new call found) es ↔
        Lts.Along (step call) (JoinsOne call) (.new call found) es := by
  apply Lts.along_congr (J := Inv call)
  . exact fun s e s' h hstep => h.step hstep
  . intro s e s' h hstep
    rw [Lts.forall_step_iff hstep, returnsTriple_iff h hstep]
  . exact .new call found

def exceptablesCall : Call where
  readables := none
  writables := none
  exceptables := some [.object "TCPSocket" 0]
  timeout := none
  tryConvert := .ok
  fileno _ := .ok 3
  inspect _ := ""
  display _ := ""

def openFound (isOpen : RawFd → Bool) : Found where
  now := 0
  reactor := { fds := fun fd => ⟨isOpen fd, false⟩, log := [] }
  conditions _ := ⟨.none, false⟩
  objects := { heap := .empty, memo := none }
  memo_lt := nofun

theorem readable_returned_as_exceptional
    : ¬ ∀ (call : Call) (found : Found) (es : List Event),
        Lts.Along (step call) (fun s e => ∀ s', step call s e = some s' → ReturnsTriple call s e s')
          (.new call found) es := by
  intro hall
  have hreturns := hall exceptablesCall (openFound fun _ => true)
    [.pollTask 0 {}, .change 3 ⟨⟨true, false⟩, false⟩, .turn, .pollTask 0 {}, .poll {}]
  have hlast := ((((hreturns _ rfl).2 _ rfl).2 _ rfl).2 _ rfl).2 _ rfl
  have htriple := hlast.1 _ rfl {} _ rfl rfl
  obtain ⟨-, fd, hfd, -, hexceptional⟩ :=
    htriple.sound (.object "TCPSocket" 0) .readableWritable (by decide)
  obtain rfl := Except.ok.inj hfd
  exact absurd hexceptional (by decide)

end IoSelectTasks
end Shreduler
