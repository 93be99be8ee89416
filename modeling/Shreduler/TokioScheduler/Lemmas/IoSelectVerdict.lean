import Shreduler.TokioScheduler.Lemmas.IoSelectTasks

/-!
This module proves when `io_select` returns `nil` only after its timeout, and when it depends on the
order of its tasks whether it raises.
-/

namespace Shreduler
namespace IoSelectTasks

open IoSelect (Interest ArrayId JoinEnv)

variable {call : Call} {found : Found} {s s' : State} {i : Nat} {io : Value} {interest : Interest}
  {env : JoinEnv}

def Elapsed (call : Call) (found : Found) (s : State) : Prop :=
  ∃ timeout, call.timeout = some timeout ∧ found.now + timeout ≤ s.now

def NothingHolds (call : Call) (s : State) : Prop :=
  ∀ io interest, io ∈ call.list interest → ¬ s.Holds call io interest

def NilOnTimeout (call : Call) (found : Found) (s : State) (e : Event) (s' : State) : Prop :=
  ∀ env, e = .poll env → s'.phase = .returned (.ok .nil) →
    Elapsed call found s ∧ NothingHolds call s

/--
A call without any IO is polled no earlier than its timeout is over. No poll of one that has IOs finds
that its timer has fired while one of them is ready and no task has finished.
-/
def NothingMissed (call : Call) (found : Found) (s : State) : Event → Prop
  | .poll env =>
    ¬ s.Panics call env → s.finished = [] →
      if call.ioSet = [] then
        Elapsed call found s
      else
        (s.deadline call).any (timerOver env.timerFired s.now) → NothingHolds call s
  | _ => True

def State.Returned (s : State) : Prop := ∃ result, s.phase = .returned result

def RaisesUnusable (call : Call) (s : State) : Prop :=
  (∃ e, s.phase = .returned (.error e)) ∧
    ∃ i e rest p, s.finished = (i, .error e) :: rest ∧ call.ioSet[i]? = some p ∧ ¬ Usable call p.1

/--
Whether the call raises for that reason is the same in all runs in which the same happens outside of it,
whatever the order is in which the executor polls the tasks and the future.
-/
def VerdictFixed (call : Call) (found : Found) : Prop :=
  ∀ es es' s s', Lts.run (step call) (.new call found) es = some s →
    Lts.run (step call) (.new call found) es' = some s' →
      es.filter Event.isOutside = es'.filter Event.isOutside → s.Returned → s'.Returned →
        (RaisesUnusable call s ↔ RaisesUnusable call s')

def AllOrNone (call : Call) : Prop :=
  (∀ p ∈ call.ioSet, Usable call p.1) ∨ (∀ p ∈ call.ioSet, ¬ Usable call p.1) ∧ call.timeout = none

/-! ### `nil` -/

structure Timed (call : Call) (found : Found) (s : State) : Prop where
  now : found.now ≤ s.now
  deadline : ∀ instant, s.phase = .waiting (some instant) →
    ∃ timeout, call.timeout = some timeout ∧ found.now + timeout ≤ instant

namespace Timed

theorem new (call : Call) (found : Found) : Timed call found (.new call found) where
  now := Nat.le_refl _
  deadline := nofun

theorem of_deadline (h : Timed call found s) {instant : Instant}
    (hdeadline : s.deadline call = some instant)
    : ∃ timeout, call.timeout = some timeout ∧ found.now + timeout ≤ instant := by
  unfold State.deadline at hdeadline
  split at hdeadline
  . rw [deadlineAt, Option.none_or, Option.map_eq_some_iff] at hdeadline
    obtain ⟨timeout, htimeout, rfl⟩ := hdeadline
    exact ⟨timeout, htimeout, Nat.add_le_add_right h.now timeout⟩
  . next hphase => exact h.deadline instant (hdeadline ▸ hphase)
  . contradiction
  . contradiction

theorem elapsed (h : Timed call found s)
    (hdeadline : (s.deadline call).any (timerOver env.timerFired s.now)) : Elapsed call found s := by
  obtain ⟨instant, hinstant, hover⟩ := Option.any_eq_true _ _ |>.mp hdeadline
  obtain ⟨timeout, htimeout, hfar⟩ := h.of_deadline hinstant
  exact ⟨timeout, htimeout, Nat.le_trans hfar (le_of_timerOver hover)⟩

theorem of_now (h : Timed call found s) (hnow : s.now ≤ s'.now) (hphase : s'.phase = s.phase)
    : Timed call found s' where
  now := Nat.le_trans h.now hnow
  deadline instant hwaiting := h.deadline instant (hphase ▸ hwaiting)

theorem poll (h : Timed call found s) (hstep : s.poll call env = some s')
    : Timed call found s' := by
  obtain ⟨-, ⟨-, rfl⟩ | ⟨-, hjoin⟩⟩ := poll_join hstep
  . exact ⟨h.now, by simp⟩
  . cases hjoin with
    | joins | raises | empty | timedOut => exact ⟨h.now, by rintro _ ⟨⟩⟩
    | waits =>
      refine ⟨h.now, ?_⟩
      intro instant hwaiting
      exact h.of_deadline (Phase.waiting.inj hwaiting)

theorem step (hinv : Inv call s) (h : Timed call found s) {e : Event}
    (hstep : IoSelectTasks.step call s e = some s') : Timed call found s' := by
  cases e with
  | pollTask i env =>
    obtain ⟨-, task, -, htaskStep⟩ := pollTask_step hinv hstep
    cases htaskStep with
    | waits | fails | finishes => exact h.of_now (Nat.le_refl _) rfl
  | poll => exact h.poll hstep
  | elapse duration => exact Option.some.inj hstep ▸ h.of_now (Nat.le_add_right _ duration) rfl
  | turn | change | fromStd | close | fromSlice | emptyArray | modify =>
    exact Option.some.inj hstep ▸ h.of_now (Nat.le_refl _) rfl

end Timed

theorem nilOnTimeout_iff (hinv : Inv call s) (h : Timed call found s) {e : Event}
    (hstep : step call s e = some s')
    : NilOnTimeout call found s e s' ↔ NothingMissed call found s e := by
  cases e with
  | poll env =>
    have hne (hphase : s'.phase ≠ .returned (.ok .nil))
        : NilOnTimeout call found s (.poll env) s' :=
      fun _ _ hnil => absurd hnil hphase
    have hnil (hphase : s'.phase = .returned (.ok .nil))
        : NilOnTimeout call found s (.poll env) s' ↔
            Elapsed call found s ∧ NothingHolds call s :=
      ⟨fun hnil => hnil _ rfl hphase, fun hboth _ _ _ => hboth⟩
    obtain ⟨-, ⟨hpanics, rfl⟩ | ⟨hpanics, hjoin⟩⟩ := poll_join hstep
    . exact iff_of_true (hne (by simp)) (absurd hpanics)
    . cases hjoin with
      | joins i io interest rest hfinished | raises i e e' rest hfinished =>
        refine iff_of_true (hne (by rintro ⟨⟩)) ?_
        intro _ hnone
        rw [hfinished] at hnone
        contradiction
      | empty hfinished htasks =>
        have hempty := hinv.tasks_eq_nil.mp htasks
        have hnothing : NothingHolds call s := by
          intro io interest hmem
          rw [← mem_ioSet, hempty] at hmem
          contradiction
        rw [hnil rfl]
        simp [NothingMissed, hpanics, hfinished, hempty, hnothing]
      | timedOut hfinished htasks hdeadline =>
        have hsome := mt hinv.tasks_eq_nil.mpr htasks
        rw [hnil rfl]
        simp [NothingMissed, hpanics, hfinished, hsome, hdeadline, h.elapsed hdeadline]
      | waits hfinished htasks hdeadline =>
        have hsome := mt hinv.tasks_eq_nil.mpr htasks
        refine iff_of_true (hne (by simp)) ?_
        simp [NothingMissed, hsome, hdeadline]
  | pollTask | change | turn | elapse | fromStd | close | fromSlice | emptyArray | modify =>
    refine iff_of_true ?_ trivial
    rintro _ ⟨⟩

/-! ### The verdict -/

theorem not_raisesUnusable_of_usable (h : ∀ p ∈ call.ioSet, Usable call p.1) (s : State)
    : ¬ RaisesUnusable call s := by
  rintro ⟨-, i, e, rest, p, -, hp, hunusable⟩
  exact hunusable (h p (List.mem_of_getElem? hp))

def Accounts (call : Call) (finished : List (Nat × Result (Value × Interest)))
    (result : Result Selected) : Prop :=
  match finished with
  | [] => call.ioSet = [] ∨ call.timeout.isSome
  | (_, .ok _) :: _ => True
  | (_, .error _) :: _ => ∃ e, result = .error e

def Outcome (call : Call) (s : State) : Prop :=
  ∀ result, s.phase = .returned result → Accounts call s.finished result

namespace Outcome

theorem of_phase (h : Outcome call s) (hphase : s'.phase = s.phase)
    (hfinished : s'.finished = s.finished) : Outcome call s' := by
  intro result hresult
  rw [hfinished]
  exact h result (hphase ▸ hresult)

theorem of_finished (hphase : s'.phase = .returned result)
    (h : Accounts call s'.finished result) : Outcome call s' := by
  intro result' hresult'
  obtain rfl := Phase.returned.inj (hphase.symm.trans hresult')
  exact h

theorem poll (hinv : Inv call s) (htimed : Timed call found s)
    (hstep : s.poll call env = some s') : Outcome call s' := by
  obtain ⟨-, ⟨-, rfl⟩ | ⟨-, hjoin⟩⟩ := poll_join hstep
  . simp [Outcome]
  . cases hjoin with
    | joins i io interest rest hfinished =>
      refine of_finished rfl ?_
      rw [arrays, hfinished]
      trivial
    | raises i e e' rest hfinished =>
      refine of_finished rfl ?_
      rw [State.finish, hfinished]
      exact ⟨e', rfl⟩
    | empty hfinished htasks =>
      refine of_finished rfl ?_
      rw [State.finish, hfinished]
      exact .inl (hinv.tasks_eq_nil.mp htasks)
    | timedOut hfinished htasks hdeadline =>
      obtain ⟨timeout, htimeout, -⟩ := htimed.elapsed hdeadline
      refine of_finished rfl ?_
      rw [State.finish, hfinished]
      exact .inr (htimeout ▸ rfl)
    | waits => simp [Outcome]

theorem step (hinv : Inv call s) (htimed : Timed call found s) (h : Outcome call s) {e : Event}
    (hstep : IoSelectTasks.step call s e = some s') : Outcome call s' := by
  cases e with
  | pollTask i env =>
    obtain ⟨hopen, task, -, htaskStep⟩ := pollTask_step hinv hstep
    have hphase : s'.phase = s.phase := by
      cases htaskStep <;> rfl
    intro result hresult
    rw [hphase] at hresult
    obtain hcreated | ⟨deadline, hwaiting⟩ := hopen
    . rw [hcreated] at hresult
      contradiction
    . rw [hwaiting] at hresult
      contradiction
  | poll => exact poll hinv htimed hstep
  | turn | elapse | change | fromStd | close | fromSlice | emptyArray | modify =>
    exact Option.some.inj hstep ▸ h.of_phase rfl rfl

end Outcome

theorem invariants {es : List Event} (hrun : Lts.run (step call) (.new call found) es = some s)
    : Inv call s ∧ Timed call found s ∧ Outcome call s := by
  apply Lts.invariant (J := fun s => Inv call s ∧ Timed call found s ∧ Outcome call s) ?_ ?_ hrun
  . rintro s e s' ⟨hinv, htimed, houtcome⟩ hstep
    exact ⟨hinv.step hstep, htimed.step hinv hstep, houtcome.step hinv htimed hstep⟩
  . exact ⟨.new call found, .new call found, by simp [Outcome, State.new]⟩

theorem raisesUnusable_iff_of_unusable (hinv : Inv call s) (houtcome : Outcome call s)
    (hunusable : ∀ p ∈ call.ioSet, ¬ Usable call p.1) (htimeout : call.timeout = none)
    (hreturned : s.Returned) : RaisesUnusable call s ↔ call.ioSet ≠ [] := by
  constructor
  . rintro ⟨-, i, e, rest, p, -, hp, -⟩
    exact List.ne_nil_of_mem (List.mem_of_getElem? hp)
  . intro hne
    obtain ⟨result, hresult⟩ := hreturned
    have haccounts := houtcome result hresult
    unfold Accounts at haccounts
    split at haccounts
    . simp [hne, htimeout] at haccounts
    . next i p rest hfinished =>
      obtain ⟨task, htask, hok⟩ := hinv.finished i (.ok p) (hfinished ▸ .head _)
      have hmem : (i, .ok p) ∈ s.finished := hfinished ▸ .head _
      exact absurd (hok p rfl).2 (hunusable p (hinv.mem_ioSet_of_finished hmem))
    . next i e rest hfinished =>
      obtain ⟨e', rfl⟩ := haccounts
      obtain ⟨task, htask, -⟩ := hinv.finished i (.error e) (hfinished ▸ .head _)
      have hentry : call.ioSet[i]? = some task.entry := by
        rw [← hinv.tasks, List.getElem?_map, htask, Option.map_some]
      refine ⟨⟨e', hresult⟩, i, e, rest, task.entry, hfinished, hentry, ?_⟩
      exact hunusable task.entry (List.mem_of_getElem? hentry)

theorem verdictFixed_of_allOrNone (h : AllOrNone call) : VerdictFixed call found := by
  intro es es' s s' hrun hrun' _ hreturned hreturned'
  obtain husable | ⟨hunusable, htimeout⟩ := h
  . exact iff_of_false (not_raisesUnusable_of_usable husable s) (not_raisesUnusable_of_usable husable s')
  . obtain ⟨hinv, -, houtcome⟩ := invariants hrun
    obtain ⟨hinv', -, houtcome'⟩ := invariants hrun'
    rw [raisesUnusable_iff_of_unusable hinv houtcome hunusable htimeout hreturned,
      raisesUnusable_iff_of_unusable hinv' houtcome' hunusable htimeout hreturned']

/-! ### Two runs of one history -/

theorem exists_poll (call : Call) (h : s.Open) (timerFired : Bool)
    : ∃ s', s.poll call { timerFired } = some s' ∧ Join call s { timerFired } s' := by
  have hsome : ∃ s', s.poll call { timerFired } = some s' := by
    obtain hphase | ⟨deadline, hphase⟩ := h <;> simp [State.poll, hphase]
  obtain ⟨s', hpoll⟩ := hsome
  refine ⟨s', hpoll, ?_⟩
  obtain ⟨-, ⟨⟨-, -, hpanics⟩, -⟩ | ⟨-, hjoin⟩⟩ := poll_join hpoll
  . contradiction
  . exact hjoin

theorem getElem?_new {p : Value × Interest} (hp : call.ioSet[i]? = some p)
    : (State.new call found).tasks[i]? = some { io := p.1, interest := p.2, phase := .created } := by
  simp [State.new, hp]

theorem run_outside (call : Call) (h : s.Returned) {es : List Event}
    (hes : es.filter Event.isOutside = es)
    : ∃ s', Lts.run (step call) s es = some s' ∧ s'.phase = s.phase ∧ s'.finished = s.finished := by
  induction es generalizing s with
  | nil => exact ⟨s, rfl, rfl, rfl⟩
  | cons e es ih =>
    have hall := List.filter_eq_self.mp hes
    have hstep : ∃ s', step call s e = some s' ∧ s'.phase = s.phase ∧ s'.finished = s.finished := by
      have he := hall e (.head _)
      cases e with
      | pollTask | poll => contradiction
      | turn | elapse | change | fromStd | close | fromSlice | emptyArray | modify =>
        exact ⟨_, rfl, rfl, rfl⟩
    obtain ⟨s₁, hstep, hphase, hfinished⟩ := hstep
    have hreturned : s₁.Returned := by
      rwa [State.Returned, hphase]
    have hrest : es.filter Event.isOutside = es :=
      List.filter_eq_self.mpr fun e he => hall e (.tail _ he)
    obtain ⟨s', hrun, hphase', hfinished'⟩ := ih hreturned hrest
    refine ⟨s', ?_, hphase'.trans hphase, hfinished'.trans hfinished⟩
    rw [Lts.run_cons_of_step hstep, hrun]

def allConditions : Conditions := ⟨⟨true, true⟩, true⟩

theorem meets_allConditions (seen : Ready) (interest : Interest)
    : (seen.union allConditions.ready).meets interest := by
  cases interest <;> simp [Ready.meets, Ready.union, allConditions]

theorem pollTask_of_error {task : Task} {env : TaskEnv} {e : Error} {reactor : Reactor}
    (hopen : s.phase = .created) (htask : s.tasks[i]? = some task) (hphase : task.phase = .created)
    (hnew : RubyIo.newWithInterest s.reactor (call.newEnv task.io env.refused) task.io
      = (.error e, reactor))
    : s.pollTask call i env = some (({ s with reactor } : State).finishTask i task (.error e)) := by
  simp only [State.pollTask, hopen, htask, hphase, hnew]

theorem pollTask_of_ok {task : Task} {env : TaskEnv} {rubyIo : RubyIo} {reactor : Reactor}
    (hopen : s.phase = .created) (htask : s.tasks[i]? = some task) (hphase : task.phase = .created)
    (hnew : RubyIo.newWithInterest s.reactor (call.newEnv task.io env.refused) task.io
      = (.ok rubyIo, reactor))
    : s.pollTask call i env = some (({ s with reactor } : State).pollReady i task rubyIo .none env) := by
  simp only [State.pollTask, hopen, htask, hphase, hnew]

theorem pollReady_socket {task : Task} {backingIo : BackingIo} {fd : RawFd}
    (hfd : backingIo.socketFd = some fd) (s : State) (i : Nat) (io : Value)
    : s.pollReady i task ⟨io, some backingIo⟩ .none {}
        =
      { s with tasks := s.tasks.set i { task with phase := .waiting ⟨io, some backingIo⟩ .none } } := by
  have hnone : backingIo.ready task.interest .none = false := by
    cases backingIo with
    | file => contradiction
    | unixSocket | tcpSocket | udpSocket =>
      rw [BackingIo.ready]
      cases task.interest <;> rfl
  simp [State.pollReady, rubyIoReady, hnone]

theorem exists_run_socket (call : Call) {task : Task} {rubyIo : RubyIo} {backingIo : BackingIo}
    {seen : Ready} {fd : RawFd}
    (hcreated : s.phase = .created) (htask : s.tasks[i]? = some task)
    (hphase : task.phase = .waiting rubyIo seen) (hio : rubyIo.backingIo = some backingIo)
    (hfd : backingIo.socketFd = some fd) (hregistered : s.reactor.fds fd = ⟨true, true⟩)
    : ∃ s' result, Lts.run (step call) s [.change fd allConditions, .turn, .pollTask i {}] = some s' ∧
        s'.phase = .created ∧ s'.finished = s.finished ++ [(i, result)] := by
  have hraw : backingIo.asRawFd = fd := by
    cases backingIo with
    | file => contradiction
    | unixSocket | tcpSocket | udpSocket => exact Option.some.inj hfd
  have hready (interest : Interest)
      : rubyIoReady rubyIo interest (seen.union allConditions.ready) := by
    rw [rubyIoReady, hio, Option.any_some]
    cases backingIo with
    | file => contradiction
    | unixSocket | tcpSocket | udpSocket => exact meets_allConditions seen interest
  let s₁ := { s with conditions := Function.update s.conditions fd allConditions }
  let s₂ := { s₁ with tasks := s₁.tasks.map s₁.turnTask }
  let task' := { task with phase := .waiting rubyIo (seen.union allConditions.ready) }
  have htask' : s₂.tasks[i]? = some task' := by
    rw [List.getElem?_map, htask, Option.map_some, State.turnTask, hphase]
    simp [task', hio, hraw, State.reported, s₁, hregistered]
  have hpoll : step call s₂ (.pollTask i {})
      = some (s₂.finishTask i task' (.ok (rubyIo.value, task.interest))) := by
    have hcreated₂ : s₂.phase = .created := hcreated
    simp only [step, State.pollTask, hcreated₂, htask']
    simp [task', State.pollReady, hready]
  refine ⟨s₂.finishTask i task' (.ok (rubyIo.value, task.interest)), _, ?_, hcreated, rfl⟩
  have hchange : step call s (.change fd allConditions) = some s₁ := rfl
  have hturn : step call s₁ .turn = some s₂ := rfl
  rw [Lts.run_cons_of_step hchange, Lts.run_cons_of_step hturn, Lts.run_cons_of_step hpoll, Lts.run_nil]

theorem exists_run_finished (found : Found) {p : Value × Interest} (hp : call.ioSet[i]? = some p)
    : ∃ es s result, Lts.run (step call) (.new call found) es = some s ∧ s.phase = .created ∧
        s.finished = [(i, result)] ∧ (¬ Usable call p.1 → es.filter Event.isOutside = []) := by
  let task : Task := { io := p.1, interest := p.2, phase := .created }
  have htask : (State.new call found).tasks[i]? = some task := getElem?_new hp
  have hopened := RubyIo.newWithInterest_opened found.reactor (call.newEnv p.1 none) p.1
  generalize hnew : RubyIo.newWithInterest found.reactor (call.newEnv p.1 none) p.1 = opened at hopened
  cases hopened with
  | failed | rejected =>
    have hstep : step call (.new call found) (.pollTask i {}) = _ :=
      pollTask_of_error rfl htask rfl hnew
    exact ⟨[.pollTask i {}], _, _, Lts.run_cons_of_step hstep [], rfl, rfl, fun _ => rfl⟩
  | file =>
    have hstep : step call (.new call found) (.pollTask i {}) = _ :=
      pollTask_of_ok rfl htask rfl hnew
    exact ⟨[.pollTask i {}], _, .ok p, Lts.run_cons_of_step hstep [], rfl, rfl, fun _ => rfl⟩
  | @socket fd reactor backingIo hregisters hstd hio =>
    have hstep : step call (.new call found) (.pollTask i {}) = _ :=
      pollTask_of_ok rfl htask rfl hnew
    let s₁ := { State.new call found with
      reactor
      tasks := (State.new call found).tasks.set i
        { task with phase := .waiting ⟨p.1, some backingIo⟩ .none } }
    have hwaits : step call (.new call found) (.pollTask i {}) = some s₁ :=
      hstep.trans (congrArg some (pollReady_socket hio _ i p.1))
    have hlt : i < (State.new call found).tasks.length := (List.getElem?_eq_some_iff.mp htask).1
    have htask₁ : s₁.tasks[i]? = some { task with phase := .waiting ⟨p.1, some backingIo⟩ .none } := by
      simp [s₁, hlt]
    have hregistered : s₁.reactor.fds fd = ⟨true, true⟩ := by
      have hcases := Reactor.fromStd_cases hstd
      simp only [reduceCtorEq, false_and, and_false, exists_false, true_and, false_or] at hcases
      obtain ⟨-, -, -, hreactor⟩ := hcases
      simp [s₁, hreactor]
    obtain ⟨s', result, hrun, hphase, hfinished⟩ :=
      exists_run_socket call (s := s₁) rfl htask₁ rfl rfl hio hregistered
    refine ⟨_, s', result, (Lts.run_cons_of_step hwaits _).trans hrun, hphase, hfinished, ?_⟩
    exact fun hunusable => absurd hregisters.usable hunusable

theorem exists_run_joins (found : Found) {p : Value × Interest} (hp : call.ioSet[i]? = some p)
    : ∃ es s, Lts.run (step call) (.new call found) es = some s ∧ s.Returned ∧
        (RaisesUnusable call s ↔ ¬ Usable call p.1) ∧
        (¬ Usable call p.1 → es.filter Event.isOutside = []) := by
  obtain ⟨es, s, result, hrun, hphase, hfinished, houtside⟩ := exists_run_finished found hp
  obtain ⟨hinv, -, -⟩ := invariants hrun
  obtain ⟨s', hpoll, hjoin⟩ := exists_poll call (.inl hphase) false
  have hstep : step call s (.poll {}) = some s' := hpoll
  have hrun' : Lts.run (step call) (.new call found) (es ++ [.poll {}]) = some s' :=
    Lts.run_append_singleton hrun hstep
  have houtside' (hunusable : ¬ Usable call p.1)
      : (es ++ [Event.poll {}]).filter Event.isOutside = [] := by
    rw [List.filter_append, houtside hunusable]
    rfl
  refine ⟨es ++ [.poll {}], s', hrun', ?_⟩
  cases hjoin with
  | joins j io interest rest hjoined =>
    rw [hfinished] at hjoined
    cases hjoined
    obtain ⟨task, htask, hok⟩ := hinv.finished i (.ok (io, interest)) (hfinished ▸ .head _)
    obtain ⟨hentry, husable⟩ := hok _ rfl
    have hp' : call.ioSet[i]? = some (io, interest) := by
      rw [← hinv.tasks, List.getElem?_map, htask, Option.map_some, hentry]
    obtain rfl := Option.some.inj (hp.symm.trans hp')
    refine ⟨⟨_, rfl⟩, iff_of_false ?_ (absurd husable), houtside'⟩
    rintro ⟨⟨e, herror⟩, -⟩
    simp [arrays] at herror
  | raises j e e' rest hjoined =>
    rw [hfinished] at hjoined
    cases hjoined
    refine ⟨⟨_, rfl⟩, ?_, houtside'⟩
    constructor
    . rintro ⟨-, j, e, rest, p', hjoined, hp', hunusable⟩
      rw [State.finish, hfinished] at hjoined
      cases hjoined
      obtain rfl := Option.some.inj (hp.symm.trans hp')
      exact hunusable
    . exact fun hunusable => ⟨⟨e', rfl⟩, i, e, [], p, hfinished, hp, hunusable⟩
  | empty hnone | timedOut hnone | waits hnone =>
    rw [hfinished] at hnone
    contradiction

theorem exists_run_timedOut (found : Found) {timeout : Duration} (htimeout : call.timeout = some timeout)
    : ∃ es s, Lts.run (step call) (.new call found) es = some s ∧ s.Returned ∧ s.finished = [] := by
  obtain ⟨s, hpoll, hjoin⟩ := exists_poll call (s := .new call found) (.inl rfl) false
  have hstep : step call (.new call found) (.poll {}) = some s := hpoll
  cases hjoin with
  | joins i io interest rest hjoined => contradiction
  | raises i e e' rest hjoined => contradiction
  | empty | timedOut => exact ⟨[.poll {}], _, Lts.run_cons_of_step hstep [], ⟨_, rfl⟩, rfl⟩
  | waits _ htasks =>
    have hdeadline : State.deadline (.new call found) call = some (found.now + timeout) := by
      simp [State.deadline, State.new, deadlineAt, htimeout]
    rw [hdeadline] at hstep
    let s₁ : State :=
      { State.new call found with
        now := found.now + timeout
        phase := .waiting (some (found.now + timeout))
      }
    obtain ⟨s₂, hpoll₂, hjoin⟩ := exists_poll call (s := s₁) (.inr ⟨_, rfl⟩) true
    have hstep₂ : step call s₁ (.poll { timerFired := true }) = some s₂ := hpoll₂
    let s₀ : State := { State.new call found with phase := .waiting (some (found.now + timeout)) }
    have helapse : step call s₀ (.elapse timeout) = some s₁ := rfl
    have hrun : Lts.run (step call) (.new call found)
        [.poll {}, .elapse timeout, .poll { timerFired := true }] = some s₂ := by
      rw [Lts.run_cons_of_step hstep, Lts.run_cons_of_step helapse, Lts.run_cons_of_step hstep₂,
        Lts.run_nil]
    refine ⟨_, s₂, hrun, ?_⟩
    cases hjoin with
    | joins i io interest rest hjoined => contradiction
    | raises i e e' rest hjoined => contradiction
    | empty | timedOut => exact ⟨⟨_, rfl⟩, rfl⟩
    | waits _ _ hlate => exact absurd (by simp [State.deadline, s₁, timerOver]) hlate

theorem allOrNone_of_verdictFixed (h : VerdictFixed call found) : AllOrNone call := by
  by_contra hneither
  simp only [AllOrNone, not_or, not_and] at hneither
  obtain ⟨hnotAll, hnotNone⟩ := hneither
  push Not at hnotAll
  obtain ⟨p, hp, hunusable⟩ := hnotAll
  obtain ⟨i, hi⟩ := List.mem_iff_getElem?.mp hp
  obtain ⟨es, s, hrun, hreturned, hraises, hinside⟩ := exists_run_joins found hi
  -- The other run ends without the error, and what happens outside of it can happen after this one.
  have hother : ∃ es' s', Lts.run (step call) (.new call found) es' = some s' ∧ s'.Returned ∧
      ¬ RaisesUnusable call s' := by
    by_cases hnone : ∀ p ∈ call.ioSet, ¬ Usable call p.1
    . obtain ⟨timeout, htimeout⟩ := Option.ne_none_iff_exists'.mp (hnotNone hnone)
      obtain ⟨es', s', hrun', hreturned', hfinished'⟩ := exists_run_timedOut found htimeout
      refine ⟨es', s', hrun', hreturned', ?_⟩
      rintro ⟨-, i, e, rest, p, hfinished, -⟩
      rw [hfinished'] at hfinished
      contradiction
    . push Not at hnone
      obtain ⟨p', hp', husable⟩ := hnone
      obtain ⟨j, hj⟩ := List.mem_iff_getElem?.mp hp'
      obtain ⟨es', s', hrun', hreturned', hraises', -⟩ := exists_run_joins found hj
      exact ⟨es', s', hrun', hreturned', fun hr => hraises'.mp hr husable⟩
  obtain ⟨es', s', hrun', hreturned', hnot⟩ := hother
  have houtside : (es'.filter Event.isOutside).filter Event.isOutside = es'.filter Event.isOutside := by
    simp
  obtain ⟨s₁, hrun₁, hphase₁, hfinished₁⟩ := run_outside call hreturned houtside
  have hsame := h (es ++ es'.filter Event.isOutside) es' s₁ s' ?_ hrun' ?_ ?_ hreturned'
  . apply hnot
    rw [← hsame]
    have hraised := hraises.mpr hunusable
    unfold RaisesUnusable at hraised ⊢
    rwa [hphase₁, hfinished₁]
  . rw [Lts.run_append_of_run hrun, hrun₁]
  . rw [List.filter_append, hinside hunusable, houtside, List.nil_append]
  . rwa [State.Returned, hphase₁]

/--
`io_select` returns `nil` for the right reason in every step of a run, if and only if every poll of a
call without IOs comes after its timeout, and no poll of another call that finds its timer fired passes
over an IO that is ready and whose task has not finished. Whether it raises because of an unusable object is
independent of the order of its tasks, if and only if all of its objects are usable, or none of them is
and the call has no timeout.
-/
theorem nil_and_errors_iff (call : Call) (found : Found)
    : (∀ es, Lts.Along (step call)
            (fun s e => ∀ s', step call s e = some s' → NilOnTimeout call found s e s')
            (.new call found) es ↔
          Lts.Along (step call) (NothingMissed call found) (.new call found) es) ∧
        (VerdictFixed call found ↔ AllOrNone call) := by
  constructor
  . intro es
    apply Lts.along_congr (J := fun s => Inv call s ∧ Timed call found s)
    . exact fun s e s' ⟨hinv, htimed⟩ hstep => ⟨hinv.step hstep, htimed.step hinv hstep⟩
    . intro s e s' ⟨hinv, htimed⟩ hstep
      rw [Lts.forall_step_iff hstep, nilOnTimeout_iff hinv htimed hstep]
    . exact ⟨.new call found, .new call found⟩
  . exact ⟨allOrNone_of_verdictFixed, verdictFixed_of_allOrNone⟩

def sleepCall : Call where
  readables := none
  writables := none
  exceptables := none
  timeout := some 5000000000
  tryConvert := .ok
  fileno _ := .ok 0
  inspect _ := ""
  display _ := ""

theorem nil_before_timeout
    : ¬ ∀ (call : Call) (found : Found),
        (∀ es, Lts.Along (step call)
            (fun s e => ∀ s', step call s e = some s' → NilOnTimeout call found s e s')
            (.new call found) es) ∧
          VerdictFixed call found := by
  intro hall
  have hnil := (hall sleepCall (openFound fun _ => true)).1 [.poll {}]
  obtain ⟨⟨timeout, htimeout, helapsed⟩, -⟩ := (hnil _ rfl).1 _ rfl {} rfl rfl
  obtain rfl := Option.some.inj htimeout
  exact absurd helapsed (by decide)

end IoSelectTasks
end Shreduler
