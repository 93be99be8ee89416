import Mathlib.Data.List.Infix
import Shreduler.TokioScheduler.Lemmas.Device
import Shreduler.TokioScheduler.Lemmas.Pipe

/-!
This module proves what the fibers of a scheduler are told of the bytes that others of its fibers write to a
pipe.
-/

namespace Shreduler

open IoRead (Byte Backing Io)

/-! ### What has returned -/

theorem IoWrite.phase_of_step {backing : Backing} {s s' : IoWrite.State} {e : IoWrite.Event}
    (hstep : IoWrite.step backing s e = some s') {result : Result Int} {stage : List Byte}
    (hphase : s.phase = .returned result stage) : s'.phase = .returned result stage := by
  cases e with
  | poll env => simp [IoWrite.step, IoWrite.State.poll, hphase] at hstep
  | work write =>
    cases IoWrite.work_outcome hstep with
    | works => exact hphase

namespace Pipe

variable {writing : Backing} {reading : Io} {s s' : State}

inductive Args where
  | ioWrite (buffer : List Byte) (minimumLengthToBeWritten : Nat) (timeout : Duration)
  | ioRead (buffer : List Byte) (minimumLengthToRead : Nat) (timeout : Duration) (env : NewEnv)

def Args.hook : Args → Hook
  | .ioWrite .. => .ioWrite
  | .ioRead .. => .ioRead

def Args.begins : Args → Event
  | .ioWrite buffer minimumLengthToBeWritten timeout => .ioWrite buffer minimumLengthToBeWritten timeout
  | .ioRead buffer minimumLengthToRead timeout env =>
    .read (.ioRead buffer minimumLengthToRead timeout env)

/-- A call of `io_read` is one only if `RubyIo::new_with_interest` returns `Ok`. -/
def begin (writing : Backing) (reading : Io) (s : State) (e : Event) : Option State :=
  match e with
  | .read (.ioRead _ _ _ env) =>
    if (s.reader.newWithInterest reading env).1.isOk then step writing reading s e else none
  | _ => step writing reading s e

inductive Name where
  | ioWrite (i : Nat)
  | ioRead (i : Nat)
  deriving DecidableEq

def State.name (s : State) : Args → Name
  | .ioWrite .. => .ioWrite s.writes.length
  | .ioRead .. => .ioRead s.reader.calls.length

def Name.polls : Name → Event → Bool
  | .ioWrite i, .write j (.poll _) => i = j
  | .ioRead i, .read (.poll j _) => i = j
  | _, _ => false

def Event.happens : Event → Bool
  | .write _ (.work _) | .read (.work ..) | .read (.orphan ..) | .read (.drop _)
  | .read (.newWithInterest _) => true
  | _ => false

def intoValue (result : Result Int) : Result Value := result.map Value.integer

def State.output (s : State) : Name → Option (Result Value)
  | .ioWrite i =>
    match s.writes[i]? with
    | some { phase := .returned result _, .. } => some (intoValue result)
    | _ => none
  | .ioRead i =>
    match s.reader.calls[i]? with
    | some { phase := .returned result, .. } => some (intoValue result)
    | _ => none

theorem step_of_begin {e : Event} (h : begin writing reading s e = some s')
    : step writing reading s e = some s' := by
  unfold begin at h
  split at h
  . split at h
    . exact h
    . contradiction
  . exact h

theorem run_of_begin {es : List Event} (h : Lts.run (begin writing reading) s es = some s')
    : Lts.run (step writing reading) s es = some s' := by
  induction es generalizing s with
  | nil => exact h
  | cons e es ih =>
    obtain ⟨s₁, hbegin, hrun⟩ := Lts.run_cons_eq_some.mp h
    exact Lts.run_cons_eq_some.mpr ⟨s₁, step_of_begin hbegin, ih hrun⟩

theorem output_ioWrite {i : Nat} {result : Result Value}
    : s.output (.ioWrite i) = some result ↔
        ∃ w result' stage, s.writes[i]? = some w ∧ w.phase = .returned result' stage ∧
          intoValue result' = result := by
  constructor
  . intro h
    simp only [State.output] at h
    split at h
    . next buffer minimumLengthToBeWritten timeout result' stage file received hw =>
      exact ⟨_, result', stage, hw, rfl, Option.some.inj h⟩
    . contradiction
  . rintro ⟨w, result', stage, hw, hphase, rfl⟩
    obtain ⟨buffer, minimumLengthToBeWritten, timeout, phase, file, received⟩ := w
    simp only at hphase
    subst hphase
    simp only [State.output, hw]

theorem output_ioRead {i : Nat} {result : Result Value}
    : s.output (.ioRead i) = some result ↔
        ∃ call result', s.reader.calls[i]? = some call ∧ call.phase = .returned result' ∧
          intoValue result' = result := by
  constructor
  . intro h
    simp only [State.output] at h
    split at h
    . next buffer minimumLengthToRead timeout result' hcall =>
      exact ⟨_, result', hcall, rfl, Option.some.inj h⟩
    . contradiction
  . rintro ⟨call, result', hcall, hphase, rfl⟩
    obtain ⟨buffer, minimumLengthToRead, timeout, phase⟩ := call
    simp only at hphase
    subst hphase
    simp only [State.output, hcall]

theorem calls_feed (reader : IoRead.State) (bytes : List Byte)
    : (feed reading reader bytes).calls = reader.calls := by
  unfold feed
  split <;> rfl

theorem output_of_step {e : Event} (hstep : step writing reading s e = some s') {name : Name}
    {result : Result Value} (houtput : s.output name = some result) : s'.output name = some result := by
  cases name with
  | ioWrite i =>
    obtain ⟨w, result', stage, hw, hphase, rfl⟩ := output_ioWrite.mp houtput
    apply output_ioWrite.mpr
    cases e with
    | ioWrite =>
      obtain rfl := Option.some.inj hstep
      refine ⟨w, result', stage, ?_, hphase, rfl⟩
      rw [List.getElem?_append_left (List.getElem?_eq_some_iff.mp hw).1, hw]
    | write j e =>
      obtain ⟨v, v', taken, hv, hwrite, -, rfl⟩ := step_write hstep
      by_cases hij : j = i
      . subst hij
        obtain rfl := Option.some.inj (hw.symm.trans hv)
        have hlt := (List.getElem?_eq_some_iff.mp hv).1
        refine ⟨v', result', stage, ?_, IoWrite.phase_of_step hwrite hphase, rfl⟩
        rw [List.getElem?_set_self hlt]
      . refine ⟨w, result', stage, ?_, hphase, rfl⟩
        rw [List.getElem?_set_ne hij, hw]
    | read e =>
      obtain ⟨reader, -, rfl⟩ := step_read hstep
      exact ⟨w, result', stage, hw, hphase, rfl⟩
  | ioRead i =>
    obtain ⟨call, result', hcall, hphase, rfl⟩ := output_ioRead.mp houtput
    apply output_ioRead.mpr
    refine ⟨call, result', ?_, hphase, rfl⟩
    cases e with
    | ioWrite =>
      obtain rfl := Option.some.inj hstep
      exact hcall
    | write j e =>
      obtain ⟨v, v', taken, -, -, -, rfl⟩ := step_write hstep
      rw [calls_feed, hcall]
    | read e =>
      obtain ⟨reader, hread, rfl⟩ := step_read hstep
      exact IoRead.ended_of_step hread hcall (by simp [IoRead.Call.Live, hphase])

def device (writing : Backing) (reading : Io) : Device where
  State := State
  Event := Event
  step := begin writing reading
  Args := Args
  Name := Name
  hook := Args.hook
  begins := Args.begins
  name := State.name
  polls := Name.polls
  happens := Event.happens
  output := State.output
  hook_future args now := by cases args <;> rfl
  output_of_step _ _ _ _ _ hstep houtput := output_of_step (step_of_begin hstep) houtput

open Device (Attached)
open Device.Attached (Call calls called deviceEvents schedulerEvents)

/-! ### The calls at the two ends -/

def Event.isBegin : Event → Bool
  | .ioWrite .. | .read (.ioRead ..) => true
  | _ => false

structure Manned (made : List (Call (device writing reading))) (s : State) : Prop where
  writes : ∀ i < s.writes.length, ∃ c ∈ made, c.name = .ioWrite i
  reads : ∀ i < s.reader.calls.length, ∃ c ∈ made, c.name = .ioRead i

namespace Manned

variable {made made' : List (Call (device writing reading))}

theorem of_length (h : Manned made s) (hwrites : s'.writes.length = s.writes.length)
    (hreads : s'.reader.calls.length = s.reader.calls.length) : Manned made s' where
  writes i hi := h.writes i (hwrites ▸ hi)
  reads i hi := h.reads i (hreads ▸ hi)

theorem step (h : Manned made s) {e : Event} (hbegin : e.isBegin = false)
    (hstep : Pipe.step writing reading s e = some s') : Manned made s' := by
  cases e with
  | ioWrite => contradiction
  | write i e =>
    obtain ⟨w, w', taken, -, -, -, rfl⟩ := step_write hstep
    exact h.of_length (List.length_set ..) (congrArg List.length (calls_feed _ _))
  | read e =>
    obtain ⟨reader, hread, rfl⟩ := step_read hstep
    refine h.of_length rfl ?_
    apply IoRead.length_calls_of_step hread
    rintro buffer minimumLengthToRead timeout env rfl
    contradiction

theorem run (h : Manned made s) {es : List Event} (hbegin : ∀ e ∈ es, e.isBegin = false)
    (hrun : Lts.run (Pipe.begin writing reading) s es = some s') : Manned made s' := by
  induction es generalizing s with
  | nil =>
    obtain rfl := Option.some.inj hrun
    exact h
  | cons e es ih =>
    obtain ⟨s₁, hstep, hrun⟩ := Lts.run_cons_eq_some.mp hrun
    rw [List.forall_mem_cons] at hbegin
    exact ih (h.step hbegin.1 (step_of_begin hstep)) hbegin.2 hrun

theorem mono (h : Manned made s) (hsub : made ⊆ made') : Manned made' s where
  writes i hi := by
    obtain ⟨c, hc, hname⟩ := h.writes i hi
    exact ⟨c, hsub hc, hname⟩
  reads i hi := by
    obtain ⟨c, hc, hname⟩ := h.reads i hi
    exact ⟨c, hsub hc, hname⟩

theorem begins (h : Manned made s) {args : Args}
    (hname : ∃ c ∈ made, c.name = s.name args)
    (hstep : Pipe.step writing reading s args.begins = some s') : Manned made s' := by
  cases args with
  | ioWrite buffer minimumLengthToBeWritten timeout =>
    obtain rfl := Option.some.inj hstep
    refine ⟨?_, h.reads⟩
    intro i hi
    simp only [List.length_append, List.length_singleton] at hi
    by_cases hlast : i = s.writes.length
    . exact hlast ▸ hname
    . exact h.writes i (by omega)
  | ioRead buffer minimumLengthToRead timeout env =>
    obtain ⟨reader, hread, rfl⟩ := step_read hstep
    refine ⟨h.writes, ?_⟩
    intro i hi
    dsimp only at hi
    have hle := IoRead.length_calls_le_of_step hread
    by_cases hlast : i = s.reader.calls.length
    . exact hlast ▸ hname
    . exact h.reads i (by omega)

end Manned

theorem Name.not_isBegin {name : Name} {e : Event} (h : name.polls e) : e.isBegin = false := by
  cases name <;> cases e <;> simp_all [Name.polls, Event.isBegin]
  all_goals split at h <;> simp_all

theorem Event.not_isBegin {e : Event} (h : e.happens) : e.isBegin = false := by
  unfold Event.happens at h
  split at h
  . rfl
  . rfl
  . rfl
  . rfl
  . rfl
  . contradiction

def fibers (writing : Backing) (reading : Io) : Attached (device writing reading) := .new State.new

variable {es : List (Attached.Event (device writing reading))} {fs : Attached (device writing reading)}

theorem manned_of_run (hrun : Lts.run Attached.step (fibers writing reading) es = some fs)
    : Manned (calls State.new es) fs.device := by
  have hnew : Manned (calls State.new ([] : List (Attached.Event (device writing reading)))) State.new :=
    ⟨fun i hi => absurd hi (Nat.not_lt_zero i), fun i hi => absurd hi (Nat.not_lt_zero i)⟩
  apply Lts.run_induction (Q := fun es fs => Manned (calls State.new es) fs.device) hnew ?_ hrun
  intro es e s₁ s₂ hrun h hstep
  have hcalls : calls State.new (es ++ [e]) = calls State.new es ++ called s₁ e s₂ :=
    Lts.trace_append_singleton hrun hstep
  have hmono : Manned (calls State.new (es ++ [e])) s₁.device := by
    apply h.mono
    rw [hcalls]
    apply List.subset_append_left
  cases Attached.step_outcome hstep with
  | refused | scheduler => exact hmono
  | call hhook hspawns hbegins =>
    obtain ⟨f, -, hcalled⟩ := (Attached.routed_of_run hrun).called_eq hstep hspawns
    apply hmono.begins ?_ (step_of_begin hbegins)
    rw [hcalls, hcalled]
    refine ⟨_, List.mem_append_right _ (List.mem_singleton_self _), rfl⟩
  | poll _ _ hpolls hrun =>
    refine hmono.run ?_ hrun
    intro e he
    exact Name.not_isBegin (List.all_eq_true.mp hpolls e he)
  | happen hhappens hdevice => exact hmono.step (Event.not_isBegin hhappens) (step_of_begin hdevice)

theorem carried_of_run (hrun : Lts.run Attached.step (fibers writing reading) es = some fs)
    (hturn : Lts.Along (step writing reading) InTurn .new (deviceEvents State.new es))
    (hkeeps : Lts.Along (step writing reading) (KeepsAll reading) .new (deviceEvents State.new es))
    : Carried writing reading fs.device := by
  apply Lts.Along.invariant ?_ (.new writing reading) (hturn.and hkeeps)
    (run_of_begin (Attached.run_deviceEvents hrun))
  intro s e s' h hC hstep
  exact h.step hC.1 hC.2 hstep

/--
A pipe between the fibers of a scheduler, whatever else they do: if buffers are written one after the other
and no byte is lost at the reading end, then the calls report what was written, cut into the pieces that were
read for them. What the task of a call hands over goes to the fiber that made the call, and is what the call
came to.
-/
theorem pipe_between_fibers (hrun : Lts.run Attached.step (fibers writing reading) es = some fs)
    (hturn : Lts.Along (step writing reading) InTurn .new (deviceEvents State.new es))
    (hkeeps : Lts.Along (step writing reading) (KeepsAll reading) .new (deviceEvents State.new es))
    : Carries fs.device ∧
        ∀ c ∈ calls State.new es, ∀ ret ∈ fs.scheduler.returns, ret.payload.origin = .task c.task →
          ret.fiber = c.fiber ∧ State.output fs.device c.name = some ret.payload.result := by
  constructor
  . exact (carried_of_run hrun hturn hkeeps).carries
  . intro c hc ret hret horigin
    exact Attached.answer_of_returns hrun hc hret horigin

/--
If nothing gets lost on the way, `run` returns `Ok` after every call on the pipe has been answered, each in
the fiber that made it. If buffers were written one after the other, all of them with a positive count, and no
byte was lost at the reading end, then the calls report all that was written once the pipe is empty.
-/
theorem pipe_settles (hrun : Lts.run Attached.step (fibers writing reading) es = some fs)
    (hkeeps : Lts.Along Shreduler.State.step Shreduler.State.LosesNothing .new
      (schedulerEvents State.new es))
    {scheduler : Shreduler.State} (hstep : fs.scheduler.step .joinNone = some scheduler)
    : (∀ c ∈ calls State.new es, ∃ result, State.output fs.device c.name = some result ∧
        Promise.Collected c.fiber result
          (Lts.project c.task (Shreduler.State.letters (schedulerEvents State.new es)))) ∧
      (∀ i < fs.device.writes.length, ∃ result, State.output fs.device (.ioWrite i) = some result) ∧
      (∀ i < fs.device.reader.calls.length,
        ∃ result, State.output fs.device (.ioRead i) = some result) ∧
      (Lts.Along (step writing reading) InTurn .new (deviceEvents State.new es) →
        Lts.Along (step writing reading) (KeepsAll reading) .new (deviceEvents State.new es) →
          (∀ w ∈ fs.device.writes, IoWrite.Reported w) → fs.device.reader.unread = [] →
            fs.device.reader.answered = fs.device.writes.flatMap (·.buffer)) := by
  have hmanned := manned_of_run hrun
  have hempty : fs.scheduler.tasks = [] := by
    simp only [Shreduler.State.step, Shreduler.State.joinNone, Option.ite_none_right_eq_some] at hstep
    exact hstep.2.1
  have hanswered (c : Call (device writing reading)) (hc : c ∈ calls State.new es) :=
    Attached.answer_of_settled hrun hkeeps hempty hc
  have hread : ∀ i < fs.device.reader.calls.length,
      ∃ result, State.output fs.device (.ioRead i) = some result := by
    intro i hi
    obtain ⟨c, hc, hname⟩ := hmanned.reads i hi
    obtain ⟨result, houtput, -⟩ := hanswered c hc
    rw [hname] at houtput
    exact ⟨result, houtput⟩
  refine ⟨hanswered, ?_, hread, ?_⟩
  . intro i hi
    obtain ⟨c, hc, hname⟩ := hmanned.writes i hi
    obtain ⟨result, houtput, -⟩ := hanswered c hc
    rw [hname] at houtput
    exact ⟨result, houtput⟩
  . intro hturn hkeepsAll hall hunread
    refine (carried_of_run hrun hturn hkeepsAll).carries.answered hall ?_ hunread
    -- every read has an answer, so its future is gone
    intro call hcall
    obtain ⟨i, hi, rfl⟩ := List.getElem_of_mem hcall
    obtain ⟨result, houtput⟩ := hread i hi
    obtain ⟨call, result', hcall, hphase, -⟩ := output_ioRead.mp houtput
    obtain rfl := Option.some.inj ((List.getElem?_eq_getElem hi).symm.trans hcall)
    simp [IoRead.Call.Live, hphase]

def handOver : List (Attached.Event (device .file pipe)) := [
  .scheduler .fiber,
  .call (.ioRead [0] 0 0 pipeEnv),
  .scheduler .switch,
  .scheduler .fiber,
  .call (.ioRead [0] 0 0 pipeEnv),
  .scheduler .switch,
  .scheduler .fiber,
  .call (.ioWrite [114, 98] 0 0),
  .scheduler .switch,
  .scheduler .run,
  .poll 0 [.read (.poll 0 {})],
  .poll 1 [.read (.poll 1 {})],
  .poll 2 [.write 0 (.poll {})],
  .happen (.write 0 (.work (.data 1))),
  .happen (.read (.work 1 (.data 1))),
  .happen (.write 0 (.work (.data 1))),
  .happen (.read (.work 0 (.data 1))),
  .poll 2 [.write 0 (.poll {})],
  .poll 0 [.read (.poll 0 {})],
  .poll 1 [.read (.poll 1 {})],
  .scheduler (.join 2),
  .scheduler .switch,
  .scheduler (.finish (.ok .nil)),
  .scheduler .switch,
  .scheduler (.join 0),
  .scheduler .switch,
  .scheduler (.finish (.ok .nil)),
  .scheduler .switch,
  .scheduler (.join 1),
  .scheduler .switch,
  .scheduler (.finish (.ok .nil)),
  .scheduler .switch
]

set_option maxRecDepth 1000 in
theorem deviceEvents_handOver : deviceEvents State.new handOver = twoReaders := rfl

theorem pipe_between_fibers_handOver
    : ∃ fs, Lts.run Attached.step (fibers .file pipe) handOver = some fs ∧
        fs.scheduler.returns.length = 3 ∧ Carries fs.device ∧
        ∀ c ∈ calls State.new handOver, ∀ ret ∈ fs.scheduler.returns,
          ret.payload.origin = .task c.task →
            ret.fiber = c.fiber ∧ State.output fs.device c.name = some ret.payload.result := by
  refine ⟨_, rfl, rfl, pipe_between_fibers rfl ?_ ?_⟩
  all_goals rw [deviceEvents_handOver]; decide

theorem pipe_settles_handOver
    : ∃ fs, Lts.run Attached.step (fibers .file pipe) handOver = some fs ∧
        fs.device.reader.answered = [114, 98] ∧
        ∀ c ∈ calls State.new handOver, ∃ result, State.output fs.device c.name = some result ∧
          Promise.Collected c.fiber result
            (Lts.project c.task (Shreduler.State.letters (schedulerEvents State.new handOver))) := by
  have hsettles := @pipe_settles .file pipe handOver _ rfl (by decide) _ rfl
  have hturn : Lts.Along (step .file pipe) InTurn .new (deviceEvents State.new handOver) := by
    rw [deviceEvents_handOver]
    decide
  have hkeeps : Lts.Along (step .file pipe) (KeepsAll pipe) .new (deviceEvents State.new handOver) := by
    rw [deviceEvents_handOver]
    decide
  exact ⟨_, rfl, hsettles.2.2.2 hturn hkeeps (by decide) rfl, hsettles.1⟩

end Pipe
end Shreduler
