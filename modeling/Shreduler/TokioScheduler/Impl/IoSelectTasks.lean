import Shreduler.TokioScheduler.Impl.Readiness

/-!
This module contains the transition system of a single call of `io_select`: the tasks of its
`RubyIoSet`, the reactor that they register with, and the future that joins them.
-/

namespace Shreduler
namespace IoSelectTasks

open IoSelect (Interest RubyIoSet JoinNext JoinEnv Objects ArrayId)

structure Conditions where
  ready : Ready
  exceptional : Bool
  deriving DecidableEq, Repr

/-- The arguments of a call, and what Ruby answers about their values. -/
structure Call where
  readables : Option (List Value)
  writables : Option (List Value)
  exceptables : Option (List Value)
  timeout : Option Duration
  -- `IO.try_convert(value)`.
  tryConvert : Value → Result Value
  -- `value.fileno`.
  fileno : Value → Result RawFd
  -- `Debug for magnus::Value`.
  inspect : Value → String
  -- `Display for magnus::Error`.
  display : Error → String

namespace Call

def ioSet (call : Call) : RubyIoSet :=
  let ioSet : RubyIoSet := []
  let ioSet := call.readables.elim ioSet fun array => ioSet.pushAll array .readable
  let ioSet := call.writables.elim ioSet fun array => ioSet.pushAll array .writable
  call.exceptables.elim ioSet fun array => ioSet.pushAll array .readableWritable

def newEnv (call : Call) (value : Value) (refused : Option Errno) : NewEnv where
  tryConvert := call.tryConvert value
  fileno := call.fileno value
  refused := refused
  inspect := call.inspect value

end Call

inductive TaskPhase where
  | created
  -- The events that the reactor has seen since it registered the descriptor.
  | waiting (rubyIo : RubyIo) (seen : Ready)
  | finished
  deriving DecidableEq

structure Task where
  io : Value
  interest : Interest
  phase : TaskPhase
  deriving DecidableEq

structure TaskEnv where
  refused : Option Errno := none
  -- The error of `RubyIo::ready`.
  readyError : Option Error := none

inductive Selected where
  | nil
  | arrays (slots : List ArrayId)
  deriving DecidableEq

inductive Phase where
  | created
  | waiting (deadline : Option Instant)
  | returned (result : Result Selected)
  | panicked
  deriving DecidableEq

/-- What a call finds when it is made. -/
structure Found where
  now : Instant
  reactor : Reactor
  conditions : RawFd → Conditions
  objects : Objects
  memo_lt : ∀ m, objects.memo = some m → m < objects.heap.size

structure State where
  now : Instant
  reactor : Reactor
  conditions : RawFd → Conditions
  objects : Objects
  tasks : List Task
  -- What the finished tasks gave, the first of them first.
  finished : List (Nat × Result (Value × Interest))
  phase : Phase

def State.new (call : Call) (found : Found) : State where
  now := found.now
  reactor := found.reactor
  conditions := found.conditions
  objects := found.objects
  tasks := call.ioSet.map fun (io, interest) => { io, interest, phase := .created }
  finished := []
  phase := .created

inductive Event where
  -- The executor polls the `i`th task, or the future.
  | pollTask (i : Nat) (env : TaskEnv)
  | poll (env : JoinEnv)
  -- A descriptor becomes ready for some events, or ceases to be. The reactor looks at them all.
  | change (fd : RawFd) (conditions : Conditions)
  | turn
  | elapse (duration : Duration)
  -- Other hooks register and close descriptors.
  | fromStd (fd : RawFd) (refused : Option Errno)
  | close (fd : RawFd)
  -- Other calls make arrays, and the program changes those that it has received.
  | fromSlice (values : List Value)
  | emptyArray
  | modify (array : ArrayId) (values : List Value)

def Event.isOutside : Event → Bool
  | .pollTask .. | .poll _ => false
  | _ => true

/-- `RubyIo::ready` is over. The `BackingIo` is there until the `RubyIo` is dropped. -/
def rubyIoReady (rubyIo : RubyIo) (interest : Interest) (seen : Ready) : Bool :=
  rubyIo.backingIo.any fun backingIo => backingIo.ready interest seen

namespace State

def finishTask (s : State) (i : Nat) (task : Task) (result : Result (Value × Interest)) : State :=
  { s with
    tasks := s.tasks.set i { task with phase := .finished }
    finished := s.finished ++ [(i, result)]
  }

def pollReady (s : State) (i : Nat) (task : Task) (rubyIo : RubyIo) (seen : Ready) (env : TaskEnv)
    : State :=
  match env.readyError with
  | some e => s.finishTask i task (.error e)
  | none =>
    if rubyIoReady rubyIo task.interest seen then
      s.finishTask i task (.ok (rubyIo.value, task.interest))
    else
      { s with tasks := s.tasks.set i { task with phase := .waiting rubyIo seen } }

/-- The future of `push_all`, unless `abort_all` or the drop of the set has canceled it. -/
def pollTask (call : Call) (s : State) (i : Nat) (env : TaskEnv) : Option State :=
  match s.phase with
  | .returned _ | .panicked => none
  | .created | .waiting _ =>
    match s.tasks[i]? with
    | none => none
    | some task =>
      match task.phase with
      | .created =>
        match RubyIo.newWithInterest s.reactor (call.newEnv task.io env.refused) task.io with
        | (.error e, reactor) => some ({ s with reactor }.finishTask i task (.error e))
        | (.ok rubyIo, reactor) => some ({ s with reactor }.pollReady i task rubyIo .none env)
      | .waiting rubyIo seen => some (s.pollReady i task rubyIo seen env)
      | .finished => none

/-- `join_next` of the set: the task that finished first. -/
def joinNext (call : Call) (s : State) : JoinNext :=
  match s.finished with
  | (_, .ok (rubyIo, interest)) :: _ => .ready rubyIo interest
  | (_, .error e) :: _ => .failed (call.display e)
  | [] => if s.tasks = [] then .none else .pending

def finish (s : State) (result : Result Selected) : State := { s with phase := .returned result }

def pollJoin (call : Call) (s : State) (deadline : Option Instant) (env : JoinEnv) : State :=
  match s.joinNext call with
  | .pending =>
    if deadline.any (timerOver env.timerFired s.now) then
      s.finish (.ok .nil)
    else
      { s with phase := .waiting deadline }
  | .none => s.finish (.ok .nil)
  | .joinError e => s.finish (.error (newBaseError s!"Error joining futures: {e}"))
  | .failed e => s.finish (.error (newBaseError s!"Error waiting for IO to be ready: {e}"))
  | .ready rubyIo interest =>
    let (output, objects) := s.objects.selected rubyIo interest
    { s with objects }.finish (.ok (.arrays output.slots))

def poll (call : Call) (s : State) (env : JoinEnv) : Option State :=
  match s.phase with
  | .created =>
    if call.timeout.isSome ∧ env.withTimeoutPanics then
      some { s with phase := .panicked }
    else
      some (s.pollJoin call (deadlineAt s.now call.timeout none) env)
  | .waiting deadline => some (s.pollJoin call deadline env)
  | .returned _ | .panicked => none

def reported (s : State) (fd : RawFd) : Ready :=
  if (s.reactor.fds fd).isOpen ∧ (s.reactor.fds fd).registered then
    (s.conditions fd).ready
  else
    .none

def turnTask (s : State) (task : Task) : Task :=
  match task.phase with
  | .waiting rubyIo seen =>
    let events := rubyIo.backingIo.elim .none fun backingIo => s.reported backingIo.asRawFd
    { task with phase := .waiting rubyIo (seen.union events) }
  | .created | .finished => task

end State

def step (call : Call) (s : State) : Event → Option State
  | .pollTask i env => s.pollTask call i env
  | .poll env => s.poll call env
  | .change fd conditions =>
    some { s with conditions := Function.update s.conditions fd conditions }
  | .turn => some { s with tasks := s.tasks.map s.turnTask }
  | .elapse duration => some { s with now := s.now + duration }
  | .fromStd fd refused => some { s with reactor := (s.reactor.fromStd fd refused).2 }
  | .close fd => some { s with reactor := s.reactor.close fd }
  | .fromSlice values => some { s with objects := (s.objects.fromSlice values).2 }
  | .emptyArray => some { s with objects := s.objects.emptyArray.2 }
  | .modify array values =>
    some { s with objects.heap := s.objects.heap.modify array fun _ => values }

end IoSelectTasks
end Shreduler
