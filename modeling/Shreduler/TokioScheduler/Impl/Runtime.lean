import Mathlib.Logic.Function.Basic
import Shreduler.Lts.Basic
import Shreduler.TokioScheduler.Impl.Basic

/-!
This module contains the runtimes of a thread on which any number of schedulers is created: which of
them a task is spawned on, and which of them executes it.
-/

namespace Shreduler
namespace Thread

abbrev SchedulerId := Nat

/-- `TokioScheduler::new` builds a runtime, which has the number of the scheduler here. -/
abbrev RuntimeId := Nat

inductive Entry where
  -- The guard that `new` forgets.
  | guard (r : RuntimeId)
  | blockOn (r : RuntimeId)
  deriving DecidableEq, Repr

def Entry.runtime : Entry → RuntimeId
  | .guard r | .blockOn r => r

inductive Status where
  | pending
  | aborted
  | ready
  | joinError
  deriving DecidableEq, Repr

structure Task where
  id : TaskId
  scheduler : SchedulerId
  -- The task that holds the `RubyIoSet` of the task, `none` for a task of `futures_to_run`.
  set : Option TaskId
  -- `none` if the runtime was shut down.
  runtime : Option RuntimeId
  status : Status
  deriving DecidableEq, Repr

structure Running where
  scheduler : SchedulerId
  closing : Bool
  -- The guard of `futures_to_run` is taken.
  borrowed : Bool
  -- History: how many schedulers there were when the call began.
  created : Nat
  deriving DecidableEq, Repr

structure State where
  schedulers : Nat
  -- Is the runtime of the scheduler in its slot?
  runtime : SchedulerId → Bool
  -- Innermost first.
  entered : List Entry
  running : Option Running
  tasks : List Task
  nextTask : TaskId

inductive Event where
  | new
  -- A hook of the scheduler. `ios` is the number of descriptors of an `io_select`.
  | spawn (scheduler : SchedulerId) (ios : Nat)
  | run (scheduler : SchedulerId)
  | close (scheduler : SchedulerId)
  | poll (t : TaskId) (ready : Bool)
  | join (t : TaskId) (resumes : Bool)
  | joinNone
  | interrupt
  -- The fiber that was resumed hands control back to the event loop, with an error or not.
  | awaitNext
  | raised
  deriving DecidableEq, Repr

namespace State

def new : State where
  schedulers := 0
  runtime := fun _ => false
  entered := []
  running := none
  tasks := []
  nextTask := 0

def findTask (s : State) (t : TaskId) : Option Task :=
  s.tasks.find? fun task => task.id = t

def current (s : State) : Option RuntimeId :=
  s.entered.head?.map Entry.runtime

def borrowed (s : State) (scheduler : SchedulerId) : Bool :=
  s.running.any fun r => r.scheduler = scheduler && r.borrowed

def newScheduler (s : State) : State :=
  { s with
    schedulers := s.schedulers + 1
    runtime := Function.update s.runtime s.schedulers true
    entered := .guard s.schedulers :: s.entered
  }

/-- `JoinSet::spawn`. A runtime that was shut down cancels the task on the spot. -/
def addTask (s : State) (scheduler : SchedulerId) (set : Option TaskId) : State :=
  let runtime := s.current.filter s.runtime
  let status := if runtime.isSome then .pending else .joinError
  { s with
    tasks := s.tasks ++ [{ id := s.nextTask, scheduler, set, runtime, status }]
    nextTask := s.nextTask + 1
  }

def pushAll (s : State) (scheduler : SchedulerId) (set : TaskId) : Nat → State
  | 0 => s
  | ios + 1 => (s.addTask scheduler (some set)).pushAll scheduler set ios

def spawn (s : State) (scheduler : SchedulerId) (ios : Nat) : Option State :=
  if scheduler < s.schedulers then
    -- a future that is not spawned drops its `RubyIoSet` before any task of it is polled
    if s.borrowed scheduler then
      some s
    else
      some ((s.pushAll scheduler (s.nextTask + ios) ios).addTask scheduler none)
  else
    none

def startRun (s : State) (scheduler : SchedulerId) (closing : Bool) : Option State :=
  if scheduler < s.schedulers then
    -- "runtime is closed", or the panic of a `block_on` inside of another one
    if ¬ s.runtime scheduler ∨ s.running.isSome then
      some s
    else
      some
        { s with
          entered := .blockOn scheduler :: s.entered
          running := some { scheduler, closing, borrowed := true, created := s.schedulers }
        }
  else
    none

def mapTasks (s : State) (f : Task → Status) : State :=
  { s with tasks := s.tasks.map fun task => { task with status := f task } }

def complete (s : State) (t : TaskId) (status : Status) : State :=
  s.mapTasks fun task =>
    if task.id = t then
      status
    else if task.set = some t ∧ task.status = .pending then
      .aborted
    else
      task.status

def shutdown (s : State) (scheduler : SchedulerId) : State :=
  { s.mapTasks fun task =>
      if task.runtime = some scheduler ∧ task.status ≠ .ready then .joinError else task.status with
    runtime := Function.update s.runtime scheduler false
  }

/-- `block_on` returns, and `close` goes on to shut the runtime down if `run` returned `Ok`. -/
def leave (s : State) (r : Running) (ok : Bool) : State :=
  let s := { s with entered := s.entered.erase (.blockOn r.scheduler), running := none }
  if ok && r.closing then s.shutdown r.scheduler else s

/-- The executor inside of `block_on` polls a task that was spawned on its runtime. -/
def poll (s : State) (t : TaskId) (ready : Bool) : Option State :=
  match s.running, s.findTask t with
  | some r, some task =>
    if r.borrowed ∧ task.runtime = some r.scheduler then
      match task.status with
      | .pending => if ready then some (s.complete t .ready) else some s
      | .aborted => some (s.complete t .joinError)
      | .ready | .joinError => none
    else
      none
  | _, _ => none

def setBorrowed (s : State) (r : Running) (borrowed : Bool) : State :=
  { s with running := some { r with borrowed } }

def join (s : State) (t : TaskId) (resumes : Bool) : Option State :=
  match s.running, s.findTask t with
  | some r, some task =>
    if r.borrowed ∧ task.scheduler = r.scheduler ∧ task.set = none ∧
        (task.status = .ready ∨ task.status = .joinError ∧ resumes = false) then
      some ({ s with tasks := s.tasks.filter fun task => task.id ≠ t }.setBorrowed r !resumes)
    else
      none
  | _, _ => none

def joinNone (s : State) : Option State :=
  match s.running with
  | some r =>
    if r.borrowed ∧ ∀ task ∈ s.tasks, task.scheduler = r.scheduler → task.set ≠ none then
      some (s.leave r true)
    else
      none
  | none => none

def interrupt (s : State) : Option State :=
  match s.running with
  | some r =>
    if r.borrowed then
      let s := s.mapTasks fun task =>
        if task.scheduler = r.scheduler ∧ task.set = none ∧ task.status = .pending then
          .aborted
        else
          task.status
      some (s.leave r false)
    else
      none
  | none => none

def awaitNext (s : State) : Option State :=
  match s.running with
  | some r => if r.borrowed then none else some (s.setBorrowed r true)
  | none => none

def raised (s : State) : Option State :=
  match s.running with
  | some r => if r.borrowed then none else some (s.leave r false)
  | none => none

end State

def step (s : State) : Event → Option State
  | .new => some s.newScheduler
  | .spawn scheduler ios => s.spawn scheduler ios
  | .run scheduler => s.startRun scheduler false
  | .close scheduler => s.startRun scheduler true
  | .poll t ready => s.poll t ready
  | .join t resumes => s.join t resumes
  | .joinNone => s.joinNone
  | .interrupt => s.interrupt
  | .awaitNext => s.awaitNext
  | .raised => s.raised

end Thread
end Shreduler
