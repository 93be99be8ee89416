import Mathlib.Data.List.AList
import Mathlib.Logic.Function.Basic
import Shreduler.GcCell.Basic

/-!
This module contains the state that the hooks of the scheduler and its event loop share: the fibers
of the Ruby thread, the tasks of `futures_to_run`, the `blockers` registry with its oneshot channels,
and the position of the root fiber inside `TokioScheduler::run`.
-/

namespace Shreduler

abbrev TaskId := Nat

abbrev ChanId := Nat

def rootFiber : FiberId := 0

/--
The Rust call inside which a fiber that is not running waits for control to come back.
-/
inductive Suspension where
  -- `root_fiber.check_suspended()?.transfer(())` of `spawn_and_transfer`.
  | spawnAndTransfer (task : TaskId)
  -- `fiber.transfer(())` of `fiber_impl`.
  | fiberImpl (child : FiberId)
  -- `transfer_back_to.transfer((v,))` or `.raise(error)` at the end of a wrapped block.
  | transferBack
  -- The `transfer` or `raise` of `resume_if_alive`, in the body of the event loop.
  | resumeIfAlive (task : TaskId)
  -- The `raise` of a timeout future, in the middle of its poll.
  | timeoutRaise (task : TaskId)
  deriving DecidableEq, Repr

-- Fibers are entered through the scheduler. One that is in a `Fiber#resume` of its own is not among them.
inductive FiberStatus where
  | unborn
  | running
  | suspended (suspension : Suspension)
  | terminated
  deriving DecidableEq, Repr

/--
Who handed over the value or the exception that a fiber receives.
-/
inductive Origin where
  -- The event loop, with the output of a joined task.
  | task (t : TaskId)
  -- A timeout future, with the exception it raises from inside its poll.
  | timeout (t : TaskId)
  -- Another fiber: by yielding to the root fiber, at the end of a wrapped block, or by dying.
  | fiber (f : FiberId)
  deriving DecidableEq, Repr

structure Payload where
  result : Result Value
  origin : Origin
  deriving DecidableEq

inductive Control where
  | running (f : FiberId)
  -- `rb_fiber_transfer` or `rb_fiber_raise` towards `f` has been called.
  | transfer (f : FiberId) (payload : Payload)
  deriving DecidableEq

inductive RunLoop where
  | idle
  -- `block_on` polls tasks while the main future is suspended at the `select!`.
  | joinNext
  -- The poll of a task runs Ruby code: on the root fiber, or in the fiber it raises into.
  | polling (t : TaskId)
  | resuming (t : TaskId)
  deriving DecidableEq, Repr

/--
What the future of a task waits for.
-/
inductive Future where
  | ready (result : Result Value)
  | sleepUntil (instant : Instant) (value : Value)
  -- A descriptor, a child process or a name server decides.
  | external
  | block (rx : ChanId) (timeout : Option Duration) (deadline : Option Instant)
  | timeout (timeoutAt : Instant) (fiberToTimeout : FiberId)
  deriving DecidableEq

inductive TaskStatus where
  | pending
  -- `abort_all` reached the task, the executor has yet to drop its future.
  | aborted
  | polling
  | ready (result : Result Value)
  -- The future panicked or was dropped: `join_next` returns `Err(JoinError)`.
  | joinError
  deriving DecidableEq

/--
A `FiberFuture` in the join set, `ResumableFiber` once it is ready.
-/
structure Task where
  id : TaskId
  fiber : FiberId
  future : Future
  status : TaskStatus
  deriving DecidableEq

def Task.isTimeout (task : Task) : Bool :=
  match task.future with
  | .timeout .. => true
  | _ => false

def Task.isBlock (task : Task) : Bool :=
  match task.future with
  | .block .. => true
  | _ => false

inductive Chan where
  | unsent
  | sent
  | txDropped
  | rxDropped
  deriving DecidableEq, Repr

/--
A call of `spawn_and_transfer` that returned in the fiber that made it, with the `timeout_after`
blocks that enclose the call.
-/
structure Return where
  fiber : FiberId
  task : TaskId
  timeouts : List TaskId
  payload : Payload
  deriving DecidableEq

abbrev Blockers := AList fun _ : FiberId => ChanId

structure State where
  now : Instant
  status : FiberId → FiberStatus
  -- The parent that the wrapped block of a nested fiber captured.
  transferBackTo : FiberId → Option FiberId
  -- The `timeout_after` calls whose block the fiber is in, innermost first.
  timeouts : FiberId → List TaskId
  nextFiber : FiberId
  control : Control
  runLoop : RunLoop
  -- `run` was called by `close`.
  closing : Bool
  runtime : Bool
  futuresToRun : GcCell (List Task)
  nextTask : TaskId
  blockers : GcCell Blockers
  chans : ChanId → Chan
  nextChan : ChanId
  -- What the last call of `run` returned.
  runResult : Option (Result Unit)
  -- History: the hook calls that returned, the `timeout_after` calls whose block ended.
  returns : List Return
  endedTimeouts : List TaskId

namespace State

def new : State where
  now := 0
  status := Function.update (fun _ => .unborn) rootFiber .running
  transferBackTo := fun _ => none
  timeouts := fun _ => []
  nextFiber := 1
  control := .running rootFiber
  runLoop := .idle
  closing := false
  runtime := true
  futuresToRun := { value := [] }
  nextTask := 0
  blockers := { value := ∅ }
  chans := fun _ => .unsent
  nextChan := 0
  runResult := none
  returns := []
  endedTimeouts := []

abbrev tasks (s : State) : List Task := s.futuresToRun.value

def findTask (s : State) (t : TaskId) : Option Task :=
  s.tasks.find? fun task => task.id = t

def isAlive (s : State) (f : FiberId) : Bool :=
  match s.status f with
  | .running | .suspended _ => true
  | .unborn | .terminated => false

def checkSuspended (s : State) (current : Option FiberId) (f : FiberId) : Result Unit :=
  if ¬ s.isAlive f then
    .error (.error .runtimeError "fiber not alive")
  else if current = some f then
    .error (.error .runtimeError "fiber active")
  else
    .ok ()

def setStatus (s : State) (f : FiberId) (status : FiberStatus) : State :=
  { s with status := Function.update s.status f status }

def transfer (s : State) (f : FiberId) (suspension : Suspension) (g : FiberId) (payload : Payload)
    : State :=
  { s.setStatus f (.suspended suspension) with control := .transfer g payload }

/--
`Fiber::raise`: an `Error::Jump` comes back to the caller and never reaches the fiber.
-/
def raise (s : State) (f : FiberId) (suspension : Suspension) (g : FiberId) (error : Error)
    (origin : Origin) : Result State :=
  match error with
  | .jump tag => .error (.jump tag)
  | error => .ok (s.transfer f suspension g ⟨.error error, origin⟩)

/--
The block of the fiber `f` is over. A fiber that was entered by `transfer` hands its result to the
root fiber of the thread.
-/
def terminate (s : State) (f : FiberId) (result : Result Value) : State :=
  { s.setStatus f .terminated with control := .transfer rootFiber ⟨result, .fiber f⟩ }

def switchTo (s : State) (f : FiberId) : State :=
  { s.setStatus f .running with control := .running f }

def modifyTasks (s : State) (f : List Task → List Task) : State :=
  { s with futuresToRun := s.futuresToRun.modify f }

def releaseFutures (s : State) : State :=
  { s with futuresToRun := s.futuresToRun.dropRefMut }

def releaseBlockers (s : State) : State :=
  { s with blockers := s.blockers.dropRefMut }

def setTaskStatus (s : State) (t : TaskId) (status : TaskStatus) : State :=
  s.modifyTasks fun tasks =>
    tasks.map fun task => if task.id = t then { task with status } else task

def setFuture (s : State) (t : TaskId) (future : Future) : State :=
  s.modifyTasks fun tasks =>
    tasks.map fun task => if task.id = t then { task with future } else task

def removeTask (s : State) (t : TaskId) : State :=
  s.modifyTasks fun tasks => tasks.filter fun task => task.id ≠ t

def setChan (s : State) (ch : ChanId) (chan : Chan) : State :=
  { s with chans := Function.update s.chans ch chan }

def dropRx (s : State) (ch : ChanId) : State :=
  if s.chans ch = .unsent then s.setChan ch .rxDropped else s

def dropTx (s : State) (ch : Option ChanId) : State :=
  match ch with
  | some ch => if s.chans ch = .unsent then s.setChan ch .txDropped else s
  | none => s

def dropFuture (s : State) (future : Future) : State :=
  match future with
  | .block rx _ _ => s.dropRx rx
  | _ => s

end State
end Shreduler
