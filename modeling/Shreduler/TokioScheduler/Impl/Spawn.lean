import Shreduler.TokioScheduler.Impl.Basic

namespace Shreduler
namespace State

def newTask (s : State) (f : FiberId) (future : Future) : Task :=
  {
    id := s.nextTask
    fiber := f
    future
    status := if s.runtime then .pending else .joinError
  }

/--
`JoinSet::spawn`. A runtime that was shut down cancels the task on the spot.
-/
def addTask (s : State) (f : FiberId) (future : Future) : State :=
  let task := s.newTask f future
  let s := { s.modifyTasks fun tasks => tasks ++ [task] with nextTask := s.nextTask + 1 }
  if s.runtime then s else s.dropFuture future

def spawn (s : State) (f : FiberId) (future : Future) : Result TaskId × State :=
  match s.futuresToRun.tryBorrowMut with
  | .error e => (.error e, s.dropFuture future)
  | .ok cell => (.ok s.nextTask, ({ s with futuresToRun := cell }.addTask f future).releaseFutures)

/--
`TokioScheduler::spawn_and_transfer`, called by the fiber `f`. With `.ok` the fiber is suspended and
control goes to the root fiber, with `.error` the call returns to `f` at once.
-/
def spawnAndTransfer (s : State) (f : FiberId) (future : Future) : Result Unit × State :=
  match s.spawn f future with
  | (.error e, s) => (.error e, s)
  | (.ok t, s) =>
    match s.checkSuspended (some f) rootFiber with
    | .error e => (.error e, s)
    | .ok _ => (.ok (), s.transfer f (.spawnAndTransfer t) rootFiber ⟨.ok .nil, .fiber f⟩)

def mark (s : State) : List FiberId :=
  rootFiber :: s.blockers.borrowForGc.keys

end State

def kernelSleep (now : Instant) (duration : Duration) : Future :=
  let instant := now + duration
  if duration = 0 then
    .ready (.ok (.integer 0))
  else
    .sleepUntil instant (.integer (duration / 1000000000))

/--
The hooks that end in `spawn_and_transfer` and touch no scheduler state of their own.
-/
inductive Hook where
  | kernelSleep (duration : Duration)
  | ioRead
  | ioWrite
  | ioWait
  | ioSelect
  | processWait
  | addressResolve
  deriving DecidableEq, Repr

def Hook.future (now : Instant) : Hook → Future
  | .kernelSleep duration => Shreduler.kernelSleep now duration
  | .ioRead | .ioWrite | .ioWait | .ioSelect | .processWait | .addressResolve => .external

end Shreduler
