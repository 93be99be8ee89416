import Shreduler.TokioScheduler.Impl.FiberFuture

namespace Shreduler
namespace State

/--
`run` returns to the Ruby code of the root fiber. `close` goes on to shut the runtime down if `run`
returned `Ok`.
-/
def returnRun (s : State) (result : Result Unit) : State :=
  let runtime :=
    match result with
    | .ok _ => s.runtime && !s.closing
    | .error _ => s.runtime
  { s with runLoop := .idle, closing := false, runtime, runResult := some result }

/-- The head of the loop: the guard lives until `join_next` or the interrupt check wins. -/
def awaitNext (s : State) : State :=
  match s.futuresToRun.tryBorrowMut with
  | .error e => s.returnRun (.error e)
  | .ok cell => { s with futuresToRun := cell, runLoop := .joinNext }

def startRun (s : State) : State :=
  if s.runtime then
    s.awaitNext
  else
    s.returnRun (.error (newBaseError "runtime is closed"))

def resumeIfAlive (s : State) (t : TaskId) (fiber : FiberId) (value : Result Value) : State :=
  if ¬ s.isAlive fiber then
    s.awaitNext
  else
    match s.checkSuspended (some rootFiber) fiber with
    | .error e => s.returnRun (.error e)
    | .ok _ =>
      let s := { s with runLoop := .resuming t }
      match value with
      | .ok value => s.transfer rootFiber (.resumeIfAlive t) fiber ⟨.ok value, .task t⟩
      | .error error =>
        match s.raise rootFiber (.resumeIfAlive t) fiber error (.task t) with
        | .ok s => s
        | .error e => s.returnRun (.error e)

def poll (s : State) (t : TaskId) (env : PollEnv) : Option State :=
  match s.findTask t with
  | none => none
  | some task =>
    match task.status with
    | .pending => some (s.pollFuture t env task.future)
    | .aborted => some (s.panicTask t task.future)
    | .polling | .ready _ | .joinError => none

def join (s : State) (t : TaskId) : Option State :=
  match s.findTask t with
  | none => none
  | some task =>
    let s := (s.removeTask t).releaseFutures
    match task.status with
    | .ready result => some (s.resumeIfAlive t task.fiber result)
    | .joinError => some s.awaitNext
    | .pending | .aborted | .polling => none

def joinNone (s : State) : Option State :=
  if s.tasks = [] then
    some (s.releaseFutures.returnRun (.ok ()))
  else
    none

def abortAll (s : State) : State :=
  s.modifyTasks fun tasks =>
    tasks.map fun task => if task.status = .pending then { task with status := .aborted } else task

def interrupt (s : State) (error : Error) : State :=
  s.abortAll.releaseFutures.returnRun (.error error)

/--
Control arrives in the fiber that `transfer` or `raise` was called on, and the call in which it was
suspended returns.
-/
def switch (s : State) : Option State :=
  match s.control with
  | .running _ => none
  | .transfer f payload =>
    match s.status f with
    | .suspended (.spawnAndTransfer t) =>
      some { s.switchTo f with returns := ⟨f, t, s.timeouts f, payload⟩ :: s.returns }
    | .suspended (.fiberImpl _) => some (s.switchTo f)
    | .suspended .transferBack => some (s.terminate f payload.result)
    | .suspended (.resumeIfAlive _) =>
      match payload.result with
      | .ok _ => some (s.switchTo f).awaitNext
      | .error e => some ((s.switchTo f).returnRun (.error e))
    | .suspended (.timeoutRaise t) =>
      some { (s.switchTo f).complete t payload.result with runLoop := .joinNext }
    | .unborn | .running | .terminated => none

end State
end Shreduler
