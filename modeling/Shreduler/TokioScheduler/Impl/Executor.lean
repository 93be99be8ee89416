import Shreduler.TokioScheduler.Impl.Step

/-!
This module contains the scheduler together with the run queue of the executor: the tasks that it has
been told to poll, and those whose inner futures have kept the waker of their last poll.
-/

namespace Shreduler

inductive Poll (α : Type) where
  | pending
  | ready (value : α)
  deriving DecidableEq

structure ResumableFiber where
  fiber : FiberId
  value : Result Value
  deriving DecidableEq

/--
`FiberFuture::poll`, once the poll of `future` has returned. The second component is `true` if it
wakes the waker of its context.
-/
def FiberFuture.poll (fiber : FiberId) (future : Poll (Result Value))
    : Poll ResumableFiber × Bool :=
  match future with
  | .ready result => (.ready { fiber, value := result }, false)
  | .pending => (.pending, true)

def Task.innerPoll (task : Task) : Option (Poll (Result Value)) :=
  match task.status with
  | .pending => some .pending
  | .ready result => some (.ready result)
  | .aborted | .polling | .joinError => none

namespace Executor

structure State where
  scheduler : Shreduler.State
  -- The run queue.
  woken : TaskId → Bool
  -- The tasks whose inner future has returned `Pending`, and whose waker has not fired since.
  armed : TaskId → Bool

inductive Event where
  | scheduler (e : Shreduler.Event)
  -- The inner future of the task fires the waker that it has kept.
  | wake (t : TaskId)

namespace State

def new : State where
  scheduler := .new
  woken := fun _ => false
  armed := fun _ => false

def allows (s : State) : Shreduler.Event → Bool
  | .poll t _ | .callRuby t => s.woken t
  | _ => true

def spawned (s : State) (scheduler : Shreduler.State) : State :=
  if scheduler.nextTask = s.scheduler.nextTask then
    { s with scheduler }
  else
    { s with scheduler, woken := Function.update s.woken s.scheduler.nextTask true }

/-- The poll of the task is over. A waker that is woken during a poll puts the task back. -/
def polled (s : State) (t : TaskId) : State :=
  match s.scheduler.findTask t with
  | none => s
  | some task =>
    match task.innerPoll.map (FiberFuture.poll task.fiber) with
    | some (.pending, wakes) =>
      { s with
        woken := Function.update s.woken t wakes
        armed := Function.update s.armed t true
      }
    | some (.ready _, _) | none =>
      { s with
        woken := Function.update s.woken t false
        armed := Function.update s.armed t false
      }

def aborted (s : State) : State :=
  { s with woken := fun t => s.woken t || (s.scheduler.findTask t).isSome }

def after (s : State) : Shreduler.Event → State
  | .poll t _ => s.polled t
  | .interrupt _ => s.aborted
  | _ => s

def wake (s : State) (t : TaskId) : State :=
  { s with woken := Function.update s.woken t true, armed := Function.update s.armed t false }

end State

def step (s : State) : Event → Option State
  | .scheduler e =>
    if s.allows e then
      (Shreduler.State.step s.scheduler e).map fun scheduler => (s.spawned scheduler).after e
    else
      none
  | .wake t => if s.armed t then some (s.wake t) else none

def Reachable (s : State) : Prop := ∃ es, Lts.run step .new es = some s

end Executor
end Shreduler
