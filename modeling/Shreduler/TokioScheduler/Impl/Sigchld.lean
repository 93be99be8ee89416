import Shreduler.TokioScheduler.Impl.ProcessWait

/-!
This module contains `process_wait` together with the wakers that its signal streams hold, and the
tasks that the executor has to poll because of a delivery of `SIGCHLD`.
-/

namespace Shreduler
namespace Sigchld

open ProcessWait (Config)

structure State where
  process : ProcessWait.State
  -- The tasks whose wakers will hear of the next delivery.
  registered : TaskId → Bool
  -- The tasks that the executor has been told to poll.
  woken : TaskId → Bool

namespace State

def new : State where
  process := .new
  registered := fun _ => false
  woken := fun _ => false

def spawned (s : State) (process : ProcessWait.State) : State :=
  let t := s.process.scheduler.nextTask
  if process.scheduler.nextTask = t then
    { s with process }
  else
    { s with process, woken := Function.update s.woken t true }

def polled (s : State) (t : TaskId) (process : ProcessWait.State) : State :=
  { s with process, woken := Function.update s.woken t false }

/-- `Signal::poll_recv` keeps the waker if and only if it returns `Pending`. -/
def received (s : State) (process : ProcessWait.State) : State :=
  match process.polling with
  | some (t, .waiting registeredInterest) =>
    { s with process, registered := Function.update s.registered t registeredInterest }
  | _ => { s with process }

/-- A delivery wakes whoever is registered, once. -/
def delivered (s : State) (process : ProcessWait.State) : State where
  process
  registered := fun _ => false
  woken := fun t => s.woken t || s.registered t

end State

def step (config : Config) (s : State) (e : ProcessWait.Event) : Option State :=
  (ProcessWait.step config s.process e).map fun process =>
    match e with
    | .processWait .. => s.spawned process
    | .poll t _ => s.polled t process
    | .pollRecv => s.received process
    | .sigchld => s.delivered process
    | _ => { s with process }

end Sigchld
end Shreduler
