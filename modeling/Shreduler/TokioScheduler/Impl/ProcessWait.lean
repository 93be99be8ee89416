import Shreduler.Posix.Wait
import Shreduler.TokioScheduler.Impl.Step

/-!
This module contains `process_wait`, and the transition system of the scheduler with the child
processes and the waiters. A poll of a `PidWaiter` holds the thread until it returns: meanwhile time
passes and the children go on, but the scheduler does not.
-/

namespace Shreduler
namespace ProcessWait

open Posix (Pid Child ChildState WaitEnv)

def rawPidMax : Pid := 2147483647

structure Config where
  -- The bits that `WaitOptions` knows.
  accepted : UInt32
  -- The process group of the process.
  pgrp : Pid

def waitOptionsFromBits (accepted flags : UInt32) : Option Posix.WaitOptions :=
  if flags &&& ~~~accepted = 0 then
    some
      {
        noHang := flags &&& 1 ≠ 0
        untraced := flags &&& 2 ≠ 0
        continued := flags &&& 8 ≠ 0
      }
  else
    none

/--
`rustix::process::waitpid`: without a pid it waits for the group of the process, with one for the
process itself.
-/
def waitpid (pgrp : Pid) (children : List Child) (pid : Option Pid) (options : Posix.WaitOptions)
    (env : WaitEnv) : Posix.Waited :=
  Posix.waitpid pgrp children (pid.getD 0) options env

structure ProcessStatus where
  pid : Pid
  status : Int32
  error : Int32
  deriving DecidableEq, Repr

structure PidWaiter where
  pid : Pid
  flags : UInt32
  -- The signal stream, once the first poll has created it: is there a delivery to report?
  signal : Option Bool
  deriving DecidableEq, Repr

inductive TryWait where
  -- The thread waits inside of `waitpid`.
  | blocks
  | returns (result : Result (Option ProcessStatus)) (children : List Child)
  deriving DecidableEq

/-- The pid that `try_wait` hands to `waitpid`. -/
def waitSelector (rawPid : Pid) : Result (Option Pid) :=
  if rawPid = 0 then
    .ok none
  else if rawPid = -1 then
    .ok (some rawPidMax)
  else if -rawPid < rawPid then
    .ok (some rawPid)
  else if rawPid > 0 then
    .ok (some rawPid)
  else
    .error (newBaseError s!"Invalid PID for process: {rawPid}")

/-- `PidWaiter::try_wait`. The allocation of the `Process::Status` is taken to succeed. -/
def PidWaiter.tryWait (waiter : PidWaiter) (config : Config) (children : List Child) (env : WaitEnv)
    : TryWait :=
  let rawPid := waiter.pid
  let flags := waiter.flags
  match waitOptionsFromBits config.accepted flags with
  | none => .returns (.error (newBaseError s!"invalid process wait flags: {flags}")) children
  | some options =>
    match waitSelector rawPid with
    | .error e => .returns (.error e) children
    | .ok pid =>
      match waitpid config.pgrp children pid options env with
      | .blocks => .blocks
      | .none => .returns (.ok none) children
      | .failed errno => .returns (.ok (some { pid := -1, status := 0, error := errno })) children
      | .child child status =>
        .returns (.ok (some { pid := rawPid, status, error := 0 })) (Posix.reap children child)

inductive Phase where
  | receiving
  | waiting (registeredInterest : Bool)
  | blocked (registeredInterest : Bool)
  deriving DecidableEq, Repr

structure State where
  scheduler : Shreduler.State
  children : List Child
  waiters : TaskId → Option PidWaiter
  -- The poll that holds the thread.
  polling : Option (TaskId × Phase)
  -- The `Process::Status` objects, by the number of the object.
  statuses : List ProcessStatus

def State.new : State where
  scheduler := .new
  children := []
  waiters := fun _ => none
  polling := none
  statuses := []

inductive Event where
  -- The process forks, a child changes its state or its group, `SIGCHLD` is delivered.
  | fork (pid pgid : Pid)
  | change (pid : Pid) (state : ChildState)
  | setpgid (pid pgid : Pid)
  | sigchld
  -- The running fiber calls `process_wait`.
  | processWait (pid : Pid) (flags : UInt32)
  -- The executor polls the task, `signalError` being what keeps the first poll from a signal stream.
  | poll (t : TaskId) (signalError : Option String)
  | pollRecv
  | tryWait (env : WaitEnv)
  -- All other steps of the scheduler.
  | scheduler (e : Shreduler.Event)

namespace State

def setWaiter (s : State) (t : TaskId) (waiter : Option PidWaiter) : State :=
  { s with waiters := Function.update s.waiters t waiter }

def updateChild (s : State) (pid : Pid) (f : Child → Child) : State :=
  { s with children := s.children.map fun child => if child.pid = pid then f child else child }

def fork (s : State) (pid pgid : Pid) : Option State :=
  if 0 < pid ∧ ∀ child ∈ s.children, child.pid ≠ pid then
    some { s with children := s.children ++ [{ pid, pgid, state := .quiet }] }
  else
    none

def change (s : State) (pid : Pid) (state : ChildState) : Option State :=
  if ∀ child ∈ s.children, child.pid = pid → child.state.isExited = false then
    some (s.updateChild pid fun child => { child with state })
  else
    none

def sigchld (s : State) : State :=
  { s with
    waiters := fun t =>
      (s.waiters t).map fun waiter => { waiter with signal := waiter.signal.map fun _ => true }
  }

def processWait (s : State) (pid : Pid) (flags : UInt32) : Option State :=
  match s.polling with
  | some _ => none
  | none =>
    match Shreduler.State.step s.scheduler (.hook .processWait) with
    | some scheduler =>
      -- `spawn` may have failed before it got to the join set
      if scheduler.nextTask = s.scheduler.nextTask then
        some { s with scheduler }
      else
        some ({ s with scheduler }.setWaiter s.scheduler.nextTask (some { pid, flags, signal := none }))
    | none => none

def endPoll (s : State) (t : TaskId) (external : ExternalPoll) : Option State :=
  match Shreduler.State.step s.scheduler (.poll t { external }) with
  | some scheduler => some { s with scheduler, polling := none }
  | none => none

def Waits (s : State) (t : TaskId) : Prop :=
  (s.scheduler.findTask t).any (·.status = .pending) ∧ (s.waiters t).isSome

instance (s : State) (t : TaskId) : Decidable (s.Waits t) := inferInstanceAs (Decidable (_ ∧ _))

def poll (s : State) (t : TaskId) (signalError : Option String) : Option State :=
  if s.polling = none ∧ s.scheduler.AtJoinNext ∧ s.Waits t then
    match s.waiters t with
    | some waiter =>
      match waiter.signal, signalError with
      | some _, _ => some { s with polling := some (t, .receiving) }
      | none, none =>
        let s := s.setWaiter t (some { waiter with signal := some false })
        some { s with polling := some (t, .receiving) }
      | none, some e =>
        let error := newBaseError s!"failed to create signal watcher: {e}"
        (s.setWaiter t none).endPoll t (.ready (.error error))
    | none => none
  else
    none

def pollRecv (s : State) : Option State :=
  match s.polling with
  | some (t, .receiving) =>
    match s.waiters t with
    | some waiter =>
      let registeredInterest := waiter.signal ≠ some true
      let s := s.setWaiter t (some { waiter with signal := some false })
      some { s with polling := some (t, .waiting registeredInterest) }
    | none => none
  | _ => none

/-- `PidWaiter::poll`, after a `try_wait` that returned. -/
def afterTryWait (s : State) (t : TaskId) (registeredInterest : Bool)
    (result : Result (Option ProcessStatus)) : Option State :=
  match result with
  | .ok (some status) =>
    let value := Value.object "Process::Status" s.statuses.length
    let s := { s with statuses := s.statuses ++ [status] }
    (s.setWaiter t none).endPoll t (.ready (.ok value))
  | .ok none | .error _ =>
    if registeredInterest then
      s.endPoll t .pending
    else
      some { s with polling := some (t, .receiving) }

def tryWait (config : Config) (s : State) (env : WaitEnv) : Option State :=
  match s.polling with
  | some (t, .waiting registeredInterest) =>
    match s.waiters t with
    | some waiter =>
      match waiter.tryWait config s.children env with
      | .blocks => some { s with polling := some (t, .blocked registeredInterest) }
      | .returns result children => { s with children }.afterTryWait t registeredInterest result
    | none => none
  | some (t, .blocked registeredInterest) =>
    match s.waiters t with
    | some waiter =>
      match waiter.tryWait config s.children env with
      | .blocks => none
      | .returns result children => { s with children }.afterTryWait t registeredInterest result
    | none => none
  | _ => none

def lift (s : State) (e : Shreduler.Event) : Option State :=
  (Shreduler.State.step s.scheduler e).map fun scheduler => { s with scheduler }

def schedulerStep (s : State) (e : Shreduler.Event) : Option State :=
  match e with
  | .elapse _ => s.lift e
  | .hook .processWait => none
  | .poll t _ => if s.polling = none ∧ ¬ s.Waits t then s.lift e else none
  | _ => if s.polling = none then s.lift e else none

end State

def step (config : Config) (s : State) : Event → Option State
  | .fork pid pgid => s.fork pid pgid
  | .change pid state => s.change pid state
  | .setpgid pid pgid => some (s.updateChild pid fun child => { child with pgid })
  | .sigchld => some s.sigchld
  | .processWait pid flags => s.processWait pid flags
  | .poll t signalError => s.poll t signalError
  | .pollRecv => s.pollRecv
  | .tryWait env => s.tryWait config env
  | .scheduler e => s.schedulerStep e

def Reachable (config : Config) (s : State) : Prop := ∃ es, Lts.run (step config) .new es = some s

end ProcessWait
end Shreduler
