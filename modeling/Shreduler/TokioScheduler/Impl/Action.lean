import Shreduler.TokioScheduler.Impl.IoReadWrite
import Shreduler.TokioScheduler.Impl.Step

/-!
This module contains the scheduler together with what the futures of its hooks do to the outside
world: the bytes that `io_read` and `io_write` move, be it in a poll or in a worker of the blocking
pool, and the child process that `process_wait` reaps.
-/

namespace Shreduler

inductive Action where
  | readIo (n : Nat)
  | fillBuffer (n : Nat)
  | writeIo (n : Nat)
  | reapChild
  deriving DecidableEq, Repr

def Action.isWrite : Action → Bool
  | .writeIo _ => true
  | _ => false

inductive Job where
  | ioRead (backing : IoRead.Backing)
  | ioWrite (backing : IoRead.Backing)
  | processWait
  | nothing
  deriving DecidableEq, Repr

def Hook.job (backing : IoRead.Backing) : Hook → Job
  | .ioRead => .ioRead backing
  | .ioWrite => .ioWrite backing
  | .processWait => .processWait
  | .kernelSleep _ | .ioWait | .ioSelect | .addressResolve => .nothing

structure Doing where
  actions : List Action := []
  startsWorker : Bool := false
  deriving DecidableEq

namespace Job

/--
What a single poll may do, `busy` being whether a worker has the IO. A future that is pending has at
most written a part of its bytes, one that is ready may have been ended by `with_timeout`.
-/
def Polls (job : Job) (busy : Bool) (external : ExternalPoll) (doing : Doing) : Prop :=
  match job, external, doing with
  | _, _, ⟨[], false⟩ => True
  -- `BufReader` reads once and hands out what was asked for.
  | .ioRead .socket, .ready _, ⟨[.readIo n, .fillBuffer m], false⟩ => m ≤ n
  | .ioRead .file, .ready _, ⟨[.fillBuffer _], false⟩ => busy = false
  | .ioWrite .socket, .pending, ⟨actions, false⟩ => actions.all Action.isWrite
  | .ioWrite .socket, .ready _, ⟨actions, false⟩ => actions.all Action.isWrite
  -- `tokio::fs::File` has one operation in flight at most.
  | .ioRead .file, .pending, ⟨[], true⟩ => busy = false
  | .ioRead .file, .ready _, ⟨[], true⟩ => busy = false
  | .ioWrite .file, .pending, ⟨[], true⟩ => busy = false
  | .ioWrite .file, .ready _, ⟨[], true⟩ => busy = false
  | .processWait, .ready _, ⟨[.reapChild], false⟩ => True
  | _, _, _ => False

instance (job : Job) (busy : Bool) (external : ExternalPoll) (doing : Doing)
    : Decidable (job.Polls busy external doing) := by
  unfold Polls
  split <;> infer_instance

/-- What the worker that has the IO of the future does in the end. -/
def works : Job → Nat → Option Action
  | .ioRead .file, n => some (.readIo n)
  | .ioWrite .file, n => some (.writeIo n)
  | _, _ => none

end Job

namespace Outside

structure State where
  scheduler : Shreduler.State
  jobs : TaskId → Job
  -- The tasks whose IO a worker of the blocking pool has.
  workers : List TaskId

def State.new : State where
  scheduler := .new
  jobs := fun _ => .nothing
  workers := []

inductive Event where
  | hook (hook : Hook) (backing : IoRead.Backing)
  | poll (t : TaskId) (env : PollEnv) (doing : Doing)
  -- The worker reads or writes `n` bytes.
  | work (t : TaskId) (n : Nat)
  -- All other steps of the scheduler.
  | scheduler (e : Shreduler.Event)

namespace State

def pollJob (s : State) (t : TaskId) : Job :=
  match s.scheduler.findTask t with
  | some task => if task.status = .pending then s.jobs t else .nothing
  | none => .nothing

def hook (s : State) (hook : Hook) (backing : IoRead.Backing) : Option State :=
  match Shreduler.State.step s.scheduler (.hook hook) with
  | some scheduler =>
    -- `spawn` may have failed before it got to the join set
    if scheduler.nextTask = s.scheduler.nextTask then
      some { s with scheduler }
    else
      let jobs := Function.update s.jobs s.scheduler.nextTask (hook.job backing)
      some { s with scheduler, jobs }
  | none => none

def poll (s : State) (t : TaskId) (env : PollEnv) (doing : Doing) : Option State :=
  match Shreduler.State.step s.scheduler (.poll t env) with
  | some scheduler =>
    if (s.pollJob t).Polls (t ∈ s.workers) env.external doing then
      let workers := if doing.startsWorker then t :: s.workers else s.workers
      some { s with scheduler, workers }
    else
      none
  | none => none

def work (s : State) (t : TaskId) (n : Nat) : Option State :=
  if t ∈ s.workers ∧ ((s.jobs t).works n).isSome then
    some { s with workers := s.workers.erase t }
  else
    none

end State

def step (s : State) : Event → Option State
  | .hook hook backing => s.hook hook backing
  | .poll t env doing => s.poll t env doing
  | .work t n => s.work t n
  | .scheduler (.hook _) | .scheduler (.poll ..) => none
  | .scheduler e => (Shreduler.State.step s.scheduler e).map fun scheduler => { s with scheduler }

def State.actions (s : State) : Event → List (TaskId × Action)
  | .poll t _ doing => doing.actions.map (t, ·)
  | .work t n => ((s.jobs t).works n).toList.map (t, ·)
  | .hook .. | .scheduler _ => []

end Outside
end Shreduler
