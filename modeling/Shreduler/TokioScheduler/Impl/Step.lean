import Shreduler.Lts.Basic
import Shreduler.TokioScheduler.Impl.Close
import Shreduler.TokioScheduler.Impl.FiberSpawn
import Shreduler.TokioScheduler.Impl.TimeoutAfter

/-!
This module contains the transition system of the scheduler. The Ruby code of a fiber is arbitrary:
whenever it runs it makes any of the calls below, rescues what they raise or not, and ends. While the
root fiber is inside `block_on`, the executor polls any task, `join_next` returns any completed one.
-/

namespace Shreduler

inductive Event where
  | elapse (duration : Duration)
  -- `rb_fiber_transfer` or `rb_fiber_raise` arrives.
  | switch
  -- Calls of the running Ruby code.
  | fiber
  | hook (hook : Hook)
  | block (timeout : Option Duration)
  | unblock (fiberToWake : Value)
  | timeoutAfter (duration : Duration)
  -- The innermost `timeout_after` block, or the block of the fiber itself, returns or raises.
  | endTimeout
  | finish (result : Result Value)
  -- Another thread calls `unblock`.
  | remoteUnblock (fiberToWake : Value)
  -- The root fiber calls `run` or `close`.
  | run
  | close
  -- The event loop.
  | poll (t : TaskId) (env : PollEnv)
  | join (t : TaskId)
  | joinNone
  | interrupt (error : Error)
  -- The poll of a task starts and ends a call of Ruby code on the root fiber (`to_io`, `fileno`, the
  -- constructor of an exception).
  | callRuby (t : TaskId)
  | returnRuby

namespace State

def rubyFiber (s : State) : Option FiberId :=
  match s.control with
  | .running f =>
    if f = rootFiber then
      match s.runLoop with
      | .idle | .polling _ => some f
      | .joinNext | .resuming _ => none
    else
      some f
  | .transfer .. => none

/-- The root fiber is inside `block_on` and no task is being polled. -/
def AtJoinNext (s : State) : Prop := s.runLoop = .joinNext ∧ s.control = .running rootFiber

/-- The Ruby code of the root fiber runs outside of `run`. -/
def AtRootCode (s : State) : Prop := s.runLoop = .idle ∧ s.control = .running rootFiber

instance (s : State) : Decidable s.AtJoinNext := inferInstanceAs (Decidable (_ ∧ _))

instance (s : State) : Decidable s.AtRootCode := inferInstanceAs (Decidable (_ ∧ _))

def callRuby (s : State) (t : TaskId) : Option State :=
  if (s.findTask t).any (·.status = .pending) then
    some { s with runLoop := .polling t }
  else
    none

def returnRuby (s : State) : Option State :=
  match s.runLoop with
  | .polling _ =>
    if s.control = .running rootFiber then some { s with runLoop := .joinNext } else none
  | .idle | .joinNext | .resuming _ => none

def step (s : State) : Event → Option State
  | .elapse duration => some { s with now := s.now + duration }
  | .switch => s.switch
  | .fiber => s.rubyFiber.map fun f => s.fiberImpl f
  | .hook hook => s.rubyFiber.map fun f => (s.spawnAndTransfer f (hook.future s.now)).2
  | .block timeout => s.rubyFiber.map fun f => (s.block f timeout).2
  | .unblock fiberToWake => s.rubyFiber.map fun f => (s.unblock (some f) fiberToWake).2
  | .timeoutAfter duration => s.rubyFiber.map fun f => (s.timeoutAfter f duration).2
  | .endTimeout => s.rubyFiber.bind fun f => s.endTimeout f
  | .finish result =>
    s.rubyFiber.bind fun f =>
      if f ≠ rootFiber ∧ s.timeouts f = [] then some (s.finish f result) else none
  | .remoteUnblock fiberToWake => some (s.unblock none fiberToWake).2
  | .run => if s.AtRootCode then some s.startRun else none
  | .close => if s.AtRootCode then some { s with closing := true }.startRun else none
  | .poll t env => if s.AtJoinNext then s.poll t env else none
  | .join t => if s.AtJoinNext then s.join t else none
  | .joinNone => if s.AtJoinNext then s.joinNone else none
  | .interrupt error => if s.AtJoinNext then some (s.interrupt error) else none
  | .callRuby t => if s.AtJoinNext then s.callRuby t else none
  | .returnRuby => s.returnRuby

/-- The states that a run of the scheduler reaches. -/
def Reachable (s : State) : Prop := ∃ es, Lts.run step .new es = some s

end State
end Shreduler
