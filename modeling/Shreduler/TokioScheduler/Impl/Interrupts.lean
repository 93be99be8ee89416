import Shreduler.TokioScheduler.Impl.Step

/-!
This module contains `check_interrupts`, and the transition system of the scheduler with the interrupts of
its thread. The main future of `run` polls the interval of `check_interrupts` beside `join_next`.
-/

namespace Shreduler
namespace Interrupts

def period : Duration := 1000000000

structure Pending where
  error : Error
  raisedAt : Instant
  deriving DecidableEq

structure State where
  scheduler : Shreduler.State
  -- The interrupts that the thread has not taken, oldest first.
  pending : List Pending
  -- The next tick of the interval, once the current `select!` has polled it.
  nextTick : Option Instant

def State.new : State where
  scheduler := .new
  pending := []
  nextTick := none

inductive JoinNext where
  | pending
  | task (t : TaskId)
  | none
  deriving DecidableEq

def JoinNext.event : JoinNext → Option Shreduler.Event
  | .pending => .none
  | .task t => some (.join t)
  | .none => some .joinNone

inductive Event where
  -- Another thread, or a signal, interrupts this one.
  | raise (error : Error)
  -- Ruby code that runs in the thread takes the oldest interrupt.
  | take
  -- The executor polls the main future. The branches of the `select!` come in any order, and the timer
  -- of the interval has fired for the next `fired` ticks.
  | select (joinNext : JoinNext) (checksFirst : Bool) (fired : Nat)
  -- All other steps of the scheduler.
  | scheduler (e : Shreduler.Event)

namespace State

/-- The loop of `check_interrupts`, a missed tick following the one before it at once. -/
def ticks (s : State) (tick : Instant) : Nat → Option Error × State
  | 0 => (none, { s with nextTick := some tick })
  | fired + 1 =>
    -- the first tick is over at once, but the timer fires for it only between two polls
    if timerOver true s.scheduler.now tick then
      match s.pending with
      | p :: pending => (some p.error, { s with pending })
      | [] => s.ticks (tick + period) fired
    else
      (none, { s with nextTick := some tick })

def checkInterrupts (s : State) (fired : Nat) : Option Error × State :=
  s.ticks (s.nextTick.getD s.scheduler.now) fired

def lift (s : State) (e : Shreduler.Event) : Option State :=
  (Shreduler.State.step s.scheduler e).map fun scheduler => { s with scheduler }

/-- A branch of the `select!` wins, and the futures of both are dropped. -/
def win (s : State) (e : Shreduler.Event) : Option State := { s with nextTick := none }.lift e

def afterCheck (joined : Option Shreduler.Event) : Option Error × State → Option State
  | (some error, s) => s.win (.interrupt error)
  | (none, s) => joined.elim (some s) s.win

def select (s : State) (joinNext : JoinNext) (checksFirst : Bool) (fired : Nat) : Option State :=
  if s.scheduler.AtJoinNext then
    match joinNext.event, checksFirst with
    | some e, false => s.win e
    | joined, _ => State.afterCheck joined (s.checkInterrupts fired)
  else
    none

def take (s : State) : Option State :=
  if s.scheduler.rubyFiber.isSome then
    match s.pending with
    | _ :: pending => some { s with pending }
    | [] => none
  else
    none

def schedulerStep (s : State) (e : Shreduler.Event) : Option State :=
  match e with
  | .join _ | .joinNone | .interrupt _ => none
  | _ => s.lift e

end State

def step (s : State) : Event → Option State
  | .raise error => some { s with pending := s.pending ++ [⟨error, s.scheduler.now⟩] }
  | .take => s.take
  | .select joinNext checksFirst fired => s.select joinNext checksFirst fired
  | .scheduler e => s.schedulerStep e

end Interrupts
end Shreduler
