import Shreduler.TokioScheduler.Impl.Readiness

/-!
This module contains `io_wait`, and the transition system of a call with the descriptor that it is about
and the reactor of the runtime.
-/

namespace Shreduler
namespace IoWait

open IoSelect (Interest)

structure RubyIoEvent where
  bits : UInt32
  deriving DecidableEq, Repr

namespace RubyIoEvent

def readable : RubyIoEvent := ⟨1⟩

def priority : RubyIoEvent := ⟨2⟩

def writable : RubyIoEvent := ⟨4⟩

def all : RubyIoEvent := ⟨7⟩

def contains (self other : RubyIoEvent) : Bool := self.bits &&& other.bits = other.bits

def tryConvert (value : UInt32) : Result RubyIoEvent :=
  if value &&& ~~~all.bits = 0 then
    .ok ⟨value⟩
  else
    .error (newBaseError s!"Invalid IO interests: {value}")

def intoValue (event : RubyIoEvent) : Value := .integer event.bits.toNat

/-- `TryFrom<RubyIoEvent> for Interest`. The value of `result.add(Interest::WRITABLE)` is not used. -/
def tryIntoInterest (interests : RubyIoEvent) : Result Interest :=
  let result := if interests.contains readable then Interest.readable else .writable
  if interests.contains priority then
    .error (newBaseError "Priority is not a valid interest for tokio::io::Interest")
  else
    .ok result

end RubyIoEvent

inductive Phase where
  -- The hook has yet to be called.
  | idle
  | created (io : BackingIo) (interest : Interest)
  | waiting (io : BackingIo) (interest : Interest) (deadline : Option Instant)
  | returned (result : Result Value)
  | panicked
  deriving DecidableEq

structure State where
  now : Instant
  -- The events for which the descriptor is ready at this moment.
  ready : Ready
  -- The events that the reactor has seen since it registered the descriptor.
  seen : Ready
  phase : Phase

def State.new : State where
  now := 0
  ready := .none
  seen := .none
  phase := .idle

structure PollEnv where
  withNonblock : Result Unit := .ok ()
  -- `Display` of the error of `RubyIo::ready`.
  readyError : Option String := none
  timerFired : Bool := false
  withTimeoutPanics : Bool := false

inductive Event where
  -- The hook is called, `newWithInterest` being the outcome of `RubyIo::new_with_interest`.
  | ioWait (newWithInterest : Result BackingIo)
  | poll (env : PollEnv)
  -- The descriptor becomes ready for some events, or ceases to be. The reactor looks at it.
  | change (ready : Ready)
  | turn
  | elapse (duration : Duration)

namespace State

def finish (s : State) (result : Result Value) : State := { s with phase := .returned result }

def ioWait (s : State) (value : UInt32) (newWithInterest : Result BackingIo) : Option State :=
  match s.phase with
  | .idle =>
    match RubyIoEvent.tryConvert value with
    | .error e => some (s.finish (.error e))
    | .ok interests =>
      match interests.tryIntoInterest with
      | .error e => some (s.finish (.error e))
      | .ok interest =>
        match newWithInterest with
        | .error e => some (s.finish (.error e))
        | .ok io => some { s with seen := .none, phase := .created io interest }
  | _ => none

/-- The wait for the readiness, inside of `with_timeout_no_raise`. -/
def pollReady (s : State) (io : BackingIo) (interest : Interest) (deadline : Option Instant)
    (env : PollEnv) : State :=
  match env.readyError with
  | some e => s.finish (.error (newBaseError s!"Could not wait for readable: {e}"))
  | none =>
    if io.ready interest s.seen then
      s.finish (.ok RubyIoEvent.readable.intoValue)
    else if deadline.any (timerOver env.timerFired s.now) then
      s.finish (.ok .nil)
    else
      { s with phase := .waiting io interest deadline }

def poll (s : State) (timeout : Option Duration) (env : PollEnv) : Option State :=
  match s.phase with
  | .created io interest =>
    if timeout.isSome ∧ env.withTimeoutPanics then
      some { s with phase := .panicked }
    else
      match env.withNonblock with
      | .error e => some (s.finish (.error e))
      | .ok _ => some (s.pollReady io interest (deadlineAt s.now timeout none) env)
  | .waiting io interest deadline => some (s.pollReady io interest deadline env)
  | _ => none

end State

/-- `value` is the mask that Ruby asks for. -/
def step (value : UInt32) (timeout : Option Duration) (s : State) : Event → Option State
  | .ioWait newWithInterest => s.ioWait value newWithInterest
  | .poll env => s.poll timeout env
  | .change ready => some { s with ready }
  | .turn => some { s with seen := s.seen.union s.ready }
  | .elapse duration => some { s with now := s.now + duration }

end IoWait
end Shreduler
