import Shreduler.TokioScheduler.Impl.BlockUnblock

namespace Shreduler

inductive ExternalPoll where
  | pending
  | ready (result : Result Value)
  | panicked
  deriving DecidableEq

/--
What the poll of a future finds outside of the scheduler.
-/
structure PollEnv where
  external : ExternalPoll := .pending
  -- The timer of the future has fired.
  timerFired : Bool := false
  -- `with_timeout` panics: the deadline overflows or `Timeout::Error` does not exist.
  withTimeoutPanics : Bool := false
  -- The two calls of `exception_class.new_instance((message,))`.
  newInstance : Result Value × Result Value := (.ok .nil, .ok .nil)
  deriving DecidableEq

/--
A timer of tokio is over. It has a resolution of a millisecond, and the runtime looks at it only between
polls: a poll at or past the deadline, the first one included, may find that it has not fired yet.
-/
def timerOver (fired : Bool) (now deadline : Instant) : Bool := fired && deadline ≤ now

theorem le_of_timerOver {fired : Bool} {now deadline : Instant} (h : timerOver fired now deadline)
    : deadline ≤ now :=
  of_decide_eq_true ((Bool.and_eq_true _ _).mp h).2

def deadlineAt (now : Instant) (timeout : Option Duration) (deadline : Option Instant)
    : Option Instant :=
  deadline.or (timeout.map fun duration => now + duration)

def timedOut (duration : Duration) (desc : String) : Error :=
  newTimeoutError s!"timed out after {duration.debug} seconds when {desc}"

namespace State

def complete (s : State) (t : TaskId) (result : Result Value) : State :=
  s.setTaskStatus t (.ready result)

def panicTask (s : State) (t : TaskId) (future : Future) : State :=
  (s.dropFuture future).setTaskStatus t .joinError

/--
The end of the future of `block`: `Fiber::current` is the fiber that polls, the root fiber.
-/
def finishBlock (s : State) (t : TaskId) (result : Result Value) : State :=
  match s.blockers.tryBorrowMut with
  | .error e => s.complete t (.error e)
  | .ok cell =>
    let removed := cell.value.lookup rootFiber
    let s := ({ s with blockers := cell }.removeBlocker rootFiber).dropTx removed
    s.releaseBlockers.complete t result

/--
The poll of the future of `block`. `with_timeout` looks at the channel before it looks at the
timer, and computes the deadline in the first poll.
-/
def pollBlock (s : State) (t : TaskId) (env : PollEnv) (rx : ChanId) (timeout : Option Duration)
    (deadline : Option Instant) : State :=
  let deadline := deadlineAt s.now timeout deadline
  let future := Future.block rx timeout deadline
  if timeout.isSome ∧ env.withTimeoutPanics then
    s.panicTask t future
  else
    match s.chans rx with
    | .sent => (s.setFuture t future).finishBlock t (.ok (.bool true))
    | .txDropped =>
      (s.setFuture t future).finishBlock t
        (.error (newBaseError "Could not unblock fiber: channel closed"))
    | .unsent | .rxDropped =>
      if deadline.any (timerOver env.timerFired s.now) then
        ((s.setFuture t future).dropRx rx).finishBlock t
          (.error (timedOut (timeout.getD 0) "unblocking fiber"))
      else
        s.setFuture t future

/--
The poll of the future of `timeout_after`, up to the point where control passes to the fiber.
-/
def pollTimeout (s : State) (t : TaskId) (env : PollEnv) (timeoutAt : Instant)
    (fiberToTimeout : FiberId) : State :=
  if timerOver env.timerFired s.now timeoutAt then
    match env.newInstance with
    | (.error e, _) => s.complete t (.error e)
    | (.ok _, .error e) => s.complete t (.error e)
    | (.ok _, .ok exception) =>
      match s.checkSuspended (some rootFiber) fiberToTimeout with
      | .error e => s.complete t (.error e)
      | .ok _ =>
        let s := { s.setTaskStatus t .polling with runLoop := .polling t }
        s.transfer rootFiber (.timeoutRaise t) fiberToTimeout
          ⟨.error (.exception exception), .timeout t⟩
  else
    s

def pollFuture (s : State) (t : TaskId) (env : PollEnv) (future : Future) : State :=
  match future with
  | .ready result => s.complete t result
  | .sleepUntil instant value =>
    if timerOver env.timerFired s.now instant then s.complete t (.ok value) else s
  | .external =>
    match env.external with
    | .pending => s
    | .ready result => s.complete t result
    | .panicked => s.panicTask t future
  | .block rx timeout deadline => s.pollBlock t env rx timeout deadline
  | .timeout timeoutAt fiberToTimeout => s.pollTimeout t env timeoutAt fiberToTimeout

end State
end Shreduler
