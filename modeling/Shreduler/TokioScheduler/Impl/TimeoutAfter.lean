import Shreduler.TokioScheduler.Impl.Spawn

namespace Shreduler
namespace State

/--
`TokioScheduler::timeout_after`, called by the fiber `f`, up to the call of the block.
-/
def timeoutAfter (s : State) (f : FiberId) (duration : Duration) : Result Unit × State :=
  let timeoutAt := s.now + duration
  match s.spawn f (.timeout timeoutAt f) with
  | (.error e, s) => (.error e, s)
  | (.ok t, s) =>
    (.ok (), { s with timeouts := Function.update s.timeouts f (t :: s.timeouts f) })

/--
The innermost block of the fiber `f` returned or raised, and `timeout_after` with it.
-/
def endTimeout (s : State) (f : FiberId) : Option State :=
  match s.timeouts f with
  | [] => none
  | t :: ts =>
    some
      { s with
        timeouts := Function.update s.timeouts f ts
        endedTimeouts := t :: s.endedTimeouts
      }

end State
end Shreduler
