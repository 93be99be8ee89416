import Shreduler.TokioScheduler.Impl.Spawn

namespace Shreduler
namespace State

def isCurrentFiberRoot (f : FiberId) : Bool := rootFiber = f

/--
`TokioScheduler::fiber_impl`, called by the fiber `f`: the new fiber starts right away.
-/
def fiberImpl (s : State) (f : FiberId) : State :=
  let fiber := s.nextFiber
  let transferBackTo := if isCurrentFiberRoot f then none else some f
  { (s.setStatus f (.suspended (.fiberImpl fiber))).setStatus fiber .running with
    transferBackTo := Function.update s.transferBackTo fiber transferBackTo
    timeouts := Function.update s.timeouts fiber []
    nextFiber := fiber + 1
    control := .running fiber
  }

/--
The block of the fiber `f` returned or raised. The wrapped block of a nested fiber hands the result
to the fiber it captured.
-/
def finish (s : State) (f : FiberId) (result : Result Value) : State :=
  match s.transferBackTo f with
  | none => s.terminate f result
  | some transferBackTo =>
    match s.checkSuspended (some f) transferBackTo with
    | .error e => s.terminate f (.error e)
    | .ok _ =>
      match result with
      | .ok v => s.transfer f .transferBack transferBackTo ⟨.ok v, .fiber f⟩
      | .error error =>
        match s.raise f .transferBack transferBackTo error (.fiber f) with
        | .ok s => s
        | .error e => s.terminate f (.error e)

end State
end Shreduler
