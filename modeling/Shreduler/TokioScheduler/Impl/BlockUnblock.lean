import Shreduler.TokioScheduler.Impl.Spawn

namespace Shreduler

def fiberOfValue (value : Value) : Result FiberId :=
  match value with
  | .fiber f => .ok f
  | _ => .error (newTypeError s!"no implicit conversion of {value.classname} into Fiber")

namespace State

/-- `blockers.insert(fiber, tx)`: the sender of an older entry is dropped. -/
def insertBlocker (s : State) (f : FiberId) (tx : ChanId) : State :=
  { s.dropTx (s.blockers.value.lookup f) with
    blockers := s.blockers.modify (AList.insert f tx)
  }

def removeBlocker (s : State) (f : FiberId) : State :=
  { s with blockers := s.blockers.modify (AList.erase f) }

def block (s : State) (f : FiberId) (timeout : Option Duration) : Result Unit × State :=
  let ch := s.nextChan
  let s := { s.setChan ch .unsent with nextChan := ch + 1 }
  match s.blockers.tryBorrowMut with
  | .error e => (.error e, s)
  | .ok cell =>
    let s := ({ s with blockers := cell }.insertBlocker f ch).releaseBlockers
    s.spawnAndTransfer f (.block ch timeout none)

/--
`TokioScheduler::unblock`, called by the fiber `current`, or by another thread if there is none.
-/
def unblock (s : State) (current : Option FiberId) (fiberToWake : Value) : Result Unit × State :=
  match fiberOfValue fiberToWake with
  | .error e => (.error e, s)
  | .ok f =>
    match s.checkSuspended current f with
    | .error e => (.error e, s)
    | .ok _ =>
      match s.blockers.tryBorrowMut with
      | .error e => (.error e, s)
      | .ok cell =>
        let removed := cell.value.lookup f
        let s := ({ s with blockers := cell }.removeBlocker f).releaseBlockers
        match removed with
        | none => (.ok (), s)
        | some tx =>
          match s.chans tx with
          | .unsent => (.ok (), s.setChan tx .sent)
          | _ => (.error (newBaseError "could not unblock fiber: true"), s)

end State
end Shreduler
