import Shreduler.ArrayHeap.Basic
import Shreduler.TokioScheduler.Impl.Step

/-!
This module contains `io_select`, and the transition system of the scheduler with the Ruby arrays that
the calls return. The program may append to the arrays it received, and remove from them.
-/

namespace Shreduler
namespace IoSelect

abbrev ArrayId := Nat

def intoValue (array : ArrayId) : Value := .object "Array" array

def arrayOfValue : Value → Option ArrayId
  | .object "Array" array => some array
  | _ => none

inductive Interest where
  | readable
  | writable
  -- `Interest::READABLE | Interest::WRITABLE`
  | readableWritable
  deriving DecidableEq, Repr

abbrev RubyIoSet := List (Value × Interest)

def RubyIoSet.pushAll (ioSet : RubyIoSet) (array : List Value) (interest : Interest) : RubyIoSet :=
  ioSet ++ array.map fun io => (io, interest)

inductive JoinNext where
  | pending
  | none
  | joinError (e : String)
  -- `RubyIo::new_with_interest` or `ready` failed.
  | failed (e : String)
  | ready (rubyIo : Value) (interest : Interest)
  deriving DecidableEq

structure JoinEnv where
  timerFired : Bool := false
  withTimeoutPanics : Bool := false

/-- The classes whose descriptors `RubyIo::new_with_interest` registers. -/
def registers (rubyIo : Value) : Bool :=
  rubyIo.classname ∈ ["UNIXSocket", "UDPSocket", "Socket", "TCPServer", "TCPSocket"]

def RubyIoSet.CanJoin (ioSet : RubyIoSet) : JoinNext → Prop
  | .pending | .joinError _ | .failed _ => ioSet ≠ []
  | .none => ioSet = []
  | .ready rubyIo interest => (rubyIo, interest) ∈ ioSet

instance (ioSet : RubyIoSet) (joinNext : JoinNext) : Decidable (ioSet.CanJoin joinNext) := by
  unfold RubyIoSet.CanJoin
  casesm JoinNext <;> infer_instance

/-- The arrays of the Ruby heap, with the memo of `intern::object::empty_array`. -/
structure Objects where
  heap : ArrayHeap Value
  memo : Option ArrayId

namespace Objects

def fromSlice (objects : Objects) (values : List Value) : ArrayId × Objects :=
  (objects.heap.size, { objects with heap := objects.heap.alloc values })

def emptyArray (objects : Objects) : ArrayId × Objects :=
  match objects.memo with
  | some array => (array, objects)
  | none =>
    let (array, objects) := objects.fromSlice []
    (array, { objects with memo := some array })

end Objects

structure Output where
  rubyIo : Value
  interest : Interest
  -- The array of the three arrays in `slots`.
  result : ArrayId
  slots : List ArrayId
  deriving DecidableEq

def Output.arrays (output : Output) : List ArrayId := output.result :: output.slots

def Objects.selected (objects : Objects) (rubyIo : Value) (interest : Interest)
    : Output × Objects :=
  let (slots, objects) :=
    match interest with
    | .readableWritable =>
      let (empty, objects) := objects.emptyArray
      let (empty', objects) := objects.emptyArray
      let (io, objects) := objects.fromSlice [rubyIo]
      ([empty, empty', io], objects)
    | .readable =>
      let (io, objects) := objects.fromSlice [rubyIo]
      let (empty, objects) := objects.emptyArray
      let (empty', objects) := objects.emptyArray
      ([io, empty, empty'], objects)
    | .writable =>
      let (empty, objects) := objects.emptyArray
      let (io, objects) := objects.fromSlice [rubyIo]
      let (empty', objects) := objects.emptyArray
      ([empty, io, empty'], objects)
  let (result, objects) := objects.fromSlice (slots.map intoValue)
  ({ rubyIo, interest, result, slots }, objects)

structure Call where
  ioSet : RubyIoSet
  timeout : Option Duration
  deadline : Option Instant
  -- The arrays that the future is ready with.
  output : Option Output
  deriving DecidableEq

structure State where
  scheduler : Shreduler.State
  objects : Objects
  calls : TaskId → Option Call
  -- The sockets that a call has found ready. A socket that is reopened counts as another one.
  registered : List Value
  -- The results that the program has received.
  received : List Output

def State.new : State where
  scheduler := .new
  objects := { heap := .empty, memo := none }
  calls := fun _ => none
  registered := []
  received := []

inductive Event where
  -- The running fiber calls `io_select` with arrays of these contents.
  | ioSelect (readables writables exceptables : Option (List Value)) (timeout : Option Duration)
  -- The executor polls the task.
  | poll (t : TaskId) (env : JoinEnv) (joinNext : JoinNext)
  -- `push` and `delete_at` on an array that the program has received.
  | append (array : ArrayId) (value : Value)
  | remove (array : ArrayId) (i : Nat)
  -- All other steps of the scheduler.
  | scheduler (e : Shreduler.Event)

def Event.isMutation : Event → Bool
  | .append .. | .remove .. => true
  | _ => false

namespace State

def ioSelect (s : State) (readables writables exceptables : Option (List Value))
    (timeout : Option Duration) : Option State :=
  let ioSet : RubyIoSet := []
  let ioSet := readables.elim ioSet fun array => ioSet.pushAll array .readable
  let ioSet := writables.elim ioSet fun array => ioSet.pushAll array .writable
  let ioSet := exceptables.elim ioSet fun array => ioSet.pushAll array .readableWritable
  match Shreduler.State.step s.scheduler (.hook .ioSelect) with
  | some scheduler =>
    -- `spawn` may have failed before it got to the join set
    if scheduler.nextTask = s.scheduler.nextTask then
      some { s with scheduler }
    else
      let call := { ioSet, timeout, deadline := none, output := none }
      let calls := Function.update s.calls s.scheduler.nextTask (some call)
      some { s with scheduler, calls }
  | none => none

def setCall (s : State) (t : TaskId) (call : Call) : State :=
  { s with calls := Function.update s.calls t (some call) }

def endPoll (s : State) (t : TaskId) (external : ExternalPoll) : Option State :=
  match Shreduler.State.step s.scheduler (.poll t { external }) with
  | some scheduler => some { s with scheduler }
  | none => none

def Waits (s : State) (t : TaskId) : Prop :=
  (s.scheduler.findTask t).any (·.status = .pending) ∧ (s.calls t).isSome

instance (s : State) (t : TaskId) : Decidable (s.Waits t) := inferInstanceAs (Decidable (_ ∧ _))

/--
The poll of the future: `with_timeout_no_raise` looks at the set before it looks at the timer, and
computes the deadline in the first poll.
-/
def pollCall (s : State) (t : TaskId) (call : Call) (env : JoinEnv) (joinNext : JoinNext)
    : Option State :=
  let call :=
    { call with deadline := deadlineAt s.scheduler.now call.timeout call.deadline }
  if call.timeout.isSome ∧ env.withTimeoutPanics then
    s.endPoll t .panicked
  else
    match joinNext with
    | .pending =>
      if call.deadline.any (timerOver env.timerFired s.scheduler.now) then
        s.endPoll t (.ready (.ok .nil))
      else
        (s.setCall t call).endPoll t .pending
    | .none => s.endPoll t (.ready (.ok .nil))
    | .joinError e => s.endPoll t (.ready (.error (newBaseError s!"Error joining futures: {e}")))
    | .failed e =>
      s.endPoll t (.ready (.error (newBaseError s!"Error waiting for IO to be ready: {e}")))
    | .ready rubyIo interest =>
      let (output, objects) := s.objects.selected rubyIo interest
      let registered := if registers rubyIo then rubyIo :: s.registered else s.registered
      let s := { s with objects, registered }.setCall t { call with output := some output }
      s.endPoll t (.ready (.ok (intoValue output.result)))

/-- A `RubyIo` of a socket stays registered when it is dropped, so that there is no second one. -/
def CanRegister (s : State) : JoinNext → Prop
  | .ready rubyIo _ => rubyIo ∉ s.registered
  | _ => True

instance (s : State) (joinNext : JoinNext) : Decidable (s.CanRegister joinNext) := by
  unfold CanRegister
  casesm JoinNext <;> infer_instance

def poll (s : State) (t : TaskId) (env : JoinEnv) (joinNext : JoinNext) : Option State :=
  if s.scheduler.AtJoinNext ∧ s.Waits t then
    match s.calls t with
    | some call =>
      if call.ioSet.CanJoin joinNext ∧ s.CanRegister joinNext then
        s.pollCall t call env joinNext
      else
        none
    | none => none
  else
    none

def Holds (s : State) (array : ArrayId) : Prop := ∃ output ∈ s.received, array ∈ output.arrays

instance (s : State) (array : ArrayId) : Decidable (s.Holds array) :=
  inferInstanceAs (Decidable (∃ output ∈ s.received, array ∈ output.arrays))

def modify (s : State) (array : ArrayId) (f : List Value → List Value) : Option State :=
  if s.Holds array then
    some { s with objects.heap := s.objects.heap.modify array f }
  else
    none

def output (s : State) (t : TaskId) : Option Output := (s.calls t).bind Call.output

def returning (s : State) : Option Output :=
  match s.scheduler.control with
  | .transfer f ⟨.ok value, .task t⟩ =>
    match s.scheduler.status f with
    | .suspended (.spawnAndTransfer _) =>
      (s.output t).filter fun output => value = intoValue output.result
    | _ => none
  | _ => none

def lift (s : State) (e : Shreduler.Event) : Option State :=
  (Shreduler.State.step s.scheduler e).map fun scheduler => { s with scheduler }

def schedulerStep (s : State) (e : Shreduler.Event) : Option State :=
  match e with
  | .switch => { s with received := s.returning.toList ++ s.received }.lift .switch
  | .hook .ioSelect => none
  | .poll t _ => if s.Waits t then none else s.lift e
  | _ => s.lift e

end State

def step (s : State) : Event → Option State
  | .ioSelect readables writables exceptables timeout =>
    s.ioSelect readables writables exceptables timeout
  | .poll t env joinNext => s.poll t env joinNext
  | .append array value => s.modify array fun values => values ++ [value]
  | .remove array i => s.modify array fun values => values.eraseIdx i
  | .scheduler e => s.schedulerStep e

end IoSelect
end Shreduler
