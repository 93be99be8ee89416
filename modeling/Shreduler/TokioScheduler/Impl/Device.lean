import Shreduler.TokioScheduler.Impl.Step

/-!
This module contains the scheduler together with a device: a part of the outside world on which the fibers
make calls. A call is one of a hook, and its future works on the device whenever it is polled.
-/

namespace Shreduler

/--
A transition system with calls. It knows a call by a name, under which it shows what the future of the call
is ready with.
-/
structure Device where
  State : Type
  Event : Type
  step : State → Event → Option State
  Args : Type
  Name : Type
  hook : Args → Hook
  begins : Args → Event
  name : State → Args → Name
  -- The events that a poll of the call may make, and those that happen by themselves.
  polls : Name → Event → Bool
  happens : Event → Bool
  output : State → Name → Option (Result Value)
  hook_future : ∀ args now, (hook args).future now = .external
  output_of_step : ∀ s e s' name result, step s e = some s' → output s name = some result →
    output s' name = some result

namespace Device

structure Attached (d : Device) where
  scheduler : Shreduler.State
  device : d.State
  -- The calls whose futures are tasks.
  names : TaskId → Option d.Name

namespace Attached

variable {d : Device}

def new (device : d.State) : Attached d where
  scheduler := .new
  device
  names := fun _ => none

inductive Event (d : Device) where
  -- The running fiber makes a call.
  | call (args : d.Args)
  -- The executor polls the task. A poll may be cut in two here: this only adds runs.
  | poll (t : TaskId) (es : List d.Event)
  | happen (e : d.Event)
  -- All other steps of the scheduler.
  | scheduler (e : Shreduler.Event)

def Waits (s : Attached d) (t : TaskId) : Prop :=
  (s.scheduler.findTask t).any (·.status = .pending) ∧ (s.names t).isSome

instance (s : Attached d) (t : TaskId) : Decidable (s.Waits t) := inferInstanceAs (Decidable (_ ∧ _))

def Spawns (s : Attached d) (scheduler : Shreduler.State) : Prop :=
  scheduler.nextTask ≠ s.scheduler.nextTask ∧ s.scheduler.runtime

instance (s : Attached d) (scheduler : Shreduler.State) : Decidable (s.Spawns scheduler) :=
  inferInstanceAs (Decidable (_ ∧ _))

def call (s : Attached d) (args : d.Args) : Option (Attached d) :=
  match Shreduler.State.step s.scheduler (.hook (d.hook args)) with
  | some scheduler =>
    if s.Spawns scheduler then
      let names := Function.update s.names s.scheduler.nextTask (some (d.name s.device args))
      (d.step s.device (d.begins args)).map fun device => { scheduler, device, names }
    else
      some { s with scheduler }
  | none => none

/-- What the poll of a call finds on a device that it leaves like this. -/
def external (device : d.State) (name : d.Name) : ExternalPoll :=
  match d.output device name with
  | some result => .ready result
  | none => .pending

def poll (s : Attached d) (t : TaskId) (es : List d.Event) : Option (Attached d) :=
  match s.names t with
  | some name =>
    if s.Waits t ∧ es.all (d.polls name) then
      match Lts.run d.step s.device es with
      | some device =>
        let env : PollEnv := { external := external device name }
        (Shreduler.State.step s.scheduler (.poll t env)).map fun scheduler =>
          { s with scheduler, device }
      | none => none
    else
      none
  | none => none

def happen (s : Attached d) (e : d.Event) : Option (Attached d) :=
  if d.happens e then (d.step s.device e).map fun device => { s with device } else none

def lift (s : Attached d) (e : Shreduler.Event) : Option (Attached d) :=
  (Shreduler.State.step s.scheduler e).map fun scheduler => { s with scheduler }

def schedulerStep (s : Attached d) (e : Shreduler.Event) : Option (Attached d) :=
  match e with
  | .poll t _ => if s.Waits t then none else s.lift e
  | _ => s.lift e

def step (s : Attached d) : Event d → Option (Attached d)
  | .call args => s.call args
  | .poll t es => s.poll t es
  | .happen e => s.happen e
  | .scheduler e => s.schedulerStep e

end Attached
end Device
end Shreduler
