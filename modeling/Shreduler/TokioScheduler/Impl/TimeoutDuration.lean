import Shreduler.Basic
import Shreduler.MachineTime.Basic

/-!
This module contains `TimeoutDuration`, and the deadlines that the hooks compute from it. `none` stands
for a panic.
-/

namespace Shreduler

structure TimeoutDuration where
  duration : MachineTime.Duration
  deriving DecidableEq

/-- What `magnus` answers about values. -/
structure Conversions where
  -- The error of `u64::try_convert`, for an integer that is out of its range.
  rangeError : Int → Error
  -- `f64::try_convert`.
  toF64 : Value → Result MachineTime.Float

namespace TimeoutDuration

def intoStd (self : TimeoutDuration) : MachineTime.Duration := self.duration

def isZero (self : TimeoutDuration) : Bool := self.duration = .fromSecs 0 (by decide)

def farFuture : MachineTime.Duration := .fromSecs (86400 * 365 * 30) (by decide)

def tryConvert (conversions : Conversions) (value : Value) : Option (Result TimeoutDuration) :=
  match value with
  | .nil => some (.ok ⟨farFuture⟩)
  | .integer n =>
    if h : 0 ≤ n ∧ n < 2 ^ 64 then
      some (.ok ⟨.fromSecs n.toNat (by omega)⟩)
    else
      some (.error (conversions.rangeError n))
  | value =>
    match conversions.toF64 value with
    | .error e => some (.error e)
    | .ok float =>
      match MachineTime.Duration.fromSecsFloat float with
      | some dur => some (.ok ⟨dur⟩)
      | none => none

end TimeoutDuration

/-- The future that `kernel_sleep` hands to `spawn_and_transfer`. -/
inductive Sleep where
  | ready (value : Value)
  | sleepUntil (instant : MachineTime.Instant) (value : Value)
  deriving DecidableEq

namespace TokioScheduler

def kernelSleep (now : MachineTime.Instant) (duration : TimeoutDuration) : Option Sleep :=
  match now.checkedAdd duration.intoStd with
  | none => none
  | some instant =>
    if duration.isZero then
      some (.ready (.integer 0))
    else
      some (.sleepUntil instant (.integer duration.intoStd.secs))

def timeoutAfter (now : MachineTime.Instant) (duration : TimeoutDuration)
    : Option MachineTime.Instant :=
  now.checkedAdd duration.intoStd

def withTimeoutNoRaise (now : MachineTime.Instant) (timeout : Option TimeoutDuration)
    : Option (Option MachineTime.Instant) :=
  match timeout with
  | some timeout => (now.checkedAdd timeout.intoStd).map some
  | none => some none

def withTimeout (now : MachineTime.Instant) (timeout : Option TimeoutDuration)
    : Option (Option MachineTime.Instant) :=
  match timeout with
  | some timeout =>
    let duration := timeout.intoStd
    (now.checkedAdd duration).map some
  | none => some none

end TokioScheduler
end Shreduler
