import Shreduler.TokioScheduler.Impl.FiberFuture
import Shreduler.TokioScheduler.Impl.TimeoutDuration

/-!
This module proves which timeouts and durations make the hooks panic.
-/

namespace Shreduler
namespace TimeoutDuration

open MachineTime (nanosPerSec)

variable {conversions : Conversions} {value : Value} {now : MachineTime.Instant} {d : TimeoutDuration}

structure Representable (now : MachineTime.Instant) (duration : TimeoutDuration) : Prop where
  kernelSleep : (TokioScheduler.kernelSleep now duration).isSome
  timeoutAfter : (TokioScheduler.timeoutAfter now duration).isSome
  withTimeout : (TokioScheduler.withTimeout now (some duration)).isSome
  withTimeoutNoRaise : (TokioScheduler.withTimeoutNoRaise now (some duration)).isSome

def NeverPanics (conversions : Conversions) (value : Value) (now : MachineTime.Instant) : Prop :=
  ∃ result, tryConvert conversions value = some result ∧
    ∀ duration, result = .ok duration → Representable now duration

def InRange (conversions : Conversions) (value : Value) (now : MachineTime.Instant) : Prop :=
  match value with
  | .nil => now.toNanos + 86400 * 365 * 30 * nanosPerSec < 2 ^ 63 * nanosPerSec
  | .integer n =>
    0 ≤ n → n < 2 ^ 64 → now.toNanos + n * nanosPerSec < 2 ^ 63 * nanosPerSec
  | value =>
    ∀ float, conversions.toF64 value = .ok float →
      ∃ x, float = .finite x ∧ 0 ≤ x ∧
        now.toNanos + MachineTime.roundTiesEven (x * nanosPerSec) < 2 ^ 63 * nanosPerSec

/-! ### The deadlines -/

theorem representable_iff
    : Representable now d ↔ now.toNanos + d.intoStd.toNanos < 2 ^ 63 * nanosPerSec := by
  rw [← MachineTime.Instant.checkedAdd_isSome]
  constructor
  . exact fun h => h.timeoutAfter
  . intro h
    obtain ⟨instant, hinstant⟩ := Option.isSome_iff_exists.mp h
    refine ⟨?_, h, ?_, ?_⟩
    . rw [TokioScheduler.kernelSleep, hinstant]
      dsimp only
      split <;> rfl
    . simp [TokioScheduler.withTimeout, hinstant]
    . simp [TokioScheduler.withTimeoutNoRaise, hinstant]

theorem withTimeout_deadlineAt {timeout : Option TimeoutDuration}
    {deadline : Option MachineTime.Instant} (hnow : 0 ≤ now.toNanos)
    (h : TokioScheduler.withTimeout now timeout = some deadline)
    : deadline.map (fun instant => instant.toNanos.toNat)
        =
      deadlineAt now.toNanos.toNat (timeout.map fun timeout => timeout.intoStd.toNanos) none := by
  unfold TokioScheduler.withTimeout at h
  split at h
  . next timeout =>
    obtain ⟨instant, hinstant, rfl⟩ := Option.map_eq_some_iff.mp h
    simp only [deadlineAt, Option.map_some, Option.none_or, Option.some.injEq]
    rw [MachineTime.Instant.toNanos_checkedAdd hinstant]
    omega
  . cases h
    rfl

/-! ### The conversion -/

theorem neverPanics_of_ok (h : tryConvert conversions value = some (.ok d))
    : NeverPanics conversions value now ↔
        now.toNanos + d.intoStd.toNanos < 2 ^ 63 * nanosPerSec := by
  rw [← representable_iff, NeverPanics, h]
  simp

theorem neverPanics_of_error {e : Error} (h : tryConvert conversions value = some (.error e))
    : NeverPanics conversions value now :=
  ⟨_, h, by simp⟩

theorem not_neverPanics (h : tryConvert conversions value = none)
    : ¬ NeverPanics conversions value now := by
  rintro ⟨result, hresult, -⟩
  rw [h] at hresult
  contradiction

theorem neverPanics_integer (n : Int)
    : NeverPanics conversions (.integer n) now ↔ InRange conversions (.integer n) now := by
  unfold InRange
  by_cases h : 0 ≤ n ∧ n < 2 ^ 64
  . have hconvert : tryConvert conversions (.integer n)
        = some (.ok ⟨.fromSecs n.toNat (by omega)⟩) := dif_pos h
    rw [neverPanics_of_ok hconvert, intoStd, MachineTime.Duration.toNanos_fromSecs]
    push_cast
    rw [Int.toNat_of_nonneg h.1]
    exact ⟨fun hlt _ _ => hlt, fun hall => hall h.1 h.2⟩
  . have hconvert : tryConvert conversions (.integer n) = some (.error (conversions.rangeError n)) :=
      dif_neg h
    refine iff_of_true (neverPanics_of_error hconvert) ?_
    exact fun hnonneg hlt => absurd ⟨hnonneg, hlt⟩ h

theorem neverPanics_toF64
    (hconvert : tryConvert conversions value =
      match conversions.toF64 value with
      | .error e => some (.error e)
      | .ok float =>
        match MachineTime.Duration.fromSecsFloat float with
        | some dur => some (.ok ⟨dur⟩)
        | none => none)
    : NeverPanics conversions value now ↔
        ∀ float, conversions.toF64 value = .ok float →
          ∃ x, float = .finite x ∧ 0 ≤ x ∧
            now.toNanos + MachineTime.roundTiesEven (x * nanosPerSec) < 2 ^ 63 * nanosPerSec := by
  cases hfloat : conversions.toF64 value with
  | error e =>
    rw [hfloat] at hconvert
    exact iff_of_true (neverPanics_of_error hconvert) (by simp)
  | ok float =>
    simp only [Except.ok.injEq, forall_eq']
    rw [hfloat] at hconvert
    dsimp only at hconvert
    split at hconvert
    . next dur hdur =>
      obtain ⟨x, rfl, hx, hround⟩ := MachineTime.Duration.fromSecsFloat_eq_some.mp hdur
      rw [neverPanics_of_ok hconvert, intoStd, hround]
      simp [hx]
    . next hdur =>
      refine iff_of_false (not_neverPanics hconvert) ?_
      rintro ⟨x, rfl, hx, hlt⟩
      have hle := now.le_toNanos
      obtain ⟨dur, hsome⟩ := MachineTime.Duration.exists_fromSecsFloat hx (by omega)
      rw [hdur] at hsome
      contradiction

/--
A timeout or duration makes no hook panic, if and only if it is refused, or there is an instant that is
later than the current one by it. A float is never refused.
-/
theorem neverPanics_iff (conversions : Conversions) (value : Value) (now : MachineTime.Instant)
    : NeverPanics conversions value now ↔ InRange conversions value now := by
  cases value with
  | nil =>
    rw [neverPanics_of_ok (d := ⟨farFuture⟩) rfl]
    rfl
  | integer n => exact neverPanics_integer n
  | bool | fiber | object => exact neverPanics_toF64 rfl

theorem integer_panics
    : ¬ ∀ (conversions : Conversions) (value : Value) (now : MachineTime.Instant),
        NeverPanics conversions value now := by
  intro hall
  have hnever := hall ⟨fun _ => .jump 0, fun _ => .error (.jump 0)⟩ (.integer (2 ^ 63))
    ⟨1, 0, by decide, by decide, by decide⟩
  rw [neverPanics_integer] at hnever
  exact absurd (hnever (by decide) (by decide)) (by decide)

end TimeoutDuration
end Shreduler
