import Shreduler.TokioScheduler.Lemmas.TimeoutDuration

/-!
This module proves that the deadlines of the hooks are in the order of the seconds that Ruby asks for, and
how far they are from them.
-/

namespace Shreduler
namespace TimeoutDuration

open MachineTime (nanosPerSec roundTiesEven)

variable {conversions : Conversions} {value value' : Value} {now : MachineTime.Instant}
variable {d d' : TimeoutDuration} {x y : ℚ}

def seconds (conversions : Conversions) : Value → Option ℚ
  | .nil => some (86400 * 365 * 30)
  | .integer n => some n
  | value =>
    match conversions.toF64 value with
    | .ok (.finite x) => some x
    | _ => none

/-! ### The duration -/

structure Converts (x : ℚ) (d : TimeoutDuration) : Prop where
  nonneg : 0 ≤ x
  toNanos : (d.intoStd.toNanos : Int) = roundTiesEven (x * nanosPerSec)

theorem Converts.nat (secs : Nat) (h : secs < 2 ^ 64)
    : Converts (secs : ℚ) ⟨.fromSecs secs h⟩ where
  nonneg := Nat.cast_nonneg secs
  toNanos := by
    have hround := MachineTime.roundTiesEven_intCast (secs * nanosPerSec : Nat)
    rw [intoStd, MachineTime.Duration.toNanos_fromSecs]
    push_cast at hround ⊢
    exact hround.symm

theorem converts_of_fromSecsFloat {float : MachineTime.Float} {dur : MachineTime.Duration}
    (hdur : MachineTime.Duration.fromSecsFloat float = some dur)
    (hseconds : ∀ x, float = .finite x → seconds conversions value = some x)
    : ∃ x, seconds conversions value = some x ∧ Converts x ⟨dur⟩ := by
  obtain ⟨x, hfinite, hx, hround⟩ := MachineTime.Duration.fromSecsFloat_eq_some.mp hdur
  exact ⟨x, hseconds x hfinite, hx, hround⟩

theorem converts_of_tryConvert (h : tryConvert conversions value = some (.ok d))
    : ∃ x, seconds conversions value = some x ∧ Converts x d := by
  cases value with
  | nil =>
    cases h
    refine ⟨86400 * 365 * 30, rfl, ?_⟩
    have hnat := Converts.nat (86400 * 365 * 30) (by decide)
    have hcast : ((86400 * 365 * 30 : Nat) : ℚ) = 86400 * 365 * 30 := by norm_num
    rwa [hcast] at hnat
  | integer n =>
    unfold tryConvert at h
    dsimp only at h
    split at h
    . next hn =>
      cases h
      refine ⟨n, rfl, ?_⟩
      have hnat := Converts.nat n.toNat (by omega)
      have hcast : ((n.toNat : Nat) : ℚ) = n := by
        exact_mod_cast Int.toNat_of_nonneg hn.1
      rwa [hcast] at hnat
    . simp at h
  | bool | fiber | object =>
    unfold tryConvert at h
    dsimp only at h
    split at h
    . simp at h
    . next float hfloat =>
      split at h
      . next dur hdur =>
        cases h
        apply converts_of_fromSecsFloat hdur
        rintro x rfl
        simp [seconds, hfloat]
      . contradiction

namespace Converts

theorem abs_sub_le (h : Converts x d)
    : |(d.intoStd.toNanos : ℚ) - x * nanosPerSec| ≤ 1 / 2 := by
  have hround := MachineTime.abs_roundTiesEven_sub_le (x * nanosPerSec)
  rw [← h.toNanos] at hround
  exact_mod_cast hround

theorem le (hx : Converts x d) (hy : Converts y d') (hle : x ≤ y)
    : d.intoStd.toNanos ≤ d'.intoStd.toNanos := by
  have hmono : roundTiesEven (x * nanosPerSec) ≤ roundTiesEven (y * nanosPerSec) := by
    apply MachineTime.roundTiesEven_mono
    exact mul_le_mul_of_nonneg_right hle (Nat.cast_nonneg _)
  rw [← hx.toNanos, ← hy.toNanos] at hmono
  exact_mod_cast hmono

theorem lt (hx : Converts x d) (hy : Converts y d') (hlt : x * nanosPerSec + 1 < y * nanosPerSec)
    : d.intoStd.toNanos < d'.intoStd.toNanos := by
  have habs := (abs_le.mp hx.abs_sub_le).2
  have habs' := (abs_le.mp hy.abs_sub_le).1
  have hcast : (d.intoStd.toNanos : ℚ) < d'.intoStd.toNanos := by linarith
  exact_mod_cast hcast

theorem isZero_iff (h : Converts x d) : d.isZero ↔ x * nanosPerSec ≤ 1 / 2 := by
  have hnanos : d.isZero ↔ d.intoStd.toNanos = 0 := by
    rw [isZero, decide_eq_true_iff, intoStd]
    constructor
    . intro heq
      rw [heq, MachineTime.Duration.toNanos_fromSecs, Nat.zero_mul]
    . intro hzero
      have hofNanos := MachineTime.Duration.ofNanos_eq_some.mpr hzero
      have hfromSecs := MachineTime.Duration.ofNanos_eq_some.mpr
        (MachineTime.Duration.toNanos_fromSecs 0 (by decide))
      rw [Nat.zero_mul, hofNanos, Option.some.injEq] at hfromSecs
      exact hfromSecs
  rw [hnanos, ← MachineTime.roundTiesEven_eq_zero_iff (mul_nonneg h.nonneg (Nat.cast_nonneg _)),
    ← h.toNanos, Int.natCast_eq_zero]

end Converts

/-! ### The deadlines -/

inductive Deadline (now : MachineTime.Instant) (d : TimeoutDuration) : MachineTime.Instant → Prop where
  | kernelSleep {instant value}
    (h : TokioScheduler.kernelSleep now d = some (.sleepUntil instant value)) : Deadline now d instant
  | timeoutAfter {instant} (h : TokioScheduler.timeoutAfter now d = some instant)
    : Deadline now d instant
  | withTimeout {instant} (h : TokioScheduler.withTimeout now (some d) = some (some instant))
    : Deadline now d instant
  | withTimeoutNoRaise {instant}
    (h : TokioScheduler.withTimeoutNoRaise now (some d) = some (some instant)) : Deadline now d instant

theorem Deadline.toNanos {instant : MachineTime.Instant} (h : Deadline now d instant)
    : instant.toNanos = now.toNanos + d.intoStd.toNanos := by
  apply MachineTime.Instant.toNanos_checkedAdd
  cases h with
  | kernelSleep h =>
    unfold TokioScheduler.kernelSleep at h
    split at h
    . contradiction
    . next instant' hinstant =>
      split at h
      . simp at h
      . cases h
        exact hinstant
  | timeoutAfter h => exact h
  | withTimeout h | withTimeoutNoRaise h =>
    obtain ⟨instant', hinstant, heq⟩ := Option.map_eq_some_iff.mp h
    cases heq
    exact hinstant

theorem Deadline.abs_sub_le {instant : MachineTime.Instant} (hx : Converts x d)
    (h : Deadline now d instant)
    : |(instant.toNanos : ℚ) - (now.toNanos + x * nanosPerSec)| ≤ 1 / 2 := by
  have habs := hx.abs_sub_le
  rw [h.toNanos]
  push_cast
  rwa [add_sub_add_left_eq_sub]

theorem kernelSleep_ready {value : Value} (hx : Converts x d)
    (h : TokioScheduler.kernelSleep now d = some (.ready value)) : x * nanosPerSec ≤ 1 / 2 := by
  rw [← hx.isZero_iff]
  unfold TokioScheduler.kernelSleep at h
  split at h
  . contradiction
  . split at h
    . next hzero => exact hzero
    . simp at h

theorem kernelSleep_sleepUntil {instant : MachineTime.Instant} {value : Value} (hx : Converts x d)
    (h : TokioScheduler.kernelSleep now d = some (.sleepUntil instant value))
    : 1 / 2 < x * nanosPerSec := by
  rw [← not_le, ← hx.isZero_iff]
  unfold TokioScheduler.kernelSleep at h
  split at h
  . contradiction
  . split at h
    . simp at h
    . next hzero => exact hzero

structure InOrder (x y : ℚ) (d d' : TimeoutDuration) : Prop where
  near : ∀ now instant, Deadline now d instant →
    |(instant.toNanos : ℚ) - (now.toNanos + x * nanosPerSec)| ≤ 1 / 2
  le : ∀ now now' instant instant', Deadline now d instant → Deadline now' d' instant' →
    now.toNanos ≤ now'.toNanos → x ≤ y → instant.toNanos ≤ instant'.toNanos
  lt : ∀ now now' instant instant', Deadline now d instant → Deadline now' d' instant' →
    now.toNanos ≤ now'.toNanos → x * nanosPerSec + 1 < y * nanosPerSec →
      instant.toNanos < instant'.toNanos
  ready : ∀ now sleep, TokioScheduler.kernelSleep now d = some sleep →
    ((∃ value, sleep = .ready value) ↔ x * nanosPerSec ≤ 1 / 2)

/--
No deadline is further than a half nanosecond from the seconds that Ruby asks for, and of two the one with
fewer seconds is not the later one. A sleep ends at once only if its seconds are less than a nanosecond.
-/
theorem deadlines_in_order (h : tryConvert conversions value = some (.ok d))
    (h' : tryConvert conversions value' = some (.ok d'))
    : ∃ x y, seconds conversions value = some x ∧ seconds conversions value' = some y ∧
        InOrder x y d d' := by
  obtain ⟨x, hseconds, hx⟩ := converts_of_tryConvert h
  obtain ⟨y, hseconds', hy⟩ := converts_of_tryConvert h'
  refine ⟨x, y, hseconds, hseconds', ?near, ?le, ?lt, ?ready⟩
  case near =>
    intro now instant hdeadline
    exact hdeadline.abs_sub_le hx
  case le =>
    intro now now' instant instant' hdeadline hdeadline' hnow hle
    have hnanos := hx.le hy hle
    rw [hdeadline.toNanos, hdeadline'.toNanos]
    omega
  case lt =>
    intro now now' instant instant' hdeadline hdeadline' hnow hlt
    have hnanos := hx.lt hy hlt
    rw [hdeadline.toNanos, hdeadline'.toNanos]
    omega
  case ready =>
    intro now sleep hsleep
    cases sleep with
    | ready value => exact iff_of_true ⟨value, rfl⟩ (kernelSleep_ready hx hsleep)
    | sleepUntil instant value =>
      exact iff_of_false (by simp) (not_le.mpr (kernelSleep_sleepUntil hx hsleep))

theorem deadlines_in_order_floats
    : ∃ x y, seconds ⟨fun _ => .jump 0, fun _ => .ok (.finite (1 / 2))⟩ (.object "Float" 0) = some x ∧
        seconds ⟨fun _ => .jump 0, fun _ => .ok (.finite (1 / 2))⟩ (.integer 2) = some y ∧
        InOrder x y ⟨⟨0, 500000000, by decide, by decide⟩⟩ ⟨.fromSecs 2 (by decide)⟩ :=
  deadlines_in_order (by decide +kernel) rfl

end TimeoutDuration
end Shreduler
