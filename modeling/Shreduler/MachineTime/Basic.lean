import Mathlib.Data.Rat.Floor
import Mathlib.Tactic.Linarith

/-!
This module contains the durations and the instants of a clock of nanoseconds, with the number of seconds
in a 64 bit word, unsigned in a duration and signed in an instant.
-/

namespace MachineTime

def nanosPerSec : Nat := 1000000000

structure Duration where
  secs : Nat
  nanos : Nat
  secs_lt : secs < 2 ^ 64
  nanos_lt : nanos < nanosPerSec
  deriving DecidableEq

structure Instant where
  secs : Int
  nanos : Nat
  le_secs : -2 ^ 63 ≤ secs
  secs_lt : secs < 2 ^ 63
  nanos_lt : nanos < nanosPerSec
  deriving DecidableEq

/-- A floating point number, by the value that it has. -/
inductive Float where
  | finite (x : ℚ)
  | infinity (negative : Bool)
  | nan
  deriving DecidableEq

def roundTiesEven (x : ℚ) : Int :=
  let floor := ⌊x⌋
  if x - floor < 1 / 2 ∨ x - floor = 1 / 2 ∧ floor % 2 = 0 then
    floor
  else
    floor + 1

theorem roundTiesEven_nonneg {x : ℚ} (h : 0 ≤ x) : 0 ≤ roundTiesEven x := by
  have hfloor := Int.floor_nonneg.mpr h
  unfold roundTiesEven
  dsimp only
  split
  . exact hfloor
  . exact Int.le_add_one hfloor

theorem roundTiesEven_cases (x : ℚ)
    : roundTiesEven x = ⌊x⌋ ∧ x - ⌊x⌋ ≤ 1 / 2 ∨ roundTiesEven x = ⌊x⌋ + 1 ∧ 1 / 2 ≤ x - ⌊x⌋ := by
  unfold roundTiesEven
  dsimp only
  split
  . next h =>
    left
    refine ⟨rfl, ?_⟩
    cases h with
    | inl hlt => exact le_of_lt hlt
    | inr htie => exact le_of_eq htie.1
  . next h =>
    right
    refine ⟨rfl, ?_⟩
    rw [not_or, not_lt] at h
    exact h.1

theorem abs_roundTiesEven_sub_le (x : ℚ) : |(roundTiesEven x : ℚ) - x| ≤ 1 / 2 := by
  have hle := Int.floor_le x
  have hlt := Int.lt_floor_add_one x
  rw [abs_le]
  cases roundTiesEven_cases x with
  | inl h =>
    rw [h.1]
    constructor
    . linarith
    . linarith
  | inr h =>
    rw [h.1]
    push_cast
    constructor
    . linarith
    . linarith

theorem roundTiesEven_intCast (n : Int) : roundTiesEven n = n := by
  simp [roundTiesEven]

theorem roundTiesEven_mono {x y : ℚ} (h : x ≤ y) : roundTiesEven x ≤ roundTiesEven y := by
  have hfloor : ⌊x⌋ ≤ ⌊y⌋ := Int.floor_mono h
  by_cases heq : ⌊x⌋ = ⌊y⌋
  . -- both have the same two neighbours
    unfold roundTiesEven
    dsimp only
    rw [heq]
    split
    . split
      . apply le_refl
      . exact Int.le_add_one (le_refl _)
    . next hx =>
      rw [if_neg]
      rw [not_or, not_lt, not_and] at hx
      rintro (hlt | htie)
      . linarith [hx.1]
      . exact hx.2 (by linarith [hx.1, htie.1]) htie.2
  . have hlt : ⌊x⌋ + 1 ≤ ⌊y⌋ := lt_of_le_of_ne hfloor heq
    have hx : roundTiesEven x ≤ ⌊x⌋ + 1 := by
      cases roundTiesEven_cases x with
      | inl hx => omega
      | inr hx => omega
    have hy : ⌊y⌋ ≤ roundTiesEven y := by
      cases roundTiesEven_cases y with
      | inl hy => omega
      | inr hy => omega
    omega

theorem roundTiesEven_eq_zero_iff {x : ℚ} (h : 0 ≤ x) : roundTiesEven x = 0 ↔ x ≤ 1 / 2 := by
  have hle := Int.floor_le x
  have hnonneg := Int.floor_nonneg.mpr h
  constructor
  . intro hzero
    have habs := abs_roundTiesEven_sub_le x
    rw [hzero, Int.cast_zero, zero_sub, abs_neg, abs_of_nonneg h] at habs
    exact habs
  . intro hhalf
    have hfloor : ⌊x⌋ = 0 := by
      rw [Int.floor_eq_zero_iff]
      exact ⟨h, by linarith⟩
    unfold roundTiesEven
    rw [hfloor]
    dsimp only
    rw [Int.cast_zero, sub_zero, if_pos]
    cases lt_or_eq_of_le hhalf with
    | inl hlt => exact .inl hlt
    | inr heq => exact .inr ⟨heq, rfl⟩

namespace Duration

def toNanos (d : Duration) : Nat := d.secs * nanosPerSec + d.nanos

def fromSecs (secs : Nat) (h : secs < 2 ^ 64) : Duration where
  secs := secs
  nanos := 0
  secs_lt := h
  nanos_lt := by decide

def ofNanos (nanos : Nat) : Option Duration :=
  if h : nanos / nanosPerSec < 2 ^ 64 then
    some
      {
        secs := nanos / nanosPerSec
        nanos := nanos % nanosPerSec
        secs_lt := h
        nanos_lt := Nat.mod_lt nanos (by decide)
      }
  else
    none

def fromSecsFloat : Float → Option Duration
  | .finite x => if x < 0 then none else ofNanos (roundTiesEven (x * nanosPerSec)).toNat
  | .infinity _ | .nan => none

@[simp]
theorem toNanos_fromSecs (secs : Nat) (h : secs < 2 ^ 64)
    : (fromSecs secs h).toNanos = secs * nanosPerSec := Nat.add_zero _

theorem ofNanos_eq_some {nanos : Nat} {d : Duration} : ofNanos nanos = some d ↔ d.toNanos = nanos := by
  have hd := d.nanos_lt
  have hlt := d.secs_lt
  have hmod := Nat.div_add_mod nanos nanosPerSec
  unfold ofNanos toNanos
  constructor
  . intro h
    split at h
    . cases h
      rwa [Nat.mul_comm]
    . contradiction
  . intro h
    have hsecs : nanos / nanosPerSec = d.secs := by
      rw [← h, Nat.mul_comm, Nat.mul_add_div (by decide), Nat.div_eq_of_lt hd, Nat.add_zero]
    have hnanos : nanos % nanosPerSec = d.nanos := by
      rw [← h, Nat.mul_comm, Nat.mul_add_mod, Nat.mod_eq_of_lt hd]
    rw [dif_pos (hsecs ▸ hlt)]
    simp only [hsecs, hnanos]

theorem ofNanos_isSome {nanos : Nat} : (ofNanos nanos).isSome ↔ nanos < 2 ^ 64 * nanosPerSec := by
  unfold ofNanos
  rw [← Nat.div_lt_iff_lt_mul (by decide)]
  split
  . next h => exact iff_of_true rfl h
  . next h => exact iff_of_false (by simp) h

theorem fromSecsFloat_eq_some {float : Float} {d : Duration}
    : fromSecsFloat float = some d ↔
        ∃ x, float = .finite x ∧ 0 ≤ x ∧ d.toNanos = roundTiesEven (x * nanosPerSec) := by
  cases float with
  | infinity | nan => simp [fromSecsFloat]
  | finite x =>
    simp only [fromSecsFloat, Float.finite.injEq, exists_eq_left']
    split
    . next hneg => simp [hneg]
    . next hneg =>
      have hx : 0 ≤ x := not_lt.mp hneg
      have hround : 0 ≤ roundTiesEven (x * nanosPerSec) :=
        roundTiesEven_nonneg (mul_nonneg hx (Nat.cast_nonneg _))
      rw [ofNanos_eq_some]
      constructor
      . intro h
        exact ⟨hx, by rw [h, Int.toNat_of_nonneg hround]⟩
      . rintro ⟨-, h⟩
        rw [← h, Int.toNat_natCast]

theorem exists_fromSecsFloat {x : ℚ} (hx : 0 ≤ x)
    (h : roundTiesEven (x * nanosPerSec) < 2 ^ 64 * nanosPerSec)
    : ∃ d, fromSecsFloat (.finite x) = some d := by
  have hpos : 0 < nanosPerSec := by decide
  rw [fromSecsFloat, if_neg (not_lt.mpr hx), ← Option.isSome_iff_exists, ofNanos_isSome]
  omega

end Duration

namespace Instant

def toNanos (i : Instant) : Int := i.secs * nanosPerSec + i.nanos

def checkedAdd (i : Instant) (d : Duration) : Option Instant :=
  let secs := i.secs + d.secs
  let nanos := i.nanos + d.nanos
  if hsecs : secs < 2 ^ 63 then
    if hnanos : nanos < nanosPerSec then
      some
        {
          secs := secs
          nanos := nanos
          le_secs := by
            have := i.le_secs
            omega
          secs_lt := hsecs
          nanos_lt := hnanos
        }
    else if hcarry : secs + 1 < 2 ^ 63 then
      some
        {
          secs := secs + 1
          nanos := nanos - nanosPerSec
          le_secs := by
            have := i.le_secs
            omega
          secs_lt := hcarry
          nanos_lt := by
            have := i.nanos_lt
            have := d.nanos_lt
            omega
        }
    else
      none
  else
    none

variable {i j : Instant} {d : Duration}

theorem toNanos_checkedAdd (h : i.checkedAdd d = some j) : j.toNanos = i.toNanos + d.toNanos := by
  unfold checkedAdd at h
  dsimp only at h
  split at h
  . split at h
    . cases h
      simp only [toNanos, Duration.toNanos]
      push_cast
      ring
    . next hcarry =>
      split at h
      . cases h
        simp only [toNanos, Duration.toNanos]
        push_cast [Nat.not_lt.mp hcarry]
        ring
      . contradiction
  . contradiction

/-- The addition succeeds exactly if the sum is an instant. -/
theorem checkedAdd_isSome (i : Instant) (d : Duration)
    : (i.checkedAdd d).isSome ↔ i.toNanos + d.toNanos < 2 ^ 63 * nanosPerSec := by
  have hi := i.nanos_lt
  have hd := d.nanos_lt
  unfold checkedAdd toNanos Duration.toNanos
  unfold nanosPerSec at hi hd ⊢
  dsimp only
  push_cast
  split
  . split
    . simp only [Option.isSome_some, true_iff]
      omega
    . split
      . simp only [Option.isSome_some, true_iff]
        omega
      . simp only [Option.isSome_none, Bool.false_eq_true, false_iff]
        omega
  . simp only [Option.isSome_none, Bool.false_eq_true, false_iff]
    omega

theorem le_toNanos (i : Instant) : -2 ^ 63 * nanosPerSec ≤ i.toNanos := by
  have := i.le_secs
  unfold toNanos nanosPerSec
  omega

end Instant

end MachineTime
