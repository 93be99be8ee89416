import Mathlib.Data.List.Nodup

/-!
This module contains the Ruby values and the `magnus` errors that the scheduler passes around, and why what
is added to a list under a name of its own stays apart.
-/

namespace Shreduler

abbrev FiberId := Nat

/-- Nanoseconds. -/
abbrev Duration := Nat

def Duration.debug (duration : Duration) : String :=
  -- `unit` is a power of ten, whose zeros pad the fraction
  let fmt (unit : Nat) (suffix : String) : String :=
    let fraction := (Nat.toDigits 10 (unit + duration % unit)).tail
    let fraction := (fraction.reverse.dropWhile (· = '0')).reverse
    let point := if fraction = [] then "" else "."
    toString (duration / unit) ++ point ++ String.ofList fraction ++ suffix
  if 1000000000 ≤ duration then
    fmt 1000000000 "s"
  else if 1000000 ≤ duration then
    fmt 1000000 "ms"
  else if 1000 ≤ duration then
    fmt 1000 "µs"
  else
    fmt 1 "ns"

abbrev Instant := Nat

inductive Value where
  | nil
  | bool (b : Bool)
  | integer (n : Int)
  | fiber (f : FiberId)
  | object (classname : String) (id : Nat)
  deriving DecidableEq, Repr

def Value.classname : Value → String
  | .nil => "NilClass"
  | .bool true => "TrueClass"
  | .bool false => "FalseClass"
  | .integer _ => "Integer"
  | .fiber _ => "Fiber"
  | .object classname _ => classname

inductive ExceptionClass where
  | runtimeError
  | typeError
  | baseError
  | readyError
  | timeoutError
  | poisonedCellError
  | user (id : Nat)
  deriving DecidableEq, Repr

/--
`magnus::Error`: a class with a message that still has to be instantiated, an exception object, or a
non-local exit (`throw`, `break`) that passed through `protect`.
-/
inductive Error where
  | error (klass : ExceptionClass) (message : String)
  | exception (e : Value)
  | jump (tag : Nat)
  deriving DecidableEq, Repr

abbrev Result (α : Type) := Except Error α

def newBaseError (message : String) : Error := .error .baseError message

def newTypeError (message : String) : Error := .error .typeError message

def newTimeoutError (message : String) : Error := .error .timeoutError message

theorem nodup_map_append_singleton {α : Type u} {β : Type v} {f : α → β} {as : List α} {a : α}
    (hnodup : (as.map f).Nodup) (hne : ∀ b ∈ as, f b ≠ f a) : ((as ++ [a]).map f).Nodup := by
  rw [← List.concat_eq_append, List.map_concat]
  apply List.Nodup.concat ?_ hnodup
  intro hmem
  obtain ⟨b, hb, heq⟩ := List.mem_map.mp hmem
  exact hne b hb heq

end Shreduler
