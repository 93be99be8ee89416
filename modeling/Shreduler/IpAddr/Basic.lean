import Mathlib.Data.List.TakeWhile

/-!
This module contains IP addresses with the recursive descent parser that reads their textual forms,
and with their display.
-/

structure Ipv4Addr where
  a : UInt8
  b : UInt8
  c : UInt8
  d : UInt8
  deriving DecidableEq, Repr

@[ext]
structure Ipv6Addr where
  segments : List UInt16
  length_segments : segments.length = 8
  deriving DecidableEq, Repr

inductive IpAddr where
  | v4 (addr : Ipv4Addr)
  | v6 (addr : Ipv6Addr)
  deriving DecidableEq, Repr

namespace IpAddr

def toDigit (radix : Nat) (c : Char) : Option Nat :=
  let digit :=
    if '0' ≤ c ∧ c ≤ '9' then
      some (c.toNat - '0'.toNat)
    else if 'a' ≤ c ∧ c ≤ 'z' then
      some (c.toNat - 'a'.toNat + 10)
    else if 'A' ≤ c ∧ c ≤ 'Z' then
      some (c.toNat - 'A'.toNat + 10)
    else
      none
  digit.filter (· < radix)

def isDigit (radix : Nat) (c : Char) : Bool := (toDigit radix c).isSome

def number (radix : Nat) (digits : List Char) : Nat :=
  digits.foldl (fun result c => result * radix + (toDigit radix c).getD 0) 0

/-! ### The parser -/

/-- What a reader has read, with the rest of the input. -/
abbrev Reader (α : Type) := List Char → Option (α × List Char)

def readGivenChar (given : Char) : Reader Unit
  | [] => none
  | c :: rest => if c = given then some ((), rest) else none

def readSeparator (sep : Char) (index : Nat) (inner : Reader α) : Reader α := fun input =>
  if 0 < index then
    (readGivenChar sep input).bind fun (_, rest) => inner rest
  else
    inner input

def readNumber (radix maxDigits bound : Nat) (allowZeroPrefix : Bool) : Reader Nat := fun input =>
  let digits := input.takeWhile (isDigit radix)
  let rest := input.dropWhile (isDigit radix)
  if maxDigits < digits.length then
    none
  else if digits.length = 0 then
    none
  else if ¬ allowZeroPrefix ∧ input.head? = some '0' ∧ 1 < digits.length then
    none
  else if number radix digits < bound then
    some (number radix digits, rest)
  else
    none

def readOctet : Reader Nat := readNumber 10 3 256 false

def readHextet : Reader Nat := readNumber 16 4 65536 true

def readIpv4Addr : Reader Ipv4Addr := fun input => do
  let (a, input) ← readSeparator '.' 0 readOctet input
  let (b, input) ← readSeparator '.' 1 readOctet input
  let (c, input) ← readSeparator '.' 2 readOctet input
  let (d, input) ← readSeparator '.' 3 readOctet input
  some (⟨.ofNat a, .ofNat b, .ofNat c, .ofNat d⟩, input)

end IpAddr

namespace Ipv4Addr

def segments (addr : Ipv4Addr) : List UInt16 :=
  [.ofNat (addr.a.toNat * 256 + addr.b.toNat), .ofNat (addr.c.toNat * 256 + addr.d.toNat)]

def ofSegments (high low : UInt16) : Ipv4Addr where
  a := .ofNat (high.toNat / 256)
  b := .ofNat (high.toNat % 256)
  c := .ofNat (low.toNat / 256)
  d := .ofNat (low.toNat % 256)

def parse (text : String) : Option Ipv4Addr :=
  if 15 < text.utf8ByteSize then
    none
  else
    match IpAddr.readIpv4Addr text.toList with
    | some (addr, []) => some addr
    | _ => none

end Ipv4Addr

namespace IpAddr

structure Groups where
  groups : List UInt16
  -- The last two groups were an embedded IPv4 address.
  ipv4 : Bool
  rest : List Char
  deriving DecidableEq

def readGroups (index : Nat) : (left : Nat) → (input : List Char) → Groups
  | 0, input => { groups := [], ipv4 := false, rest := input }
  | left + 1, input =>
    -- An embedded IPv4 address takes two groups.
    let ipv4 := if 0 < left then readSeparator ':' index readIpv4Addr input else none
    match ipv4 with
    | some (addr, rest) => { groups := addr.segments, ipv4 := true, rest }
    | none =>
      match readSeparator ':' index readHextet input with
      | some (group, rest) =>
        let tail := readGroups (index + 1) left rest
        { tail with groups := .ofNat group :: tail.groups }
      | none => { groups := [], ipv4 := false, rest := input }

theorem length_readGroups (index left : Nat) (input : List Char)
    : (readGroups index left input).groups.length ≤ left := by
  induction left generalizing index input with
  | zero => exact Nat.le_refl 0
  | succ left ih =>
    rw [readGroups]
    split
    . next hipv4 =>
      split at hipv4
      . next hlt => exact Nat.succ_le_succ hlt
      . contradiction
    . split
      . exact Nat.succ_le_succ (ih (index + 1) _)
      . exact Nat.zero_le _

theorem length_tail {n : Nat} (hle : n ≤ 8) (input : List Char)
    : n + (readGroups 0 (8 - (n + 1)) input).groups.length ≤ 8 := by
  have htail := length_readGroups 0 (8 - (n + 1)) input
  omega

end IpAddr

namespace Ipv6Addr

def fill (head tail : List UInt16) (h : head.length + tail.length ≤ 8) : Ipv6Addr where
  segments := head ++ List.replicate (8 - head.length - tail.length) 0 ++ tail
  length_segments := by
    simp only [List.length_append, List.length_replicate]
    omega

end Ipv6Addr

namespace IpAddr

def readIpv6Addr : Reader Ipv6Addr := fun input =>
  let head := readGroups 0 8 input
  if hhead : head.groups.length = 8 then
    some (⟨head.groups, hhead⟩, head.rest)
  else if head.ipv4 then
    none
  else
    (readGivenChar ':' head.rest).bind fun (_, rest) =>
      (readGivenChar ':' rest).bind fun (_, rest) =>
        -- `::` stands for one group at least
        let tail := readGroups 0 (8 - (head.groups.length + 1)) rest
        some (.fill head.groups tail.groups (length_tail (length_readGroups 0 8 input) rest), tail.rest)

end IpAddr

def Ipv6Addr.parse (text : String) : Option Ipv6Addr :=
  match IpAddr.readIpv6Addr text.toList with
  | some (addr, []) => some addr
  | _ => none

def IpAddr.parse (text : String) : Option IpAddr :=
  ((Ipv4Addr.parse text).map .v4).or ((Ipv6Addr.parse text).map .v6)

/-! ### The display -/

namespace Ipv4Addr

def display (addr : Ipv4Addr) : List Char :=
  Nat.toDigits 10 addr.a.toNat ++ '.' :: Nat.toDigits 10 addr.b.toNat
    ++ '.' :: Nat.toDigits 10 addr.c.toNat ++ '.' :: Nat.toDigits 10 addr.d.toNat

end Ipv4Addr

namespace Ipv6Addr

def toIpv4Mapped (addr : Ipv6Addr) : Option Ipv4Addr :=
  if addr.segments.take 6 = [0, 0, 0, 0, 0, 65535] then
    match addr.segments.drop 6 with
    | [high, low] => some (.ofSegments high low)
    | _ => none
  else
    none

structure Span where
  start : Nat := 0
  len : Nat := 0
  deriving DecidableEq, Repr

/-- The longest span of zeros of the groups from the index `i` on, or the longest one before. -/
def longestZeroes (i : Nat) (longest current : Span) : (segments : List UInt16) → Span
  | [] => longest
  | segment :: segments =>
    if segment = 0 then
      let current : Span :=
        { start := if current.len = 0 then i else current.start, len := current.len + 1 }
      longestZeroes (i + 1) (if longest.len < current.len then current else longest) current segments
    else
      longestZeroes (i + 1) longest {} segments

def zeroes (addr : Ipv6Addr) : Span := longestZeroes 0 {} {} addr.segments

def fmtSubslice : (chunk : List UInt16) → List Char
  | [] => []
  | first :: tail =>
    Nat.toDigits 16 first.toNat ++ tail.flatMap fun segment => ':' :: Nat.toDigits 16 segment.toNat

def display (addr : Ipv6Addr) : List Char :=
  match addr.toIpv4Mapped with
  | some ipv4 => "::ffff:".toList ++ ipv4.display
  | none =>
    if 1 < addr.zeroes.len then
      fmtSubslice (addr.segments.take addr.zeroes.start) ++ "::".toList
        ++ fmtSubslice (addr.segments.drop (addr.zeroes.start + addr.zeroes.len))
    else
      fmtSubslice addr.segments

end Ipv6Addr

namespace IpAddr

def display : IpAddr → List Char
  | .v4 addr => addr.display
  | .v6 addr => addr.display

def toString (addr : IpAddr) : String := .ofList addr.display

end IpAddr
