import Shreduler.IpAddr.Literal

/-!
This module proves that the parser gives every address back from its display.
-/

namespace IpAddr

variable {radix n : Nat} {c : Char}

/-! ### Numbers -/

def Displays (radix : Nat) : Prop :=
  1 < radix ∧ ∀ digit < radix, toDigit radix digit.digitChar = some digit ∧
    (digit.digitChar = '0' → digit = 0)

theorem displays_ten : Displays 10 := ⟨by decide, by decide⟩

theorem displays_sixteen : Displays 16 := ⟨by decide, by decide⟩

theorem number_append_singleton (text : List Char) (c : Char)
    : number radix (text ++ [c]) = number radix text * radix + (toDigit radix c).getD 0 := by
  simp [number]

theorem toDigits_induction {P : Nat → List Char → Prop} (hradix : Displays radix)
    (hone : ∀ digit < radix, P digit [digit.digitChar])
    (happend : ∀ n, radix ≤ n → P (n / radix) (Nat.toDigits radix (n / radix)) →
      P n (Nat.toDigits radix (n / radix) ++ [(n % radix).digitChar])) (n : Nat)
    : P n (Nat.toDigits radix n) := by
  induction n using Nat.strong_induction_on with
  | _ n ih =>
    rw [Nat.toDigits_eq_if hradix.1]
    split
    . next hlt => exact hone n hlt
    . next hge =>
      have hle := Nat.le_of_not_lt hge
      have hpos : 0 < n := by
        have := hradix.1
        omega
      exact happend n hle (ih (n / radix) (Nat.div_lt_self hpos hradix.1))

theorem isDigit_toDigits (hradix : Displays radix) (n : Nat)
    : ∀ c ∈ Nat.toDigits radix n, isDigit radix c := by
  have hdigit (digit : Nat) (hlt : digit < radix) : isDigit radix digit.digitChar := by
    rw [isDigit, (hradix.2 digit hlt).1]
    rfl
  apply toDigits_induction (P := fun _ text => ∀ c ∈ text, isDigit radix c) hradix
  . intro digit hlt c hc
    rw [List.mem_singleton.mp hc]
    exact hdigit digit hlt
  . intro n _ ih c hc
    obtain hc | hc := List.mem_append.mp hc
    . exact ih c hc
    . rw [List.mem_singleton.mp hc]
      exact hdigit _ (Nat.mod_lt n (Nat.lt_trans Nat.zero_lt_one hradix.1))

theorem number_toDigits (hradix : Displays radix) (n : Nat)
    : number radix (Nat.toDigits radix n) = n := by
  apply toDigits_induction (P := fun n text => number radix text = n) hradix
  . intro digit hlt
    simp [number, (hradix.2 digit hlt).1]
  . intro n _ ih
    have hlt := Nat.mod_lt n (Nat.lt_trans Nat.zero_lt_one hradix.1)
    rw [number_append_singleton, ih, (hradix.2 _ hlt).1, Option.getD_some, Nat.mul_comm]
    exact Nat.div_add_mod n radix

theorem eq_zero_of_toDigits (hradix : Displays radix) (n : Nat)
    (hzero : (Nat.toDigits radix n).head? = some '0') : n = 0 := by
  revert hzero
  apply toDigits_induction (P := fun n text => text.head? = some '0' → n = 0) hradix
  . intro digit hlt hzero
    exact (hradix.2 digit hlt).2 (Option.some.inj hzero)
  . intro n hle ih hzero
    rw [List.head?_append_of_ne_nil _ Nat.toDigits_ne_nil] at hzero
    have hpos := Nat.div_pos hle (Nat.lt_trans Nat.zero_lt_one hradix.1)
    have := ih hzero
    omega

theorem numeral_toDigits {maxDigits : Nat} {allowZeroPrefix : Bool} (hradix : Displays radix)
    (hpos : 0 < maxDigits) {bound : Nat} (hbound : bound ≤ radix ^ maxDigits) (hlt : n < bound)
    : Numeral radix maxDigits bound allowZeroPrefix (Nat.toDigits radix n) n where
  digits := isDigit_toDigits hradix n
  ne_nil := Nat.toDigits_ne_nil
  length_le := (Nat.length_toDigits_le_iff hradix.1 hpos).mpr (Nat.lt_of_lt_of_le hlt hbound)
  zeroPrefix _ hzero := by
    rw [eq_zero_of_toDigits hradix n hzero, Nat.toDigits_zero]
    rfl
  value := number_toDigits hradix n
  lt := hlt

theorem octet_toDigits (n : UInt8) : Octet (Nat.toDigits 10 n.toNat) n.toNat :=
  numeral_toDigits displays_ten (by decide) (by decide) n.toNat_lt

theorem hextet_toDigits (n : UInt16) : Hextet (Nat.toDigits 16 n.toNat) n.toNat :=
  numeral_toDigits displays_sixteen (by decide) (by decide) n.toNat_lt

/-! ### Addresses -/

theorem dotted_display (addr : Ipv4Addr) : Dotted addr.display addr := by
  have h := Dotted.mk (octet_toDigits addr.a) (octet_toDigits addr.b) (octet_toDigits addr.c)
    (octet_toDigits addr.d)
  simpa only [Ipv4Addr.display, List.append_assoc, List.cons_append, UInt8.ofNat_toNat] using h

theorem series_fmtSubslice (first : UInt16) (tail : List UInt16)
    : Series false (Ipv6Addr.fmtSubslice (first :: tail)) (first :: tail) := by
  induction tail generalizing first with
  | nil => simpa [Ipv6Addr.fmtSubslice] using Series.hextet (hextet_toDigits first)
  | cons second tail ih =>
    simpa [Ipv6Addr.fmtSubslice] using Series.cons (hextet_toDigits first) (ih second)

theorem part_fmtSubslice (chunk : List UInt16) : Part false (Ipv6Addr.fmtSubslice chunk) chunk := by
  cases chunk with
  | nil => exact .nil
  | cons first tail => exact .series (series_fmtSubslice first tail)

theorem segments_ofSegments (high low : UInt16)
    : (Ipv4Addr.ofSegments high low).segments = [high, low] := by
  have hbytes (n : UInt16)
      : UInt16.ofNat ((UInt8.ofNat (n.toNat / 256)).toNat * 256 + (UInt8.ofNat (n.toNat % 256)).toNat)
        = n := by
    have hlt := n.toNat_lt
    have hhigh : (UInt8.ofNat (n.toNat / 256)).toNat = n.toNat / 256 := by
      rw [UInt8.toNat_ofNat']
      omega
    have hlow : (UInt8.ofNat (n.toNat % 256)).toNat = n.toNat % 256 := by
      rw [UInt8.toNat_ofNat']
      omega
    rw [hhigh, hlow, Nat.div_add_mod']
    exact UInt16.ofNat_toNat
  simp only [Ipv4Addr.segments, Ipv4Addr.ofSegments, hbytes]

def Zeroes (segments : List UInt16) (span : Ipv6Addr.Span) : Prop :=
  (segments.drop span.start).take span.len = List.replicate span.len 0

theorem zeroes_default (segments : List UInt16) : Zeroes segments {} := rfl

theorem Zeroes.extend {segments : List UInt16} {span : Ipv6Addr.Span} {i : Nat}
    (h : Zeroes segments span) (hi : segments[i]? = some 0) (hspan : span.start + span.len = i)
    : Zeroes segments { start := span.start, len := span.len + 1 } := by
  unfold Zeroes at h ⊢
  rw [List.take_add_one, h, List.getElem?_drop, hspan, hi, List.replicate_succ']
  rfl

def UpTo (i : Nat) (span : Ipv6Addr.Span) : Prop := span.len = 0 ∨ span.start + span.len = i

theorem Zeroes.current {segments : List UInt16} {span : Ipv6Addr.Span} {i : Nat}
    (h : Zeroes segments span) (hi : segments[i]? = some 0) (hspan : UpTo i span)
    : Zeroes segments { start := if span.len = 0 then i else span.start, len := span.len + 1 } ∧
        UpTo (i + 1) { start := if span.len = 0 then i else span.start, len := span.len + 1 } := by
  by_cases hlen : span.len = 0
  . rw [if_pos hlen, hlen]
    have hempty : Zeroes segments { start := i, len := 0 } := rfl
    exact ⟨hempty.extend hi rfl, .inr rfl⟩
  . rw [if_neg hlen]
    have hend := hspan.resolve_left hlen
    exact ⟨h.extend hi hend, .inr (congrArg (· + 1) hend)⟩

theorem zeroes_longestZeroes {segments rest : List UInt16} {i : Nat} {longest current : Ipv6Addr.Span}
    (hrest : segments.drop i = rest) (hlongest : Zeroes segments longest)
    (hcurrent : Zeroes segments current) (hi : UpTo i current)
    : Zeroes segments (Ipv6Addr.longestZeroes i longest current rest) := by
  induction rest generalizing i longest current with
  | nil => exact hlongest
  | cons segment rest ih =>
    have hget : segments[i]? = some segment := by
      rw [← List.head?_drop, hrest, List.head?_cons]
    have hrest' : segments.drop (i + 1) = rest := by
      rw [← List.tail_drop, hrest, List.tail_cons]
    rw [Ipv6Addr.longestZeroes]
    split
    . next hzero =>
      obtain ⟨hcurrent, hi⟩ := hcurrent.current (hzero ▸ hget) hi
      refine ih hrest' ?_ hcurrent hi
      exact iteInduction (fun _ => hcurrent) (fun _ => hlongest)
    . exact ih hrest' hlongest (zeroes_default segments) (.inl rfl)

theorem Zeroes.eq_append {segments : List UInt16} {span : Ipv6Addr.Span} (h : Zeroes segments span)
    : segments = segments.take span.start ++ List.replicate span.len 0
        ++ segments.drop (span.start + span.len) := by
  unfold Zeroes at h
  rw [← h, List.append_assoc, ← List.drop_drop, List.take_append_drop, List.take_append_drop]

theorem Zeroes.le_length {segments : List UInt16} {span : Ipv6Addr.Span} (h : Zeroes segments span)
    (hlen : 0 < span.len) : span.start + span.len ≤ segments.length := by
  have hlength := congrArg List.length h
  simp only [List.length_take, List.length_drop, List.length_replicate] at hlength
  omega

theorem ipv6Text_of_zeroes {segments : List UInt16} {span : Ipv6Addr.Span} (h : Zeroes segments span)
    (hlength : segments.length = 8) (hlen : 0 < span.len)
    : Ipv6Text (Ipv6Addr.fmtSubslice (segments.take span.start) ++ ':' :: ':' ::
        Ipv6Addr.fmtSubslice (segments.drop (span.start + span.len))) segments := by
  have hle := h.le_length hlen
  have hhead : (segments.take span.start).length = span.start := by
    rw [List.length_take]
    omega
  have htail : (segments.drop (span.start + span.len)).length = 8 - (span.start + span.len) := by
    rw [List.length_drop, hlength]
  have htext := Ipv6Text.compressed (part_fmtSubslice (segments.take span.start))
    (part_fmtSubslice (segments.drop (span.start + span.len))) (by omega)
  have hzeroes : 8 - span.start - (8 - (span.start + span.len)) = span.len := by omega
  rwa [hhead, htail, hzeroes, ← h.eq_append] at htext

theorem segments_of_mapped {addr : Ipv6Addr} {ipv4 : Ipv4Addr} (h : addr.toIpv4Mapped = some ipv4)
    : addr.segments = List.replicate 5 0 ++ 65535 :: ipv4.segments := by
  unfold Ipv6Addr.toIpv4Mapped at h
  split at h
  . next htake =>
    split at h
    . next high low hdrop =>
      injection h with h
      rw [← h, segments_ofSegments, ← List.take_append_drop 6 addr.segments, htake, hdrop]
      rfl
    . contradiction
  . contradiction

theorem ipv6Text_display (addr : Ipv6Addr) : Ipv6Text addr.display addr.segments := by
  unfold Ipv6Addr.display
  split
  . next ipv4 hmapped =>
    have hffff : Hextet "ffff".toList 65535 := hextet_toDigits 65535
    rw [segments_of_mapped hmapped]
    have hlength : 0 + (65535 :: ipv4.segments).length < 8 := by simp [Ipv4Addr.segments]
    exact .compressed .nil (.series (.cons hffff (.dotted (dotted_display ipv4)))) hlength
  . split
    . next hlen =>
      have hzeroes : Zeroes addr.segments addr.zeroes :=
        zeroes_longestZeroes rfl (zeroes_default _) (zeroes_default _) (.inl rfl)
      have htext := ipv6Text_of_zeroes hzeroes addr.length_segments (Nat.lt_of_succ_lt hlen)
      simpa using htext
    . obtain ⟨segments, hlength⟩ := addr
      cases segments with
      | nil => contradiction
      | cons first tail => exact .full (series_fmtSubslice first tail) hlength

end IpAddr

theorem Ipv4Addr.parse_display (addr : Ipv4Addr)
    : Ipv4Addr.parse (String.ofList addr.display) = some addr := by
  rw [Ipv4Addr.parse_eq_some, String.toList_ofList]
  exact IpAddr.dotted_display addr

theorem Ipv6Addr.parse_display (addr : Ipv6Addr)
    : Ipv6Addr.parse (String.ofList addr.display) = some addr := by
  rw [Ipv6Addr.parse_eq_some, String.toList_ofList]
  exact IpAddr.ipv6Text_display addr

namespace IpAddr

theorem parse_v4 {text : String} {addr : Ipv4Addr} (h : Ipv4Addr.parse text = some addr)
    : parse text = some (.v4 addr) := by
  simp [parse, h]

theorem parse_v6 {text : String} {addr : Ipv6Addr} (h : Ipv6Addr.parse text = some addr)
    : parse text = some (.v6 addr) := by
  have hcolon := (Ipv6Addr.parse_eq_some.mp h).colon_mem
  have hipv4 : Ipv4Addr.parse text = none := by
    rw [Option.eq_none_iff_forall_ne_some]
    intro addr' hparse
    have hchars := (Ipv4Addr.parse_eq_some.mp hparse).chars hcolon
    contradiction
  simp [parse, h, hipv4]

/-- The parser gives every address back from its display. -/
theorem parse_toString (addr : IpAddr) : parse addr.toString = some addr := by
  cases addr with
  | v4 addr => exact parse_v4 addr.parse_display
  | v6 addr => exact parse_v6 addr.parse_display

example : (parse "FE80:0::1:0:0:A").map display = some "fe80::1:0:0:a".toList := by decide

end IpAddr
