import Mathlib.Data.String.Basic
import Shreduler.IpAddr.Basic

/-!
This module contains the grammar of the textual forms of IP addresses, and proves that the parser accepts
exactly these, the displayed ones among them.
-/

namespace IpAddr

/-! ### Numbers -/

def Stops (p : Char → Bool) (rest : List Char) : Prop := ∀ c ∈ rest.head?, p c = false

structure Numeral (radix maxDigits bound : Nat) (allowZeroPrefix : Bool) (text : List Char) (n : Nat)
    : Prop where
  digits : ∀ c ∈ text, isDigit radix c
  ne_nil : text ≠ []
  length_le : text.length ≤ maxDigits
  zeroPrefix : allowZeroPrefix = false → text.head? = some '0' → text.length = 1
  value : number radix text = n
  lt : n < bound

abbrev Octet := Numeral 10 3 256 false

abbrev Hextet := Numeral 16 4 65536 true

variable {α : Type} {p : Char → Bool} {radix maxDigits bound n : Nat} {allowZeroPrefix : Bool}
  {text input rest : List Char} {c : Char}

theorem stops_dropWhile (p : Char → Bool) (input : List Char) : Stops p (input.dropWhile p) := by
  intro c hc
  have hhead := List.head?_dropWhile_not p input
  rw [Option.mem_def.mp hc] at hhead
  exact hhead

theorem takeWhile_append_of_stops (htext : ∀ c ∈ text, p c) (hrest : Stops p rest)
    : (text ++ rest).takeWhile p = text ∧ (text ++ rest).dropWhile p = rest := by
  rw [List.takeWhile_append_of_pos htext, List.dropWhile_append_of_pos htext]
  cases rest with
  | nil => simp
  | cons c rest =>
    have hc : p c = false := hrest c rfl
    simp [hc]

theorem readNumber_append {rest' : List Char} (htext : ∀ c ∈ text, isDigit radix c)
    (hrest : Stops (isDigit radix) rest)
    : readNumber radix maxDigits bound allowZeroPrefix (text ++ rest) = some (n, rest') ↔
        Numeral radix maxDigits bound allowZeroPrefix text n ∧ rest' = rest := by
  obtain ⟨htake, hdrop⟩ := takeWhile_append_of_stops htext hrest
  simp only [readNumber, htake, hdrop]
  cases text with
  | nil =>
    simp only [List.length_nil, Nat.not_lt_zero, if_false, if_true]
    exact iff_of_false (by simp) fun h => h.1.ne_nil rfl
  | cons c text =>
    rw [List.cons_append, List.head?_cons]
    constructor
    . intro hread
      split_ifs at hread with hmax hnil hzero hlt
      simp only [Option.some.injEq, Prod.mk.injEq] at hread
      obtain ⟨hn, rfl⟩ := hread
      refine ⟨⟨htext, List.cons_ne_nil _ _, Nat.le_of_not_lt hmax, ?_, hn, hn ▸ hlt⟩, rfl⟩
      intro hallow hhead
      rw [List.head?_cons] at hhead
      rw [List.length_cons] at hzero ⊢
      by_contra hone
      exact hzero ⟨by simp [hallow], hhead, by omega⟩
    . rintro ⟨h, rfl⟩
      rw [if_neg (Nat.not_lt.mpr h.length_le), if_neg (by simp), if_neg, h.value, if_pos h.lt]
      rintro ⟨hallow, hzero, hlt⟩
      have := h.zeroPrefix (by simpa using hallow) hzero
      omega

theorem readNumber_eq_some
    : readNumber radix maxDigits bound allowZeroPrefix input = some (n, rest) ↔
        (∃ text, input = text ++ rest ∧ Numeral radix maxDigits bound allowZeroPrefix text n) ∧
          Stops (isDigit radix) rest := by
  constructor
  . intro hread
    have hsplit := List.takeWhile_append_dropWhile (p := isDigit radix) (l := input)
    have htext : ∀ c ∈ input.takeWhile (isDigit radix), isDigit radix c :=
      fun c hc => List.mem_takeWhile_imp hc
    have hrest := stops_dropWhile (isDigit radix) input
    rw [← hsplit, readNumber_append htext hrest] at hread
    obtain ⟨hnumeral, rfl⟩ := hread
    exact ⟨⟨_, hsplit.symm, hnumeral⟩, hrest⟩
  . rintro ⟨⟨text, rfl, h⟩, hrest⟩
    exact (readNumber_append h.digits hrest).mpr ⟨h, rfl⟩

/-! ### IPv4 addresses -/

inductive Dotted : List Char → Ipv4Addr → Prop where
  | mk {ta tb tc td : List Char} {a b c d : Nat} (ha : Octet ta a) (hb : Octet tb b)
    (hc : Octet tc c) (hd : Octet td d)
    : Dotted (ta ++ '.' :: (tb ++ '.' :: (tc ++ '.' :: td))) ⟨.ofNat a, .ofNat b, .ofNat c, .ofNat d⟩

theorem readGivenChar_eq_some {given : Char} {u : Unit}
    : readGivenChar given input = some (u, rest) ↔ input = given :: rest := by
  cases input with
  | nil => simp [readGivenChar]
  | cons c input =>
    rw [readGivenChar]
    split
    . next heq => simp [heq]
    . next hne => simp [hne]

theorem readSeparator_zero (sep : Char) (inner : Reader α) : readSeparator sep 0 inner = inner := rfl

theorem readSeparator_succ_eq_some {sep : Char} {index : Nat} {inner : Reader α} {x : α}
    : readSeparator sep (index + 1) inner input = some (x, rest) ↔
        ∃ tail, input = sep :: tail ∧ inner tail = some (x, rest) := by
  simp [readSeparator, Option.bind_eq_some_iff, readGivenChar_eq_some]

theorem stops_cons {radix : Nat} {c : Char} (hc : isDigit radix c = false) (rest : List Char)
    : Stops (isDigit radix) (c :: rest) := by
  rintro _ ⟨⟩
  exact hc

theorem stops_dot (rest : List Char) : Stops (isDigit 10) ('.' :: rest) :=
  stops_cons (by decide) rest

theorem readDotOctet_eq_some {index : Nat}
    : readSeparator '.' (index + 1) readOctet input = some (n, rest) ↔
        (∃ text, input = '.' :: (text ++ rest) ∧ Octet text n) ∧ Stops (isDigit 10) rest := by
  rw [readSeparator_succ_eq_some]
  simp only [readOctet, readNumber_eq_some]
  constructor
  . rintro ⟨_, rfl, ⟨text, rfl, h⟩, hrest⟩
    exact ⟨⟨text, rfl, h⟩, hrest⟩
  . rintro ⟨⟨text, rfl, h⟩, hrest⟩
    exact ⟨_, rfl, ⟨text, rfl, h⟩, hrest⟩

theorem readIpv4Addr_eq_some {addr : Ipv4Addr}
    : readIpv4Addr input = some (addr, rest) ↔
        (∃ text, input = text ++ rest ∧ Dotted text addr) ∧ Stops (isDigit 10) rest := by
  simp only [readIpv4Addr, readSeparator_zero, Option.bind_eq_bind, Option.bind_eq_some_iff,
    Prod.exists, Option.some.injEq, Prod.mk.injEq]
  constructor
  . rintro ⟨a, _, hreadA, b, _, hreadB, c, _, hreadC, d, _, hreadD, rfl, rfl⟩
    obtain ⟨⟨ta, rfl, ha⟩, -⟩ := readNumber_eq_some.mp hreadA
    obtain ⟨⟨tb, rfl, hb⟩, -⟩ := readDotOctet_eq_some.mp hreadB
    obtain ⟨⟨tc, rfl, hc⟩, -⟩ := readDotOctet_eq_some.mp hreadC
    obtain ⟨⟨td, rfl, hd⟩, hrest⟩ := readDotOctet_eq_some.mp hreadD
    refine ⟨⟨_, ?_, .mk ha hb hc hd⟩, hrest⟩
    simp only [List.append_assoc, List.cons_append]
  . rintro ⟨⟨_, rfl, ⟨ha, hb, hc, hd⟩⟩, hrest⟩
    simp only [List.append_assoc, List.cons_append]
    refine ⟨_, _, readNumber_eq_some.mpr ⟨⟨_, rfl, ha⟩, stops_dot _⟩,
      _, _, readDotOctet_eq_some.mpr ⟨⟨_, rfl, hb⟩, stops_dot _⟩,
      _, _, readDotOctet_eq_some.mpr ⟨⟨_, rfl, hc⟩, stops_dot _⟩,
      _, _, readDotOctet_eq_some.mpr ⟨⟨_, rfl, hd⟩, hrest⟩, rfl, rfl⟩

theorem utf8Size_of_isDigit (h : isDigit radix c) : c.utf8Size = 1 := by
  have hascii (last : Char) (hle : c ≤ last) (hlast : last.val ≤ 127) : c.utf8Size = 1 :=
    Char.utf8Size_eq_one_iff.mpr (UInt32.le_trans hle hlast)
  simp only [isDigit, toDigit] at h
  split_ifs at h with hdecimal hlower hupper
  . exact hascii '9' hdecimal.2 (by decide)
  . exact hascii 'z' hlower.2 (by decide)
  . exact hascii 'Z' hupper.2 (by decide)
  . simp at h

theorem utf8Len_append (text text' : List Char)
    : String.utf8Len (text ++ text') = String.utf8Len text + String.utf8Len text' := by
  induction text with
  | nil => simp
  | cons c text ih =>
    simp only [List.cons_append, String.utf8Len_cons, ih]
    omega

theorem Numeral.utf8Len_le (h : Numeral radix maxDigits bound allowZeroPrefix text n)
    : String.utf8Len text ≤ maxDigits := by
  refine Nat.le_trans (Nat.le_of_eq ?_) h.length_le
  have hdigits := h.digits
  clear h
  induction text with
  | nil => rfl
  | cons c text ih =>
    rw [String.utf8Len_cons, ih fun c' hc' => hdigits c' (.tail _ hc'),
      utf8Size_of_isDigit (hdigits c (.head _)), List.length_cons]

theorem Dotted.utf8Len_le {addr : Ipv4Addr} (h : Dotted text addr) : String.utf8Len text ≤ 15 := by
  obtain ⟨ha, hb, hc, hd⟩ := h
  have hdot : '.'.utf8Size = 1 := rfl
  simp only [utf8Len_append, String.utf8Len_cons, hdot]
  have := ha.utf8Len_le
  have := hb.utf8Len_le
  have := hc.utf8Len_le
  have := hd.utf8Len_le
  omega

theorem Dotted.chars {addr : Ipv4Addr} (h : Dotted text addr) (hmem : c ∈ text)
    : isDigit 10 c ∨ c = '.' := by
  obtain ⟨ha, hb, hc, hd⟩ := h
  simp only [List.mem_append, List.mem_cons] at hmem
  obtain hmem | hmem | hmem | hmem | hmem | hmem | hmem := hmem
  . exact .inl (ha.digits c hmem)
  . exact .inr hmem
  . exact .inl (hb.digits c hmem)
  . exact .inr hmem
  . exact .inl (hc.digits c hmem)
  . exact .inr hmem
  . exact .inl (hd.digits c hmem)

/-! ### IPv6 addresses -/

/-- Groups with colons between them. With `ipv4` the last two are in dotted form. -/
inductive Series : (ipv4 : Bool) → List Char → List UInt16 → Prop where
  | hextet {text : List Char} {n : Nat} (h : Hextet text n) : Series false text [.ofNat n]
  | dotted {text : List Char} {addr : Ipv4Addr} (h : Dotted text addr)
    : Series true text addr.segments
  | cons {text tail : List Char} {n : Nat} {ipv4 : Bool} {groups : List UInt16} (h : Hextet text n)
    (htail : Series ipv4 tail groups) : Series ipv4 (text ++ ':' :: tail) (.ofNat n :: groups)

inductive Part : (ipv4 : Bool) → List Char → List UInt16 → Prop where
  | nil : Part false [] []
  | series {ipv4 : Bool} {text : List Char} {groups : List UInt16} (h : Series ipv4 text groups)
    : Part ipv4 text groups

inductive Ipv6Text : List Char → List UInt16 → Prop where
  | full {ipv4 : Bool} {text : List Char} {groups : List UInt16} (h : Series ipv4 text groups)
    (hlength : groups.length = 8) : Ipv6Text text groups
  | compressed {ipv4 : Bool} {thead ttail : List Char} {head tail : List UInt16}
    (hhead : Part false thead head) (htail : Part ipv4 ttail tail)
    (hlength : head.length + tail.length < 8)
    : Ipv6Text (thead ++ ':' :: ':' :: ttail)
        (head ++ List.replicate (8 - head.length - tail.length) 0 ++ tail)

theorem isDigit_sixteen_of_ten (h : isDigit 10 c) : isDigit 16 c := by
  simp only [isDigit, toDigit, Option.isSome_filter] at h ⊢
  obtain ⟨digit, hdigit, hlt⟩ := (Option.any_eq_true _ _).mp h
  refine (Option.any_eq_true _ _).mpr ⟨digit, hdigit, ?_⟩
  simp only [decide_eq_true_eq] at hlt ⊢
  omega

theorem Series.chars {ipv4 : Bool} {groups : List UInt16} (h : Series ipv4 text groups)
    (hmem : c ∈ text) : isDigit 16 c ∨ c = '.' ∨ c = ':' := by
  induction h with
  | hextet h => exact .inl (h.digits c hmem)
  | dotted h => exact (h.chars hmem).imp isDigit_sixteen_of_ten .inl
  | cons h _ ih =>
    obtain hmem | hmem := List.mem_append.mp hmem
    . exact .inl (h.digits c hmem)
    . obtain rfl | hmem := List.mem_cons.mp hmem
      . exact .inr (.inr rfl)
      . exact ih hmem

theorem Part.chars {ipv4 : Bool} {groups : List UInt16} (h : Part ipv4 text groups)
    (hmem : c ∈ text) : isDigit 16 c ∨ c = '.' ∨ c = ':' := by
  cases h with
  | nil => contradiction
  | series h => exact h.chars hmem

theorem Ipv6Text.chars {groups : List UInt16} (h : Ipv6Text text groups) (hmem : c ∈ text)
    : isDigit 16 c ∨ c = '.' ∨ c = ':' := by
  cases h with
  | full h => exact h.chars hmem
  | compressed hhead htail =>
    obtain hmem | hmem := List.mem_append.mp hmem
    . exact hhead.chars hmem
    . simp only [List.mem_cons] at hmem
      obtain hmem | hmem | hmem := hmem
      . exact .inr (.inr hmem)
      . exact .inr (.inr hmem)
      . exact htail.chars hmem

theorem Ipv6Text.colon_mem {groups : List UInt16} (h : Ipv6Text text groups) : ':' ∈ text := by
  cases h with
  | full h hlength =>
    cases h with
    | hextet => simp at hlength
    | dotted => simp [Ipv4Addr.segments] at hlength
    | cons => exact List.mem_append_right _ (.head _)
  | compressed => exact List.mem_append_right _ (.head _)

def separated (index : Nat) (text : List Char) : List Char := if 0 < index then ':' :: text else text

theorem readSeparator_separated (index : Nat) (inner : Reader α) (text : List Char)
    : readSeparator ':' index inner (separated index text) = inner text := by
  cases index <;> simp [readSeparator, separated, readGivenChar]

theorem readSeparator_eq_some {index : Nat} {inner : Reader α} {x : α}
    : readSeparator ':' index inner input = some (x, rest) ↔
        ∃ tail, input = separated index tail ∧ inner tail = some (x, rest) := by
  cases index with
  | zero => simp [readSeparator_zero, separated]
  | succ index => simp [readSeparator_succ_eq_some, separated]

theorem readGroups_sound (index left : Nat) (input : List Char)
    : readGroups index left input = { groups := [], ipv4 := false, rest := input } ∨ ∃ text,
        input = separated index (text ++ (readGroups index left input).rest) ∧
          Series (readGroups index left input).ipv4 text (readGroups index left input).groups := by
  induction left generalizing index input with
  | zero => exact .inl rfl
  | succ left ih =>
    rw [readGroups]
    cases hipv4 : (if 0 < left then readSeparator ':' index readIpv4Addr input else none) with
    | some read =>
      obtain ⟨addr, rest⟩ := read
      right
      obtain ⟨-, hseparated⟩ := Option.ite_none_right_eq_some.mp hipv4
      obtain ⟨_, rfl, hread⟩ := readSeparator_eq_some.mp hseparated
      obtain ⟨⟨text, rfl, h⟩, -⟩ := readIpv4Addr_eq_some.mp hread
      exact ⟨text, rfl, .dotted h⟩
    | none =>
      cases hhextet : readSeparator ':' index readHextet input with
      | none => exact .inl rfl
      | some read =>
        obtain ⟨group, rest⟩ := read
        right
        obtain ⟨_, rfl, hread⟩ := readSeparator_eq_some.mp hhextet
        obtain ⟨⟨text, rfl, h⟩, -⟩ := readNumber_eq_some.mp hread
        cases ih (index + 1) rest with
        | inl hnil =>
          refine ⟨text, ?_, ?_⟩
          . simp [hnil]
          . simpa [hnil] using Series.hextet h
        | inr hseries =>
          obtain ⟨tail, hrest, htail⟩ := hseries
          refine ⟨text ++ ':' :: tail, ?_, .cons h htail⟩
          simp only [separated, Nat.zero_lt_succ, if_true] at hrest
          simp only [List.append_assoc, List.cons_append, ← hrest]

theorem part_readGroups (left : Nat) (input : List Char)
    : ∃ text, input = text ++ (readGroups 0 left input).rest ∧
        Part (readGroups 0 left input).ipv4 text (readGroups 0 left input).groups := by
  cases readGroups_sound 0 left input with
  | inl hnil =>
    rw [hnil]
    exact ⟨[], rfl, .nil⟩
  | inr hseries =>
    obtain ⟨text, hinput, h⟩ := hseries
    exact ⟨text, hinput, .series h⟩

theorem readIpv6Addr_eq_some {addr : Ipv6Addr} {head : Groups} (hhead : readGroups 0 8 input = head)
    : readIpv6Addr input = some (addr, rest) ↔
        head.groups.length = 8 ∧ addr.segments = head.groups ∧ rest = head.rest ∨
          head.groups.length ≠ 8 ∧ head.ipv4 = false ∧ ∃ middle tail,
            head.rest = ':' :: ':' :: middle ∧
              readGroups 0 (8 - (head.groups.length + 1)) middle = tail ∧
              addr.segments = head.groups
                ++ List.replicate (8 - head.groups.length - tail.groups.length) 0 ++ tail.groups ∧
              rest = tail.rest := by
  subst hhead
  simp only [readIpv6Addr]
  by_cases hlength : (readGroups 0 8 input).groups.length = 8
  . rw [dif_pos hlength]
    simp only [hlength, Option.some.injEq, Prod.mk.injEq, Ipv6Addr.ext_iff, true_and, ne_eq,
      not_true_eq_false, false_and, or_false]
    exact and_congr eq_comm eq_comm
  . rw [dif_neg hlength]
    cases hipv4 : (readGroups 0 8 input).ipv4 with
    | true => simp [hlength]
    | false =>
      simp only [hlength, Bool.false_eq_true, if_false, Option.bind_eq_some_iff, Prod.exists,
        readGivenChar_eq_some, exists_const, false_and, ne_eq, not_false_eq_true, true_and, false_or,
        Option.some.injEq, Prod.mk.injEq, Ipv6Addr.ext_iff, Ipv6Addr.fill]
      constructor
      . rintro ⟨_, hrest, middle, rfl, hsegments, heq⟩
        exact ⟨middle, _, hrest, rfl, hsegments.symm, heq.symm⟩
      . rintro ⟨middle, _, hrest, rfl, hsegments, heq⟩
        exact ⟨_, hrest, middle, rfl, hsegments.symm, heq.symm⟩

theorem ipv6Text_of_read {addr : Ipv6Addr} (hread : readIpv6Addr input = some (addr, []))
    : Ipv6Text input addr.segments := by
  generalize hhead : readGroups 0 8 input = head
  have hle : head.groups.length ≤ 8 := hhead ▸ length_readGroups 0 8 input
  obtain ⟨thead, hinput, hpart⟩ := part_readGroups 8 input
  obtain ⟨hlength, hsegments, hrest⟩ |
      ⟨hlength, hipv4, middle, tail, hmiddle, htail, hsegments, hrest⟩ :=
    (readIpv6Addr_eq_some hhead).mp hread
  . rw [hhead, ← hrest, List.append_nil] at hinput
    rw [hsegments, hinput]
    rw [hhead] at hpart
    generalize head.groups = groups, head.ipv4 = ipv4 at *
    cases hpart with
    | nil => contradiction
    | series h => exact .full h hlength
  . obtain ⟨ttail, hmiddle', hpart'⟩ := part_readGroups (8 - (head.groups.length + 1)) middle
    have hleTail := length_readGroups 0 (8 - (head.groups.length + 1)) middle
    rw [htail] at hpart' hleTail hmiddle'
    rw [← hrest, List.append_nil] at hmiddle'
    rw [hhead, hipv4] at hpart
    rw [hhead] at hinput
    have htext := Ipv6Text.compressed hpart hpart' (by omega)
    rwa [← hsegments, ← hmiddle', ← hmiddle, ← hinput] at htext

def Ends (rest : List Char) : Prop := rest = [] ∨ ∃ tail, rest = ':' :: ':' :: tail

def Boundary (rest : List Char) : Prop := rest = [] ∨ ∃ tail, rest = ':' :: tail

theorem Ends.boundary (h : Ends rest) : Boundary rest := by
  cases h with
  | inl hnil => exact .inl hnil
  | inr hcolons =>
    obtain ⟨tail, rfl⟩ := hcolons
    exact .inr ⟨':' :: tail, rfl⟩

theorem Boundary.stops (h : Boundary rest) (hcolon : p ':' = false) : Stops p rest := by
  rintro c hc
  cases h with
  | inl hnil => simp [hnil] at hc
  | inr htail =>
    obtain ⟨tail, rfl⟩ := htail
    obtain rfl : ':' = c := by simpa using hc
    exact hcolon

theorem readNumber_of_stops (h : Stops (isDigit radix) input)
    : readNumber radix maxDigits bound allowZeroPrefix input = none := by
  rw [Option.eq_none_iff_forall_ne_some]
  rintro ⟨n, rest⟩ hread
  rw [← List.nil_append input, readNumber_append (by simp) h] at hread
  exact hread.1.ne_nil rfl

theorem readIpv4Addr_of_stops (h : Stops (isDigit 10) input) : readIpv4Addr input = none := by
  simp [readIpv4Addr, readSeparator_zero, readOctet, readNumber_of_stops h]

theorem readIpv4Addr_of_hextet (h : Hextet text n) (hrest : Boundary rest)
    : readIpv4Addr (text ++ rest) = none := by
  rw [Option.eq_none_iff_forall_ne_some]
  rintro ⟨addr, rest'⟩ hread
  obtain ⟨⟨_, heq, ⟨ha, -, -, -⟩⟩, -⟩ := readIpv4Addr_eq_some.mp hread
  -- both sides go on after the digits at their front, one with a colon and the other with a dot
  have hdrop := (takeWhile_append_of_stops h.digits (hrest.stops (by decide))).2
  rw [heq, List.append_assoc, List.cons_append] at hdrop
  rw [(takeWhile_append_of_stops (fun c hc => isDigit_sixteen_of_ten (ha.digits c hc))
    (stops_cons (by decide) _)).2] at hdrop
  obtain hnil | ⟨tail, htail⟩ := hrest
  . rw [hnil] at hdrop
    contradiction
  . rw [htail] at hdrop
    injection hdrop
    contradiction

theorem readHextet_append (h : Hextet text n) (hrest : Boundary rest)
    : readHextet (text ++ rest) = some (n, rest) :=
  readNumber_eq_some.mpr ⟨⟨text, rfl, h⟩, hrest.stops (by decide)⟩

theorem readGroups_hextet (h : Hextet text n) (hrest : Boundary rest) (index left : Nat)
    : readGroups index (left + 1) (separated index (text ++ rest))
        =
      { readGroups (index + 1) left rest with
        groups := .ofNat n :: (readGroups (index + 1) left rest).groups
      } := by
  rw [readGroups, readSeparator_separated, readIpv4Addr_of_hextet h hrest, ite_self,
    readSeparator_separated, readHextet_append h hrest]

theorem readGroups_nil {index : Nat} (hipv4 : readSeparator ':' index readIpv4Addr rest = none)
    (hhextet : readSeparator ':' index readHextet rest = none) (left : Nat)
    : readGroups index left rest = { groups := [], ipv4 := false, rest } := by
  cases left with
  | zero => rfl
  | succ left => rw [readGroups, hipv4, ite_self, hhextet]

theorem readGroups_ends (h : Ends rest) (index left : Nat)
    : readGroups (index + 1) left rest = { groups := [], ipv4 := false, rest } := by
  obtain rfl | ⟨tail, rfl⟩ := h
  . exact readGroups_nil rfl rfl left
  . have hcolon (radix : Nat) (hdigit : isDigit radix ':' = false)
        : Stops (isDigit radix) (':' :: tail) := stops_cons hdigit tail
    have hread {α : Type} (inner : Reader α)
        : readSeparator ':' (index + 1) inner (':' :: ':' :: tail) = inner (':' :: tail) :=
      readSeparator_separated (index + 1) inner (':' :: tail)
    apply readGroups_nil
    . exact (hread _).trans (readIpv4Addr_of_stops (hcolon 10 (by decide)))
    . exact (hread _).trans (readNumber_of_stops (hcolon 16 (by decide)))

theorem readGroups_series {ipv4 : Bool} {groups : List UInt16} (h : Series ipv4 text groups)
    (hrest : Ends rest) (index left : Nat) (hlength : groups.length ≤ left)
    : readGroups index left (separated index (text ++ rest)) = { groups, ipv4, rest } := by
  induction h generalizing index left with
  | hextet h =>
    obtain ⟨left, rfl⟩ : ∃ k, left = k + 1 := Nat.exists_eq_add_one.mpr hlength
    rw [readGroups_hextet h hrest.boundary, readGroups_ends hrest]
  | dotted h =>
    obtain ⟨left, rfl⟩ : ∃ k, left = k + 1 := Nat.exists_eq_add_one.mpr (Nat.lt_of_succ_lt hlength)
    have hread := readIpv4Addr_eq_some.mpr ⟨⟨_, rfl, h⟩, hrest.boundary.stops (by decide)⟩
    have hlt : 0 < left := Nat.le_of_succ_le_succ hlength
    rw [readGroups, readSeparator_separated, hread, if_pos hlt]
  | @cons text tail n ipv4 groups h _ ih =>
    obtain ⟨left, rfl⟩ : ∃ k, left = k + 1 :=
      Nat.exists_eq_add_one.mpr (Nat.lt_of_lt_of_le (Nat.zero_lt_succ _) hlength)
    have htail := ih (index + 1) left (Nat.le_of_succ_le_succ hlength)
    simp only [separated, Nat.zero_lt_succ, if_true] at htail
    rw [List.append_assoc, List.cons_append, readGroups_hextet h (.inr ⟨_, rfl⟩), htail]

theorem readGroups_part {ipv4 : Bool} {groups : List UInt16} (h : Part ipv4 text groups)
    (hrest : Ends rest) (left : Nat) (hlength : groups.length ≤ left)
    : readGroups 0 left (text ++ rest) = { groups, ipv4, rest } := by
  cases h with
  | series h => exact readGroups_series h hrest 0 left hlength
  | nil =>
    have hstops (radix : Nat) (hdigit : isDigit radix ':' = false) : Stops (isDigit radix) rest :=
      hrest.boundary.stops hdigit
    apply readGroups_nil
    . exact readIpv4Addr_of_stops (hstops 10 (by decide))
    . exact readNumber_of_stops (hstops 16 (by decide))

theorem read_of_ipv6Text {addr : Ipv6Addr} (h : Ipv6Text input addr.segments)
    : readIpv6Addr input = some (addr, []) := by
  generalize hsegments : addr.segments = segments at h
  cases h with
  | full h hlength =>
    have hhead := readGroups_series h (.inl rfl) 0 8 (Nat.le_of_eq hlength)
    rw [List.append_nil] at hhead
    exact (readIpv6Addr_eq_some hhead).mpr (.inl ⟨hlength, hsegments, rfl⟩)
  | @compressed _ thead ttail head tail hhead htail hlength =>
    have hlt : head.length < 8 := by omega
    have hread := readGroups_part hhead (.inr ⟨ttail, rfl⟩) 8 (Nat.le_of_lt hlt)
    have hread' := readGroups_part htail (.inl rfl) (8 - (head.length + 1)) (by omega)
    rw [List.append_nil] at hread'
    exact (readIpv6Addr_eq_some hread).mpr
      (.inr ⟨Nat.ne_of_lt hlt, rfl, ttail, _, rfl, hread', hsegments, rfl⟩)

end IpAddr

theorem Ipv6Addr.parse_eq_some {text : String} {addr : Ipv6Addr}
    : Ipv6Addr.parse text = some addr ↔ IpAddr.Ipv6Text text.toList addr.segments := by
  rw [Ipv6Addr.parse]
  constructor
  . intro hparse
    cases hread : IpAddr.readIpv6Addr text.toList with
    | none => simp [hread] at hparse
    | some read =>
      obtain ⟨addr', rest⟩ := read
      cases rest with
      | nil =>
        simp only [hread, Option.some.injEq] at hparse
        exact hparse ▸ IpAddr.ipv6Text_of_read hread
      | cons c rest => simp [hread] at hparse
  . intro h
    rw [IpAddr.read_of_ipv6Text h]

theorem Ipv4Addr.parse_eq_some {text : String} {addr : Ipv4Addr}
    : Ipv4Addr.parse text = some addr ↔ IpAddr.Dotted text.toList addr := by
  rw [Ipv4Addr.parse]
  constructor
  . intro hparse
    split at hparse
    . contradiction
    . cases hread : IpAddr.readIpv4Addr text.toList with
      | none => simp [hread] at hparse
      | some read =>
        obtain ⟨addr', rest⟩ := read
        cases rest with
        | nil =>
          simp only [hread, Option.some.injEq] at hparse
          obtain ⟨⟨_, htext, h⟩, -⟩ := IpAddr.readIpv4Addr_eq_some.mp hread
          rwa [htext, List.append_nil, ← hparse]
        | cons c rest => simp [hread] at hparse
  . intro h
    have hstops : IpAddr.Stops (IpAddr.isDigit 10) [] := by simp [IpAddr.Stops]
    have hread := IpAddr.readIpv4Addr_eq_some.mpr ⟨⟨_, (List.append_nil _).symm, h⟩, hstops⟩
    have hsize := h.utf8Len_le
    rw [← String.utf8ByteSize_ofList, String.ofList_toList] at hsize
    rw [if_neg (Nat.not_lt.mpr hsize), hread]
