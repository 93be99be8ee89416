import Mathlib.Data.List.TakeDrop
import Shreduler.IpAddr.Display
import Shreduler.TokioScheduler.Impl.AddressResolve

/-!
This module proves for which hosts `address_resolve` tells a port from the rest of an address.
-/

namespace Shreduler
namespace AddressResolve

def LooksUpLiterals (lookupHost : LookupHost) : Prop :=
  ∀ text ip port, IpAddr.parse text = some ip → lookupHost (text, port) = .ok [{ ip, port }]

def IsName (host : String) : Prop := ':' ∉ host.toList ∧ '%' ∉ host.toList

def IsIpv4 (host : String) : Prop := ∃ addr, Ipv4Addr.parse host = some addr

def IsIpv6 (host : String) : Prop := ∃ addr, Ipv6Addr.parse host = some addr

def IsHost (host : String) : Prop := IsName host ∨ IsIpv4 host ∨ IsIpv6 host

def lookedUp (lookupHost : LookupHost) (host : String) : Resolution where
  lookups := [(host, 80)]
  result := addresses (lookupHost (host, 80))

def withoutLookup : Resolution where
  lookups := []
  result := .ok []

structure SeparatesPorts (lookupHost : LookupHost) (host : String) : Prop where
  plain : addressResolve lookupHost (.ok host) = .ok (lookedUp lookupHost host)
  withScope : ∀ scope : String,
    addressResolve lookupHost (.ok (host ++ "%" ++ scope)) = .ok (lookedUp lookupHost host)
  -- An IP literal resolves to itself.
  literal : ∀ ip, IpAddr.parse host = some ip →
    ∃ text, (lookedUp lookupHost host).result = .ok [text] ∧ IpAddr.parse text = some ip
  withPort : IsName host ∨ IsIpv4 host → ∀ port : String,
    addressResolve lookupHost (.ok (host ++ ":" ++ port)) = .ok withoutLookup

variable {lookupHost : LookupHost} {host hostname : String} {chars : List Char}

/-! ### Splitting -/

theorem head?_splitOn (sep : Char) (chars : List Char)
    : (chars.splitOn sep).head? = some (chars.takeWhile (· ≠ sep)) := by
  induction chars with
  | nil => rfl
  | cons c chars ih =>
    rw [List.splitOn_cons_eq_if_modifyHead]
    by_cases hc : c = sep
    . simp [hc]
    . simp [hc, ih]

theorem splitn_of_not_mem (h : ':' ∉ chars) : splitn ':' 2 chars = [chars] := by
  have hall : ∀ c ∈ chars, decide (c ≠ ':') = true := by
    intro c hc
    exact decide_eq_true (ne_of_mem_of_not_mem hc h)
  rw [splitn, List.span_eq_takeWhile_dropWhile, List.takeWhile_eq_self_iff.mpr hall,
    List.dropWhile_eq_nil_iff.mpr hall]

theorem splitn_of_mem (h : ':' ∈ chars)
    : ∃ host port rest, splitn ':' 2 chars = host :: port :: rest := by
  rw [splitn, List.span_eq_takeWhile_dropWhile]
  cases hdrop : chars.dropWhile (· ≠ ':') with
  | nil => exact absurd rfl (of_decide_eq_true (List.dropWhile_eq_nil_iff.mp hdrop ':' h))
  | cons c rest => exact ⟨_, rest, [], rfl⟩

theorem addressResolve_of_not_mem (hhead : hostname.toList.takeWhile (· ≠ '%') = host.toList)
    (h : ':' ∉ host.toList)
    : addressResolve lookupHost (.ok hostname) = .ok (lookedUp lookupHost host) := by
  simp only [addressResolve, Except.map, future, head?_splitOn, hhead, Option.getD_some,
    splitn_of_not_mem h, String.ofList_toList, lookedUp]

theorem addressResolve_of_mem (h : ':' ∈ hostname.toList.takeWhile (· ≠ '%'))
    : addressResolve lookupHost (.ok hostname) = .ok withoutLookup := by
  obtain ⟨host, port, rest, hsplit⟩ := splitn_of_mem h
  simp only [addressResolve, Except.map, future, head?_splitOn, Option.getD_some, hsplit,
    withoutLookup]

theorem takeWhile_of_not_mem (h : '%' ∉ chars) (rest : List Char)
    : (chars ++ rest).takeWhile (· ≠ '%') = chars ++ rest.takeWhile (· ≠ '%') := by
  apply List.takeWhile_append_of_pos
  intro c hc
  exact decide_eq_true (ne_of_mem_of_not_mem hc h)

/-! ### Hosts -/

theorem IsIpv4.isName (h : IsIpv4 host) : IsName host := by
  obtain ⟨addr, hparse⟩ := h
  have hdotted := Ipv4Addr.parse_eq_some.mp hparse
  constructor
  . intro hmem
    have := hdotted.chars hmem
    contradiction
  . intro hmem
    have := hdotted.chars hmem
    contradiction

theorem IsIpv6.colon_mem (h : IsIpv6 host) : ':' ∈ host.toList := by
  obtain ⟨addr, hparse⟩ := h
  exact (Ipv6Addr.parse_eq_some.mp hparse).colon_mem

theorem IsIpv6.percent_not_mem (h : IsIpv6 host) : '%' ∉ host.toList := by
  obtain ⟨addr, hparse⟩ := h
  intro hmem
  have := (Ipv6Addr.parse_eq_some.mp hparse).chars hmem
  contradiction

theorem IsName.separatesPorts (hlookup : LooksUpLiterals lookupHost) (h : IsName host)
    : SeparatesPorts lookupHost host := by
  obtain ⟨hcolon, hpercent⟩ := h
  have hself : host.toList.takeWhile (· ≠ '%') = host.toList := by
    simpa using takeWhile_of_not_mem hpercent []
  constructor
  . exact addressResolve_of_not_mem hself hcolon
  . intro scope
    apply addressResolve_of_not_mem _ hcolon
    rw [String.toList_append, String.toList_append, List.append_assoc,
      takeWhile_of_not_mem hpercent]
    simp
  . intro ip hparse
    refine ⟨ip.toString, ?_, IpAddr.parse_toString ip⟩
    simp [lookedUp, addresses, hlookup host ip 80 hparse]
  . intro _ port
    apply addressResolve_of_mem
    rw [String.toList_append, String.toList_append, List.append_assoc,
      takeWhile_of_not_mem hpercent]
    simp

theorem IsIpv6.addressResolve_eq (lookupHost : LookupHost) (h : IsIpv6 host)
    : addressResolve lookupHost (.ok host) = .ok withoutLookup := by
  apply addressResolve_of_mem
  have hself := takeWhile_of_not_mem h.percent_not_mem []
  rw [List.append_nil] at hself
  rw [hself]
  simpa using h.colon_mem

theorem IsIpv6.not_separatesPorts (h : IsIpv6 host) : ¬ SeparatesPorts lookupHost host := by
  intro hseparates
  have hplain := hseparates.plain
  rw [h.addressResolve_eq] at hplain
  injection hplain with hresolution
  injection hresolution with hlookups
  contradiction

/-- A host is told from a port if and only if it is no IPv6 literal. -/
theorem separates_ports_iff (hlookup : LooksUpLiterals lookupHost) (hhost : IsHost host)
    : SeparatesPorts lookupHost host ↔ ¬ IsIpv6 host := by
  constructor
  . intro hseparates hipv6
    exact hipv6.not_separatesPorts hseparates
  . intro hipv6
    obtain hname | hipv4 | hipv6' := hhost
    . exact hname.separatesPorts hlookup
    . exact hipv4.isName.separatesPorts hlookup
    . exact absurd hipv6' hipv6

def literalLookup : LookupHost := fun (host, port) =>
  match IpAddr.parse host with
  | some ip => .ok [{ ip, port }]
  | none => .error "failed to lookup address information: Name or service not known"

theorem looksUpLiterals_literalLookup : LooksUpLiterals literalLookup := by
  intro text ip port hparse
  simp [literalLookup, hparse]

theorem separates_ports_loopback
    : SeparatesPorts literalLookup "127.0.0.1" ↔ ¬ IsIpv6 "127.0.0.1" :=
  separates_ports_iff looksUpLiterals_literalLookup (.inr (.inl ⟨⟨127, 0, 0, 1⟩, by decide⟩))

theorem not_forall_separates_ports
    : ¬ ∀ lookupHost, LooksUpLiterals lookupHost → ∀ host, IsHost host →
        SeparatesPorts lookupHost host := by
  intro h
  have hipv6 : IsIpv6 "::1" := ⟨⟨[0, 0, 0, 0, 0, 0, 0, 1], rfl⟩, by decide⟩
  exact hipv6.not_separatesPorts (h literalLookup looksUpLiterals_literalLookup _ (.inr (.inr hipv6)))

/-! ### The addresses that are returned -/

theorem eq_map_of_addresses {hostLookup : Except String (List SocketAddr)} {texts : List String}
    (h : addresses hostLookup = .ok texts)
    : ∃ ips : List IpAddr, texts = ips.map IpAddr.toString := by
  unfold addresses at h
  split at h
  . contradiction
  . next hostLookup =>
    injection h with h
    refine ⟨hostLookup.map (·.ip), ?_⟩
    rw [← h, List.map_map]
    rfl

theorem eq_map_of_addressResolve {resolution : Resolution} {texts : List String}
    (hresolve : addressResolve lookupHost (.ok hostname) = .ok resolution)
    (hresult : resolution.result = .ok texts) : ∃ ips : List IpAddr, texts = ips.map IpAddr.toString := by
  injection hresolve with hresolve
  subst hresolve
  unfold future at hresult
  dsimp only at hresult
  split at hresult
  . injection hresult with hresult
    exact ⟨[], hresult.symm⟩
  . injection hresult with hresult
    exact ⟨[], hresult.symm⟩
  . exact eq_map_of_addresses hresult

theorem addressResolve_toString_v4 (hlookup : LooksUpLiterals lookupHost) (addr : Ipv4Addr)
    : addressResolve lookupHost (.ok (IpAddr.v4 addr).toString)
        =
      .ok { lookups := [((IpAddr.v4 addr).toString, 80)], result := .ok [(IpAddr.v4 addr).toString] } := by
  have hparse := (IpAddr.v4 addr).parse_toString
  have hipv4 : IsIpv4 (IpAddr.v4 addr).toString := ⟨addr, addr.parse_display⟩
  obtain ⟨hcolon, hpercent⟩ := hipv4.isName
  have hself := takeWhile_of_not_mem hpercent []
  rw [List.append_nil, List.takeWhile_nil, List.append_nil] at hself
  have hresolve : addressResolve lookupHost _ = _ := addressResolve_of_not_mem hself hcolon
  rw [lookedUp, hlookup _ _ 80 hparse] at hresolve
  exact hresolve

/--
Every string that `address_resolve` returns stands for an address that can be read back from it. An IPv4
address resolves to itself. An IPv6 address is taken for a host with a port.
-/
theorem addresses_read_back (hlookup : LooksUpLiterals lookupHost) {resolution : Resolution}
    (hresolve : addressResolve lookupHost (.ok hostname) = .ok resolution) {texts : List String}
    (hresult : resolution.result = .ok texts)
    : (∃ ips : List IpAddr, texts = ips.map IpAddr.toString ∧ texts.map IpAddr.parse = ips.map some) ∧
        ∀ text ∈ texts,
          IsIpv4 text ∧ addressResolve lookupHost (.ok text)
              = .ok { lookups := [(text, 80)], result := .ok [text] } ∨
            IsIpv6 text ∧ addressResolve lookupHost (.ok text) = .ok withoutLookup := by
  obtain ⟨ips, rfl⟩ := eq_map_of_addressResolve hresolve hresult
  constructor
  . refine ⟨ips, rfl, ?_⟩
    rw [List.map_map]
    apply List.map_congr_left
    intro ip _
    exact ip.parse_toString
  . intro text hmem
    obtain ⟨ip, -, rfl⟩ := List.mem_map.mp hmem
    cases ip with
    | v4 addr => exact .inl ⟨⟨addr, addr.parse_display⟩, addressResolve_toString_v4 hlookup addr⟩
    | v6 addr =>
      have hipv6 : IsIpv6 (IpAddr.v6 addr).toString := ⟨addr, addr.parse_display⟩
      exact .inr ⟨hipv6, hipv6.addressResolve_eq lookupHost⟩

theorem addresses_read_back_loopback
    : (∃ ips : List IpAddr, ["127.0.0.1"] = ips.map IpAddr.toString ∧
          ["127.0.0.1"].map IpAddr.parse = ips.map some) ∧
        ∀ text ∈ ["127.0.0.1"],
          IsIpv4 text ∧ addressResolve literalLookup (.ok text)
              = .ok { lookups := [(text, 80)], result := .ok [text] } ∨
            IsIpv6 text ∧ addressResolve literalLookup (.ok text) = .ok withoutLookup := by
  apply addresses_read_back looksUpLiterals_literalLookup
  . exact addressResolve_toString_v4 looksUpLiterals_literalLookup ⟨127, 0, 0, 1⟩
  . decide

end AddressResolve
end Shreduler
