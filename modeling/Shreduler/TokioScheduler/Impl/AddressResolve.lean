import Shreduler.Basic
import Shreduler.IpAddr.Basic

namespace Shreduler
namespace AddressResolve

structure SocketAddr where
  ip : IpAddr
  port : UInt16
  deriving DecidableEq

/-- `tokio::net::lookup_host`, whose errors are taken by their display. -/
abbrev LookupHost := String × UInt16 → Except String (List SocketAddr)

/-- The calls of `lookup_host` that the future makes, and its output. -/
structure Resolution where
  lookups : List (String × UInt16)
  result : Result (List String)
  deriving DecidableEq

def splitn (sep : Char) : (n : Nat) → List Char → List (List Char)
  | 0, _ => []
  | 1, chars => [chars]
  | n + 2, chars =>
    match chars.span (· ≠ sep) with
    | (first, []) => [first]
    | (first, _ :: rest) => first :: splitn sep (n + 1) rest

def addresses (hostLookup : Except String (List SocketAddr)) : Result (List String) :=
  match hostLookup with
  | .error e => .error (newBaseError s!"Could not resolve hostname: {e}")
  | .ok hostLookup => .ok (hostLookup.map fun address => address.ip.toString)

def future (lookupHost : LookupHost) (hostname : String) : Resolution :=
  let hostname := (hostname.toList.splitOn '%').head?.getD hostname.toList
  match splitn ':' 2 hostname with
  | [] => { lookups := [], result := .ok [] }
  -- Match the behavior of MRI, which returns an empty array if the port is given.
  | _ :: _ :: _ => { lookups := [], result := .ok [] }
  | [host] =>
    let host := (String.ofList host, 80)
    { lookups := [host], result := addresses (lookupHost host) }

def addressResolve (lookupHost : LookupHost) (hostname : Result String) : Result Resolution :=
  hostname.map (future lookupHost)

end AddressResolve
end Shreduler
