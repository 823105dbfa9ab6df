import RemarkableServer.Lib.RustText

/-!
# Internal addresses

`calendar_providers/dns.rs`: which addresses are not public, and the resolver that drops them.
-/
namespace InternalAddresses

open RustText

structure Ipv4Addr where
  a : UInt8
  b : UInt8
  c : UInt8
  d : UInt8
  deriving DecidableEq, Repr

/-- Eight segments. -/
structure Ipv6Addr where
  s0 : UInt16
  s1 : UInt16
  s2 : UInt16
  s3 : UInt16
  s4 : UInt16
  s5 : UInt16
  s6 : UInt16
  s7 : UInt16
  deriving DecidableEq, Repr

inductive IpAddr where
  | v4 (ip : Ipv4Addr)
  | v6 (ip : Ipv6Addr)
  deriving DecidableEq, Repr

/-- The host of a URL. -/
inductive Host where
  | domain (name : Text)
  | ip (ip : IpAddr)
  deriving DecidableEq, Repr

def highByte (s : UInt16) : UInt8 := (s >>> 8).toUInt8
def lowByte (s : UInt16) : UInt8 := s.toUInt8

namespace Ipv4Addr

/-- The address of 32 bits. -/
def ofSegments (high low : UInt16) : Ipv4Addr := ⟨highByte high, lowByte high, highByte low, lowByte low⟩

def isLoopback (ip : Ipv4Addr) : Bool := ip.a == 127
def isPrivate (ip : Ipv4Addr) : Bool :=
  ip.a == 10 || (ip.a == 172 && ip.b ≥ 16 && ip.b ≤ 31) || (ip.a == 192 && ip.b == 168)
def isLinkLocal (ip : Ipv4Addr) : Bool := ip.a == 169 && ip.b == 254
def isUnspecified (ip : Ipv4Addr) : Bool := ip == ⟨0, 0, 0, 0⟩
def isBroadcast (ip : Ipv4Addr) : Bool := ip == ⟨255, 255, 255, 255⟩
def isMulticast (ip : Ipv4Addr) : Bool := ip.a ≥ 224 && ip.a ≤ 239

/-- The ranges of IPv4 addresses that are not public. -/
def isInternal (ip : Ipv4Addr) : Bool :=
  ip.isLoopback || ip.isPrivate || ip.isLinkLocal || ip.isUnspecified || ip.isBroadcast || ip.isMulticast ||
    ip.a == 0 || (ip.a == 100 && ip.b &&& 0xc0 == 64) || (ip.a == 192 && ip.b == 0 && ip.c == 0) ||
    (ip.a == 198 && ip.b &&& 0xfe == 18) || ip.a ≥ 240

end Ipv4Addr

namespace Ipv6Addr

/-- The first six segments. -/
def first (ip : Ipv6Addr) : List UInt16 := [ip.s0, ip.s1, ip.s2, ip.s3, ip.s4, ip.s5]

/-- The last 32 bits. -/
def last (ip : Ipv6Addr) : Ipv4Addr := .ofSegments ip.s6 ip.s7

def isLoopback (ip : Ipv6Addr) : Bool := ip == ⟨0, 0, 0, 0, 0, 0, 0, 1⟩
def isUnspecified (ip : Ipv6Addr) : Bool := ip == ⟨0, 0, 0, 0, 0, 0, 0, 0⟩
def isMulticast (ip : Ipv6Addr) : Bool := ip.s0 &&& 0xff00 == 0xff00
def isUniqueLocal (ip : Ipv6Addr) : Bool := ip.s0 &&& 0xfe00 == 0xfc00
def isUnicastLinkLocal (ip : Ipv6Addr) : Bool := ip.s0 &&& 0xffc0 == 0xfe80
def isSiteLocal (ip : Ipv6Addr) : Bool := ip.s0 &&& 0xffc0 == 0xfec0

def toIpv4Mapped (ip : Ipv6Addr) : Option Ipv4Addr := if ip.first == [0, 0, 0, 0, 0, 0xffff] then some ip.last else none

/-- `64:ff9b::/96`. -/
def nat64 (ip : Ipv6Addr) : Option Ipv4Addr := if ip.first == [0x64, 0xff9b, 0, 0, 0, 0] then some ip.last else none

/-- The ranges of IPv6 addresses that are not public. -/
def isListed (ip : Ipv6Addr) : Bool :=
  ip.isLoopback || ip.isUnspecified || ip.isMulticast || ip.isUniqueLocal || ip.isUnicastLinkLocal || ip.isSiteLocal

def isInternal (ip : Ipv6Addr) : Bool :=
  ip.isListed || ip.toIpv4Mapped.any Ipv4Addr.isInternal || ip.nat64.any Ipv4Addr.isInternal

end Ipv6Addr

def isInternalIp : IpAddr → Bool
  | .v4 ip => ip.isInternal
  | .v6 ip => ip.isInternal

/-- Without trailing dots, in lower case. -/
def normalize (host : Text) : Text := (host.rdropWhile (· == '.')).map Char.toLower

/-- `GuardedResolver::resolve`, given what the lookup found. -/
def resolve (trusted : List Text) (name : Text) (found : Except Text (List IpAddr)) : Except Text (List IpAddr) :=
  let host := normalize name
  match found with
  | .error e => .error e
  | .ok found =>
    let allowed := if (trusted.map normalize).contains host then found else found.filter (!isInternalIp ·)
    if allowed.isEmpty then
      .error (if found.isEmpty then host ++ " has no addresses".toList
        else "refusing to connect to ".toList ++ host ++ ": it resolves only to internal addresses".toList)
    else .ok allowed

/-! ## Embedded addresses -/

namespace Ipv6Addr

/-- The IPv4-compatible addresses, `::/96`. -/
def compatible (ip : Ipv6Addr) : Option Ipv4Addr := if ip.first == [0, 0, 0, 0, 0, 0] then some ip.last else none

/-- The NAT64 prefix of a site, `64:ff9b:1::/48`: the address follows the prefix, around the ninth byte. -/
def siteNat64 (ip : Ipv6Addr) : Option Ipv4Addr :=
  if ip.s0 == 0x64 && ip.s1 == 0xff9b && ip.s2 == 1 then
    some ⟨highByte ip.s3, lowByte ip.s3, lowByte ip.s4, highByte ip.s5⟩
  else none

/-- 6to4, `2002::/16`. -/
def sixToFour (ip : Ipv6Addr) : Option Ipv4Addr := if ip.s0 == 0x2002 then some (.ofSegments ip.s1 ip.s2) else none

/-- The IPv4 addresses that the address embeds in a standard form. -/
def embedded (ip : Ipv6Addr) : List Ipv4Addr :=
  ip.toIpv4Mapped.toList ++ ip.compatible.toList ++ ip.nat64.toList ++ ip.siteNat64.toList ++ ip.sixToFour.toList

/-- The address embeds an internal one in a form that is not looked into. -/
def smuggles (ip : Ipv6Addr) : Bool :=
  !ip.isInternal && (ip.compatible.any Ipv4Addr.isInternal || ip.siteNat64.any Ipv4Addr.isInternal ||
    ip.sixToFour.any Ipv4Addr.isInternal)

end Ipv6Addr

def smuggles : IpAddr → Bool
  | .v4 _ => false
  | .v6 ip => ip.smuggles

/-- Outside the ranges that are not public, and embedding no address inside them. -/
def Public : IpAddr → Prop
  | .v4 ip => ip.isInternal = false
  | .v6 ip => ip.isListed = false ∧ ∀ embedded ∈ ip.embedded, embedded.isInternal = false

theorem public_iff (ip : IpAddr) : Public ip ↔ isInternalIp ip = false ∧ smuggles ip = false := by
  cases ip with
  | v4 ip => simp [Public, isInternalIp, smuggles]
  | v6 ip =>
    simp only [Public, isInternalIp, smuggles, Ipv6Addr.smuggles, Ipv6Addr.isInternal, Ipv6Addr.embedded]
    cases ip.toIpv4Mapped <;> cases ip.nat64 <;> cases ip.compatible <;> cases ip.siteNat64 <;> cases ip.sixToFour <;>
      cases ip.isListed <;> simp <;> grind

end InternalAddresses
