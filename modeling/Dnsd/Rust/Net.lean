import Dnsd.Rust.Words

/-! Internet addresses as their octets. -/

/-- `std::net::Ipv4Addr`, its four octets in the order in which they are written. -/
structure Ipv4Addr where
  a : UInt8
  b : UInt8
  c : UInt8
  d : UInt8
  deriving DecidableEq, Repr

namespace Ipv4Addr

/-- `Ipv4Addr::octets`, the first one in front. -/
def octets (ip : Ipv4Addr) : Bytes := [ip.a, ip.b, ip.c, ip.d]

/-- `Ipv4Addr::LOCALHOST`, that is 127.0.0.1. -/
def localhost : Ipv4Addr := ⟨127, 0, 0, 1⟩

/-- `Ipv4Addr::UNSPECIFIED`, that is 0.0.0.0. -/
def unspecified : Ipv4Addr := ⟨0, 0, 0, 0⟩

/-- `u32::from(ip)`: the octets as a number, of which the first counts most. -/
def toU32 (ip : Ipv4Addr) : UInt32 := UInt32.fromBeBytes ip.octets

/-- `Ipv4Addr::from(u32)`, which undoes this. -/
def ofU32 (x : UInt32) : Ipv4Addr :=
  ⟨(x >>> 24).toUInt8, (x >>> 16).toUInt8, (x >>> 8).toUInt8, x.toUInt8⟩

@[simp] theorem octets_length (ip : Ipv4Addr) : ip.octets.length = 4 := rfl

end Ipv4Addr

/-- An IPv6 address is its sixteen octets, most significant first. -/
structure Ipv6Addr where
  octets : Bytes
  octets_length : octets.length = 16
  deriving DecidableEq, Repr

namespace Ipv6Addr

/-- `Ipv6Addr::LOCALHOST`, that is ::1. -/
def localhost : Ipv6Addr := ⟨List.replicate 15 0 ++ [1], rfl⟩

/-- `Ipv6Addr::UNSPECIFIED`, that is ::, all octets zero. -/
def unspecified : Ipv6Addr := ⟨List.replicate 16 0, rfl⟩

theorem ext {x y : Ipv6Addr} (h : x.octets = y.octets) : x = y := by
  cases x
  cases y
  cases h
  rfl

end Ipv6Addr

/-- `std::net::IpAddr`: an address of either family, with its family as part of the value.
-/
inductive IpAddr where
  | v4 (ip : Ipv4Addr)
  | v6 (ip : Ipv6Addr)
  deriving DecidableEq, Repr

/-- The octets of either kind, four or sixteen. -/
def IpAddr.octets : IpAddr → Bytes
  | .v4 ip => ip.octets
  | .v6 ip => ip.octets

/-- The flow label and the scope of an IPv6 socket address are not kept. -/
structure SocketAddr where
  ip : IpAddr
  port : UInt16
  deriving DecidableEq, Repr
