import Mathlib.Data.List.Infix
import Dnsd.Config
import Dnsd.Proto.Ecs
import Dnsd.Rust.NetParse

/-! The IPv4 address behind an internal IPv6 client, passed on as its subnet. -/

namespace Dnsd.Resolve

open Bytes Proto

/-! ## Networks -/

/-- An IPv6 prefix; `from_str` admits no length above 128. -/
structure Ipv6NetOwned where
  addr : BitVec 128
  prefixLen : UInt8
  prefixLen_le : prefixLen ≤ 128

/-- `u128::from(ip)`: the sixteen octets as one number, of which the first counts most. -/
def ipv6Bits (ip : Ipv6Addr) : BitVec 128 := BitVec.ofNat 128 (Words.beValue ip.octets)

namespace Ipv6NetOwned

/-- `Ipv6NetOwned::contains`: the address agrees with the network in the bits of its
prefix. -/
def contains (net : Ipv6NetOwned) (ip : Ipv6Addr) : Bool :=
  if net.prefixLen = 0 then true
  else
    let mask : BitVec 128 :=
      if 128 ≤ net.prefixLen then BitVec.allOnes 128
      else BitVec.allOnes 128 <<< (128 - net.prefixLen.toNat)
    ipv6Bits ip &&& mask = net.addr &&& mask

/-- `str::parse::<Ipv6NetOwned>`: an address, a slash and a prefix length. -/
def parse (s : Str) : Option Ipv6NetOwned :=
  let addr := s.takeWhile (· ≠ '/')
  match s.drop addr.length with
  | [] => none
  | _ :: len =>
      match Ipv6Addr.parse addr, Str.parseUnsigned 256 len with
      | some ip, some len =>
          if h : UInt8.ofNat len ≤ 128 then some ⟨ipv6Bits ip, UInt8.ofNat len, h⟩ else none
      | _, _ => none

end Ipv6NetOwned

/-- A network and the IPv4 address of its clients. -/
structure BindingEntry where
  net : Ipv6NetOwned
  ipv4 : Ipv4Addr

/-- The networks in the order in which they were loaded. -/
structure BindingTable where
  entries : List BindingEntry := []

namespace BindingTable

/-- An entry that does not parse is ignored. -/
def add (table : BindingTable) (cidr ipv4 : Str) : BindingTable :=
  match Ipv6NetOwned.parse cidr, Ipv4Addr.parse ipv4 with
  | some net, some ip => ⟨table.entries ++ [⟨net, ip⟩]⟩
  | _, _ => table

/-- The first one of the longest prefixes that contain the address. -/
def lookup (table : BindingTable) (ip : Ipv6Addr) : Option Ipv4Addr :=
  let best := table.entries.foldl (fun best e =>
    if e.net.contains ip ∧ (best.all fun b : UInt8 × Ipv4Addr => b.1 < e.net.prefixLen) then
      some (e.net.prefixLen, e.ipv4)
    else best) none
  best.map Prod.snd

end BindingTable

/-! ## Mapping -/

/-- The octets that hold the IPv4 address; octet 8 must be zero below 96 bits. -/
def extractRfc6052 (b : Bytes) (pl : UInt8) : Option Ipv4Addr :=
  let octet (i : Nat) : UInt8 := b.getD i 0
  let around (a b c d : Nat) : Option Ipv4Addr :=
    if octet 8 ≠ 0 then none else some ⟨octet a, octet b, octet c, octet d⟩
  if pl = 32 then around 4 5 6 7
  else if pl = 40 then around 5 6 7 9
  else if pl = 48 then around 6 7 9 10
  else if pl = 56 then around 7 9 10 11
  else if pl = 64 then around 9 10 11 12
  else if pl = 96 then some ⟨octet 12, octet 13, octet 14, octet 15⟩
  else none

/-- `embedded_ipv4`: a mapped address first, then the first of the configured prefixes
that contains the client and yields an address. -/
def embeddedIpv4 (ipv6 : Ipv6Addr) (nat64Prefixes : List Str) : Option Ipv4Addr :=
  match ipv6.toIpv4Mapped with
  | some mapped => some mapped
  | none =>
      nat64Prefixes.findSome? fun p =>
        match Ipv6NetOwned.parse p with
        | some net => if net.contains ipv6 then extractRfc6052 ipv6.octets net.prefixLen else none
        | none => none

/-- Whether the two locations agree on the provider or, in strict mode, on the
city. -/
def consistent (v4Loc v4Isp v6Isp v6City : Str) (strictCity : Bool) : Bool :=
  if v4Loc.isEmpty && v4Isp.isEmpty then false
  else if v6Isp.isEmpty && v6City.isEmpty then false
  else if strictCity then !v6City.isEmpty && (v6City <:+: v4Isp || v6City <:+: v4Loc)
  else
    let ispOverlap := !v4Isp.isEmpty && !v6Isp.isEmpty && (v6Isp <:+: v4Isp || v4Isp <:+: v6Isp)
    ispOverlap || v4Loc = v6City

/-- The binding table, and the lookups of the location databases that are loaded. -/
structure Dualstack where
  table : BindingTable := {}
  v4 : Option (Ipv4Addr → Option (Str × Str)) := none
  v6 : Option (Ipv6Addr → Option (Str × Str)) := none

namespace Dualstack

variable (d : Dualstack) (cfg : Config) (mapViaApi : Str → Ipv6Addr → Option Ipv4Addr)

/-- Embedded addresses first, then the table, then the external service. -/
def mapToIpv4 (ipv6 : Ipv6Addr) : Option Ipv4Addr :=
  match embeddedIpv4 ipv6 cfg.nat64Prefixes with
  | some v4 => some v4
  | none =>
      match d.table.lookup ipv6 with
      | some v4 => some v4
      | none =>
          match cfg.mapApiUrl with
          | some url => mapViaApi url ipv6
          | none => none

/-- The mapped address, unless two loaded databases speak against it. -/
def verified (clientIpv6 : Ipv6Addr) : Option Ipv4Addr :=
  match d.mapToIpv4 cfg mapViaApi clientIpv6 with
  | none => none
  | some v4 =>
      match d.v4, d.v6 with
      | some qqwry, some v6geo =>
          match qqwry v4, v6geo clientIpv6 with
          | some (v4Loc, v4Isp), some (v6Isp, v6City) =>
              if consistent v4Loc v4Isp v6Isp v6City cfg.geoStrictCity then some v4 else none
          | _, _ => none
      | _, _ => some v4

/-- `Dualstack::derive_ecs`: the verified address, cut to the configured mask. An address
that is not verified gives no option. -/
def deriveEcs (clientIpv6 : Ipv6Addr) : Option EcsInfo :=
  (d.verified cfg mapViaApi clientIpv6).map fun v4 =>
    let mask := cfg.ecsDeriveMask
    let v4 := if mask < 32 then maskIpv4 v4 mask else v4
    ⟨1, mask, 0, some (.v4 v4)⟩

/-- The derived option names the network of the client's IPv4 address. -/
theorem deriveEcs_eq_some {clientIpv6 : Ipv6Addr} {e : EcsInfo}
    (h : d.deriveEcs cfg mapViaApi clientIpv6 = some e) :
    ∃ v4 ip, d.verified cfg mapViaApi clientIpv6 = some v4 ∧ e.address = some (.v4 ip) ∧
      e.sourcePrefix = cfg.ecsDeriveMask ∧
      subnetOf 1 e.sourcePrefix ip.octets = subnetOf 1 cfg.ecsDeriveMask v4.octets := by
  rw [deriveEcs] at h
  obtain ⟨v4, hVerified, rfl⟩ := Option.map_eq_some_iff.mp h
  dsimp only
  refine ⟨v4, _, hVerified, rfl, rfl, ?_⟩
  split_ifs
  · exact subnetOf_maskIpv4 v4 cfg.ecsDeriveMask
  · rfl

end Dualstack

end Dnsd.Resolve
