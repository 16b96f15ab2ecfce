import Dnsd.Proto.Canonical
import Dnsd.Rust.NetText

/-! The block list: names that are answered with a loopback address, or with an
address that depends on name and client alone. -/

namespace Dnsd.Resolve

open Proto

/-- What a blocked name is answered with: the loopback address, or one at random. -/
inductive BlockMode where
  | loopback
  | random
  deriving DecidableEq

/-- A row of the block list: a domain, which may begin with a star, and how it is
answered. -/
structure BlockedDomain where
  domain : Str
  mode : BlockMode

/-- Exact names, and suffixes such as `.example.com` in the order of their rows. -/
structure BlockList where
  exact : HashMap Str BlockMode
  wildcard : List (Str × BlockMode)

/-- One round of the 64-bit hash for each byte. -/
def fnv64 (h : UInt64) (data : Bytes) : UInt64 :=
  data.foldl (fun h b => (h ^^^ b.toUInt64) * 0x100000001b3) h

/-- An address in 10.7/16 that is the same for each lookup of a client. -/
def randomV4 (qname : Str) (clientIp : IpAddr) : Ipv4Addr :=
  let h := fnv64 (fnv64 0xcbf29ce484222325 qname.bytes) clientIp.text.bytes
  let third := ((h >>> 16) &&& 0xFF).toUInt8
  let fourth := (h &&& 0xFF).toUInt8
  ⟨10, 7, max third 1, fourth⟩

theorem a_codable {name : Str} (hName : LegibleName name) (rclass : UInt16) (ttl : UInt32)
    (ip : Ipv4Addr) : (⟨name, typeA, rclass, ttl, .a ip⟩ : Record).Codable LegibleName := by
  refine ⟨hName, rfl, trivial, id, fun e he => ?_⟩
  rw [rdataBytes, if_neg (by change ¬typeA = typeOpt; decide)] at he
  cases he
  exact Nat.lt_of_le_of_lt ip.octets_length.le (by decide)

theorem aaaa_codable {name : Str} (hName : LegibleName name) (rclass : UInt16) (ttl : UInt32)
    (ip : Ipv6Addr) : (⟨name, typeAaaa, rclass, ttl, .aaaa ip⟩ : Record).Codable LegibleName := by
  refine ⟨hName, rfl, trivial, id, fun e he => ?_⟩
  rw [rdataBytes, if_neg (by change ¬typeAaaa = typeOpt; decide)] at he
  cases he
  exact Nat.lt_of_le_of_lt ip.octets_length.le (by decide)

namespace BlockList

/-- `BlockList::empty`, which blocks nothing. -/
def empty : BlockList := ⟨∅, []⟩

/-- One more row: its exact name replaces an earlier one, its wildcard is tried behind the
earlier ones. -/
def insert (list : BlockList) (e : BlockedDomain) : BlockList :=
  match (canonicalName e.domain).trimEndMatches '.' with
  | '*' :: '.' :: rest => { list with wildcard := list.wildcard ++ [('.' :: rest, e.mode)] }
  | d => { list with exact := list.exact.insert d e.mode }

/-- `BlockList::new`: the rows one by one, in the order in which the query returns them.
-/
def new (entries : List BlockedDomain) : BlockList := entries.foldl insert empty

/-- The exact name decides, then the first suffix that the name is longer than. -/
def modeFor (list : BlockList) (qname : Str) : Option BlockMode :=
  let n := (canonicalName qname).trimEndMatches '.'
  match list.exact.get n with
  | some mode => some mode
  | none => (list.wildcard.find? fun p => p.1 <:+ n ∧ p.1.len < n.len).map Prod.snd

/-- The reply to a blocked question; types other than A and AAAA have no data. -/
def respond (q : Question) (clientIp : IpAddr) (mode : BlockMode) : Message :=
  let a := match mode with
    | .loopback => Ipv4Addr.localhost
    | .random => randomV4 q.name clientIp
  { header := { qr := true, rd := true, ra := true, rcode := rcodeNoerror }
    questions := [q]
    answers :=
      if q.qtype = typeA then [⟨q.name, typeA, classIn, 60, .a a⟩]
      else if q.qtype = typeAaaa then [⟨q.name, typeAaaa, classIn, 60, .aaaa Ipv6Addr.localhost⟩]
      else [] }

theorem respond_codable {q : Question} (hName : LegibleName (canonicalName q.name))
    (clientIp : IpAddr) (mode : BlockMode) :
    (respond q clientIp mode).canonical.Codable LegibleName := by
  refine ⟨fun q' hq' => ?_, fun r hr => ?_, by simp [respond, Message.canonical], ?_,
    by simp [respond, Message.canonical], by simp [respond, Message.canonical]⟩
  · rw [List.mem_singleton.mp hq']
    exact hName
  · simp only [respond, Message.canonical, List.map_nil, List.append_nil] at hr
    obtain ⟨r, hr, rfl⟩ := List.mem_map.mp hr
    split_ifs at hr with hA hAaaa
    · rw [List.mem_singleton.mp hr]
      exact a_codable hName ..
    · rw [List.mem_singleton.mp hr]
      exact aaaa_codable hName ..
    · cases hr
  · simp only [respond, Message.canonical]
    split_ifs <;> simp

end BlockList

end Dnsd.Resolve
