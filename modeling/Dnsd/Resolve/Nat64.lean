import Dnsd.Resolve.LongestPrefix

/-! IPv4 addresses in IPv6 addresses: what a translator puts behind its prefix, the
mapping takes out again. -/

namespace Dnsd.Resolve

open Bytes Words

namespace Ipv6NetOwned

variable (net : Ipv6NetOwned)

/-- The address of the network, octet by octet. -/
def octets : Bytes := beBytes 16 net.addr.toNat

@[simp] theorem octets_length : net.octets.length = 16 := beBytes_length _ _

theorem beValue_octets : beValue net.octets = net.addr.toNat :=
  beValue_beBytes net.addr.isLt

end Ipv6NetOwned

theorem ipv6Bits_toNat (ip : Ipv6Addr) : (ipv6Bits ip).toNat = beValue ip.octets := by
  have hLt : beValue ip.octets < 2 ^ 128 := by
    have hLt := beValue_lt ip.octets
    rwa [ip.octets_length] at hLt
  rw [ipv6Bits, BitVec.toNat_ofNat, Nat.mod_eq_of_lt hLt]

/-- Leading bits are the quotient by the weight of the others. -/
theorem forall_getMsbD_iff {x y : BitVec 128} {len : Nat} (h : len ≤ 128) :
    (∀ i < len, x.getMsbD i = y.getMsbD i) ↔
      x.toNat / 2 ^ (128 - len) = y.toNat / 2 ^ (128 - len) := by
  have hBit (v : BitVec 128) {j : Nat} (hj : j < len) :
      (v.toNat / 2 ^ (128 - len)).testBit j = v.getMsbD (len - 1 - j) := by
    rw [Nat.testBit_div_two_pow, BitVec.getMsbD_eq_getLsbD, decide_eq_true (by omega), Bool.true_and,
      ← BitVec.testBit_toNat]
    congr 1
    omega
  constructor
  · intro hBits
    refine Nat.eq_of_testBit_eq fun j => ?_
    rcases Nat.lt_or_ge j len with hj | hj
    · rw [hBit x hj, hBit y hj, hBits _ (by omega)]
    · rw [Nat.testBit_div_two_pow, Nat.testBit_div_two_pow, BitVec.testBit_toNat, BitVec.testBit_toNat,
        BitVec.getLsbD_of_ge x _ (by omega), BitVec.getLsbD_of_ge y _ (by omega)]
  · intro hEq i hi
    have hx := hBit x (j := len - 1 - i) (by omega)
    have hy := hBit y (j := len - 1 - i) (by omega)
    rw [show len - 1 - (len - 1 - i) = i by omega] at hx hy
    rw [← hx, ← hy, hEq]

theorem beValue_take {bs : Bytes} (h : bs.length = 16) {k : Nat} (hk : k ≤ 16) :
    beValue (bs.take k) = beValue bs / 2 ^ (128 - 8 * k) := by
  have hSplit := beValue_append (bs.take k) (bs.drop k)
  have hLow := beValue_lt (bs.drop k)
  have hPower : 2 ^ (128 - 8 * k) = 256 ^ (16 - k) := by
    rw [show 128 - 8 * k = 8 * (16 - k) by omega, Nat.pow_mul]
  rw [List.length_drop, h] at hSplit hLow
  rw [List.take_append_drop] at hSplit
  rw [hPower, hSplit, Nat.mul_comm, Nat.mul_add_div (Nat.pow_pos (by decide)), Nat.div_eq_of_lt hLow,
    Nat.add_zero]

/-- A prefix of whole octets is compared octet by octet. -/
theorem covers_iff_octets (net : Ipv6NetOwned) (ip : Ipv6Addr) {k : Nat}
    (hLen : net.prefixLen.toNat = 8 * k) :
    net.Covers ip ↔ ip.octets.take k = net.octets.take k := by
  have hLe : net.prefixLen.toNat ≤ 128 := UInt8.le_iff_toNat_le.mp net.prefixLen_le
  have hk : k ≤ 16 := by omega
  rw [Ipv6NetOwned.Covers, hLen, forall_getMsbD_iff (by omega), ipv6Bits_toNat, ← net.beValue_octets,
    ← beValue_take ip.octets_length hk, ← beValue_take net.octets_length hk]
  constructor
  · intro hValue
    have hIp := beBytes_beValue (ip.octets.take k)
    have hNet := beBytes_beValue (net.octets.take k)
    rw [List.length_take, ip.octets_length] at hIp
    rw [List.length_take, net.octets_length] at hNet
    rw [← hIp, ← hNet, hValue]
  · intro hOctets
    rw [hOctets]

/-! ## Embedding -/

/-- The octets of an address with `v` behind the prefix and around octet 8, which is
zero where it is not of the prefix. -/
def embedding (net : Ipv6NetOwned) (v : Ipv4Addr) (suffix : Bytes) : Bytes :=
  if net.prefixLen = 96 then net.octets.take 12 ++ v.octets
  else
    let k := net.prefixLen.toNat / 8
    net.octets.take k ++ v.octets.take (8 - k) ++ 0 :: (v.octets.drop (8 - k) ++ suffix)

/-- The lengths of prefixes that an address can be embedded behind. -/
def embeddingLengths : List UInt8 := [32, 40, 48, 56, 64, 96]

/-- The address is `v` embedded under the prefix. -/
def Embeds (net : Ipv6NetOwned) (v : Ipv4Addr) (ip : Ipv6Addr) : Prop :=
  net.prefixLen ∈ embeddingLengths ∧ ∃ suffix, ip.octets = embedding net v suffix

theorem exists_octets {bs : Bytes} (h : bs.length = 16) :
    ∃ b0 b1 b2 b3 b4 b5 b6 b7 b8 b9 b10 b11 b12 b13 b14 b15,
      bs = [b0, b1, b2, b3, b4, b5, b6, b7, b8, b9, b10, b11, b12, b13, b14, b15] := by
  match bs, h with
  | [b0, b1, b2, b3, b4, b5, b6, b7, b8, b9, b10, b11, b12, b13, b14, b15], _ =>
      exact ⟨b0, b1, b2, b3, b4, b5, b6, b7, b8, b9, b10, b11, b12, b13, b14, b15, rfl⟩

/-- What is taken out of an address under the prefix is what is embedded there. -/
theorem extract_iff (net : Ipv6NetOwned) (v : Ipv4Addr) (ip : Ipv6Addr) :
    net.Covers ip ∧ extractRfc6052 ip.octets net.prefixLen = some v ↔ Embeds net v ip := by
  by_cases hMem : net.prefixLen ∈ embeddingLengths
  · obtain ⟨a0, a1, a2, a3, a4, a5, a6, a7, a8, a9, a10, a11, a12, a13, a14, a15, hIp⟩ :=
      exists_octets ip.octets_length
    obtain ⟨n0, n1, n2, n3, n4, n5, n6, n7, n8, n9, n10, n11, n12, n13, n14, n15, hNet⟩ :=
      exists_octets net.octets_length
    obtain ⟨va, vb, vc, vd⟩ := v
    rw [Embeds, and_iff_right hMem]
    simp only [embeddingLengths, List.mem_cons, List.not_mem_nil, or_false] at hMem
    -- each length is a conjunction of equations between octets
    rcases hMem with hLen | hLen | hLen | hLen | hLen | hLen
    all_goals
      rw [covers_iff_octets net ip (k := net.prefixLen.toNat / 8) (by rw [hLen]; rfl), hIp, hNet]
      simp [embedding, extractRfc6052, hLen, hNet, Ipv4Addr.octets]
      tauto
  · refine iff_of_false (fun h => hMem ?_) fun h => hMem h.1
    have hSome := h.2
    rw [extractRfc6052] at hSome
    simp only [embeddingLengths, List.mem_cons, List.not_mem_nil, or_false]
    by_contra hNone
    simp only [not_or] at hNone
    obtain ⟨h32, h40, h48, h56, h64, h96⟩ := hNone
    rw [if_neg h32, if_neg h40, if_neg h48, if_neg h56, if_neg h64, if_neg h96] at hSome
    cases hSome

/-- The address is `v` embedded under the prefix that the text is of. -/
def EmbedsUnder (p : Str) (v : Ipv4Addr) (ip : Ipv6Addr) : Prop :=
  ∃ net, Ipv6NetOwned.parse p = some net ∧ Embeds net v ip

/-- What one turn of the loop over the prefixes finds. -/
def underPrefix (ip : Ipv6Addr) (p : Str) : Option Ipv4Addr :=
  match Ipv6NetOwned.parse p with
  | some net => if net.contains ip then extractRfc6052 ip.octets net.prefixLen else none
  | none => none

theorem underPrefix_eq_some_iff {ip : Ipv6Addr} {p : Str} {v : Ipv4Addr} :
    underPrefix ip p = some v ↔ EmbedsUnder p v ip := by
  rw [underPrefix, EmbedsUnder]
  cases Ipv6NetOwned.parse p with
  | none => simp
  | some net =>
      simp only [Option.some.injEq, exists_eq_left', ← extract_iff, ← Ipv6NetOwned.contains_iff]
      split_ifs with hContains
      · simp [hContains]
      · simp [hContains]

theorem embeddedIpv4_unmapped {ip : Ipv6Addr} (h : ip.toIpv4Mapped = none) (prefixes : List Str) :
    embeddedIpv4 ip prefixes = prefixes.findSome? (underPrefix ip) := by
  rw [embeddedIpv4, h]
  rfl

/-- An embedded address is found under its prefix, in a list under the first prefix
that one is embedded under, and nowhere else. -/
theorem embeddedIpv4_spec {ip : Ipv6Addr} (hUnmapped : ip.toIpv4Mapped = none) :
    (∀ p net v suffix, Ipv6NetOwned.parse p = some net → net.prefixLen ∈ embeddingLengths →
      ip.octets = embedding net v suffix → embeddedIpv4 ip [p] = some v) ∧
    (∀ prefixes v, embeddedIpv4 ip prefixes = some v ↔ ∃ before p after,
      prefixes = before ++ p :: after ∧ EmbedsUnder p v ip ∧
        ∀ p' ∈ before, ∀ v', ¬EmbedsUnder p' v' ip) ∧
    ∀ prefixes, (∀ p ∈ prefixes, ∀ net, Ipv6NetOwned.parse p = some net → ¬net.Covers ip) →
      embeddedIpv4 ip prefixes = none := by
  simp only [embeddedIpv4_unmapped hUnmapped]
  refine ⟨fun p net v suffix hParse hLen hOctets => ?_, fun prefixes v => ?_, fun prefixes hOutside => ?_⟩
  · have hUnder : underPrefix ip p = some v :=
      underPrefix_eq_some_iff.mpr ⟨net, hParse, hLen, suffix, hOctets⟩
    rw [List.findSome?_singleton, hUnder]
  · rw [List.findSome?_eq_some_iff]
    simp only [underPrefix_eq_some_iff, Option.eq_none_iff_forall_ne_some, ne_eq]
  · refine List.findSome?_eq_none_iff.mpr fun p hp => ?_
    rw [Option.eq_none_iff_forall_ne_some]
    intro v hSome
    obtain ⟨net, hParse, hEmbeds⟩ := underPrefix_eq_some_iff.mp hSome
    exact hOutside p hp net hParse ((extract_iff net v ip).mpr hEmbeds).1

/-- A client with the address 1.2.3.4 behind the well-known prefix. -/
def nat64Client : Ipv6Addr := ⟨[0, 0x64, 0xFF, 0x9B, 0, 0, 0, 0, 0, 0, 0, 0, 1, 2, 3, 4], rfl⟩

/-- The well-known prefix, of 96 bits. -/
def nat64Net : Ipv6NetOwned := ⟨0x64ff9b000000000000000000000000, 96, by decide⟩

/-- The address behind the well-known prefix is found, though no mapped one is in it. -/
theorem embeddedIpv4_nat64 : nat64Client.toIpv4Mapped = none ∧
    embeddedIpv4 nat64Client ["64:ff9b::/96".toList] = some ⟨1, 2, 3, 4⟩ :=
  ⟨rfl, (embeddedIpv4_spec rfl).1 _ nat64Net _ [] (by rfl) (by decide) (by decide +kernel)⟩

end Dnsd.Resolve
