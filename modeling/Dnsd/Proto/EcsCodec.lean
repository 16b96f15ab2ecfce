import Dnsd.Proto.Ecs

/-! Options with an address field as long as their prefix asks for, and what
decoding, clamping and encoding make of such bytes. -/

namespace Dnsd.Proto

open Bytes EcsInfo

/-! ## Well-formed options -/

/-- The octets of a whole address. -/
def addressOctets (family : UInt16) : Nat := addressWidth family / 8

/-- No bit is set behind the prefix, so that the address says nothing but its network. -/
def ZeroBehind (pre : Nat) (octets : Bytes) : Prop := ∀ b ∈ (bits octets).drop pre, b = false

instance (pre : Nat) (octets : Bytes) : Decidable (ZeroBehind pre octets) :=
  inferInstanceAs (Decidable (∀ b ∈ (bits octets).drop pre, b = false))

/-- An IPv4 or IPv6 option with as many octets as its prefix reaches into. -/
structure SubnetOption where
  family : UInt16
  sourcePrefix : UInt8
  scopePrefix : UInt8
  octets : Bytes
  known : family = 1 ∨ family = 2
  within : sourcePrefix.toNat ≤ addressWidth family
  length : octets.length = (sourcePrefix.toNat + 7) / 8
  trailing : ZeroBehind sourcePrefix.toNat octets

namespace SubnetOption

variable (o : SubnetOption)

/-- The option on the wire: family, two prefixes, and as many octets as the client has
sent. -/
def data : Bytes := o.family.toBeBytes ++ [o.sourcePrefix, o.scopePrefix] ++ o.octets

/-- The octets of the address, missing ones being zero. -/
def address : Bytes := o.octets ++ List.replicate (addressOctets o.family - o.octets.length) 0

/-- Decoding keeps family, prefixes and address, and encoding gives the bytes
back. -/
structure Survives : Prop where
  family : (decode o.data).family = o.family
  sourcePrefix : (decode o.data).sourcePrefix = o.sourcePrefix
  scopePrefix : (decode o.data).scopePrefix = o.scopePrefix
  address : (decode o.data).address.map IpAddr.octets = some o.address
  encode : (decode o.data).encode = o.data

theorem decode_data :
    decode o.data = ⟨o.family, o.sourcePrefix, o.scopePrefix, decodeAddress o.family o.octets⟩ := by
  obtain ⟨b0, b1, hBytes, hFamily⟩ := UInt16.exists_toBeBytes o.family
  rw [data, hBytes]
  simp only [List.cons_append, List.nil_append, decode, hFamily]

end SubnetOption

/-- An address is decoded exactly if all its octets are there. -/
theorem decodeAddress_octets {family : UInt16} (hKnown : family = 1 ∨ family = 2) (octets : Bytes) :
    (decodeAddress family octets).map IpAddr.octets =
      if addressOctets family ≤ octets.length then some (octets.take (addressOctets family))
      else none := by
  rcases hKnown with rfl | rfl
  · have hFour : addressOctets 1 = 4 := rfl
    rw [hFour]
    match octets with
    | [] => rfl
    | [_] => rfl
    | [_, _] => rfl
    | [_, _, _] => rfl
    | a :: b :: c :: d :: more => simp [decodeAddress, IpAddr.octets, Ipv4Addr.octets]
  · have hSixteen : addressOctets 2 = 16 := rfl
    have hOther : (2 : UInt16) ≠ 1 := by decide
    unfold decodeAddress
    rw [hSixteen, if_neg hOther, if_pos rfl]
    split_ifs with hWhole hLong hLong
    · rfl
    · rw [List.length_take] at hWhole
      omega
    · rw [List.length_take] at hWhole
      omega
    · rfl

theorem encode_of_address {e : EcsInfo} {octets : Bytes}
    (h : e.address.map IpAddr.octets = some octets) :
    e.encode = e.family.toBeBytes ++ [e.sourcePrefix, e.scopePrefix] ++ octets := by
  obtain ⟨ip, hAddress, rfl⟩ := Option.map_eq_some_iff.mp h
  rw [EcsInfo.encode, hAddress]
  cases ip <;> rfl

namespace SubnetOption

/-- An option survives decoding and encoding exactly if its prefix reaches into
the last octet of the address. -/
theorem survives_codec_iff (o : SubnetOption) :
    o.Survives ↔ addressWidth o.family < o.sourcePrefix.toNat + 8 := by
  have hLength := o.length
  have hWithin := o.within
  have hOctets : 8 * addressOctets o.family = addressWidth o.family := by
    rcases o.known with h | h <;> rw [h] <;> rfl
  have hDecode := o.decode_data
  have hAddress := decodeAddress_octets o.known o.octets
  constructor
  · intro hSurvives
    have hSome := hSurvives.address
    rw [hDecode] at hSome
    dsimp only at hSome
    rw [hAddress] at hSome
    split_ifs at hSome with hWhole
    omega
  · intro hFull
    have hWhole : o.octets.length = addressOctets o.family := by omega
    have hPadded : o.address = o.octets := by
      rw [address, hWhole, Nat.sub_self, List.replicate_zero, List.append_nil]
    have hSome : (decode o.data).address.map IpAddr.octets = some o.address := by
      rw [hDecode]
      dsimp only
      rw [hAddress, if_pos hWhole.ge, ← hWhole, List.take_length, hPadded]
    refine ⟨by rw [hDecode], by rw [hDecode], by rw [hDecode], hSome, ?_⟩
    rw [encode_of_address hSome, hPadded, hDecode, data]

/-- The option for the single host `192.0.2.1/32`. -/
def hostOption : SubnetOption where
  family := 1
  sourcePrefix := 32
  scopePrefix := 0
  octets := [192, 0, 2, 1]
  known := Or.inl rfl
  within := by decide
  length := rfl
  trailing := by decide

/-- The option for a single host has a whole address, and survives. -/
theorem survives_hostOption : hostOption.Survives := (survives_codec_iff hostOption).mpr (by decide)

/-- The option for the network `192.0.2.0/24`, in the three octets that a client sends for
it. -/
def networkOption : SubnetOption where
  family := 1
  sourcePrefix := 24
  scopePrefix := 0
  octets := [192, 0, 2]
  known := Or.inl rfl
  within := by decide
  length := rfl
  trailing := by decide

/-- The usual option for a network has three octets, fewer than a whole address. Decoding
drops its address, and encoding gives none back. -/
theorem not_survives_networkOption : ¬networkOption.Survives := by
  intro h
  have hAddress := h.address
  have hNone : (decode networkOption.data).address = none := by decide
  rw [hNone] at hAddress
  cases hAddress

end SubnetOption

/-! ## Clamping -/

/-- The bytes of an option for IPv4. -/
structure IsIpv4Option (data : Bytes) : Prop where
  fixedPart : 4 ≤ data.length
  family : UInt16.fromBeBytes (data.take 2) = 1

/-- The source prefix in the data of an option, zero if it is not there. -/
def optionSource (data : Bytes) : UInt8 := data.getD 2 0

/-- The scope prefix in the data of an option, zero if it is not there. -/
def optionScope (data : Bytes) : UInt8 := data.getD 3 0

/-- The octets of the address in the data of an option, however many there are. -/
def optionOctets (data : Bytes) : Bytes := data.drop 4

/-- The option as the pipeline goes on with it, after decoding and clamping. -/
def clamped (max : UInt8) (data : Bytes) : EcsInfo := (decode data).clampScope max

/-- Clamping leaves a prefix of at most `max` and no address bit behind it. -/
def Hides (max : UInt8) (data : Bytes) : Prop :=
  (clamped max data).sourcePrefix ≤ max ∧
    ∀ ip, (clamped max data).address = some ip →
      ZeroBehind (clamped max data).sourcePrefix.toNat ip.octets

/-- Two options with the same prefixes and the same leading bits. -/
structure Alike (max : UInt8) (data data' : Bytes) : Prop where
  source : optionSource data = optionSource data'
  scope : optionScope data = optionScope data'
  leading : leadingBits (optionOctets data) (min (optionSource data) max).toNat =
    leadingBits (optionOctets data') (min (optionSource data) max).toNat

/-- What an upstream and the cache see of two options is the same. -/
structure SeenAlike (max : UInt8) (data data' : Bytes) : Prop where
  query : ∀ name qtype id, buildQuery name qtype id (some (clamped max data)) =
    buildQuery name qtype id (some (clamped max data'))
  token : (clamped max data).cacheToken = (clamped max data').cacheToken

/-- There is nothing behind the prefix that clamping would leave. -/
def Bare (max : UInt8) (data : Bytes) : Prop :=
  4 ≤ (optionOctets data).length → max < optionSource data ∨
    ZeroBehind (optionSource data).toNat ((optionOctets data).take 4)

theorem decode_ipv4 {data : Bytes} (h : IsIpv4Option data) :
    decode data = ⟨1, optionSource data, optionScope data, decodeAddress 1 (optionOctets data)⟩ := by
  obtain ⟨hFixed, hFamily⟩ := h
  match data, hFixed with
  | f0 :: f1 :: source :: scope :: octets, _ =>
      have hOne : UInt16.fromBeBytes [f0, f1] = 1 := hFamily
      simp only [decode, hOne]
      rfl

/-- The address of an option with four octets or more. -/
theorem exists_ipv4 {octets : Bytes} (h : 4 ≤ octets.length) :
    ∃ ip : Ipv4Addr, decodeAddress 1 octets = some (.v4 ip) ∧ ip.octets = octets.take 4 := by
  match octets, h with
  | a :: b :: c :: d :: more, _ => exact ⟨⟨a, b, c, d⟩, rfl, rfl⟩

theorem decodeAddress_short {octets : Bytes} (h : ¬4 ≤ octets.length) :
    decodeAddress 1 octets = none := by
  match octets, h with
  | [], _ => rfl
  | [_], _ => rfl
  | [_, _], _ => rfl
  | [_, _, _], _ => rfl
  | _ :: _ :: _ :: _ :: _, h => exact absurd (Nat.le_add_left 4 _) h

theorem clamped_small {max : UInt8} {data : Bytes} (h : IsIpv4Option data)
    (hSmall : optionSource data ≤ max) :
    clamped max data =
      ⟨1, optionSource data, optionScope data, decodeAddress 1 (optionOctets data)⟩ := by
  rw [clamped, decode_ipv4 h, clampScope, if_pos (Or.inr hSmall)]

theorem clamped_large {max : UInt8} {data : Bytes} (h : IsIpv4Option data)
    (hLarge : ¬optionSource data ≤ max) {ip : Ipv4Addr}
    (hAddress : decodeAddress 1 (optionOctets data) = some (.v4 ip)) :
    clamped max data = ⟨1, max, optionScope data, some (.v4 (maskIpv4 ip max))⟩ := by
  rw [clamped, decode_ipv4 h, hAddress, clampScope, if_neg (by simp [hLarge])]

theorem clamped_large_none {max : UInt8} {data : Bytes} (h : IsIpv4Option data)
    (hLarge : ¬optionSource data ≤ max) (hNone : decodeAddress 1 (optionOctets data) = none) :
    clamped max data = ⟨1, max, optionScope data, none⟩ := by
  rw [clamped, decode_ipv4 h, hNone, clampScope, if_neg (by simp [hLarge])]

theorem zeroBehind_mask (ip : Ipv4Addr) (max : UInt8) :
    ZeroBehind max.toNat (maskIpv4 ip max).octets := by
  intro b hb
  rw [bits_maskIpv4, List.drop_append, List.drop_take, Nat.sub_self, List.take_zero,
    List.nil_append] at hb
  exact List.eq_of_mem_replicate (List.mem_of_mem_drop hb)

/-- Clamping hides the rest of an address exactly if it finds nothing there that
it would leave. -/
theorem hides_iff {max : UInt8} {data : Bytes} (h : IsIpv4Option data) :
    Hides max data ↔ Bare max data := by
  rw [Hides, Bare]
  by_cases hSmall : optionSource data ≤ max
  · rw [clamped_small h hSmall]
    have hNot : ¬max < optionSource data := UInt8.not_lt.mpr hSmall
    by_cases hWhole : 4 ≤ (optionOctets data).length
    · obtain ⟨ip, hAddress, hOctets⟩ := exists_ipv4 hWhole
      simp only [hAddress, hSmall, hWhole, hNot, ← hOctets, true_and, false_or, forall_const,
        Option.some_inj, forall_eq']
      rfl
    · simp [decodeAddress_short hWhole, hSmall, hWhole]
  · have hLess : max < optionSource data := UInt8.not_le.mp hSmall
    refine iff_of_true ?_ fun _ => Or.inl hLess
    by_cases hWhole : 4 ≤ (optionOctets data).length
    · obtain ⟨ip, hAddress, -⟩ := exists_ipv4 hWhole
      rw [clamped_large h hSmall hAddress]
      refine ⟨UInt8.le_refl max, fun ip' hIp => ?_⟩
      cases hIp
      exact zeroBehind_mask ip max
    · rw [clamped_large_none h hSmall (decodeAddress_short hWhole)]
      exact ⟨UInt8.le_refl max, fun ip hIp => nomatch hIp⟩

/-- With four octets there are no missing ones among the leading bits. -/
theorem leadingBits_whole {octets : Bytes} (hWhole : 4 ≤ octets.length) {n : Nat} (hn : n ≤ 32) :
    leadingBits octets n = (bits (octets.take 4)).take n := by
  have hFour : (octets.take 4).length = 4 := by
    rw [List.length_take]
    omega
  have hRoom : n ≤ 8 * (octets.take 4).length := by omega
  have hSplit := leadingBits_append hRoom (octets.drop 4)
  rw [List.take_append_drop] at hSplit
  rw [hSplit, leadingBits, List.take_append_of_le_length]
  rw [bits_length]
  omega

/-- An address with nothing behind a prefix is determined by the prefix. -/
theorem eq_of_zeroBehind {ip ip' : Ipv4Addr} {n : Nat} (h : ZeroBehind n ip.octets)
    (h' : ZeroBehind n ip'.octets)
    (hLeading : (bits ip.octets).take n = (bits ip'.octets).take n) : ip = ip' := by
  have hDrop : (bits ip.octets).drop n = (bits ip'.octets).drop n := by
    rw [List.eq_replicate_of_mem h, List.eq_replicate_of_mem h', List.length_drop, List.length_drop,
      bits_length, bits_length, Ipv4Addr.octets_length, Ipv4Addr.octets_length]
  refine Ipv4Addr.bits_injective ?_
  rw [← List.take_append_drop n (bits ip.octets), hLeading, hDrop, List.take_append_drop]

theorem maskIpv4_congr {ip ip' : Ipv4Addr} {max : UInt8}
    (hLeading : (bits ip.octets).take max.toNat = (bits ip'.octets).take max.toNat) :
    maskIpv4 ip max = maskIpv4 ip' max := by
  refine Ipv4Addr.bits_injective ?_
  rw [bits_maskIpv4, bits_maskIpv4, hLeading]

/-- Bare options that are alike, both with or both without an address, are the
same after clamping. -/
theorem clamped_eq {max : UInt8} (hMax : max ≤ 32) {data data' : Bytes} (h : IsIpv4Option data)
    (h' : IsIpv4Option data') (hAlike : Alike max data data') (hBare : Bare max data)
    (hBare' : Bare max data')
    (hWhole : 4 ≤ (optionOctets data).length ↔ 4 ≤ (optionOctets data').length) :
    clamped max data = clamped max data' := by
  obtain ⟨hSource, hScope, hLeading⟩ := hAlike
  have hMaxNat : max.toNat ≤ 32 := UInt8.le_iff_toNat_le.mp hMax
  by_cases hFour : 4 ≤ (optionOctets data).length
  · obtain ⟨ip, hAddress, hOctets⟩ := exists_ipv4 hFour
    obtain ⟨ip', hAddress', hOctets'⟩ := exists_ipv4 (hWhole.mp hFour)
    by_cases hSmall : optionSource data ≤ max
    · have hSmall' : optionSource data' ≤ max := hSource ▸ hSmall
      have hSourceNat : (optionSource data).toNat ≤ 32 :=
        (UInt8.le_iff_toNat_le.mp hSmall).trans hMaxNat
      have hMin : min (optionSource data) max = optionSource data := if_pos hSmall
      rw [hMin, leadingBits_whole hFour hSourceNat, leadingBits_whole (hWhole.mp hFour) hSourceNat,
        ← hOctets, ← hOctets'] at hLeading
      have hZero := (hBare hFour).resolve_left (UInt8.not_lt.mpr hSmall)
      have hZero' := (hBare' (hWhole.mp hFour)).resolve_left (UInt8.not_lt.mpr hSmall')
      rw [← hOctets] at hZero
      rw [← hOctets', ← hSource] at hZero'
      rw [clamped_small h hSmall, clamped_small h' hSmall', hAddress, hAddress', hSource, hScope,
        eq_of_zeroBehind hZero hZero' hLeading]
    · have hSmall' : ¬optionSource data' ≤ max := hSource ▸ hSmall
      have hMin : min (optionSource data) max = max := if_neg hSmall
      rw [hMin, leadingBits_whole hFour hMaxNat, leadingBits_whole (hWhole.mp hFour) hMaxNat,
        ← hOctets, ← hOctets'] at hLeading
      rw [clamped_large h hSmall hAddress, clamped_large h' hSmall' hAddress', hScope,
        maskIpv4_congr hLeading]
  · have hNone := decodeAddress_short hFour
    have hNone' := decodeAddress_short (mt hWhole.mpr hFour)
    by_cases hSmall : optionSource data ≤ max
    · rw [clamped_small h hSmall, clamped_small h' (hSource ▸ hSmall), hNone, hNone', hSource,
        hScope]
    · rw [clamped_large_none h hSmall hNone, clamped_large_none h' (hSource ▸ hSmall) hNone', hScope]

theorem clamped_address_eq_none_iff (max : UInt8) {data : Bytes} (h : IsIpv4Option data) :
    (clamped max data).address = none ↔ ¬4 ≤ (optionOctets data).length := by
  by_cases hWhole : 4 ≤ (optionOctets data).length
  · obtain ⟨ip, hAddress, -⟩ := exists_ipv4 hWhole
    refine iff_of_false ?_ (not_not.mpr hWhole)
    by_cases hSmall : optionSource data ≤ max
    · simp [clamped_small h hSmall, hAddress]
    · simp [clamped_large h hSmall hAddress]
  · have hNone := decodeAddress_short hWhole
    refine iff_of_true ?_ hWhole
    by_cases hSmall : optionSource data ≤ max
    · simp [clamped_small h hSmall, hNone]
    · simp [clamped_large_none h hSmall hNone]

/-- Clamping hides the rest of two alike options, and both are seen alike,
exactly if neither has a bit that clamping leaves behind its prefix and both
have four octets or neither has. -/
theorem clamp_hides_iff {max : UInt8} (hMax : max ≤ 32) {data data' : Bytes}
    (h : IsIpv4Option data) (h' : IsIpv4Option data') (hAlike : Alike max data data') :
    Hides max data ∧ Hides max data' ∧ SeenAlike max data data' ↔
      Bare max data ∧ Bare max data' ∧
        (4 ≤ (optionOctets data).length ↔ 4 ≤ (optionOctets data').length) := by
  rw [hides_iff h, hides_iff h']
  constructor
  · rintro ⟨hBare, hBare', hSeen⟩
    refine ⟨hBare, hBare', ?_⟩
    rw [← not_iff_not, ← clamped_address_eq_none_iff max h, ← clamped_address_eq_none_iff max h',
      ← cacheToken_eq_nil_iff, ← cacheToken_eq_nil_iff, hSeen.token]
  · rintro ⟨hBare, hBare', hWhole⟩
    have hSame := clamped_eq hMax h h' hAlike hBare hBare' hWhole
    exact ⟨hBare, hBare', fun _ _ _ => by rw [hSame], by rw [hSame]⟩

/-- The address of a host in `192.0.2.0/24`, with a source prefix. -/
def hostData (source host : UInt8) : Bytes := [0, 1, source, 0, 192, 0, 2, host]

theorem isIpv4Option_hostData (source host : UInt8) : IsIpv4Option (hostData source host) :=
  ⟨by simp [hostData], rfl⟩

/-- Two hosts of one network with all their octets are cut to the network, and are then
seen alike. -/
theorem clamp_hides_hosts :
    Hides 24 (hostData 32 77) ∧ Hides 24 (hostData 32 78) ∧
      SeenAlike 24 (hostData 32 77) (hostData 32 78) := by
  refine (clamp_hides_iff (by decide) (isIpv4Option_hostData 32 77) (isIpv4Option_hostData 32 78)
    ⟨rfl, rfl, by decide⟩).mpr ⟨fun _ => ?_, fun _ => ?_, Iff.rfl⟩
  · exact Or.inl (by decide)
  · exact Or.inl (by decide)

/-- A source prefix of `max` with all four octets is not cut: the host is sent upstream
and keys the cache. -/
theorem not_hides_hosts :
    Alike 24 (hostData 24 77) (hostData 24 78) ∧ ¬Hides 24 (hostData 24 77) ∧
      ¬SeenAlike 24 (hostData 24 77) (hostData 24 78) := by
  refine ⟨⟨rfl, rfl, by decide⟩, fun hHides => ?_, fun hSeen => ?_⟩
  · have hBare := (hides_iff (isIpv4Option_hostData 24 77)).mp hHides (by decide)
    revert hBare
    decide
  · have hToken := hSeen.token
    revert hToken
    decide

end Dnsd.Proto
