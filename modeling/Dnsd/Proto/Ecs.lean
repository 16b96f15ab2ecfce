import Dnsd.Proto.Message
import Dnsd.Proto.Name
import Dnsd.Rust.Bits
import Dnsd.Rust.NetText

/-! The client subnet option: decoding, clamping, the text that stands for it in
a cache key, and the network that its bytes name. -/

namespace Dnsd.Proto

open Bytes

/-- `EcsInfo`: the client's network, or as much of it as the option has given. -/
structure EcsInfo where
  family : UInt16
  sourcePrefix : UInt8
  scopePrefix : UInt8
  address : Option IpAddr
  deriving DecidableEq

/-- The leading bits of an address; the others become zero. -/
def maskIpv4 (ip : Ipv4Addr) (pre : UInt8) : Ipv4Addr :=
  if pre = 0 then Ipv4Addr.unspecified
  else if 32 ≤ pre then ip
  else
    let mask : UInt32 := 0xFFFFFFFF <<< (32 - pre).toUInt32
    Ipv4Addr.ofU32 (ip.toU32 &&& mask)

namespace EcsInfo

/-- The address of an option, if it has all of its octets. -/
def decodeAddress (family : UInt16) (addrBytes : Bytes) : Option IpAddr :=
  if family = 1 then
    match addrBytes with
    | a :: b :: c :: d :: _ => some (.v4 ⟨a, b, c, d⟩)
    | _ => none
  else if family = 2 then
    if h : (addrBytes.take 16).length = 16 then some (.v6 ⟨addrBytes.take 16, h⟩) else none
  else none

/-- `EcsInfo::decode`. Data too short for its four octets of a head give the empty option.
-/
def decode (data : Bytes) : EcsInfo :=
  match data with
  | f0 :: f1 :: sourcePrefix :: scopePrefix :: addrBytes =>
      let family := UInt16.fromBeBytes [f0, f1]
      ⟨family, sourcePrefix, scopePrefix, decodeAddress family addrBytes⟩
  | _ => ⟨0, 0, 0, none⟩

/-- `EcsInfo::encode`: the address is written in full, whatever its prefix says. -/
def encode (e : EcsInfo) : Bytes :=
  e.family.toBeBytes ++ [e.sourcePrefix, e.scopePrefix] ++
    match e.address with
    | some (.v4 ip) => ip.octets
    | some (.v6 ip) => ip.octets
    | none => []

/-- An IPv4 source prefix is cut to `max`; IPv6 is untouched. -/
def clampScope (e : EcsInfo) (max : UInt8) : EcsInfo :=
  if e.family ≠ 1 ∨ e.sourcePrefix ≤ max then e
  else
    { e with
      sourcePrefix := max
      address := match e.address with
        | some (.v4 ip) => some (.v4 (maskIpv4 ip max))
        | other => other }

/-- `EcsInfo::cache_token`: the address and its source prefix with a slash between them,
or the empty text without an address. -/
def cacheToken (e : EcsInfo) : Str :=
  match e.address with
  | some ip => ip.text ++ '/' :: Str.decimal e.sourcePrefix.toNat
  | none => []

end EcsInfo

/-- The bytes of the first ECS option with a whole fixed part. -/
def Message.ecsData (m : Message) : Option Bytes :=
  match m.edns with
  | none => none
  | some opt =>
      match opt.data with
      | .opt _ _ _ _ options =>
          (options.find? fun o => o.code = ednsOptEcs ∧ 4 ≤ o.data.length).map OptOption.data
      | _ => none

/-- `Message::ecs`: the option as it is decoded, if there is one. -/
def Message.ecs (m : Message) : Option EcsInfo := m.ecsData.map EcsInfo.decode

/-! ## Queries and replies with an option -/

/-- `add_edns`: an OPT record behind the additional section, with the option in it if
there is one. -/
def addEdns (m : Message) (udpSize : UInt16) (ecs : Option EcsInfo) : Message :=
  let options := match ecs with
    | some e => [⟨ednsOptEcs, e.encode⟩]
    | none => []
  { m with
    additional := m.additional ++ [⟨['.'], typeOpt, udpSize, 0, .opt udpSize 0 0 0 options⟩] }

/-- `build_query`: what the resolver sends, with an OPT record in every query. -/
def buildQuery (name : Str) (qtype id : UInt16) (ecs : Option EcsInfo) : Message :=
  addEdns { header := { id := id, rd := true }
            questions := [⟨canonicalName name, qtype, classIn⟩] } 1232 ecs

/-- The option list of an OPT record with an ECS option in it. -/
def echoOptions (options : List OptOption) (ecs : EcsInfo) : List OptOption :=
  if options.any fun o => o.code = ednsOptEcs then options
  else options ++ [⟨ednsOptEcs, ecs.encode⟩]

/-- Add the option to the first record of type OPT; `none` without one. -/
def echoInto (ecs : EcsInfo) : List Record → Option (List Record)
  | [] => none
  | r :: rest =>
      if r.rtype = typeOpt then
        match r.data with
        | .opt udpSize extRcode version flags options =>
            let data := .opt udpSize extRcode version flags (echoOptions options ecs)
            some ({ r with data := data } :: rest)
        | _ => some (r :: rest)
      else (echoInto ecs rest).map (r :: ·)

/-- `echo_ecs`: the client's option in the OPT record of a reply. -/
def echoEcs (m : Message) (ecs : EcsInfo) : Message :=
  match echoInto ecs m.additional with
  | some additional => { m with additional := additional }
  | none => addEdns m 1232 (some ecs)

/-! ## Masking -/

/-- A mask has ones in front and zeros behind. -/
theorem mask_testBit {pre : UInt8} (hPositive : pre ≠ 0) (hSmall : ¬32 ≤ pre) {i : Nat}
    (hi : i < 32) :
    ((0xFFFFFFFF : UInt32) <<< (32 - pre).toUInt32).toNat.testBit (31 - i) =
      decide (i < pre.toNat) := by
  have hAll : ∀ p : Fin 31, ∀ i : Fin 32,
      ((0xFFFFFFFF : UInt32) <<< (32 - UInt8.ofNat (p.val + 1)).toUInt32).toNat.testBit
        (31 - i.val) = decide (i.val < p.val + 1) := by
    decide +kernel
  have hNat : pre.toNat ≠ 0 := fun h => hPositive (UInt8.toNat_inj.mp h)
  have hBound : pre.toNat < 32 := by
    rw [UInt8.le_iff_toNat_le] at hSmall
    exact Nat.not_le.mp hSmall
  have hPre := hAll ⟨pre.toNat - 1, by omega⟩ ⟨i, hi⟩
  dsimp only at hPre
  rwa [Nat.sub_add_cancel (by omega), UInt8.ofNat_toNat] at hPre

/-- Masking keeps the leading bits and clears the others. -/
theorem bits_maskIpv4 (ip : Ipv4Addr) (pre : UInt8) :
    bits (maskIpv4 ip pre).octets =
      (bits ip.octets).take pre.toNat ++ List.replicate (32 - pre.toNat) false := by
  rw [maskIpv4]
  split_ifs with hZero hLarge
  · rw [hZero]
    rfl
  · have hNat : 32 ≤ pre.toNat := UInt8.le_iff_toNat_le.mp hLarge
    have hLength : (bits ip.octets).length ≤ pre.toNat := by
      rw [bits_length, Ipv4Addr.octets_length]
      omega
    rw [List.take_of_length_le hLength, Nat.sub_eq_zero_of_le hNat, List.replicate_zero,
      List.append_nil]
  · have hNat : pre.toNat < 32 := by
      rw [UInt8.le_iff_toNat_le] at hLarge
      exact Nat.not_le.mp hLarge
    dsimp only
    rw [Ipv4Addr.bits_ofU32, Ipv4Addr.bits_octets]
    refine List.ext_getElem (by simp; omega) fun i hi _ => ?_
    have hi : i < 32 := by simpa using hi
    simp only [List.getElem_map, List.getElem_range, UInt32.toNat_and, Nat.testBit_and,
      mask_testBit hZero hLarge hi, List.getElem_append, List.length_take, List.length_map,
      List.length_range, List.getElem_take, List.getElem_replicate]
    by_cases hKept : i < pre.toNat
    · rw [dif_pos (by omega)]
      simp [hKept]
    · rw [dif_neg (by omega)]
      simp [hKept]

/-! ## Subnets -/

/-- The network that a client names, as the leading bits of an address. -/
structure Subnet where
  family : UInt16
  sourcePrefix : UInt8
  prefixBits : List Bool
  deriving DecidableEq

/-- The bits of an address of the family; other families have no format. -/
def addressWidth (family : UInt16) : Nat :=
  if family = 1 then 32 else if family = 2 then 128 else 256

/-- So many leading bits, missing octets being zero. -/
def leadingBits (octets : Bytes) (n : Nat) : List Bool :=
  (bits octets ++ List.replicate n false).take n

/-- The network that octets name: their leading bits, as many as the prefix says and an
address has. -/
def subnetOf (family : UInt16) (sourcePrefix : UInt8) (octets : Bytes) : Subnet :=
  ⟨family, sourcePrefix, leadingBits octets (min sourcePrefix.toNat (addressWidth family))⟩

/-- The network that the bytes of an option name, an IPv4 prefix being cut to
`max`. -/
def optionSubnet (max : UInt8) (data : Bytes) : Subnet :=
  let family := UInt16.fromBeBytes (data.take 2)
  let sourcePrefix := data.getD 2 0
  subnetOf family (if family = 1 then min sourcePrefix max else sourcePrefix) (data.drop 4)

/-- The bytes of an option have all octets of an IPv4 or IPv6 address. -/
def NamesAddress (data : Bytes) : Prop :=
  UInt16.fromBeBytes (data.take 2) = 1 ∧ 8 ≤ data.length ∨
    UInt16.fromBeBytes (data.take 2) = 2 ∧ 20 ≤ data.length

instance (data : Bytes) : Decidable (NamesAddress data) := inferInstanceAs (Decidable (_ ∨ _))

/-- The network of a whole address. -/
def addressSubnet (ip : IpAddr) (sourcePrefix : UInt8) : Subnet :=
  match ip with
  | .v4 ip => subnetOf 1 sourcePrefix ip.octets
  | .v6 ip => subnetOf 2 sourcePrefix ip.octets

theorem leadingBits_append {octets : Bytes} {n : Nat} (h : n ≤ 8 * octets.length) (more : Bytes) :
    leadingBits (octets ++ more) n = leadingBits octets n := by
  have hLength := bits_length octets
  rw [leadingBits, leadingBits, bits_append, List.append_assoc,
    List.take_append_of_le_length (by omega), List.take_append_of_le_length (by omega)]

/-- Clearing the other bits does not change the network. -/
theorem subnetOf_maskIpv4 (ip : Ipv4Addr) (pre : UInt8) :
    subnetOf 1 pre (maskIpv4 ip pre).octets = subnetOf 1 pre ip.octets := by
  have hWidth : addressWidth 1 = 32 := rfl
  have hLength := bits_length ip.octets
  rw [Ipv4Addr.octets_length] at hLength
  rw [subnetOf, subnetOf, hWidth, leadingBits, leadingBits, bits_maskIpv4, List.append_assoc,
    List.take_append_of_le_length (by rw [List.length_take]; omega), List.take_take,
    List.take_append_of_le_length (by omega)]
  congr 2
  omega

namespace EcsInfo

theorem decode_address_isSome_iff (data : Bytes) :
    (decode data).address.isSome = true ↔ NamesAddress data := by
  match data with
  | [] => simp [decode, NamesAddress]
  | [_] => simp [decode, NamesAddress]
  | [_, _] => simp [decode, NamesAddress]
  | [_, _, _] => simp [decode, NamesAddress]
  | f0 :: f1 :: _ :: _ :: addrBytes =>
      simp only [decode, NamesAddress, decodeAddress, List.take_succ_cons, List.take_zero,
        List.length_cons]
      generalize UInt16.fromBeBytes [f0, f1] = family
      split_ifs with hFour hSix hOctets
      · match addrBytes with
        | [] => simp [hFour]
        | [_] => simp [hFour]
        | [_, _] => simp [hFour]
        | [_, _, _] => simp [hFour]
        | _ :: _ :: _ :: _ :: _ => simp [hFour]
      · rw [List.length_take] at hOctets
        simp [hSix]
        omega
      · rw [List.length_take] at hOctets
        simp [hSix]
        omega
      · simp [hFour, hSix]

/-- What is left of an option with a whole address after clamping names the
network of the option. -/
theorem clampScope_decode {data : Bytes} (h : NamesAddress data) (max : UInt8) :
    ∃ ip, ((decode data).clampScope max).address = some ip ∧
      optionSubnet max data = addressSubnet ip ((decode data).clampScope max).sourcePrefix := by
  have hLength : 8 ≤ data.length := by
    rcases h with h | h <;> omega
  match data, hLength, h with
  | f0 :: f1 :: sourcePrefix :: _ :: addrBytes, hLength, h =>
      simp only [NamesAddress, List.take_succ_cons, List.take_zero, List.length_cons] at h hLength
      simp only [decode, optionSubnet, List.take_succ_cons, List.take_zero, List.drop_succ_cons,
        List.drop_zero, List.getD_cons_succ, List.getD_cons_zero]
      generalize UInt16.fromBeBytes [f0, f1] = family at h
      rcases h with ⟨rfl, _⟩ | ⟨rfl, hSix⟩
      · match addrBytes, hLength with
        | a :: b :: c :: d :: more, _ =>
            have hFront (pre : UInt8) : subnetOf 1 pre (a :: b :: c :: d :: more) =
                subnetOf 1 pre [a, b, c, d] := by
              have hFour : a :: b :: c :: d :: more = [a, b, c, d] ++ more := rfl
              have hWidth : addressWidth 1 = 32 := rfl
              rw [subnetOf, hFour, leadingBits_append (by simp; omega)]
              rfl
            rw [if_pos rfl, clampScope]
            by_cases hSmall : sourcePrefix ≤ max
            · rw [if_pos (Or.inr hSmall)]
              refine ⟨.v4 ⟨a, b, c, d⟩, rfl, ?_⟩
              rw [hFront, show min sourcePrefix max = sourcePrefix from if_pos hSmall]
              rfl
            · rw [if_neg (by simp [hSmall])]
              refine ⟨.v4 (maskIpv4 ⟨a, b, c, d⟩ max), rfl, ?_⟩
              rw [hFront, show min sourcePrefix max = max from if_neg hSmall]
              exact (subnetOf_maskIpv4 ⟨a, b, c, d⟩ max).symm
      · have hSixteen : (addrBytes.take 16).length = 16 := by
          rw [List.length_take]
          omega
        have hFront : subnetOf 2 sourcePrefix addrBytes =
            subnetOf 2 sourcePrefix (addrBytes.take 16) := by
          have hWidth : addressWidth 2 = 128 := rfl
          conv_lhs => rw [subnetOf, ← List.take_append_drop 16 addrBytes]
          rw [leadingBits_append (by omega)]
          rfl
        rw [if_neg (by decide), hFront, clampScope, if_pos (Or.inl (show (2 : UInt16) ≠ 1 by decide))]
        refine ⟨.v6 ⟨addrBytes.take 16, hSixteen⟩, ?_, rfl⟩
        simp [decodeAddress, hSixteen]

theorem cacheToken_eq_nil_iff (e : EcsInfo) : e.cacheToken = [] ↔ e.address = none := by
  rw [cacheToken]
  cases e.address <;> simp

/-- The token determines address and source prefix. -/
theorem cacheToken_inj {e e' : EcsInfo} {ip : IpAddr} (hAddress : e.address = some ip)
    (h : e.cacheToken = e'.cacheToken) :
    e'.address = some ip ∧ e.sourcePrefix = e'.sourcePrefix := by
  cases hAddress' : e'.address with
  | none => simp [cacheToken, hAddress, hAddress'] at h
  | some ip' =>
      have hSlash (n : Nat) : '/' ∉ Str.decimal n := fun hMem =>
        absurd (Str.decimal_isDigit hMem) (by decide)
      simp only [cacheToken, hAddress, hAddress'] at h
      obtain ⟨hText, hPrefix⟩ := Str.append_sep_inj (hSlash _) (hSlash _) h
      exact ⟨by rw [IpAddr.text_injective hText],
        UInt8.toNat_inj.mp (Str.decimal_injective hPrefix)⟩

end EcsInfo

end Dnsd.Proto
