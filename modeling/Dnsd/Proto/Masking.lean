import Dnsd.Base.Leading
import Dnsd.Proto.Ecs

/-! The two masks bit by bit: one shifts a word, the other blanks octets. -/

namespace Dnsd.Proto

open Bytes

/-- `for i in full_bytes..16 { octets[i] = 0 }`. -/
def zeroFrom (octets : Bytes) (fullBytes : Nat) : Bytes :=
  (List.range' fullBytes (16 - fullBytes)).foldl (fun octets i => octets.set i 0) octets

/-- The octet that the prefix ends in, masked in place. -/
def maskOctet (octets : Bytes) (fullBytes : Nat) (remBits : UInt8) : Bytes :=
  if 0 < remBits ∧ fullBytes < 16 then
    octets.modify fullBytes fun octet => octet &&& (0xFF <<< (8 - remBits))
  else octets

theorem length_zeroFrom (octets : Bytes) (fullBytes : Nat) :
    (zeroFrom octets fullBytes).length = octets.length := by
  rw [zeroFrom]
  exact List.foldlRecOn _ _ (motive := fun (l : Bytes) => l.length = octets.length) rfl
    fun l hl _ _ => List.length_set.trans hl

theorem length_maskOctet (octets : Bytes) (fullBytes : Nat) (remBits : UInt8) :
    (maskOctet octets fullBytes remBits).length = octets.length := by
  rw [maskOctet]
  split_ifs
  · exact List.length_modify _ _ _
  · rfl

/-- The loop comes first: it blanks the octet that the prefix ends in as well. -/
def maskIpv6 (ip : Ipv6Addr) (pre : UInt8) : Ipv6Addr :=
  if pre = 0 then Ipv6Addr.unspecified
  else if 128 ≤ pre then ip
  else
    let fullBytes := (pre / 8).toNat
    let remBits := pre % 8
    ⟨maskOctet (zeroFrom ip.octets fullBytes) fullBytes remBits, by
      rw [length_maskOctet, length_zeroFrom, ip.octets_length]⟩

/-! ## Octets and bits -/

theorem byteBits_zero : byteBits 0 = List.replicate 8 false := rfl

theorem bits_replicate_zero (n : Nat) :
    bits (List.replicate n 0) = List.replicate (8 * n) false := by
  induction n with
  | zero => rfl
  | succ n ih =>
      rw [List.replicate_succ, bits, List.flatMap_cons, byteBits_zero, ← bits, ih,
        List.replicate_append_replicate]
      congr 1
      omega

theorem take_bits {n : Nat} {octets : Bytes} (h : n ≤ octets.length) :
    (bits octets).take (8 * n) = bits (octets.take n) := by
  conv_lhs => rw [← List.take_append_drop n octets, bits_append]
  refine List.take_left' ?_
  rw [bits_length, List.length_take, Nat.min_eq_left h]

/-- Blank octets are blank bits. -/
theorem bits_keep (n : Nat) (octets : Bytes) :
    bits (Leading.keep 0 n octets) = Leading.keep false (8 * n) (bits octets) := by
  rcases Nat.lt_or_ge octets.length n with hShort | hLong
  · rw [Leading.keep_of_length_le (by omega), Leading.keep_of_length_le]
    rw [bits_length]
    omega
  · rw [Leading.keep, Leading.keep, bits_append, bits_replicate_zero, take_bits hLong, bits_length,
      Nat.mul_sub]

/-! ## The masks -/

theorem bits_maskIpv4_eq_keep (ip : Ipv4Addr) (pre : UInt8) :
    bits (maskIpv4 ip pre).octets = Leading.keep false pre.toNat (bits ip.octets) := by
  rw [bits_maskIpv4, Leading.keep, bits_length, Ipv4Addr.octets_length]

theorem zeroFrom_eq_keep {octets : Bytes} (hLength : octets.length = 16) {fullBytes : Nat}
    (h : fullBytes ≤ 16) : zeroFrom octets fullBytes = Leading.keep 0 fullBytes octets :=
  Leading.foldl_set_eq_keep _ _ _ (by omega)

/-- There is nothing left of the octet when it is masked. -/
theorem maskOctet_keep (octets : Bytes) (fullBytes : Nat) (remBits : UInt8) :
    maskOctet (Leading.keep 0 fullBytes octets) fullBytes remBits =
      Leading.keep 0 fullBytes octets := by
  rw [maskOctet]
  split_ifs with hPart
  · refine List.ext_getElem? fun i => ?_
    rw [List.getElem?_modify, Leading.getElem?_keep]
    by_cases hi : fullBytes = i
    · simp only [if_pos hi]
      rw [if_neg (by omega)]
      -- the byte that is left to mask is a blank one
      split_ifs
      · rw [Option.map_eq_map, Option.map_some, UInt8.zero_and]
      · rfl
    · simp only [if_neg hi]
      exact id_map _
  · rfl

/-- Only whole octets are kept. -/
theorem octets_maskIpv6 (ip : Ipv6Addr) (pre : UInt8) :
    (maskIpv6 ip pre).octets = Leading.keep 0 (pre.toNat / 8) ip.octets := by
  have hLength := ip.octets_length
  rw [maskIpv6]
  split_ifs with hZero hLarge
  · rw [hZero, Leading.keep, hLength]
    rfl
  · rw [UInt8.le_iff_toNat_le] at hLarge
    have hWhole : 128 ≤ pre.toNat := hLarge
    rw [Leading.keep_of_length_le (by omega)]
  · rw [UInt8.le_iff_toNat_le, Nat.not_le] at hLarge
    have hSmall : pre.toNat < 128 := hLarge
    have hFull : (pre / 8).toNat = pre.toNat / 8 := UInt8.toNat_div _ _
    dsimp only
    rw [hFull, zeroFrom_eq_keep hLength (by omega), maskOctet_keep]

theorem bits_maskIpv6 (ip : Ipv6Addr) (pre : UInt8) :
    bits (maskIpv6 ip pre).octets =
      Leading.keep false (8 * (pre.toNat / 8)) (bits ip.octets) := by
  rw [octets_maskIpv6, bits_keep]

/-! ## The law of a mask -/

/-- What masking an address by a prefix length means for its bits, and for
masking once more. -/
structure MaskLaw {Addr : Type} (mask : Addr → UInt8 → Addr) (octets : Addr → Bytes) (ip : Addr)
    (pre : UInt8) : Prop where
  length : (bits (octets (mask ip pre))).length = (bits (octets ip)).length
  front : ∀ i, i < pre.toNat → (bits (octets (mask ip pre)))[i]? = (bits (octets ip))[i]?
  rest : ∀ i, pre.toNat ≤ i → ∀ b ∈ (bits (octets (mask ip pre)))[i]?, b = false
  twice : mask (mask ip pre) pre = mask ip pre
  both : ∀ q, mask (mask ip pre) q = mask ip (min pre q)

/-- The bits of the prefix that share their octet with bits behind it are zero. -/
def PartClear (ip : Ipv6Addr) (pre : UInt8) : Prop :=
  ∀ i, 8 * (pre.toNat / 8) ≤ i → i < pre.toNat → ∀ b ∈ (bits ip.octets)[i]?, b = false

theorem toNat_min (p q : UInt8) : (min p q).toNat = min p.toNat q.toNat := by
  have hMin : min p q = if p ≤ q then p else q := rfl
  rw [hMin, Nat.min_def]
  simp only [UInt8.le_iff_toNat_le]
  split_ifs <;> rfl

theorem maskIpv4_maskIpv4 (ip : Ipv4Addr) (p q : UInt8) :
    maskIpv4 (maskIpv4 ip p) q = maskIpv4 ip (min p q) := by
  apply Ipv4Addr.bits_injective
  rw [bits_maskIpv4_eq_keep, bits_maskIpv4_eq_keep, bits_maskIpv4_eq_keep, Leading.keep_keep,
    toNat_min]

theorem maskIpv6_maskIpv6 (ip : Ipv6Addr) (p q : UInt8) :
    maskIpv6 (maskIpv6 ip p) q = maskIpv6 ip (min p q) := by
  apply Ipv6Addr.ext
  rw [octets_maskIpv6, octets_maskIpv6, octets_maskIpv6, Leading.keep_keep, toNat_min]
  congr 1
  omega

theorem min_same (p : UInt8) : min p p = p := by
  apply UInt8.toNat_inj.mp
  rw [toNat_min, Nat.min_self]

/-- A mask that composes and keeps the front keeps the law. -/
theorem MaskLaw.of_keep {Addr : Type} {mask : Addr → UInt8 → Addr} {octets : Addr → Bytes}
    {ip : Addr} {pre : UInt8}
    (hKeep : bits (octets (mask ip pre)) = Leading.keep false pre.toNat (bits (octets ip)))
    (hBoth : ∀ q, mask (mask ip pre) q = mask ip (min pre q)) : MaskLaw mask octets ip pre := by
  have hLength : (bits (octets (mask ip pre))).length = (bits (octets ip)).length := by
    rw [hKeep, Leading.keep_length]
  obtain ⟨hFront, hRest⟩ := (Leading.eq_keep_iff hLength).mp hKeep
  exact ⟨hLength, hFront, hRest, by rw [hBoth, min_same], hBoth⟩

theorem MaskLaw.keep {Addr : Type} {mask : Addr → UInt8 → Addr} {octets : Addr → Bytes}
    {ip : Addr} {pre : UInt8} (h : MaskLaw mask octets ip pre) :
    bits (octets (mask ip pre)) = Leading.keep false pre.toNat (bits (octets ip)) :=
  (Leading.eq_keep_iff h.length).mpr ⟨h.front, h.rest⟩

/-- The mask of four octets keeps the law, the one of sixteen octets where the
octet that the prefix ends in has nothing to keep. -/
theorem mask_law_iff (ipv4 : Ipv4Addr) (ip : Ipv6Addr) (pre : UInt8) :
    MaskLaw maskIpv4 Ipv4Addr.octets ipv4 pre ∧
      (MaskLaw maskIpv6 Ipv6Addr.octets ip pre ↔ PartClear ip pre) := by
  refine ⟨.of_keep (bits_maskIpv4_eq_keep ipv4 pre) (maskIpv4_maskIpv4 ipv4 pre), ?_⟩
  have hPart : 8 * (pre.toNat / 8) ≤ pre.toNat := by omega
  rw [PartClear, ← Leading.keep_eq_keep_iff hPart, ← bits_maskIpv6]
  exact ⟨MaskLaw.keep, fun hKeep => .of_keep hKeep (maskIpv6_maskIpv6 ip pre)⟩

/-- 2001:db8:ff00:: by 36 bits loses the four that are in the fifth octet: the octet is
blanked before its bits are put back. -/
theorem maskIpv6_loses_part :
    let ip : Ipv6Addr := ⟨[0x20, 0x01, 0x0d, 0xb8, 0xff, 0, 0, 0, 0, 0, 0, 0, 0, 0, 0, 0], rfl⟩
    ¬MaskLaw maskIpv6 Ipv6Addr.octets ip 36 ∧
      (bits (maskIpv6 ip 36).octets)[32]? = some false ∧ (bits ip.octets)[32]? = some true := by
  intro ip
  have hMasked : (bits (maskIpv6 ip 36).octets)[32]? = some false := by decide +kernel
  have hBit : (bits ip.octets)[32]? = some true := by decide +kernel
  refine ⟨fun h => ?_, hMasked, hBit⟩
  have hSame := h.front 32 (by decide)
  rw [hMasked, hBit] at hSame
  cases hSame

end Dnsd.Proto
