import Mathlib.Data.List.Range
import Dnsd.Rust.Net

/-! Bytes and IPv4 addresses bit by bit, most significant bit first. -/

namespace Bytes

/-- The eight bits of a byte, the highest first. -/
def byteBits (b : UInt8) : List Bool := (List.range 8).map fun i => b.toNat.testBit (7 - i)

/-- The bits of some bytes, from the highest of the first to the lowest of the last. -/
def bits (bs : Bytes) : List Bool := bs.flatMap byteBits

@[simp] theorem bits_nil : bits [] = [] := rfl

@[simp] theorem bits_append (bs cs : Bytes) : bits (bs ++ cs) = bits bs ++ bits cs :=
  List.flatMap_append

@[simp] theorem byteBits_length (b : UInt8) : (byteBits b).length = 8 := by simp [byteBits]

theorem bits_length (bs : Bytes) : (bits bs).length = 8 * bs.length := by
  induction bs with
  | nil => rfl
  | cons b rest ih =>
      rw [bits, List.flatMap_cons, List.length_append, byteBits_length, List.length_cons]
      rw [bits] at ih
      omega

end Bytes

namespace Ipv4Addr

open Bytes

theorem toU32_toNat (ip : Ipv4Addr) : ip.toU32.toNat =
    ip.a.toNat * 2 ^ 24 + ip.b.toNat * 2 ^ 16 + ip.c.toNat * 2 ^ 8 + ip.d.toNat := by
  have hA := ip.a.toNat_lt
  have hB := ip.b.toNat_lt
  have hC := ip.c.toNat_lt
  have hD := ip.d.toNat_lt
  simp only [toU32, UInt32.fromBeBytes, octets, Words.beValue, List.reverse_cons,
    List.reverse_nil, List.nil_append, List.cons_append, Words.leValue,
    UInt32.toNat_ofNat']
  omega

@[simp] theorem ofU32_toU32 (ip : Ipv4Addr) : ofU32 ip.toU32 = ip := by
  have hNat := ip.toU32_toNat
  have hA := ip.a.toNat_lt
  have hB := ip.b.toNat_lt
  have hC := ip.c.toNat_lt
  have hD := ip.d.toNat_lt
  have hShift (n : Nat) (hn : n < 32) (b : UInt8)
      (hValue : ip.toU32.toNat / 2 ^ n % 256 = b.toNat) :
      (ip.toU32 >>> UInt32.ofNat n).toUInt8 = b := by
    apply UInt8.toNat_inj.mp
    rw [UInt32.toNat_toUInt8, UInt32.toNat_shiftRight, UInt32.toNat_ofNat',
      Nat.shiftRight_eq_div_pow, ← hValue]
    congr 3
    omega
  have hLast : ip.toU32.toUInt8 = ip.d := by
    apply UInt8.toNat_inj.mp
    rw [UInt32.toNat_toUInt8]
    omega
  cases ip with
  | mk a b c d =>
      dsimp only at hNat hA hB hC hD hShift hLast
      rw [ofU32, mk.injEq]
      exact ⟨hShift 24 (by decide) a (by omega), hShift 16 (by decide) b (by omega),
        hShift 8 (by decide) c (by omega), hLast⟩

/-- The bits of the octets are those of the number. -/
theorem bits_ofU32 (x : UInt32) :
    bits (ofU32 x).octets = (List.range 32).map fun i => x.toNat.testBit (31 - i) := by
  have hOctet (n : Nat) (hn : n < 32) :
      byteBits (x >>> UInt32.ofNat n).toUInt8 =
        (List.range 8).map fun i => x.toNat.testBit (n + (7 - i)) := by
    refine List.map_congr_left fun i hi => ?_
    have hi := List.mem_range.mp hi
    have hValue : (x >>> UInt32.ofNat n).toUInt8.toNat = x.toNat / 2 ^ n % 2 ^ 8 := by
      rw [UInt32.toNat_toUInt8, UInt32.toNat_shiftRight, UInt32.toNat_ofNat',
        Nat.shiftRight_eq_div_pow, Nat.mod_eq_of_lt (a := n) (by omega), Nat.mod_eq_of_lt hn]
    rw [hValue, Nat.testBit_mod_two_pow, Nat.testBit_div_two_pow, Nat.add_comm]
    simp
    omega
  have hPart (n k : Nat) (hn : n + k = 24) :
      ((List.range 8).map fun i => x.toNat.testBit (n + (7 - i))) =
        (List.range 8).map fun i => x.toNat.testBit (31 - (k + i)) := by
    refine List.map_congr_left fun i hi => ?_
    have hi := List.mem_range.mp hi
    rw [show n + (7 - i) = 31 - (k + i) by omega]
  have hLast : byteBits x.toUInt8 = (List.range 8).map fun i => x.toNat.testBit (0 + (7 - i)) := by
    rw [← hOctet 0 (by decide)]
    simp
  have hSplit (f : Nat → Bool) : (List.range 32).map f =
      (List.range 8).map (fun i => f (0 + i)) ++ ((List.range 8).map (fun i => f (8 + i)) ++
        ((List.range 8).map (fun i => f (16 + i)) ++
          ((List.range 8).map (fun i => f (24 + i)) ++ []))) := rfl
  rw [hSplit, ← hPart 24 0 rfl, ← hPart 16 8 rfl, ← hPart 8 16 rfl, ← hPart 0 24 rfl,
    ← hOctet 24 (by decide), ← hOctet 16 (by decide), ← hOctet 8 (by decide), ← hLast]
  rfl

theorem bits_octets (ip : Ipv4Addr) :
    bits ip.octets = (List.range 32).map fun i => ip.toU32.toNat.testBit (31 - i) := by
  rw [← bits_ofU32, ofU32_toU32]

/-- An address is determined by its bits. -/
theorem bits_injective {ip ip' : Ipv4Addr} (h : bits ip.octets = bits ip'.octets) : ip = ip' := by
  have hBit (i : Nat) : ip.toU32.toNat.testBit i = ip'.toU32.toNat.testBit i := by
    rcases Nat.lt_or_ge i 32 with hLow | hHigh
    · rw [bits_octets, bits_octets] at h
      have hSame := congrArg (fun l => l[31 - i]?) h
      simp only [List.getElem?_map, List.getElem?_range (show 31 - i < 32 by omega),
        Option.map_some, Option.some_inj] at hSame
      rwa [show 31 - (31 - i) = i by omega] at hSame
    · have hPower : (2 : Nat) ^ 32 ≤ 2 ^ i := Nat.pow_le_pow_right (by decide) hHigh
      rw [Nat.testBit_lt_two_pow (ip.toU32.toNat_lt.trans_le hPower),
        Nat.testBit_lt_two_pow (ip'.toU32.toNat_lt.trans_le hPower)]
  have hNumber : ip.toU32 = ip'.toU32 := UInt32.toNat_inj.mp (Nat.eq_of_testBit_eq hBit)
  rw [← ofU32_toU32 ip, hNumber, ofU32_toU32]

end Ipv4Addr
