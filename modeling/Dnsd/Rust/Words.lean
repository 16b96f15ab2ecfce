import Dnsd.Rust.Exec
import Mathlib.Tactic.Ring
import Mathlib.Algebra.Order.Ring.Nat

/-! Fixed-width integers as bytes: `to_le_bytes`, `to_be_bytes` and their
inverses, first on natural numbers of a given width and then at Rust's types. -/

namespace Words

/-- The `width` low base-256 digits of `n`, least significant first. -/
def leBytes : Nat → Nat → Bytes
  | 0, _ => []
  | width + 1, n => UInt8.ofNat n :: leBytes width (n / 256)

/-- The number that a little-endian digit string denotes. -/
def leValue : Bytes → Nat
  | [] => 0
  | b :: rest => b.toNat + 256 * leValue rest

@[simp] theorem leBytes_length (width n : Nat) : (leBytes width n).length = width := by
  induction width generalizing n with
  | zero => rfl
  | succ width ih => simp [leBytes, ih]

/-- A number that fits is read back from its bytes. -/
theorem leValue_leBytes {width n : Nat} (h : n < 256 ^ width) :
    leValue (leBytes width n) = n := by
  induction width generalizing n with
  | zero => simp at h; simp [leBytes, leValue, h]
  | succ width ih =>
      have hDiv : n / 256 < 256 ^ width := by
        rw [Nat.pow_succ] at h
        omega
      simp only [leBytes, leValue, ih hDiv, UInt8.toNat_ofNat']
      omega

theorem leValue_lt (bs : Bytes) : leValue bs < 256 ^ bs.length := by
  induction bs with
  | nil => simp [leValue]
  | cons b rest ih =>
      have hb := b.toNat_lt
      rw [leValue, List.length_cons, Nat.pow_succ]
      omega

/-- Bytes are written back from their number. -/
theorem leBytes_leValue (bs : Bytes) : leBytes bs.length (leValue bs) = bs := by
  induction bs with
  | nil => rfl
  | cons b rest ih =>
      have hb := b.toNat_lt
      have hRest : (b.toNat + 256 * leValue rest) / 256 = leValue rest := by omega
      have hByte : UInt8.ofNat (b.toNat + 256 * leValue rest) = b := by
        rw [← UInt8.toNat_inj, UInt8.toNat_ofNat']
        omega
      rw [leValue, List.length_cons, leBytes, hByte, hRest, ih]

/-- Bytes behind others count for more. -/
theorem leValue_append (xs ys : Bytes) :
    leValue (xs ++ ys) = leValue xs + 256 ^ xs.length * leValue ys := by
  induction xs with
  | nil => simp [leValue]
  | cons b rest ih =>
      rw [List.cons_append, leValue, leValue, ih, List.length_cons, Nat.pow_succ]
      ring

/-- Big-endian digits are the little-endian ones reversed, so what holds of these carries
over. -/
def beBytes (width n : Nat) : Bytes := (leBytes width n).reverse

/-- The number that bytes in network order stand for. -/
def beValue (bs : Bytes) : Nat := leValue bs.reverse

@[simp] theorem beBytes_length (width n : Nat) : (beBytes width n).length = width := by
  simp [beBytes]

/-- A number that fits is read back from its bytes in network order. -/
theorem beValue_beBytes {width n : Nat} (h : n < 256 ^ width) :
    beValue (beBytes width n) = n := by
  simp [beValue, beBytes, leValue_leBytes h]

theorem beValue_lt (bs : Bytes) : beValue bs < 256 ^ bs.length := by
  have hLt := leValue_lt bs.reverse
  rwa [List.length_reverse] at hLt

/-- Bytes are written back from their number in network order. -/
theorem beBytes_beValue (bs : Bytes) : beBytes bs.length (beValue bs) = bs := by
  have hBytes := leBytes_leValue bs.reverse
  rw [List.length_reverse] at hBytes
  rw [beBytes, beValue, hBytes, List.reverse_reverse]

/-- Bytes in front of others count for more. -/
theorem beValue_append (xs ys : Bytes) :
    beValue (xs ++ ys) = beValue xs * 256 ^ ys.length + beValue ys := by
  rw [beValue, List.reverse_append, leValue_append, List.length_reverse]
  rw [beValue, beValue]
  ring

end Words

open Words

/-- `u16::to_be_bytes`: two bytes, the higher one first. -/
def UInt16.toBeBytes (x : UInt16) : Bytes := beBytes 2 x.toNat

/-- `u16::from_be_bytes`, of any bytes; the source has two. -/
def UInt16.fromBeBytes (bs : Bytes) : UInt16 := UInt16.ofNat (beValue bs)

/-- `u32::to_be_bytes`: four bytes, the highest first. -/
def UInt32.toBeBytes (x : UInt32) : Bytes := beBytes 4 x.toNat

/-- `u32::from_be_bytes`, of any bytes; the source has four. -/
def UInt32.fromBeBytes (bs : Bytes) : UInt32 := UInt32.ofNat (beValue bs)

/-- `u32::to_le_bytes`: four bytes, the lowest first. -/
def UInt32.toLeBytes (x : UInt32) : Bytes := leBytes 4 x.toNat

/-- `u32::from_le_bytes`, of any bytes; the source has four. -/
def UInt32.fromLeBytes (bs : Bytes) : UInt32 := UInt32.ofNat (leValue bs)

/-- `i64::to_le_bytes`: the two's complement pattern of the number. -/
def Int64.toLeBytes (x : Int64) : Bytes := leBytes 8 x.toBitVec.toNat

/-- `i64::from_le_bytes`: eight bytes, the lowest first, and the sign in the highest bit.
-/
def Int64.fromLeBytes (bs : Bytes) : Int64 := Int64.ofBitVec (BitVec.ofNat 64 (leValue bs))

@[simp] theorem UInt16.toBeBytes_length (x : UInt16) : x.toBeBytes.length = 2 := by
  simp [UInt16.toBeBytes]

@[simp] theorem UInt32.toBeBytes_length (x : UInt32) : x.toBeBytes.length = 4 := by
  simp [UInt32.toBeBytes]

@[simp] theorem UInt32.toLeBytes_length (x : UInt32) : x.toLeBytes.length = 4 := by
  simp [UInt32.toLeBytes]

@[simp] theorem Int64.toLeBytes_length (x : Int64) : x.toLeBytes.length = 8 := by
  simp [Int64.toLeBytes]

/-- A number of 16 bits is read back as it was written. -/
@[simp] theorem UInt16.fromBeBytes_toBeBytes (x : UInt16) :
    UInt16.fromBeBytes x.toBeBytes = x := by
  rw [UInt16.fromBeBytes, UInt16.toBeBytes, beValue_beBytes (by simpa using x.toNat_lt)]
  simp

@[simp] theorem UInt32.fromBeBytes_toBeBytes (x : UInt32) :
    UInt32.fromBeBytes x.toBeBytes = x := by
  rw [UInt32.fromBeBytes, UInt32.toBeBytes, beValue_beBytes (by simpa using x.toNat_lt)]
  simp

@[simp] theorem UInt32.fromLeBytes_toLeBytes (x : UInt32) :
    UInt32.fromLeBytes x.toLeBytes = x := by
  rw [UInt32.fromLeBytes, UInt32.toLeBytes, leValue_leBytes (by simpa using x.toNat_lt)]
  simp

/-- So is a signed one of 64. -/
@[simp] theorem Int64.fromLeBytes_toLeBytes (x : Int64) :
    Int64.fromLeBytes x.toLeBytes = x := by
  rw [Int64.fromLeBytes, Int64.toLeBytes, leValue_leBytes (by simpa using x.toBitVec.isLt)]
  simp

/-- Two bytes are determined by their number. -/
theorem UInt16.fromBeBytes_pair_inj {a b a' b' : UInt8}
    (h : UInt16.fromBeBytes [a, b] = UInt16.fromBeBytes [a', b']) : a = a' ∧ b = b' := by
  have hNat := congrArg UInt16.toNat h
  have hBounds := And.intro (And.intro a.toNat_lt b.toNat_lt) (And.intro a'.toNat_lt b'.toNat_lt)
  simp only [UInt16.fromBeBytes, beValue, List.reverse_cons, List.reverse_nil, List.nil_append,
    List.singleton_append, leValue, UInt16.toNat_ofNat'] at hNat
  exact ⟨UInt8.toNat_inj.mp (by omega), UInt8.toNat_inj.mp (by omega)⟩

/-- The two bytes of a `u16`, by name. -/
theorem UInt16.exists_toBeBytes (x : UInt16) :
    ∃ b0 b1, x.toBeBytes = [b0, b1] ∧ UInt16.fromBeBytes [b0, b1] = x := by
  obtain ⟨b0, b1, h⟩ := List.length_eq_two.mp x.toBeBytes_length
  exact ⟨b0, b1, h, by rw [← h, fromBeBytes_toBeBytes]⟩

/-- The four bytes of a `u32`, by name. -/
theorem UInt32.exists_toBeBytes (x : UInt32) :
    ∃ b0 b1 b2 b3, x.toBeBytes = [b0, b1, b2, b3] ∧ UInt32.fromBeBytes [b0, b1, b2, b3] = x := by
  obtain ⟨b0, b1, b2, b3, h⟩ : ∃ b0 b1 b2 b3, x.toBeBytes = [b0, b1, b2, b3] := ⟨_, _, _, _, rfl⟩
  exact ⟨b0, b1, b2, b3, h, by rw [← h, fromBeBytes_toBeBytes]⟩
