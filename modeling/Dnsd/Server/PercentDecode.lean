import Dnsd.Rust.HashMap
import Dnsd.Rust.NetParse

/-! The values of a query string: a loop over bytes that takes the digits of an
escape out of the text as a slice. -/

namespace Dnsd.Server

open Str

/-- `u8::from_str_radix(digits, 16)`: a plus sign may precede the digits. -/
def u8FromStrRadix16 (digits : Str) : Option UInt8 :=
  let digits := match digits with
    | '+' :: digits => digits
    | digits => digits
  ((number 16 digits).filter (· < 256)).map UInt8.ofNat

/-- `str::is_char_boundary` for a position with `after` behind it. -/
def isCharBoundary : Bytes → Bool
  | [] => true
  | b :: _ => !isContinuation b

/-- `&s[i + 1..i + 3]`, the text from byte `i + 1` on being `h :: l :: rest`. -/
def slice (h l : UInt8) (rest : Bytes) : Exec Empty Str :=
  if isCharBoundary (h :: l :: rest) && isCharBoundary rest then .ok (fromUtf8Lossy [h, l])
  else .panicked

/-- A plus stands for a blank, every other byte for itself. -/
def unplus (b : UInt8) : UInt8 := if b = 0x2B then 0x20 else b

/-- The loop from one of its positions to the end of the text. -/
def decodeLoop : Bytes → Exec Empty Bytes
  | [] => .ok []
  | b :: after =>
      match after with
      | h :: l :: rest =>
          if b = 0x25 then do
            let digits ← slice h l rest
            match u8FromStrRadix16 digits with
            | some v => return v :: (← decodeLoop rest)
            | none => return unplus b :: (← decodeLoop (h :: l :: rest))
          else return unplus b :: (← decodeLoop (h :: l :: rest))
      | after => return unplus b :: (← decodeLoop after)

/-- `percent_decode`: bytes that are no UTF-8 become replacement characters. -/
def percentDecode (s : Str) : Exec Empty Str :=
  return fromUtf8Lossy (← decodeLoop s.bytes)

/-- `pair.split_once('=')`: the key and the value, which may have an equals sign in it. -/
def splitPair (pair : Str) : Option (Str × Str) :=
  match pair.span (· ≠ '=') with
  | (k, _ :: v) => some (k, v)
  | (_, []) => none

/-- The last value of a key counts. A part without an equals sign is dropped. -/
def insertPair (map : HashMap Str Str) (pair : Str) : Exec Empty (HashMap Str Str) :=
  match splitPair pair with
  | some (k, v) => return map.insert k (← percentDecode v)
  | none => return map

/-- `parse_query`: keys are kept as they are, only values are decoded. -/
def parseQuery (q : Str) : Exec Empty (HashMap Str Str) := (q.splitOn '&').foldlM insertPair ∅

/-! ## The reference decoder -/

/-- The value of a hexadecimal digit, in either case. -/
def hexDigit (b : UInt8) : Option Nat :=
  if 0x30 ≤ b ∧ b ≤ 0x39 then some (b.toNat - 0x30)
  else if 0x41 ≤ b ∧ b ≤ 0x46 then some (b.toNat - 0x41 + 10)
  else if 0x61 ≤ b ∧ b ≤ 0x66 then some (b.toNat - 0x61 + 10)
  else none

/-- The byte that two hexadecimal digits stand for. -/
def hexByte (h l : UInt8) : Option UInt8 :=
  (hexDigit h).bind fun x => (hexDigit l).map fun y => UInt8.ofNat (16 * x + y)

/-- A percent sign with two digits stands for a byte, a plus sign for a space. -/
def referenceBytes : Bytes → Bytes
  | [] => []
  | b :: after =>
      match after with
      | h :: l :: rest =>
          match if b = 0x25 then hexByte h l else none with
          | some v => v :: referenceBytes rest
          | none => unplus b :: referenceBytes (h :: l :: rest)
      | after => unplus b :: referenceBytes after

/-- What the text stands for: each escape is its byte, and what is no UTF-8 in the end is
replaced. -/
def referenceDecode (s : Str) : Str := fromUtf8Lossy (referenceBytes s.bytes)

/-- The second sequence of bytes is a percent-encoding of the first one. -/
inductive Encodes : Bytes → Bytes → Prop where
  | nil : Encodes [] []
  | escape {v h l : UInt8} {plain coded : Bytes} (hByte : hexByte h l = some v)
      (rest : Encodes plain coded) : Encodes (v :: plain) (0x25 :: h :: l :: coded)
  | plus {plain coded : Bytes} (rest : Encodes plain coded) :
      Encodes (0x20 :: plain) (0x2B :: coded)
  | literal {b : UInt8} {plain coded : Bytes} (hPercent : b ≠ 0x25) (hPlus : b ≠ 0x2B)
      (rest : Encodes plain coded) : Encodes (b :: plain) (b :: coded)

/-- No percent sign is followed by two bytes that end inside a character, or by a
plus sign and a digit. -/
def WellEscaped (text : Bytes) : Prop :=
  ∀ h l rest, 0x25 :: h :: l :: rest <:+ text →
    isCharBoundary rest = true ∧ ¬(h = 0x2B ∧ (hexDigit l).isSome = true)

/-! ## Digits -/

/-- A byte is read as a digit exactly as its character would be. -/
theorem digitValue_byte (b : UInt8) : digitValue 16 (Char.ofNat b.toNat) = hexDigit b := by
  have hAll : ∀ n : Fin 256, digitValue 16 (Char.ofNat n.val) = hexDigit (UInt8.ofNat n.val) := by
    decide +kernel
  have hByte := hAll ⟨b.toNat, b.toNat_lt⟩
  rwa [UInt8.ofNat_toNat] at hByte

theorem hexDigit_bounds {b : UInt8} {x : Nat} (h : hexDigit b = some x) :
    x < 16 ∧ b.toNat < 0x80 ∧ b ≠ 0x25 ∧ b ≠ 0x2B := by
  have hAll : ∀ n : Fin 256, ∀ y ∈ hexDigit (UInt8.ofNat n.val),
      y < 16 ∧ n.val < 0x80 ∧ UInt8.ofNat n.val ≠ 0x25 ∧ UInt8.ofNat n.val ≠ 0x2B := by
    decide +kernel
  have hByte := hAll ⟨b.toNat, b.toNat_lt⟩ x
  dsimp only at hByte
  rw [UInt8.ofNat_toNat] at hByte
  exact hByte h

/-- Two digits stand for the byte that they spell. -/
theorem hexByte_eq_some_iff {h l v : UInt8} : hexByte h l = some v ↔
    ∃ x y, hexDigit h = some x ∧ hexDigit l = some y ∧ UInt8.ofNat (16 * x + y) = v := by
  rw [hexByte]
  cases hexDigit h <;> simp

theorem digitValue_not_ascii {c : Char} (h : 0x80 ≤ c.toNat) : digitValue 16 c = none := by
  have hUpTo (d : Char) (hd : d.toNat < 0x80) : ¬c ≤ d := fun hLe => by
    have hNat : c.toNat ≤ d.toNat := hLe
    omega
  have hDigit : c.isDigit = false := by
    cases hBool : c.isDigit with
    | false => rfl
    | true =>
        rw [Char.isDigit, Bool.and_eq_true, decide_eq_true_eq, decide_eq_true_eq] at hBool
        exact absurd hBool.2 (hUpTo '9' (by decide))
  have hLower : ¬('a' ≤ c ∧ c ≤ 'f') := fun hc => hUpTo 'f' (by decide) hc.2
  have hUpper : ¬('A' ≤ c ∧ c ≤ 'F') := fun hc => hUpTo 'F' (by decide) hc.2
  rw [digitValue, if_neg (Bool.eq_false_iff.mp hDigit), if_neg hLower, if_neg hUpper]
  rfl

/-- One character that is no digit spoils the number. -/
theorem number_eq_none {base : Nat} {digits : Str} {c : Char} (hc : c ∈ digits)
    (h : digitValue base c = none) : number base digits = none := by
  obtain ⟨before, after, rfl⟩ := List.append_of_mem hc
  have hNone (l : Str) : l.foldl
      (fun n c => n.bind fun n : Nat => (digitValue base c).map (base * n + ·)) none = none := by
    induction l with
    | nil => rfl
    | cons d l ih => exact ih
  rw [number, if_neg (by simp), List.foldl_append, List.foldl_cons, h]
  cases before.foldl
    (fun n c => n.bind fun n : Nat => (digitValue base c).map (base * n + ·)) (some 0) with
  | none => exact hNone after
  | some n => exact hNone after

theorem u8FromStrRadix16_not_ascii {digits : Str} {c : Char} (hc : c ∈ digits)
    (h : 0x80 ≤ c.toNat) : u8FromStrRadix16 digits = none := by
  have hDigit := digitValue_not_ascii h
  rw [u8FromStrRadix16.eq_def]
  dsimp only
  split
  · next digits =>
      rcases List.mem_cons.mp hc with rfl | hc
      · exact absurd h (by decide)
      · rw [number_eq_none hc hDigit]
        rfl
  · rw [number_eq_none hc hDigit]
    rfl

/-- A continuation carries six bits. -/
theorem tail_lt {b : UInt8} (h : isContinuation b = true) : tail b < 64 := by
  rw [isContinuation, Bool.and_eq_true, decide_eq_true_eq, decide_eq_true_eq] at h
  unfold tail
  omega

/-- Two bytes that are not both of ASCII hold a character that is not. -/
theorem exists_not_ascii {h l : UInt8} (hPair : ¬(h.toNat < 0x80 ∧ l.toNat < 0x80)) :
    ∃ c ∈ fromUtf8Lossy [h, l], 0x80 ≤ c.toNat := by
  have hReplacement : 0x80 ≤ replacement.toNat := by decide
  have hAlone {b : UInt8} (hb : ¬b.toNat < 0x80) : fromUtf8Lossy [b] = [replacement] := by
    have hWidth : charWidth b ≠ 1 := by
      rw [charWidth, if_neg hb]
      split_ifs <;> omega
    rw [fromUtf8Lossy.eq_def]
    obtain hZero | hOne | hTwo | hThree | hFour := charWidth_cases b
    · simp [hZero, fromUtf8Lossy]
    · exact absurd hOne hWidth
    · simp [hTwo, fromUtf8Lossy]
    · simp [hThree, fromUtf8Lossy]
    · simp [hFour, fromUtf8Lossy]
  by_cases hFirst : h.toNat < 0x80
  · have hSecond : ¬l.toNat < 0x80 := fun hSecond => hPair ⟨hFirst, hSecond⟩
    rw [fromUtf8Lossy_cons_ascii hFirst, hAlone hSecond]
    exact ⟨replacement, by simp, hReplacement⟩
  · rw [fromUtf8Lossy.eq_def]
    obtain hZero | hOne | hTwo | hThree | hFour := charWidth_cases h
    · exact ⟨replacement, by simp [hZero], hReplacement⟩
    · rw [charWidth, if_neg hFirst] at hOne
      split_ifs at hOne <;> omega
    · have hLead : 0xC2 ≤ h.toNat ∧ h.toNat ≤ 0xDF := by
        rw [charWidth, if_neg hFirst] at hTwo
        split_ifs at hTwo with hLead
        · exact hLead
        all_goals omega
      simp only [hTwo]
      split_ifs with hTail
      · refine ⟨_, List.mem_cons_self, ?_⟩
        have hTailLt := tail_lt hTail
        have hValid : ((h.toNat - 0xC0) * 64 + tail l).isValidChar := Or.inl (by omega)
        rw [Char.ofNat, dif_pos hValid]
        change 0x80 ≤ (h.toNat - 0xC0) * 64 + tail l
        omega
      · exact ⟨replacement, List.mem_cons_self, hReplacement⟩
    · refine ⟨replacement, ?_, hReplacement⟩
      simp only [hThree]
      split_ifs <;> simp
    · refine ⟨replacement, ?_, hReplacement⟩
      simp only [hFour]
      split_ifs <;> simp

/-- The number parser reads two digits as the reference does, and takes a plus
sign in front of one. -/
theorem u8FromStrRadix16_pair (h l : UInt8) : u8FromStrRadix16 (fromUtf8Lossy [h, l]) =
    if h = 0x2B then (hexDigit l).map UInt8.ofNat else hexByte h l := by
  by_cases hPair : h.toNat < 0x80 ∧ l.toNat < 0x80
  · have hText : fromUtf8Lossy [h, l] = [Char.ofNat h.toNat, Char.ofNat l.toNat] := by
      rw [fromUtf8Lossy_cons_ascii hPair.1, fromUtf8Lossy_cons_ascii hPair.2,
        fromUtf8Lossy.eq_def]
    rw [hText]
    by_cases hPlus : h = 0x2B
    · have hSign : Char.ofNat h.toNat = '+' := by rw [hPlus]; rfl
      rw [if_pos hPlus, hSign, u8FromStrRadix16]
      cases hDigit : hexDigit l with
      | none => simp [number, digitValue_byte, hDigit]
      | some y =>
          have hSmall : y < 256 := by
            have := (hexDigit_bounds hDigit).1
            omega
          simp [number, digitValue_byte, hDigit, hSmall]
    · have hSign : Char.ofNat h.toNat ≠ '+' := fun hChar => by
        have hNat := congrArg Char.toNat hChar
        rw [toNat_ofNat_ascii hPair.1] at hNat
        exact hPlus (UInt8.toNat_inj.mp hNat)
      rw [if_neg hPlus, u8FromStrRadix16.eq_def]
      dsimp only
      split
      · next hEq => exact absurd (List.cons_eq_cons.mp hEq).1 hSign
      · rw [hexByte]
        cases hFirst : hexDigit h with
        | none => simp [number, digitValue_byte, hFirst]
        | some x =>
            cases hSecond : hexDigit l with
            | none => simp [number, digitValue_byte, hFirst, hSecond]
            | some y =>
                have hSmall : 16 * x + y < 256 := by
                  have := (hexDigit_bounds hFirst).1
                  have := (hexDigit_bounds hSecond).1
                  omega
                simp [number, digitValue_byte, hFirst, hSecond, hSmall]
  · obtain ⟨c, hc, hNot⟩ := exists_not_ascii hPair
    rw [u8FromStrRadix16_not_ascii hc hNot]
    split_ifs with hPlus
    · cases hDigit : hexDigit l with
      | none => rfl
      | some y =>
          refine absurd ⟨?_, (hexDigit_bounds hDigit).2.1⟩ hPair
          rw [hPlus]
          decide
    · cases hByte : hexByte h l with
      | none => rfl
      | some v =>
          obtain ⟨x, y, hFirst, hSecond, _⟩ := hexByte_eq_some_iff.mp hByte
          exact absurd ⟨(hexDigit_bounds hFirst).2.1, (hexDigit_bounds hSecond).2.1⟩ hPair

/-! ## The loop -/

/-- No percent sign is in front of the inside of a character. -/
def Opens (text : Bytes) : Prop :=
  ∀ after, 0x25 :: after <:+ text → isCharBoundary after = true

theorem Opens.tail {b : UInt8} {after : Bytes} (h : Opens (b :: after)) : Opens after :=
  fun _ hSuffix => h _ (hSuffix.trans (List.suffix_cons b after))

theorem WellEscaped.tail {b : UInt8} {after : Bytes} (h : WellEscaped (b :: after)) :
    WellEscaped after :=
  fun _ _ _ hSuffix => h _ _ _ (hSuffix.trans (List.suffix_cons b after))

/-- A byte that starts no escape adds no fault. -/
theorem WellEscaped.cons {b : UInt8} {after : Bytes} (h : WellEscaped after)
    (hPlain : ∀ x l rest, b :: after = 0x25 :: x :: l :: rest →
      isCharBoundary rest = true ∧ ¬(x = 0x2B ∧ (hexDigit l).isSome = true)) :
    WellEscaped (b :: after) := fun x l rest hSuffix => by
  rcases List.suffix_cons_iff.mp hSuffix with hEq | hSuffix
  · exact hPlain x l rest hEq.symm
  · exact h x l rest hSuffix

/-- What the number parser makes of the two bytes behind a percent sign. -/
def parsed (h l : UInt8) : Option UInt8 :=
  if h = 0x2B then (hexDigit l).map UInt8.ofNat else hexByte h l

/-- Two bytes are parsed as an escape should be, unless a plus sign stands in front of the
digit. -/
theorem parsed_eq_hexByte {h l : UInt8} (hSign : ¬(h = 0x2B ∧ (hexDigit l).isSome = true)) :
    parsed h l = hexByte h l := by
  rw [parsed]
  split_ifs with hPlus
  · have hNone : hexDigit l = none := by
      cases hDigit : hexDigit l with
      | none => rfl
      | some y => exact absurd ⟨hPlus, by rw [hDigit]; rfl⟩ hSign
    rw [hNone, hPlus]
    rfl
  · rfl

/-- An escape that ends with a character is decoded if it is one, and otherwise kept. -/
theorem decodeLoop_percent {h l : UInt8} {rest : Bytes}
    (hOpen : isCharBoundary (h :: l :: rest) = true) (hClose : isCharBoundary rest = true) :
    decodeLoop (0x25 :: h :: l :: rest) =
      match parsed h l with
      | some v => do return v :: (← decodeLoop rest)
      | none => do return 0x25 :: (← decodeLoop (h :: l :: rest)) := by
  rw [decodeLoop, if_pos rfl, slice, hOpen, hClose, Bool.and_self, if_pos rfl, Exec.ok_bind,
    u8FromStrRadix16_pair]
  rfl

/-- One that ends within a character unwinds the decoder. -/
theorem decodeLoop_cut (h l : UInt8) {rest : Bytes} (hClose : isCharBoundary rest = false) :
    decodeLoop (0x25 :: h :: l :: rest) = .panicked := by
  rw [decodeLoop, if_pos rfl, slice, hClose, Bool.and_false, if_neg (by simp)]
  rfl

theorem bind_cons_eq_ok_iff {x : Exec Empty Bytes} {b : UInt8} {out : Bytes} :
    (do return b :: (← x)) = Exec.ok out ↔ ∃ out', x = .ok out' ∧ out = b :: out' := by
  rw [Exec.bind_eq_ok_iff]
  simp [eq_comm]

/-- Without a fault the loop does what the reference decoder does. -/
theorem decodeLoop_eq_reference {text : Bytes} (hOpens : Opens text) (h : WellEscaped text) :
    decodeLoop text = .ok (referenceBytes text) := by
  induction text using decodeLoop.induct with
  | case1 => rfl
  | case2 x l rest ihRest ihAfter =>
      obtain ⟨hClose, hSign⟩ := h x l rest (List.suffix_refl _)
      rw [decodeLoop_percent (hOpens _ (List.suffix_refl _)) hClose, parsed_eq_hexByte hSign,
        referenceBytes, if_pos rfl]
      cases hexByte x l with
      | none => 
          dsimp only
          rw [ihAfter hOpens.tail h.tail]
          rfl
      | some v =>
          dsimp only
          rw [ihRest hOpens.tail.tail.tail h.tail.tail.tail]
          rfl
  | case3 b x l rest hPlain ih =>
      rw [decodeLoop, if_neg hPlain, referenceBytes, if_neg hPlain, ih hOpens.tail h.tail]
      rfl
  | case4 b after hShort ih =>
      rw [decodeLoop.eq_3 _ _ hShort, referenceBytes.eq_3 _ _ hShort, ih hOpens.tail h.tail]
      rfl

/-- Two sequences that differ at a place where both have ASCII. -/
def Diverge (out out' : Bytes) : Prop :=
  ∃ front a b rest rest', out = front ++ a :: rest ∧ out' = front ++ b :: rest' ∧
    a.toNat < 0x80 ∧ b.toNat < 0x80 ∧ a ≠ b

theorem Diverge.cons {out out' : Bytes} (h : Diverge out out') (b : UInt8) :
    Diverge (b :: out) (b :: out') := by
  obtain ⟨front, a, a', rest, rest', rfl, rfl, hA, hB, hNe⟩ := h
  exact ⟨b :: front, a, a', rest, rest', rfl, rfl, hA, hB, hNe⟩

/-- Bytes that diverge have different texts, even where some of them are replaced. -/
theorem Diverge.lossy_ne {out out' : Bytes} (h : Diverge out out') :
    fromUtf8Lossy out ≠ fromUtf8Lossy out' := by
  obtain ⟨front, a, b, rest, rest', rfl, rfl, hA, hB, hNe⟩ := h
  rw [fromUtf8Lossy_append_ascii hA, fromUtf8Lossy_append_ascii hB]
  intro hSame
  have hHead := (List.cons_eq_cons.mp (List.append_cancel_left hSame)).1
  have hNat := congrArg Char.toNat hHead
  rw [toNat_ofNat_ascii hA, toNat_ofNat_ascii hB] at hNat
  exact hNe (UInt8.toNat_inj.mp hNat)

/-- The value of a digit is not the percent sign that the reference keeps. -/
theorem diverge_of_digit {l : UInt8} {y : Nat} (hDigit : hexDigit l = some y) (out text : Bytes) :
    Diverge (UInt8.ofNat y :: out) (0x25 :: text) := by
  have hSmall := (hexDigit_bounds hDigit).1
  have hValue : (UInt8.ofNat y).toNat = y := by
    rw [UInt8.toNat_ofNat']
    exact Nat.mod_eq_of_lt (by omega)
  refine ⟨[], UInt8.ofNat y, 0x25, out, text, rfl, rfl, by omega, by decide, fun hEq => ?_⟩
  have hNat := congrArg UInt8.toNat hEq
  rw [hValue] at hNat
  exact absurd hSmall (by rw [hNat]; decide)

/-- With a fault the loop panics, or what it makes of the first sign that is
taken for part of a number differs. -/
theorem decodeLoop_diverges {text : Bytes} (hOpens : Opens text) (h : ¬WellEscaped text)
    {out : Bytes} (hOut : decodeLoop text = .ok out) : Diverge out (referenceBytes text) := by
  induction text using decodeLoop.induct generalizing out with
  | case1 => exact absurd (fun _ _ _ hSuffix => by simp at hSuffix) h
  | case2 x l rest ihRest ihAfter =>
      cases hClose : isCharBoundary rest with
      | false =>
          rw [decodeLoop_cut x l hClose] at hOut
          cases hOut
      | true =>
          rw [decodeLoop_percent (hOpens _ (List.suffix_refl _)) hClose] at hOut
          rw [referenceBytes, if_pos rfl]
          by_cases hSign : x = 0x2B ∧ (hexDigit l).isSome = true
          · obtain ⟨rfl, hSome⟩ := hSign
            obtain ⟨y, hDigit⟩ := Option.isSome_iff_exists.mp hSome
            have hNone : hexByte 0x2B l = none := rfl
            rw [parsed, if_pos rfl, hDigit] at hOut
            obtain ⟨out', _, rfl⟩ := bind_cons_eq_ok_iff.mp hOut
            rw [hNone]
            exact diverge_of_digit hDigit out' _
          · have hAfter : ¬WellEscaped (x :: l :: rest) := fun hAfter =>
              h (hAfter.cons fun _ _ _ hEq => by
                cases hEq
                exact ⟨hClose, hSign⟩)
            rw [parsed_eq_hexByte hSign] at hOut
            cases hByte : hexByte x l with
            | none =>
                rw [hByte] at hOut
                obtain ⟨out', hLoop, rfl⟩ := bind_cons_eq_ok_iff.mp hOut
                exact (ihAfter hOpens.tail hAfter hLoop).cons _
            | some v =>
                rw [hByte] at hOut
                obtain ⟨out', hLoop, rfl⟩ := bind_cons_eq_ok_iff.mp hOut
                obtain ⟨_, _, hX, hL, _⟩ := hexByte_eq_some_iff.mp hByte
                refine (ihRest hOpens.tail.tail.tail (fun hRest => hAfter ?_) hLoop).cons _
                -- no digit is a percent sign
                refine (hRest.cons fun _ _ _ hEq => ?_).cons fun _ _ _ hEq => ?_
                · exact absurd (List.cons_eq_cons.mp hEq).1 (hexDigit_bounds hL).2.2.1
                · exact absurd (List.cons_eq_cons.mp hEq).1 (hexDigit_bounds hX).2.2.1
  | case3 b x l rest hPlain ih =>
      rw [decodeLoop, if_neg hPlain] at hOut
      obtain ⟨out', hLoop, rfl⟩ := bind_cons_eq_ok_iff.mp hOut
      rw [referenceBytes, if_neg hPlain]
      refine (ih hOpens.tail (fun hAfter => h ?_) hLoop).cons _
      exact hAfter.cons fun _ _ _ hEq => absurd (List.cons_eq_cons.mp hEq).1 hPlain
  | case4 b after hShort ih =>
      rw [decodeLoop.eq_3 _ _ hShort] at hOut
      obtain ⟨out', hLoop, rfl⟩ := bind_cons_eq_ok_iff.mp hOut
      rw [referenceBytes.eq_3 _ _ hShort]
      refine (ih hOpens.tail (fun hAfter => h ?_) hLoop).cons _
      exact hAfter.cons fun _ _ _ hEq => (hShort _ _ _ (List.cons_eq_cons.mp hEq).2).elim

/-! ## Texts -/

theorem isCharBoundary_bytes (s : Str) : isCharBoundary s.bytes = true := by
  cases hBytes : s.bytes with
  | nil => rfl
  | cons b rest =>
      rw [isCharBoundary, isContinuation_head hBytes]
      rfl

/-- What is behind a byte of ASCII in a text is a text. -/
theorem isCharBoundary_of_ascii {s : Str} {b : UInt8} {after : Bytes} (hAscii : b.toNat < 0x80)
    (h : b :: after <:+ s.bytes) : isCharBoundary after = true := by
  obtain ⟨before, hBytes⟩ := h
  obtain ⟨_, u, _, _, rfl⟩ := bytes_split_ascii hAscii hBytes.symm
  exact isCharBoundary_bytes u

theorem opens_bytes (s : Str) : Opens s.bytes := fun _ hSuffix =>
  isCharBoundary_of_ascii (b := 0x25) (by decide) hSuffix

/-! ## Encodings -/

/-- In an encoding each percent sign has two digits behind it. -/
theorem Encodes.hexByte_isSome {plain coded : Bytes} (h : Encodes plain coded) {x l : UInt8}
    {rest : Bytes} (hSuffix : 0x25 :: x :: l :: rest <:+ coded) :
    (hexByte x l).isSome = true := by
  induction h with
  | nil => simp at hSuffix
  | escape hByte _ ih =>
      obtain ⟨_, _, hX, hL, _⟩ := hexByte_eq_some_iff.mp hByte
      rcases List.suffix_cons_iff.mp hSuffix with hEq | hSuffix
      · cases hEq
        rw [hByte]
        rfl
      rcases List.suffix_cons_iff.mp hSuffix with hEq | hSuffix
      · exact absurd (List.cons_eq_cons.mp hEq).1.symm (hexDigit_bounds hX).2.2.1
      rcases List.suffix_cons_iff.mp hSuffix with hEq | hSuffix
      · exact absurd (List.cons_eq_cons.mp hEq).1.symm (hexDigit_bounds hL).2.2.1
      · exact ih hSuffix
  | plus _ ih =>
      rcases List.suffix_cons_iff.mp hSuffix with hEq | hSuffix
      · exact absurd (List.cons_eq_cons.mp hEq).1 (by decide)
      · exact ih hSuffix
  | literal hPercent _ _ ih =>
      rcases List.suffix_cons_iff.mp hSuffix with hEq | hSuffix
      · exact absurd (List.cons_eq_cons.mp hEq).1.symm hPercent
      · exact ih hSuffix

/-- A percent-encoding is well escaped. -/
theorem Encodes.wellEscaped {plain : Bytes} {s : Str} (h : Encodes plain s.bytes) :
    WellEscaped s.bytes := fun x l rest hSuffix => by
  obtain ⟨v, hByte⟩ := Option.isSome_iff_exists.mp (h.hexByte_isSome hSuffix)
  obtain ⟨_, _, hX, hL, _⟩ := hexByte_eq_some_iff.mp hByte
  have hLast : l :: rest <:+ s.bytes :=
    ((List.suffix_cons x _).trans (List.suffix_cons 0x25 _)).trans hSuffix
  exact ⟨isCharBoundary_of_ascii (hexDigit_bounds hL).2.1 hLast,
    fun hSign => (hexDigit_bounds hX).2.2.2 hSign.1⟩

theorem referenceBytes_plain {b : UInt8} (hb : b ≠ 0x25) (after : Bytes) :
    referenceBytes (b :: after) = unplus b :: referenceBytes after := by
  match after with
  | [] => rfl
  | [_] => rfl
  | _ :: _ :: _ => rw [referenceBytes, if_neg hb]

/-- The reference decoder inverts every encoding. -/
theorem Encodes.referenceBytes_eq {plain coded : Bytes} (h : Encodes plain coded) :
    referenceBytes coded = plain := by
  induction h with
  | nil => rfl
  | escape hByte _ ih => rw [referenceBytes, if_pos rfl, hByte, ih]
  | plus _ ih =>
      rw [referenceBytes_plain (by decide), ih]
      rfl
  | literal hPercent hPlus _ ih => rw [referenceBytes_plain hPercent, ih, unplus, if_neg hPlus]

/-- Every byte as an escape, also those that need none. -/
def percentEncode (plain : Bytes) : Str :=
  plain.flatMap fun b =>
    ['%', Nat.digitChar (b.toNat / 16), Nat.digitChar (b.toNat % 16)]

/-- There is an encoding of every string. -/
theorem encodes_percentEncode (plain : Bytes) : Encodes plain (percentEncode plain).bytes := by
  induction plain with
  | nil => exact .nil
  | cons b plain ih =>
      have hAll : ∀ n : Fin 256, ∃ h l, hexByte h l = some (UInt8.ofNat n.val) ∧
          bytes ['%', Nat.digitChar (n.val / 16), Nat.digitChar (n.val % 16)] = [0x25, h, l] := by
        intro n
        refine ⟨UInt8.ofNat (Nat.digitChar (n.val / 16)).toNat,
          UInt8.ofNat (Nat.digitChar (n.val % 16)).toNat, ?_⟩
        revert n
        decide +kernel
      obtain ⟨h, l, hByte, hBytes⟩ := hAll ⟨b.toNat, b.toNat_lt⟩
      dsimp only at hByte hBytes
      rw [UInt8.ofNat_toNat] at hByte
      rw [percentEncode, List.flatMap_cons, bytes_append, hBytes]
      exact .escape hByte ih

/-- On a text that is well escaped the decoder does what the reference does. -/
theorem percentDecode_of_wellEscaped {s : Str} (h : WellEscaped s.bytes) :
    percentDecode s = .ok (referenceDecode s) := by
  rw [percentDecode, decodeLoop_eq_reference (opens_bytes s) h]
  rfl

/-- The decoder inverts every percent-encoding. -/
theorem Encodes.percentDecode_eq {s t : Str} (h : Encodes t.bytes s.bytes) :
    percentDecode s = .ok t := by
  rw [percentDecode_of_wellEscaped h.wellEscaped, referenceDecode, h.referenceBytes_eq,
    fromUtf8Lossy_bytes]

/-- The decoder does what the reference does just where no percent sign cuts a
character or has a signed digit behind it. It inverts every percent-encoding, with
an escape for each byte or for some of them. -/
theorem percentDecode_eq_reference_iff (s t : Str) :
    (percentDecode s = .ok (referenceDecode s) ↔ WellEscaped s.bytes) ∧
      (Encodes t.bytes s.bytes → percentDecode s = .ok t) ∧
      percentDecode (percentEncode t.bytes) = .ok t := by
  refine ⟨⟨fun hSame => ?_, percentDecode_of_wellEscaped⟩, Encodes.percentDecode_eq,
    (encodes_percentEncode t.bytes).percentDecode_eq⟩
  by_contra hFault
  obtain ⟨out, hLoop, hText⟩ := Exec.bind_eq_ok_iff.mp hSame
  exact (decodeLoop_diverges (opens_bytes s) hFault hLoop).lossy_ne (Exec.ok.inj hText)

/-- A euro sign in three escapes, a space and a letter. -/
theorem percentDecode_euro : percentDecode "%E2%82%AC+a".toList = .ok "€ a".toList := by
  refine (percentDecode_eq_reference_iff _ _).2.1 ?_
  have hPlain : bytes "€ a".toList = [0xE2, 0x82, 0xAC, 0x20, 0x61] := by decide
  have hCoded : bytes "%E2%82%AC+a".toList =
      [0x25, 0x45, 0x32, 0x25, 0x38, 0x32, 0x25, 0x41, 0x43, 0x2B, 0x61] := by
    decide
  rw [hPlain, hCoded]
  exact .escape (by decide) (.escape (by decide) (.escape (by decide) (.plus
    (.literal (by decide) (by decide) .nil))))

/-- A percent sign in front of a euro sign cuts the character and unwinds, and one with a
sign and a digit behind it is taken for an escape. -/
theorem percentDecode_faults :
    percentDecode ['%', '€'] = .panicked ∧
      percentDecode ['%', '+', 'f'] = .ok [Char.ofNat 15] ∧
      referenceDecode ['%', '+', 'f'] = ['%', ' ', 'f'] := by
  decide +kernel

/-- One value that panics is enough to lose the whole query. -/
theorem parseQuery_panicked_iff (q : Str) : parseQuery q = .panicked ↔
    ∃ pair ∈ q.splitOn '&', ∃ k v, splitPair pair = some (k, v) ∧ percentDecode v = .panicked := by
  rw [parseQuery]
  generalize (∅ : HashMap Str Str) = map
  induction q.splitOn '&' generalizing map with
  | nil => simp
  | cons pair pairs ih =>
      rw [List.foldlM_cons, Exec.bind_eq_panicked_iff, List.exists_mem_cons_iff, insertPair]
      cases splitPair pair with
      | none => simp [ih]
      | some kv =>
          obtain ⟨k, v⟩ := kv
          cases hValue : percentDecode v with
          | ok text => simp [hValue, ih]
          | err e => exact e.elim
          | panicked => simp [hValue]

end Dnsd.Server
