import Dnsd.Rust.Text

/-! Lower case by ASCII alone, on bytes and on characters, and where it is all
that lower-casing a text does. -/

/-- `u8::to_ascii_lowercase`: the upper-case letters of ASCII get bit five, and no other
byte changes. -/
def UInt8.toAsciiLowercase (b : UInt8) : UInt8 := if 0x41 ≤ b ∧ b ≤ 0x5A then b + 32 else b

theorem UInt8.toAsciiLowercase_of_ge {b : UInt8} (h : 0x80 ≤ b.toNat) : b.toAsciiLowercase = b := by
  rw [toAsciiLowercase, if_neg]
  rintro ⟨-, hLast⟩
  have hNat : b.toNat ≤ 0x5A := UInt8.le_iff_toNat_le.mp hLast
  omega

theorem UInt8.toAsciiLowercase_lt {b : UInt8} (h : b.toNat < 0x80) :
    b.toAsciiLowercase.toNat < 0x80 := by
  have hAll : ∀ n : Fin 128, (UInt8.ofNat n.val).toAsciiLowercase.toNat < 0x80 := by decide
  have hb := hAll ⟨b.toNat, h⟩
  rwa [UInt8.ofNat_toNat] at hb

theorem Char.toLower_of_ge {c : Char} (h : 0x80 ≤ c.toNat) : c.toLower = c := by
  apply dif_neg
  rintro ⟨-, hLast⟩
  have hNat : c.toNat ≤ 'Z'.toNat := UInt32.le_iff_toNat_le.mp hLast
  have hZ : 'Z'.toNat = 90 := rfl
  omega

theorem Char.toLower_lt {c : Char} (h : c.toNat < 0x80) : c.toLower.toNat < 0x80 := by
  exact Unicode.forall_ascii (P := fun c => c.toLower.toNat < 0x80) (by decide) h

theorem Char.toLower_eq_dot {c : Char} : c.toLower = '.' ↔ c = '.' := by
  constructor
  · intro hDot
    rcases Nat.lt_or_ge c.toNat 0x80 with hAscii | hOther
    · exact Unicode.forall_ascii (P := fun c => c.toLower = '.' → c = '.') (by decide) hAscii hDot
    · rwa [Char.toLower_of_ge hOther] at hDot
  · rintro rfl
    decide

namespace Str

/-- An ASCII character lower-cases as its byte does. -/
theorem toLower_ofNat {b : UInt8} (h : b.toNat < 0x80) :
    (Char.ofNat b.toNat).toLower = Char.ofNat b.toAsciiLowercase.toNat := by
  have hAll : ∀ n : Fin 128, (Char.ofNat (UInt8.ofNat n.val).toNat).toLower =
      Char.ofNat (UInt8.ofNat n.val).toAsciiLowercase.toNat := by
    decide
  have hb := hAll ⟨b.toNat, h⟩
  rwa [UInt8.ofNat_toNat] at hb

/-- The bytes of a character outside ASCII are outside ASCII. -/
theorem encode_ge {c : Char} (h : 0x80 ≤ c.toNat) {b : UInt8} (hb : b ∈ String.utf8EncodeChar c) :
    0x80 ≤ b.toNat := by
  have hWide : ¬c.val.toNat ≤ 0x7F := by
    have hNat : c.val.toNat = c.toNat := rfl
    omega
  have hRange : c.val.toNat < 0x110000 := by
    have hValid := c.valid
    simp only [UInt32.isValidChar, Nat.isValidChar] at hValid
    omega
  have hTail (n : Nat) : 0x80 ≤ (UInt8.ofNat (n % 64 + 128)).toNat := by
    rw [UInt8.toNat_ofNat']
    omega
  unfold String.utf8EncodeChar at hb
  dsimp only at hb
  rw [if_neg hWide] at hb
  split_ifs at hb
  all_goals simp only [List.mem_cons, List.not_mem_nil, or_false] at hb
  · rcases hb with rfl | rfl
    · rw [UInt8.toNat_ofNat']
      omega
    · exact hTail _
  · rcases hb with rfl | rfl | rfl
    · rw [UInt8.toNat_ofNat']
      omega
    · exact hTail _
    · exact hTail _
  · rcases hb with rfl | rfl | rfl | rfl
    · rw [UInt8.toNat_ofNat']
      omega
    · exact hTail _
    · exact hTail _
    · exact hTail _

/-- A character lower-cases byte by byte. -/
theorem encode_toLower (c : Char) :
    String.utf8EncodeChar c.toLower = (String.utf8EncodeChar c).map UInt8.toAsciiLowercase := by
  rcases Nat.lt_or_ge c.toNat 0x80 with hAscii | hOther
  · have hc := Unicode.forall_ascii (P := fun c => UInt8.ofNat c.toLower.toNat =
      (UInt8.ofNat c.toNat).toAsciiLowercase) (by decide) hAscii
    rw [utf8EncodeChar_ascii hAscii, utf8EncodeChar_ascii (Char.toLower_lt hAscii), hc]
    rfl
  · rw [Char.toLower_of_ge hOther]
    exact ((List.map_congr_left fun b hb =>
      UInt8.toAsciiLowercase_of_ge (encode_ge hOther hb)).trans (List.map_id _)).symm

theorem bytes_map_toLower (s : Str) :
    bytes (s.map Char.toLower) = (bytes s).map UInt8.toAsciiLowercase := by
  induction s with
  | nil => rfl
  | cons c s ih => rw [List.map_cons, bytes_cons, bytes_cons, List.map_append, ih, encode_toLower]

theorem exists_encode_of_lower {raw : Bytes} {c : Char}
    (h : raw.map UInt8.toAsciiLowercase = String.utf8EncodeChar c) :
    ∃ d, raw = String.utf8EncodeChar d ∧ d.toLower = c := by
  rcases Nat.lt_or_ge c.toNat 0x80 with hAscii | hOther
  · rw [utf8EncodeChar_ascii hAscii] at h
    obtain ⟨b, rfl, hByte⟩ := List.map_eq_singleton_iff.mp h
    have hb : b.toNat < 0x80 := by
      by_contra hLarge
      rw [UInt8.toAsciiLowercase_of_ge (by omega)] at hByte
      rw [hByte, UInt8.toNat_ofNat'] at hLarge
      omega
    have hChar : (Char.ofNat b.toNat).toNat = b.toNat := toNat_ofNat_ascii hb
    refine ⟨Char.ofNat b.toNat, ?_, ?_⟩
    · rw [utf8EncodeChar_ascii (by omega), hChar, UInt8.ofNat_toNat]
    · rw [toLower_ofNat hb, hByte, UInt8.toNat_ofNat', Nat.mod_eq_of_lt (by omega),
        Char.ofNat_toNat]
  · refine ⟨c, ?_, Char.toLower_of_ge hOther⟩
    rw [← h]
    refine ((List.map_congr_left fun b hMem => ?_).trans (List.map_id raw)).symm
    by_contra hChanged
    have hb : b.toNat < 0x80 := by
      by_contra hLarge
      exact hChanged (UInt8.toAsciiLowercase_of_ge (by omega))
    have hLower := UInt8.toAsciiLowercase_lt hb
    have hImage : b.toAsciiLowercase ∈ String.utf8EncodeChar c := h ▸ List.mem_map_of_mem hMem
    exact absurd (encode_ge hOther hImage) (by omega)

/-- Bytes that are a text up to the case of ASCII are a text themselves. -/
theorem exists_bytes_of_lower {raw : Bytes} {t : Str}
    (h : raw.map UInt8.toAsciiLowercase = bytes t) :
    ∃ s, raw = bytes s ∧ s.map Char.toLower = t := by
  induction t generalizing raw with
  | nil => exact ⟨[], List.map_eq_nil_iff.mp h, rfl⟩
  | cons c t ih =>
      rw [bytes_cons] at h
      obtain ⟨first, rest, rfl, hFirst, hRest⟩ := List.map_eq_append_iff.mp h
      obtain ⟨s, rfl, rfl⟩ := ih hRest
      obtain ⟨d, rfl, rfl⟩ := exists_encode_of_lower hFirst
      exact ⟨d :: s, (bytes_cons d s).symm, rfl⟩

/-- Bytes of ASCII decode one by one. -/
theorem fromUtf8Lossy_ascii {raw : Bytes} (h : ∀ b ∈ raw, b.toNat < 0x80) :
    fromUtf8Lossy raw = raw.map fun b => Char.ofNat b.toNat := by
  induction raw with
  | nil => rfl
  | cons b raw ih =>
      rw [fromUtf8Lossy_cons_ascii (h b List.mem_cons_self),
        ih fun c hc => h c (List.mem_cons_of_mem b hc), List.map_cons]

variable [Unicode.Tables]

/-- No letter changes case but those of ASCII. -/
def AsciiCased (s : Str) : Prop := ∀ c ∈ s, c.toNat < 0x80 ∨ CaseStable c

instance (s : Str) : Decidable (AsciiCased s) := List.decidableBAll _ s

theorem toLowercase_of_asciiCased {s : Str} (h : AsciiCased s) :
    toLowercase s = s.map Char.toLower := by
  have hFrom (before : Str) : lowerFrom before s = s.map Char.toLower := by
    induction s generalizing before with
    | nil => rfl
    | cons c s ih =>
        have hRest := ih (fun d hd => h d (List.mem_cons_of_mem c hd)) (c :: before)
        have hOne : c.toNat ≠ 0x3A3 ∧ Unicode.toLower c = [c.toLower] := by
          rcases Nat.lt_or_ge c.toNat 0x80 with hAscii | hOther
          · exact ⟨by omega, Unicode.toLower_ascii hAscii⟩
          · have hStable := (h c List.mem_cons_self).resolve_left (by omega)
            rw [Char.toLower_of_ge hOther]
            exact hStable
        rw [lowerFrom, if_neg hOne.1, hOne.2, hRest]
        rfl
  exact hFrom []

end Str
