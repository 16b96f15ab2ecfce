import Dnsd.Rust.Text

/-! Lower-casing a text once more changes nothing, and it makes no white space. -/

namespace Str

variable [Unicode.Tables]

/-- No character of a lower-cased text has another lower-case form. -/
theorem caseStable_toLowercase {s : Str} {c : Char} (h : c ∈ toLowercase s) : CaseStable c := by
  have hFrom (t before : Str) (hMem : c ∈ lowerFrom before t) : CaseStable c := by
    induction t generalizing before with
    | nil => cases hMem
    | cons a t ih =>
        rw [lowerFrom, List.mem_append] at hMem
        rcases hMem with hFirst | hRest
        · split_ifs at hFirst
          · rw [List.mem_singleton.mp hFirst]
            exact ⟨by decide, Unicode.toLower_sigmas.2⟩
          · rw [List.mem_singleton.mp hFirst]
            exact ⟨by decide, Unicode.toLower_sigmas.1⟩
          · exact Unicode.toLower_settled hFirst
        · exact ih _ hRest
  exact hFrom s [] h

/-- A text that starts with no white space does not do so in lower case. -/
theorem toLowercase_head {s : Str} (h : ∀ c, s.head? = some c → Unicode.whiteSpace c = false)
    {c : Char} (hHead : (toLowercase s).head? = some c) : Unicode.whiteSpace c = false := by
  cases s with
  | nil => cases hHead
  | cons a s =>
      have hFirst := h a rfl
      rw [toLowercase, lowerFrom] at hHead
      split_ifs at hHead
      · cases hHead
        decide
      · cases hHead
        decide
      · rw [List.head?_append_of_ne_nil _ (Unicode.toLower_ne_nil a)] at hHead
        exact Unicode.whiteSpace_toLower (List.mem_of_mem_head? hHead) hFirst

omit [Unicode.Tables] in
theorem two_le_utf8Size {c : Char} (h : 0x80 ≤ c.toNat) : 2 ≤ c.utf8Size := by
  rw [Char.utf8Size]
  split_ifs with hAscii
  · have hNat : c.toNat ≤ 0x7F := UInt32.le_iff_toNat_le.mp hAscii
    omega
  all_goals omega

/-- Only what takes two bytes or more becomes two characters. -/
theorem toLowercase_length_le_len (s : Str) : (toLowercase s).length ≤ len s := by
  have hChar (c : Char) : (Unicode.toLower c).length ≤ c.utf8Size := by
    by_cases hAscii : c.toNat < 0x80
    · rw [Unicode.toLower_ascii hAscii]
      exact c.utf8Size_pos
    · exact Nat.le_trans (Unicode.toLower_length c) (two_le_utf8Size (Nat.not_lt.mp hAscii))
  have hFrom (before : Str) : (lowerFrom before s).length ≤ len s := by
    induction s generalizing before with
    | nil => exact Nat.le_refl 0
    | cons c s ih =>
        have hRest := ih (c :: before)
        have hOne := hChar c
        have hPos := c.utf8Size_pos
        rw [lowerFrom, List.length_append, len, bytes_cons, List.length_append,
          String.length_utf8EncodeChar, ← len]
        split_ifs
        · rw [List.length_singleton]
          omega
        · rw [List.length_singleton]
          omega
        · omega
  exact hFrom []

omit [Unicode.Tables] in
theorem trim_len (s : Str) : len (trim s) ≤ len s := by
  have hStart := congrArg len (List.takeWhile_append_dropWhile (p := Unicode.whiteSpace) (l := s))
  obtain ⟨rest, hRest⟩ := List.rdropWhile_prefix Unicode.whiteSpace (s.dropWhile Unicode.whiteSpace)
  have hEnd := congrArg len hRest
  rw [len_append] at hStart hEnd
  rw [trim]
  omega

end Str
