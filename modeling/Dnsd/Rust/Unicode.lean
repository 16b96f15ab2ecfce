import Mathlib.Data.List.Defs
import Mathlib.Tactic.Common

/-! Character data behind `str::to_lowercase`. A toolchain carries the tables of its
own version of the standard, and each version adds characters. The tables are a
parameter, with what every version keeps. -/

namespace Unicode

/-- The character is in one of the runs of code points. -/
def inRuns (runs : List (Nat × Nat)) (c : Char) : Bool :=
  runs.any fun run => run.1 ≤ c.toNat && c.toNat ≤ run.2

/-- The `White_Space` property, which `str::trim` uses. -/
def whiteSpace (c : Char) : Bool :=
  inRuns [(0x9, 0xD), (0x20, 0x20), (0x85, 0x85), (0xA0, 0xA0), (0x1680, 0x1680),
    (0x2000, 0x200A), (0x2028, 0x2029), (0x202F, 0x202F), (0x205F, 0x205F), (0x3000, 0x3000)] c

/-- The tables of a toolchain: the lower-case forms outside ASCII, and the two
properties of the final-sigma rule. Whatever their version, a form is one character
or two, is no full stop, makes no white space, and has no other lower-case form. -/
class Tables where
  lower : Char → List Char
  cased : Char → Bool
  caseIgnorable : Char → Bool
  lower_ne_nil (c : Char) : lower c ≠ []
  lower_length (c : Char) : (lower c).length ≤ 2
  lower_not_dot {c : Char} (h : 0x80 ≤ c.toNat) : '.' ∉ lower c
  lower_not_space {c d : Char} (h : d ∈ lower c) (hc : whiteSpace c = false) : whiteSpace d = false
  lower_settled {c d : Char} (hc : 0x80 ≤ c.toNat) (h : d ∈ lower c) :
    d.toNat ≠ 0x3A3 ∧ if d.toNat < 0x80 then d.toLower = d else lower d = [d]
  lower_sigma : lower (Char.ofNat 0x3C3) = [Char.ofNat 0x3C3]
  lower_finalSigma : lower (Char.ofNat 0x3C2) = [Char.ofNat 0x3C2]

/-- A property of the ASCII characters is checked one by one. -/
theorem forall_ascii {P : Char → Prop} (hAll : ∀ n : Fin 128, P (Char.ofNat n.val)) {c : Char}
    (h : c.toNat < 0x80) : P c := by
  have hc := hAll ⟨c.toNat, h⟩
  rwa [Char.ofNat_toNat] at hc

variable [Tables]

/-- Whether the final-sigma rule takes the character for a letter. -/
def cased (c : Char) : Bool := Tables.cased c

/-- Whether the final-sigma rule looks past the character. -/
def caseIgnorable (c : Char) : Bool := Tables.caseIgnorable c

/-- Lower-case form of one character. -/
def toLower (c : Char) : List Char :=
  if c.toNat < 0x80 then [c.toLower] else Tables.lower c

theorem toLower_ascii {c : Char} (h : c.toNat < 0x80) : toLower c = [c.toLower] := by
  simp [toLower, h]

theorem toLower_ne_nil (c : Char) : toLower c ≠ [] := by
  rw [toLower]
  split_ifs
  · simp
  · exact Tables.lower_ne_nil c

theorem toLower_length (c : Char) : (toLower c).length ≤ 2 := by
  rw [toLower]
  split_ifs
  · simp
  · exact Tables.lower_length c

/-- No character but the full stop itself turns into one. -/
theorem dot_not_mem_toLower {c : Char} (h : c ≠ '.') : '.' ∉ toLower c := by
  rw [toLower]
  split_ifs with hAscii
  · intro hDot
    have hc := forall_ascii (P := fun c => c.toLower = '.' → c = '.') (by decide) hAscii
    exact h (hc (List.mem_singleton.mp hDot).symm)
  · exact Tables.lower_not_dot (Nat.not_lt.mp hAscii)

/-- Lower-casing once more changes nothing, and leaves no capital sigma. -/
theorem toLower_settled {c d : Char} (h : d ∈ toLower c) : d.toNat ≠ 0x3A3 ∧ toLower d = [d] := by
  rw [toLower] at h
  split_ifs at h with hAscii
  · have hSettled := forall_ascii (P := fun c => c.toLower.toNat < 0x80 ∧ c.toLower.toLower = c.toLower)
      (by decide) hAscii
    rw [List.mem_singleton.mp h]
    exact ⟨by omega, by rw [toLower_ascii hSettled.1, hSettled.2]⟩
  · obtain ⟨hSigma, hSame⟩ := Tables.lower_settled (Nat.not_lt.mp hAscii) h
    refine ⟨hSigma, ?_⟩
    rw [toLower]
    split_ifs at hSame ⊢
    · rw [hSame]
    · exact hSame

theorem whiteSpace_toLower {c d : Char} (h : d ∈ toLower c) (hc : whiteSpace c = false) :
    whiteSpace d = false := by
  rw [toLower] at h
  split_ifs at h with hAscii
  · rw [List.mem_singleton.mp h]
    exact forall_ascii (P := fun c => whiteSpace c = false → whiteSpace c.toLower = false)
      (by decide +kernel) hAscii hc
  · exact Tables.lower_not_space h hc

/-- Neither form of the small sigma changes. -/
theorem toLower_sigmas :
    toLower (Char.ofNat 0x3C3) = [Char.ofNat 0x3C3] ∧ toLower (Char.ofNat 0x3C2) = [Char.ofNat 0x3C2] := by
  rw [toLower, toLower, if_neg (by decide), if_neg (by decide)]
  exact ⟨Tables.lower_sigma, Tables.lower_finalSigma⟩

end Unicode
