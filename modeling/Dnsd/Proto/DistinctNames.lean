import Dnsd.Proto.WireNames
import Dnsd.Rust.AsciiCase

/-! Which names have a text of their own. The text is the key of a name wherever
names are compared, and it is made by decoding, lower-casing and joining labels.
Which letters have two cases depends on the tables of the toolchain, which are a
parameter here. -/

namespace Dnsd.Proto

open Bytes Exec

section AnyTables

variable [Unicode.Tables]

/-! ## Labels -/

/-- A label that its text stands for: it is well-formed UTF-8, holds no dot, and no
letter of it changes case but those of ASCII. -/
def CleanLabel (raw : Bytes) : Prop := ∃ s : Str, raw = s.bytes ∧ '.' ∉ s ∧ s.AsciiCased

/-- No label of the name loses anything on its way into a text. -/
def Clean (labels : List Bytes) : Prop := ∀ raw ∈ labels, CleanLabel raw

/-- The same labels up to the case of ASCII letters. -/
def SameName (labels labels' : List Bytes) : Prop :=
  labels.map (List.map UInt8.toAsciiLowercase) = labels'.map (List.map UInt8.toAsciiLowercase)

/-- The text of a clean label is the label in lower case. -/
theorem CleanLabel.labelText {raw : Bytes} (h : CleanLabel raw) :
    '.' ∉ labelText raw ∧ (labelText raw).bytes = raw.map UInt8.toAsciiLowercase := by
  obtain ⟨s, rfl, hDot, hCased⟩ := h
  rw [Proto.labelText, Str.fromUtf8Lossy_bytes, Str.toLowercase_of_asciiCased hCased]
  refine ⟨fun hMem => ?_, Str.bytes_map_toLower s⟩
  obtain ⟨c, hc, hLower⟩ := List.mem_map.mp hMem
  exact hDot (Char.toLower_eq_dot.mp hLower ▸ hc)

/-- What differs from a clean label in the case of ASCII letters alone is clean. -/
theorem CleanLabel.of_same {raw raw' : Bytes} (h : CleanLabel raw')
    (hSame : raw.map UInt8.toAsciiLowercase = raw'.map UInt8.toAsciiLowercase) : CleanLabel raw := by
  obtain ⟨t, rfl, hDot, hCased⟩ := h
  rw [← Str.bytes_map_toLower] at hSame
  obtain ⟨s, rfl, hLower⟩ := Str.exists_bytes_of_lower hSame
  refine ⟨s, rfl, fun hMem => ?_, fun c hc => ?_⟩
  · have hImage : '.' ∈ t.map Char.toLower := by
      rw [← hLower]
      exact List.mem_map.mpr ⟨'.', hMem, by decide⟩
    obtain ⟨d, hd, hEq⟩ := List.mem_map.mp hImage
    exact hDot (Char.toLower_eq_dot.mp hEq ▸ hd)
  · rcases Nat.lt_or_ge c.toNat 0x80 with hAscii | hOther
    · exact Or.inl hAscii
    · have hImage : c ∈ t.map Char.toLower := by
        rw [← hLower]
        exact List.mem_map.mpr ⟨c, hc, Char.toLower_of_ge hOther⟩
      obtain ⟨d, hd, hEq⟩ := List.mem_map.mp hImage
      rcases Nat.lt_or_ge d.toNat 0x80 with hSmall | hLarge
      · have hLow := Char.toLower_lt hSmall
        rw [hEq] at hLow
        omega
      · rw [Char.toLower_of_ge hLarge] at hEq
        exact hEq ▸ hCased d hd

theorem labelText_ne_nil {raw : Bytes} (h : 0 < raw.length) : labelText raw ≠ [] := by
  cases raw with
  | nil => simp at h
  | cons b raw =>
      obtain ⟨c, s, hDecode⟩ := List.exists_cons_of_ne_nil (Str.fromUtf8Lossy_ne_nil b raw)
      rw [labelText, hDecode]
      exact Str.lowerFrom_ne_nil [] c s

/-! ## Names -/

/-- The name at an offset, with what reading it gives. -/
def ReadAt (buf : Bytes) (pos : Nat) (labels : List Bytes) (name : Str) : Prop :=
  ∃ turns stop, NameAt buf turns pos labels stop ∧ readName buf pos = .ok (name, stop)

/-- A name that was written in full is at the place where it was written. -/
theorem readAt_wireName (names : List Str) (hNames : ∀ l ∈ names, l ≠ [] ∧ l.len ≤ 63)
    (hCount : names.length ≤ 255) :
    ReadAt (wireName names) 0 (names.map Str.bytes) (nameText (names.map Str.toLowercase)) := by
  have hName := nameAt_wireName (At.self (wireName names)) hNames
  refine ⟨_, _, hName, readName_eq_ok_iff.mpr ⟨_, _, hName, by omega, ?_⟩⟩
  rw [List.map_map]
  exact congrArg nameText (List.map_congr_left fun l _ => by
    rw [Function.comp, labelText, Str.fromUtf8Lossy_bytes])

/-- No clean name with this text is another one. -/
def DistinctFrom (labels : List Bytes) (name : Str) : Prop :=
  ∀ buf pos labels', Clean labels' → ReadAt buf pos labels' name → SameName labels labels'

theorem ReadAt.text {buf : Bytes} {pos : Nat} {labels : List Bytes} {name : Str}
    (h : ReadAt buf pos labels name) :
    name = nameText (labels.map labelText) ∧ ∀ raw ∈ labels, 0 < raw.length := by
  obtain ⟨turns, stop, hName, hRead⟩ := h
  obtain ⟨turns', raws, hName', -, rfl⟩ := readName_eq_ok_iff.mp hRead
  obtain ⟨-, rfl, -⟩ := hName.unique hName'
  exact ⟨rfl, fun raw hMem => (hName.labels_short raw hMem).1⟩

theorem sameName_of_clean {labels labels' : List Bytes} (hClean : Clean labels)
    (hClean' : Clean labels') (hPositive : ∀ raw ∈ labels, 0 < raw.length)
    (hPositive' : ∀ raw ∈ labels', 0 < raw.length)
    (h : nameText (labels.map labelText) = nameText (labels'.map labelText)) :
    SameName labels labels' := by
  have hParts {ls : List Bytes} (hLs : Clean ls) (hLong : ∀ raw ∈ ls, 0 < raw.length) :
      ∀ l ∈ ls.map labelText, l ≠ [] ∧ '.' ∉ l := by
    intro l hl
    obtain ⟨raw, hRaw, rfl⟩ := List.mem_map.mp hl
    exact ⟨labelText_ne_nil (hLong raw hRaw), (hLs raw hRaw).labelText.1⟩
  have hLower {ls : List Bytes} (hLs : Clean ls) :
      ls.map (List.map UInt8.toAsciiLowercase) = (ls.map labelText).map Str.bytes := by
    rw [List.map_map]
    exact List.map_congr_left fun raw hRaw => (hLs raw hRaw).labelText.2.symm
  rw [SameName, hLower hClean, hLower hClean',
    nameText_injective (hParts hClean hPositive) (hParts hClean' hPositive') h]

/-- The text between the dots of a name. -/
def pieces (name : Str) : List Str := if name = ['.'] then [] else name.dropLast.splitOn '.'

/-- A name whose text between the dots can be written as labels. -/
def Writable (name : Str) : Prop :=
  (∀ p ∈ pieces name, p ≠ [] ∧ p.len ≤ 63) ∧ (pieces name).length ≤ 255

instance (name : Str) : Decidable (Writable name) := inferInstanceAs (Decidable (_ ∧ _))

omit [Unicode.Tables] in
theorem nameText_pieces (labels : List Str) : nameText (pieces (nameText labels)) = nameText labels := by
  by_cases hRoot : nameText labels = ['.']
  · rw [hRoot]
    decide
  · have hNil : labels ≠ [] := fun h => hRoot (h ▸ rfl)
    rw [pieces, if_neg hRoot, nameText, if_neg (by simp), dotted, List.intercalate_splitOn, nameText,
      if_neg (by simpa using hNil), dotted, List.dropLast_concat]

/-- The pieces of a name that was read hold no dot and no letter that changes case. -/
theorem pieces_labelText {labels : List Bytes} {p : Str}
    (h : p ∈ pieces (nameText (labels.map labelText))) : '.' ∉ p ∧ ∀ c ∈ p, Str.CaseStable c := by
  rw [pieces] at h
  split_ifs at h with hRoot
  · cases h
  · refine ⟨Str.not_mem_of_mem_splitOn h, fun c hc => ?_⟩
    have hNil : labels.map labelText ≠ [] := fun h => hRoot (by rw [h]; rfl)
    have hMem : c ∈ ['.'].intercalate (List.splitOn '.' (nameText (labels.map labelText)).dropLast) :=
      Str.mem_intercalate_of_mem h hc
    rw [List.intercalate_splitOn, nameText, if_neg (by simpa using hNil), dotted,
      List.dropLast_concat] at hMem
    rcases Str.mem_intercalate hMem with rfl | ⟨l, hl, hMem⟩
    · exact Str.caseStable_of_ascii (by decide) (by decide)
    · obtain ⟨raw, -, rfl⟩ := List.mem_map.mp hl
      exact Str.caseStable_toLowercase hMem

/-- The name that is written in full as the text of another one is clean, and has the
same text. -/
theorem Writable.readAt {buf : Bytes} {pos : Nat} {labels : List Bytes} {name : Str}
    (hFits : Writable name) (h : ReadAt buf pos labels name) :
    ∃ buf' labels', Clean labels' ∧ ReadAt buf' 0 labels' name := by
  obtain ⟨rfl, -⟩ := h.text
  have hPieces (p : Str) (hp : p ∈ pieces (nameText (labels.map labelText))) := pieces_labelText hp
  have hRead := readAt_wireName _ hFits.1 hFits.2
  have hStable : (pieces (nameText (labels.map labelText))).map Str.toLowercase =
      pieces (nameText (labels.map labelText)) :=
    (List.map_congr_left fun p hp => Str.toLowercase_of_stable (hPieces p hp).2).trans (List.map_id _)
  rw [hStable, nameText_pieces] at hRead
  refine ⟨_, _, fun raw hRaw => ?_, hRead⟩
  obtain ⟨p, hp, rfl⟩ := List.mem_map.mp hRaw
  exact ⟨p, rfl, (hPieces p hp).1, fun c hc => Or.inr ((hPieces p hp).2 c hc)⟩

end AnyTables

end Dnsd.Proto
