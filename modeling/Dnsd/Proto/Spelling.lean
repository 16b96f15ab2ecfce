import Dnsd.Proto.Headers
import Dnsd.Proto.ParseSizes
import Dnsd.Rust.Lowercase

/-! How any name is written and what is read where it was written, whether or not
that is the name: the reader stops at an empty label, and else behind the name. -/

namespace Dnsd.Proto

open Bytes Exec

/-! ## Canonical names -/

theorem caseStable_canonicalName {name : Str} {c : Char} (h : c ∈ canonicalName name) :
    Str.CaseStable c := by
  have hDot : Str.CaseStable '.' := ⟨by decide, by decide⟩
  rw [canonicalName] at h
  split_ifs at h
  · rw [List.mem_singleton.mp h]
    exact hDot
  · rcases List.mem_append.mp h with h | h
    · exact Str.caseStable_toLowercase h
    · rw [List.mem_singleton.mp h]
      exact hDot

theorem canonicalName_head {name : Str} {c : Char} (h : (canonicalName name).head? = some c) :
    Unicode.whiteSpace c = false := by
  rw [canonicalName] at h
  split_ifs at h with hEmpty
  · cases h
    decide
  · rw [List.head?_append_of_ne_nil _ (by simpa using hEmpty)] at h
    exact Str.toLowercase_head
      (fun _ hHead => Str.head_of_prefix_trim (List.rdropWhile_prefix _ _) hHead) h

/-- The canonical form of a canonical name is the name. -/
theorem canonicalName_canonicalName (name : Str) :
    canonicalName (canonicalName name) = canonicalName name := by
  have hTrim : Str.trim (canonicalName name) = canonicalName name := by
    refine Str.trim_of_ends (fun _ h => canonicalName_head h) fun c h => ?_
    rcases canonicalName_form name with hName | ⟨lower, -, -, hName⟩
    · rw [hName] at h
      cases h
      decide
    · rw [hName, List.getLast?_concat] at h
      cases h
      decide
  have hLower : Str.toLowercase (Str.trimEndMatches (canonicalName name) '.') =
      Str.trimEndMatches (canonicalName name) '.' :=
    Str.toLowercase_of_stable fun _ h =>
      caseStable_canonicalName ((List.rdropWhile_prefix _ _).subset h)
  rw [canonicalName, hTrim, hLower]
  rcases canonicalName_form name with hName | ⟨lower, hNil, hDots, hName⟩
  · rw [hName]
    decide
  · rw [hName, Str.trimEndMatches_append_self, hDots, if_neg (by simpa using hNil)]

/-! ## Labels -/

/-- The labels that the encoder writes for a name. -/
def wireLabels (name : Str) : List Str :=
  let name := canonicalName name
  if name = ['.'] then [] else (name.trimEndMatches '.').splitOn '.'

theorem wireLabels_eq_nil_iff {name : Str} : wireLabels name = [] ↔ canonicalName name = ['.'] := by
  rw [wireLabels]
  split_ifs with hRoot
  · exact iff_of_true rfl hRoot
  · exact iff_of_false (List.splitOn_ne_nil _ _) hRoot

theorem nameText_wireLabels (name : Str) : nameText (wireLabels name) = canonicalName name := by
  rw [wireLabels]
  split_ifs with hRoot
  · exact hRoot.symm
  · exact nameText_splitOn hRoot

theorem wireLabels_canonicalName (name : Str) : wireLabels (canonicalName name) = wireLabels name := by
  rw [wireLabels, canonicalName_canonicalName, wireLabels]

/-- The labels of a canonical name have no other lower-case form. -/
theorem wireLabels_stable (name : Str) : (wireLabels name).map Str.toLowercase = wireLabels name := by
  have hMem (l : Str) (hl : l ∈ wireLabels name) (c : Char) (hc : c ∈ l) : c ∈ canonicalName name := by
    rw [← nameText_wireLabels, nameText, if_neg (by simpa using List.ne_nil_of_mem hl), dotted]
    exact List.mem_append_left _ (Str.mem_intercalate_of_mem hl hc)
  exact (List.map_congr_left fun l hl => Str.toLowercase_of_stable fun c hc =>
    caseStable_canonicalName (hMem l hl c hc)).trans (List.map_id _)

theorem dotted_length {labels : List Str} (hNil : labels ≠ []) :
    (dotted labels).length = (labels.map fun l => l.length + 1).sum := by
  rw [dotted, List.length_append]
  exact Str.intercalate_length hNil

/-- The labels in front of another label have another text. -/
theorem nameText_ne_of_front {name : Str} {before after : List Str} {label : Str}
    (h : wireLabels name = before ++ label :: after) : nameText before ≠ canonicalName name := by
  intro hSame
  by_cases hNil : before = []
  · have hRoot : canonicalName name = ['.'] := by
      rw [← hSame, hNil]
      rfl
    rw [wireLabels_eq_nil_iff.mpr hRoot] at h
    simp at h
  · have hLength := congrArg List.length hSame
    rw [← nameText_wireLabels, h, nameText, nameText, if_neg (by simpa using hNil),
      if_neg (by simp), dotted_length hNil, dotted_length (by simp), List.map_append,
      List.sum_append, List.map_cons, List.sum_cons] at hLength
    omega

/-! ## A name in full -/

/-- The reader gives up on more labels than it has turns. -/
theorem readLabels_exhausted {buf : Bytes} {next guard : Nat} {names : List Str}
    (hAt : At buf next (names.flatMap labelBytes)) (hNames : ∀ l ∈ names, l ≠ [] ∧ l.len ≤ 63)
    (hGuard : guard ≤ names.length) (jumped : Bool) (pos : Nat) (labels : List Str) :
    readLabels buf guard next jumped pos labels = .err (.parse "name compression loop") := by
  have hTaken : At buf next ((names.take guard).flatMap labelBytes) := by
    rw [← List.take_append_drop guard names, List.flatMap_append] at hAt
    exact hAt.left
  have hTurns := readLabels_spelled hTaken (fun l hl => hNames l (List.mem_of_mem_take hl)) 0 jumped
    pos labels
  rw [List.length_take, Nat.min_eq_left hGuard, Nat.zero_add] at hTurns
  rw [hTurns, readLabels]

/-- What is read up to a zero byte, which is that of an empty label as well. -/
theorem readName_spelled {buf : Bytes} {pos : Nat} {names : List Str}
    (hAt : At buf pos (wireName names)) (hNames : ∀ l ∈ names, l ≠ [] ∧ l.len ≤ 63) :
    readName buf pos =
      if names.length ≤ 255 then
        .ok (nameText (names.map Str.toLowercase), pos + (wireName names).length)
      else .err (.parse "name compression loop") := by
  rw [readName]
  split_ifs with hCount
  · obtain ⟨turns, hTurns⟩ : ∃ turns, 256 = turns + 1 + names.length :=
      ⟨255 - names.length, by omega⟩
    rw [hTurns, readLabels_spelled hAt.left hNames, readLabels_root hAt.right, ok_bind]
    simp [nameText, wireName, Nat.add_assoc]
  · rw [readLabels_exhausted hAt.left hNames (by omega)]
    rfl

/-- A name that is written in full and read as itself: the reader stops at no label
of it, and has the turns for all of them. -/
structure Spelled (name : Str) : Prop where
  label : ∀ l ∈ wireLabels name, l ≠ [] ∧ l.len ≤ 63
  count : (wireLabels name).length ≤ 255

instance (name : Str) : Decidable (Spelled name) :=
  decidable_of_iff ((∀ l ∈ wireLabels name, l ≠ [] ∧ l.len ≤ 63) ∧ (wireLabels name).length ≤ 255)
    ⟨fun h => ⟨h.1, h.2⟩, fun h => ⟨h.label, h.count⟩⟩

theorem spelled_canonicalName {name : Str} : Spelled (canonicalName name) ↔ Spelled name := by
  constructor
  · rintro ⟨hLabel, hCount⟩
    rw [wireLabels_canonicalName] at hLabel hCount
    exact ⟨hLabel, hCount⟩
  · rintro ⟨hLabel, hCount⟩
    rw [← wireLabels_canonicalName] at hLabel hCount
    exact ⟨hLabel, hCount⟩

theorem readName_eq_self_iff {buf : Bytes} {pos : Nat} {name : Str}
    (hShort : ∀ l ∈ wireLabels name, l.len ≤ 63)
    (hAt : At buf pos (wireName (wireLabels name))) :
    (∃ p, readName buf pos = .ok (canonicalName name, p)) ↔ Spelled name := by
  constructor
  · rintro ⟨p, hRead⟩
    have hNonempty : ∀ l ∈ wireLabels name, l ≠ [] := by
      rintro l hl rfl
      obtain ⟨before, after, hSplit, hBefore⟩ := List.eq_append_cons_of_mem hl
      have hFront : At buf pos (wireName before) := by
        rw [hSplit, wireName, List.flatMap_append, List.flatMap_cons] at hAt
        have hZero : labelBytes [] = [0] := rfl
        rw [hZero, ← List.append_assoc, List.append_assoc, List.append_assoc] at hAt
        rw [wireName]
        exact At.left (by simpa using hAt)
      have hStable : before.map Str.toLowercase = before := by
        have hAll := wireLabels_stable name
        rw [hSplit, List.map_append] at hAll
        exact (List.append_inj hAll (List.length_map _)).1
      rw [readName_spelled hFront fun l hl => ⟨fun h => hBefore (h ▸ hl),
        hShort l (hSplit ▸ List.mem_append_left _ hl)⟩, hStable] at hRead
      split_ifs at hRead
      · exact nameText_ne_of_front hSplit (congrArg Prod.fst (Exec.ok.inj hRead))
    have hLabel : ∀ l ∈ wireLabels name, l ≠ [] ∧ l.len ≤ 63 :=
      fun l hl => ⟨hNonempty l hl, hShort l hl⟩
    refine ⟨hLabel, ?_⟩
    rw [readName_spelled hAt hLabel] at hRead
    split_ifs at hRead with hCount
    · exact hCount
  · intro h
    rw [readName_spelled hAt h.label, if_pos h.count, wireLabels_stable, nameText_wireLabels]
    exact ⟨_, rfl⟩

theorem writeFull_long {names : List Str} (h : ∃ l ∈ names, 63 < l.len) (enc : Encoder) :
    writeFull enc names = .err (.encode "label too long") := by
  induction names generalizing enc with
  | nil => simp at h
  | cons label rest ih =>
      rw [writeFull]
      split_ifs with hLong
      · rfl
      · obtain ⟨l, hl, hLen⟩ := h
        rcases List.mem_cons.mp hl with rfl | hl
        · exact absurd hLen hLong
        · exact ih ⟨l, hl, hLen⟩ _

/-- A name alone is written in full, unless one of its labels is too long. -/
theorem encodeNamesAlone_eq_ok_iff {name : Str} {e : Bytes} :
    encodeNamesAlone [name] = .ok e ↔
      (∀ l ∈ wireLabels name, l.len ≤ 63) ∧ e = wireName (wireLabels name) := by
  have hAlone : encodeNamesAlone [name] =
      Encoder.new.writeName name >>= fun enc => .ok enc.out := by
    rw [encodeNamesAlone, encodeNames]
    cases Encoder.new.writeName name <;> rfl
  rw [hAlone, Encoder.writeName, wireLabels]
  dsimp only
  split_ifs with hRoot
  · simp [Encoder.new, Encoder.push, wireName, eq_comm]
  · rw [show Encoder.new.nameMap = ∅ from rfl, findSuffix_empty]
    dsimp only
    generalize List.splitOn '.' (Str.trimEndMatches (canonicalName name) '.') = labels
    by_cases hLong : ∃ l ∈ labels, 63 < Str.len l
    · rw [writeFull_long hLong]
      obtain ⟨l, hl, hLen⟩ := hLong
      exact iff_of_false (by simp) fun h => absurd (h.1 l hl) (by omega)
    · have hShort : ∀ l ∈ labels, Str.len l ≤ 63 := fun l hl =>
        Nat.not_lt.mp fun h => hLong ⟨l, hl, h⟩
      obtain ⟨full, hFull, hOut, -⟩ := writeFull_ok hShort Encoder.new
      rw [hFull, ok_bind, ok_bind, Encoder.push_out, hOut]
      exact ⟨fun h => ⟨hShort, (Exec.ok.inj h).symm⟩, fun h => congrArg Exec.ok h.2.symm⟩

end Dnsd.Proto
