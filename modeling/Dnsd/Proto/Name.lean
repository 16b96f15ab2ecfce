import Dnsd.Rust.Format

/-! Domain names as text: labels joined with dots, and the canonical form that
every later layer compares. -/

namespace Dnsd.Proto

/-- Labels joined with dots, with a trailing dot. -/
def dotted (labels : List Str) : Str := ['.'].intercalate labels ++ ['.']

/-- The key under which names are compared: lower case, with a single trailing dot. -/
def canonicalName (name : Str) : Str :=
  let name := name.trim
  let name := name.trimEndMatches '.'
  let lower := name.toLowercase
  if lower.isEmpty then ['.'] else lower ++ ['.']

/-- The text of a list of labels; the root has none and is a single dot. -/
def nameText (labels : List Str) : Str :=
  if labels.isEmpty then ['.'] else dotted labels

/-- A label with its length byte; `as u8` keeps the low bits of the length. -/
def labelBytes (label : Str) : Bytes := UInt8.ofNat label.len :: label.bytes

/-- The uncompressed wire form: every label behind its length, and a zero at the end. -/
def wireName (labels : List Str) : Bytes := labels.flatMap labelBytes ++ [0]

/-- A label that is written and read back without a change. -/
structure LabelOk (label : Str) : Prop where
  nonempty : label ≠ []
  noDot : '.' ∉ label
  stable : ∀ c ∈ label, Str.CaseStable c
  short : label.len ≤ 63

/-- A name whose text stands for exactly these labels, on the wire as well. The
count keeps every reading, pointer included, below the turns of the reader. -/
structure Legible (labels : List Str) : Prop where
  label : ∀ l ∈ labels, LabelOk l
  start : ∀ l rest c, labels = l :: rest → l.head? = some c → Unicode.whiteSpace c = false
  count : labels.length ≤ 254

theorem canonicalName_length (name : Str) : (canonicalName name).length ≤ 2 * name.length + 1 := by
  have hTrim := Str.trim_length name
  have hDots := (List.rdropWhile_prefix (· == '.') name.trim).length_le
  have hLower := Str.toLowercase_length (name.trim.trimEndMatches '.')
  rw [canonicalName]
  split_ifs
  · simp
  · rw [List.length_append, List.length_singleton]
    rw [Str.trimEndMatches] at hLower ⊢
    omega

theorem canonicalName_form (name : Str) : canonicalName name = ['.'] ∨
    ∃ lower, lower ≠ [] ∧ Str.trimEndMatches lower '.' = lower ∧
      canonicalName name = lower ++ ['.'] := by
  have hEnd : (name.trim.trimEndMatches '.').toLowercase.getLast? ≠ some '.' := by
    refine Str.toLowercase_ends fun hLast => ?_
    have hNil : name.trim.trimEndMatches '.' ≠ [] := by
      rintro hNil
      simp [hNil] at hLast
    rw [List.getLast?_eq_some_getLast hNil, Option.some.injEq] at hLast
    exact List.rdropWhile_last_not (· == '.') name.trim hNil (beq_iff_eq.mpr hLast)
  by_cases hEmpty : (name.trim.trimEndMatches '.').toLowercase = []
  · exact Or.inl (by simp [canonicalName, hEmpty])
  · refine Or.inr ⟨_, hEmpty, ?_, by simp [canonicalName, hEmpty]⟩
    rw [Str.trimEndMatches, List.rdropWhile_eq_self_iff]
    intro hNil
    rw [List.getLast?_eq_some_getLast hNil] at hEnd
    simpa using hEnd

/-- The text between the dots of a canonical name, joined again. -/
theorem nameText_splitOn {name : Str} (hRoot : canonicalName name ≠ ['.']) :
    nameText ((Str.trimEndMatches (canonicalName name) '.').splitOn '.') = canonicalName name := by
  obtain ⟨lower, -, hTrim, hName⟩ := (canonicalName_form name).resolve_left hRoot
  rw [hName, Str.trimEndMatches_append_self, hTrim, nameText,
    if_neg (by simp [List.splitOn_ne_nil]), dotted, List.intercalate_splitOn]

theorem dotted_cons_cons (a b : Str) (rest : List Str) :
    dotted (a :: b :: rest) = a ++ '.' :: dotted (b :: rest) := by
  simp [dotted, List.intercalate_cons_cons]

@[simp] theorem dotted_singleton (a : Str) : dotted [a] = a ++ ['.'] := by
  simp [dotted]

theorem dotted_len {labels : List Str} (hNil : labels ≠ []) :
    (dotted labels).len = (labels.map fun l => l.len + 1).sum := by
  induction labels with
  | nil => exact absurd rfl hNil
  | cons a rest ih =>
      have hDot : Str.len ['.'] = 1 := by decide
      cases rest with
      | nil => rw [dotted_singleton, Str.len_append, hDot, List.map_singleton, List.sum_singleton]
      | cons b rest =>
          rw [dotted_cons_cons, ← List.singleton_append, Str.len_append, Str.len_append, hDot,
            ih (by simp)]
          simp only [List.map_cons, List.sum_cons]
          omega

@[simp] theorem labelBytes_length (label : Str) : (labelBytes label).length = label.len + 1 := by
  simp [labelBytes, Str.len]

/-- The joined text ends in the last character of the last label. -/
theorem intercalate_ends {labels : List Str} (hNil : labels ≠ [])
    (hLabels : ∀ l ∈ labels, l ≠ [] ∧ '.' ∉ l) :
    ∃ s c, ['.'].intercalate labels = s ++ [c] ∧ c ≠ '.' := by
  induction labels with
  | nil => exact absurd rfl hNil
  | cons a rest ih =>
      cases rest with
      | nil =>
          obtain ⟨hNonempty, hDot⟩ := hLabels a List.mem_cons_self
          refine ⟨a.dropLast, a.getLast hNonempty, ?_, ?_⟩
          · simp [List.dropLast_concat_getLast hNonempty]
          · intro hEq
            exact hDot (hEq ▸ List.getLast_mem hNonempty)
      | cons b rest =>
          obtain ⟨s, c, hText, hc⟩ := ih (by simp) fun l hl => hLabels l (List.mem_cons_of_mem a hl)
          exact ⟨a ++ '.' :: s, c, by simp [List.intercalate_cons_cons, hText], hc⟩

theorem trimEndMatches_dotted {labels : List Str} (hNil : labels ≠ [])
    (hLabels : ∀ l ∈ labels, l ≠ [] ∧ '.' ∉ l) :
    Str.trimEndMatches (dotted labels) '.' = ['.'].intercalate labels := by
  obtain ⟨s, c, hText, hc⟩ := intercalate_ends hNil hLabels
  rw [dotted, Str.trimEndMatches_append_self, hText, Str.trimEndMatches_append_of_ne _ hc]

/-- Removing the trailing dot and splitting gives the labels back. -/
theorem splitOn_dotted {labels : List Str} (hNil : labels ≠ [])
    (hLabels : ∀ l ∈ labels, l ≠ [] ∧ '.' ∉ l) :
    (Str.trimEndMatches (dotted labels) '.').splitOn '.' = labels := by
  rw [trimEndMatches_dotted hNil hLabels]
  exact List.splitOn_intercalate '.' (fun l hl => (hLabels l hl).2) hNil

theorem dotted_injective {labels labels' : List Str} (hNil : labels ≠ []) (hNil' : labels' ≠ [])
    (hLabels : ∀ l ∈ labels, l ≠ [] ∧ '.' ∉ l) (hLabels' : ∀ l ∈ labels', l ≠ [] ∧ '.' ∉ l)
    (h : dotted labels = dotted labels') : labels = labels' := by
  rw [← splitOn_dotted hNil hLabels, h, splitOn_dotted hNil' hLabels']

theorem nameText_ne_root {labels : List Str} (hNil : labels ≠ [])
    (hLabels : ∀ l ∈ labels, l ≠ [] ∧ '.' ∉ l) : nameText labels ≠ ['.'] := by
  rw [nameText, if_neg (by simpa using hNil)]
  intro hRoot
  have hSplit := splitOn_dotted hNil hLabels
  rw [hRoot] at hSplit
  have hEmpty : [] ∈ labels := by
    rw [← hSplit]
    decide
  exact (hLabels [] hEmpty).1 rfl

/-- Joined with dots, labels without dots are told apart. -/
theorem nameText_injective {labels labels' : List Str} (hLabels : ∀ l ∈ labels, l ≠ [] ∧ '.' ∉ l)
    (hLabels' : ∀ l ∈ labels', l ≠ [] ∧ '.' ∉ l) (h : nameText labels = nameText labels') :
    labels = labels' := by
  by_cases hNil : labels = []
  · subst hNil
    by_contra hNe
    exact nameText_ne_root (Ne.symm hNe) hLabels' h.symm
  · by_cases hNil' : labels' = []
    · subst hNil'
      exact absurd h (nameText_ne_root hNil hLabels)
    · rw [nameText, nameText, if_neg (by simpa using hNil), if_neg (by simpa using hNil')] at h
      exact dotted_injective hNil hNil' hLabels hLabels' h

namespace Legible

variable {labels : List Str}

theorem parts (h : Legible labels) : ∀ l ∈ labels, l ≠ [] ∧ '.' ∉ l :=
  fun l hl => ⟨(h.label l hl).nonempty, (h.label l hl).noDot⟩

/-- Nothing is trimmed, and no letter changes case. -/
theorem canonicalName_dotted (h : Legible labels) (hNil : labels ≠ []) :
    canonicalName (dotted labels) = dotted labels := by
  have hTrim : Str.trim (dotted labels) = dotted labels := by
    apply Str.trim_of_ends
    · intro c hc
      cases labels with
      | nil => exact absurd rfl hNil
      | cons l rest =>
          refine h.start l rest c rfl ?_
          have hl := (h.label l List.mem_cons_self).nonempty
          cases l with
          | nil => exact absurd rfl hl
          | cons d l =>
              cases rest with
              | nil => simpa using hc
              | cons b rest => simpa [dotted_cons_cons] using hc
    · intro c hc
      rw [dotted, List.getLast?_concat] at hc
      cases hc
      decide
  have hStable : ∀ c ∈ ['.'].intercalate labels, Str.CaseStable c := by
    intro c hc
    rcases Str.mem_intercalate hc with rfl | ⟨l, hl, hc⟩
    · decide
    · exact (h.label l hl).stable c hc
  obtain ⟨s, c, hText, _⟩ := intercalate_ends hNil h.parts
  simp only [canonicalName, hTrim, trimEndMatches_dotted hNil h.parts,
    Str.toLowercase_of_stable hStable]
  rw [if_neg (by simp [hText]), dotted]

/-- The text of a legible name is its own canonical form. -/
theorem canonicalName_nameText (h : Legible labels) :
    canonicalName (nameText labels) = nameText labels := by
  by_cases hNil : labels = []
  · subst hNil
    decide
  · simp only [nameText, List.isEmpty_iff, hNil, if_false]
    exact h.canonicalName_dotted hNil

end Legible

/-! ## Host names -/

/-- What the labels of host names are made of: lower-case letters, digits, hyphen and
underscore. -/
def hostChar (c : Char) : Bool := c.isLower || c.isDigit || c == '-' || c == '_'

/-- A name of host labels, of at most 255 octets on the wire. -/
def HostName (name : Str) : Prop :=
  ∃ labels : List Str, (∀ l ∈ labels, l ≠ [] ∧ l.length ≤ 63 ∧ ∀ c ∈ l, hostChar c) ∧
    (wireName labels).length ≤ 255 ∧ name = nameText labels

/-- The text of a name that is written and read back without a change. -/
def LegibleName (name : Str) : Prop := ∃ labels, Legible labels ∧ name = nameText labels

theorem hostChar_spec {c : Char} (h : hostChar c) :
    c.toNat < 0x80 ∧ c.toLower = c ∧ c ≠ '.' ∧ Unicode.whiteSpace c = false := by
  have hAscii : c.toNat < 0x80 := by
    simp only [hostChar, Bool.or_eq_true, beq_iff_eq] at h
    rcases h with ((hLower | hDigit) | rfl) | rfl
    · have hLe : c.toNat ≤ 'z'.toNat :=
        UInt32.le_iff_toNat_le.mp (of_decide_eq_true (Bool.and_eq_true_iff.mp hLower).2)
      exact Nat.lt_of_le_of_lt hLe (by decide)
    · have hLe : c.toNat ≤ '9'.toNat :=
        UInt32.le_iff_toNat_le.mp (of_decide_eq_true (Bool.and_eq_true_iff.mp hDigit).2)
      exact Nat.lt_of_le_of_lt hLe (by decide)
    · decide
    · decide
  have hc := Unicode.forall_ascii (P := fun c => hostChar c → c.toLower = c ∧ c ≠ '.' ∧
    Unicode.whiteSpace c = false) (by decide) hAscii
  exact ⟨hAscii, hc h⟩

/-- Host labels, by a check that can be evaluated. -/
theorem hostLabels_of_all {labels : List Str}
    (hLabels : labels.all fun l => !l.isEmpty && decide (l.length ≤ 63) && l.all hostChar) :
    ∀ l ∈ labels, l ≠ [] ∧ l.length ≤ 63 ∧ ∀ c ∈ l, hostChar c := by
  intro l hl
  have hLabel := List.all_eq_true.mp hLabels l hl
  simp only [Bool.and_eq_true, Bool.not_eq_true', List.isEmpty_eq_false_iff, decide_eq_true_eq,
    List.all_eq_true] at hLabel
  exact ⟨hLabel.1.1, hLabel.1.2, hLabel.2⟩

/-- A host name from its labels. -/
theorem hostName_nameText (labels : List Str)
    (hLabels : labels.all fun l => !l.isEmpty && decide (l.length ≤ 63) && l.all hostChar)
    (hLength : (wireName labels).length ≤ 255) : HostName (nameText labels) :=
  ⟨labels, hostLabels_of_all hLabels, hLength, rfl⟩

/-- Few enough host labels are a legible name. -/
theorem legible_of_host {labels : List Str}
    (hLabels : ∀ l ∈ labels, l ≠ [] ∧ l.length ≤ 63 ∧ ∀ c ∈ l, hostChar c)
    (hCount : labels.length ≤ 254) : Legible labels := by
  refine ⟨fun l hl => ?_, ?_, hCount⟩
  · obtain ⟨hNil, hShort, hChars⟩ := hLabels l hl
    refine ⟨hNil, fun hDot => (hostChar_spec (hChars _ hDot)).2.2.1 rfl, fun c hc => ?_, ?_⟩
    · obtain ⟨hAscii, hLower, _⟩ := hostChar_spec (hChars c hc)
      exact Str.caseStable_of_ascii hAscii hLower
    · rwa [Str.len_ascii fun c hc => (hostChar_spec (hChars c hc)).1]
  · rintro l rest c rfl hHead
    exact (hostChar_spec ((hLabels l List.mem_cons_self).2.2 c
      (List.mem_of_mem_head? hHead))).2.2.2

theorem HostName.legible {name : Str} (h : HostName name) : LegibleName name := by
  obtain ⟨labels, hLabels, hLength, rfl⟩ := h
  have hCount (ls : List Str) (hls : ∀ l ∈ ls, l ≠ []) :
      2 * ls.length ≤ (ls.flatMap labelBytes).length := by
    induction ls with
    | nil => simp
    | cons l rest ih =>
        have hRest := ih fun m hm => hls m (List.mem_cons_of_mem l hm)
        have hl := Str.len_pos (hls l List.mem_cons_self)
        simp only [List.length_cons, List.flatMap_cons, List.length_append, labelBytes_length]
        omega
  refine ⟨labels, legible_of_host hLabels ?_, rfl⟩
  have hWire := hCount labels fun l hl => (hLabels l hl).1
  simp only [wireName, List.length_append, List.length_singleton] at hLength
  omega

end Dnsd.Proto
