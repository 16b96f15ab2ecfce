import Dnsd.Base.LastWrite
import Dnsd.Resolve.Block
import Dnsd.Rust.AsciiCase

/-! Which names a block list has: the tests on texts are those on labels. -/

namespace Dnsd.Resolve

open Proto

/-! ## Names as they are typed -/

/-- Labels of printable characters, with any number of dots behind them. -/
structure TypedName where
  labels : List Str
  dots : Nat
  nonempty : labels ≠ []
  printable : ∀ l ∈ labels, l ≠ [] ∧ ∀ c ∈ l, 0x21 ≤ c.toNat ∧ c.toNat ≤ 0x7E ∧ c ≠ '.'

namespace TypedName

variable (h : TypedName)

/-- The name as it is typed: labels with dots between them, and any number of dots behind.
-/
def text : Str := ['.'].intercalate h.labels ++ List.replicate h.dots '.'

/-- The labels in lower case, by which names are the same. -/
def lower : List Str := h.labels.map (List.map Char.toLower)

theorem lower_ne_nil : h.lower ≠ [] := by
  simpa [lower] using h.nonempty

theorem lower_clean : ∀ l ∈ h.lower, l ≠ [] ∧ '.' ∉ l := by
  intro l hl
  obtain ⟨raw, hRaw, rfl⟩ := List.mem_map.mp hl
  refine ⟨by simpa using (h.printable raw hRaw).1, fun hDot => ?_⟩
  obtain ⟨c, hc, hLower⟩ := List.mem_map.mp hDot
  exact ((h.printable raw hRaw).2 c hc).2.2 (Char.toLower_eq_dot.mp hLower)

theorem mem_joined {c : Char} (hc : c ∈ ['.'].intercalate h.labels) :
    c = '.' ∨ 0x21 ≤ c.toNat ∧ c.toNat ≤ 0x7E ∧ c ≠ '.' := by
  rcases Str.mem_intercalate hc with hDot | ⟨l, hl, hc⟩
  · exact Or.inl hDot
  · exact Or.inr ((h.printable l hl).2 c hc)

theorem text_not_space {c : Char} (hc : c ∈ h.text) : Unicode.whiteSpace c = false := by
  have hPrintable : ∀ n : Fin 128, 0x21 ≤ (Char.ofNat n.val).toNat ∧ (Char.ofNat n.val).toNat ≤ 0x7E →
      Unicode.whiteSpace (Char.ofNat n.val) = false := by
    decide
  rcases List.mem_append.mp hc with hc | hc
  · rcases h.mem_joined hc with rfl | ⟨hFirst, hLast, -⟩
    · decide
    · exact Unicode.forall_ascii (P := fun c => 0x21 ≤ c.toNat ∧ c.toNat ≤ 0x7E →
        Unicode.whiteSpace c = false) hPrintable (by omega) ⟨hFirst, hLast⟩
  · rw [List.eq_of_mem_replicate hc]
    decide

/-- A typed name has no blanks around it. -/
theorem trim_text : h.text.trim = h.text :=
  Str.trim_of_ends (fun _ hc => h.text_not_space (List.mem_of_mem_head? hc))
    fun _ hc => h.text_not_space (List.mem_of_getLast? hc)

theorem trimEndMatches_text : h.text.trimEndMatches '.' = ['.'].intercalate h.labels := by
  have hDots (n : Nat) : Str.trimEndMatches (['.'].intercalate h.labels ++ List.replicate n '.') '.' =
      ['.'].intercalate h.labels := by
    induction n with
    | zero =>
        obtain ⟨s, c, hText, hc⟩ := intercalate_ends h.nonempty fun l hl =>
          ⟨(h.printable l hl).1, fun hDot => ((h.printable l hl).2 '.' hDot).2.2 rfl⟩
        rw [List.replicate_zero, List.append_nil, hText, Str.trimEndMatches_append_of_ne _ hc]
    | succ n ih => rw [List.replicate_succ', ← List.append_assoc, Str.trimEndMatches_append_self, ih]
  exact hDots h.dots

/-- Its lower case is that of its labels. -/
theorem toLowercase_joined :
    Str.toLowercase (['.'].intercalate h.labels) = ['.'].intercalate h.lower := by
  have hCased : Str.AsciiCased (['.'].intercalate h.labels) := fun c hc => by
    left
    rcases h.mem_joined hc with rfl | ⟨-, hLast, -⟩
    · decide
    · omega
  rw [Str.toLowercase_of_asciiCased hCased, lower, Str.map_intercalate]
  rfl

/-- Case and trailing dots are all that is lost of a name. -/
theorem canonicalName_text : canonicalName h.text = dotted h.lower := by
  rw [canonicalName, h.trim_text, h.trimEndMatches_text, h.toLowercase_joined, if_neg]
  · rfl
  · obtain ⟨s, c, hText, -⟩ := intercalate_ends h.lower_ne_nil h.lower_clean
    simp [hText]

/-- The key of a typed name is its labels in lower case, without the last dot. -/
theorem key_text : (canonicalName h.text).trimEndMatches '.' = ['.'].intercalate h.lower := by
  rw [h.canonicalName_text, trimEndMatches_dotted h.lower_ne_nil h.lower_clean]

end TypedName

/-! ## Rows of the list -/

namespace BlockedDomain

variable (e : BlockedDomain)

/-- The domain as it is compared: in lower case, and without dots at its end. -/
def key : Str := (canonicalName e.domain).trimEndMatches '.'

/-- The suffix of a row such as `*.example.com`. -/
def suffix? : Option Str :=
  match e.key with
  | '*' :: '.' :: rest => some ('.' :: rest)
  | _ => none

/-- A row has a suffix exactly if its key starts with a star and a dot. -/
theorem suffix?_eq_some_iff {s : Str} : e.suffix? = some s ↔ ∃ rest, e.key = '*' :: '.' :: rest ∧
    s = '.' :: rest := by
  rw [suffix?]
  constructor
  · intro h
    split at h
    · rename_i rest hKey
      exact ⟨rest, hKey, (Option.some.inj h).symm⟩
    · cases h
  · rintro ⟨rest, hKey, rfl⟩
    rw [hKey]
    rfl

end BlockedDomain

namespace BlockList

/-- A row with a suffix is put behind the wildcards. -/
theorem insert_suffix (list : BlockList) {e : BlockedDomain} {s : Str} (h : e.suffix? = some s) :
    list.insert e = { list with wildcard := list.wildcard ++ [(s, e.mode)] } := by
  obtain ⟨rest, hKey, rfl⟩ := e.suffix?_eq_some_iff.mp h
  rw [BlockedDomain.key] at hKey
  rw [insert, hKey]
  rfl

/-- Another row replaces the one of its name. -/
theorem insert_exact (list : BlockList) {e : BlockedDomain} (h : e.suffix? = none) :
    list.insert e = { list with exact := list.exact.insert e.key e.mode } := by
  have hPlain (rest : Str) : e.key ≠ '*' :: '.' :: rest := by
    intro hKey
    rw [e.suffix?_eq_some_iff.mpr ⟨rest, hKey, rfl⟩] at h
    cases h
  rw [insert]
  split
  · rename_i rest hKey
    exact absurd hKey (hPlain rest)
  · rfl

/-- The rows that are kept as suffixes, in their order. -/
def wildcards (entries : List BlockedDomain) : List (Str × BlockMode) :=
  entries.filterMap fun e => e.suffix?.map fun s => (s, e.mode)

/-- The rows that are kept as names, in their order. -/
def exacts (entries : List BlockedDomain) : List (Str × BlockMode) :=
  (entries.filter fun e => e.suffix?.isNone).map fun e => (e.key, e.mode)

theorem new_wildcard (entries : List BlockedDomain) : (new entries).wildcard = wildcards entries := by
  rw [new]
  induction entries using List.reverseRecOn with
  | nil => rfl
  | append_singleton entries e ih =>
      rw [List.foldl_append, List.foldl_cons, List.foldl_nil, wildcards, List.filterMap_append]
      rw [wildcards] at ih
      cases hSuffix : e.suffix? with
      | some s => rw [insert_suffix _ hSuffix, ih]; simp [hSuffix]
      | none => rw [insert_exact _ hSuffix, ih]; simp [hSuffix]

/-- Of two rows for one name the later one counts. -/
theorem new_exact (entries : List BlockedDomain) (n : Str) :
    (new entries).exact.get n = LastWrite.lastWrite (exacts entries) n := by
  rw [new]
  induction entries using List.reverseRecOn with
  | nil => rfl
  | append_singleton entries e ih =>
      rw [List.foldl_append, List.foldl_cons, List.foldl_nil, exacts, List.filter_append,
        List.map_append]
      rw [exacts] at ih
      cases hSuffix : e.suffix? with
      | some s => rw [insert_suffix _ hSuffix]; simp [hSuffix, ih]
      | none =>
          rw [insert_exact _ hSuffix, List.filter_singleton]
          simp only [hSuffix, Option.isNone_none, cond_true, List.map_cons, List.map_nil]
          rw [HashMap.get_insert, LastWrite.lastWrite_concat, ih]
          simp only [eq_comm]

/-- A name as `modeFor` compares it: in lower case, and without dots at its end. -/
def queryKey (qname : Str) : Str := (canonicalName qname).trimEndMatches '.'

/-- The name is longer than the suffix and ends in it. -/
def EndsIn (n s : Str) : Prop := s <:+ n ∧ s.len < n.len

instance (n s : Str) : Decidable (EndsIn n s) := inferInstanceAs (Decidable (_ ∧ _))

/-- The list looks for the last row of the name, and then for the first wildcard that it
ends in. -/
theorem modeFor_new (entries : List BlockedDomain) (qname : Str) :
    (new entries).modeFor qname = (LastWrite.lastWrite (exacts entries) (queryKey qname)).or
      (((wildcards entries).find? fun p => EndsIn (queryKey qname) p.1).map Prod.snd) := by
  rw [modeFor, new_exact, new_wildcard, queryKey]
  cases LastWrite.lastWrite (exacts entries) _ with
  | some mode => rfl
  | none => rfl

/-- The exact names are those of the rows without a star. -/
theorem mem_exacts {entries : List BlockedDomain} {n : Str} {mode : BlockMode} :
    (n, mode) ∈ exacts entries ↔ ∃ e ∈ entries, e.suffix? = none ∧ e.key = n ∧ e.mode = mode := by
  simp only [exacts, List.mem_map, List.mem_filter, Option.isNone_iff_eq_none, Prod.mk.injEq,
    and_assoc]

/-- The wildcards are those of the rows with one. -/
theorem mem_wildcards {entries : List BlockedDomain} {s : Str} {mode : BlockMode} :
    (s, mode) ∈ wildcards entries ↔ ∃ e ∈ entries, e.suffix? = some s ∧ e.mode = mode := by
  simp only [wildcards, List.mem_filterMap, Option.map_eq_some_iff, Prod.mk.injEq]
  constructor
  · rintro ⟨e, he, s', hSuffix, rfl, hMode⟩
    exact ⟨e, he, hSuffix, hMode⟩
  · rintro ⟨e, he, hSuffix, hMode⟩
    exact ⟨e, he, s, hSuffix, rfl, hMode⟩

end BlockList

/-! ## Texts and labels -/

/-- A row as it is typed: a name, or `*.` and a name for all names below it. -/
structure Pattern where
  host : TypedName
  named : host.labels.head? ≠ some ['*']
  wild : Bool
  mode : BlockMode

namespace Pattern

variable (p : Pattern)

/-- The text of the row, which begins with a star and a dot if it is for the names below.
-/
def domain : Str := if p.wild then '*' :: '.' :: p.host.text else p.host.text

/-- The row that is stored for the pattern. -/
def entry : BlockedDomain := ⟨p.domain, p.mode⟩

/-- The row is for this very name, and not for those below it. -/
def Names (q : TypedName) : Prop := p.wild = false ∧ p.host.lower = q.lower

/-- The row is for the names below its host, and this is one of them. -/
def Covers (q : TypedName) : Prop :=
  p.wild = true ∧ ∃ front, front ≠ [] ∧ front ++ p.host.lower = q.lower

theorem entry_key (h : p.wild = false) : p.entry.key = ['.'].intercalate p.host.lower := by
  rw [BlockedDomain.key, entry, domain, if_neg (by simp [h]), p.host.key_text]

theorem entry_exact (h : p.wild = false) : p.entry.suffix? = none := by
  rw [Option.eq_none_iff_forall_ne_some]
  intro s hSuffix
  obtain ⟨rest, hKey, -⟩ := p.entry.suffix?_eq_some_iff.mp hSuffix
  rw [p.entry_key h] at hKey
  have hSplit := congrArg (List.splitOn '.') hKey
  rw [List.splitOn_intercalate '.' (fun l hl => (p.host.lower_clean l hl).2) p.host.lower_ne_nil,
    ← List.singleton_append, List.splitOn_append_cons_self] at hSplit
  obtain ⟨first, others, hLabels⟩ := List.exists_cons_of_ne_nil p.host.nonempty
  rw [TypedName.lower, hLabels, List.map_cons] at hSplit
  obtain ⟨c, rfl, hStar⟩ := List.map_eq_singleton_iff.mp (List.cons.inj hSplit).1
  have hc := (p.host.printable [c] (hLabels ▸ List.mem_cons_self)).2 c List.mem_cons_self
  have hAll : ∀ n : Fin 128, (Char.ofNat n.val).toLower = '*' → Char.ofNat n.val = '*' := by decide
  have hSame := Unicode.forall_ascii (P := fun c => c.toLower = '*' → c = '*') hAll
    (Nat.lt_of_le_of_lt hc.2.1 (by decide)) hStar
  exact p.named (by rw [hLabels, hSame]; rfl)

theorem entry_suffix (h : p.wild = true) :
    p.entry.suffix? = some ('.' :: ['.'].intercalate p.host.lower) := by
  -- the star is a label like the others
  let starred : TypedName := ⟨['*'] :: p.host.labels, p.host.dots, List.cons_ne_nil _ _, by
    refine List.forall_mem_cons.mpr ⟨⟨List.cons_ne_nil _ _, fun c hc => ?_⟩, p.host.printable⟩
    rw [List.mem_singleton.mp hc]
    decide⟩
  have hText : p.entry.domain = starred.text := by
    rw [entry, domain, if_pos h, TypedName.text, TypedName.text,
      List.intercalate_cons_of_ne_nil p.host.nonempty]
    rfl
  have hLower : starred.lower = ['*'] :: p.host.lower := rfl
  refine p.entry.suffix?_eq_some_iff.mpr ⟨_, ?_, rfl⟩
  rw [BlockedDomain.key, hText, starred.key_text, hLower,
    List.intercalate_cons_of_ne_nil p.host.lower_ne_nil]
  rfl

end Pattern

/-- What a name ends in as a text it ends in as labels. -/
theorem endsIn_iff (q h : TypedName) :
    BlockList.EndsIn (['.'].intercalate q.lower) ('.' :: ['.'].intercalate h.lower) ↔
      ∃ front, front ≠ [] ∧ front ++ h.lower = q.lower := by
  constructor
  · rintro ⟨⟨text, hText⟩, -⟩
    have hSplit := congrArg (List.splitOn '.') hText
    rw [List.splitOn_append_cons_self,
      List.splitOn_intercalate '.' (fun l hl => (h.lower_clean l hl).2) h.lower_ne_nil,
      List.splitOn_intercalate '.' (fun l hl => (q.lower_clean l hl).2) q.lower_ne_nil] at hSplit
    exact ⟨text.splitOn '.', List.splitOn_ne_nil '.' text, hSplit⟩
  · rintro ⟨front, hFront, hLabels⟩
    have hText : ['.'].intercalate front ++ '.' :: ['.'].intercalate h.lower =
        ['.'].intercalate q.lower := by
      rw [← hLabels, Str.intercalate_append hFront h.lower_ne_nil, List.append_assoc]
      rfl
    obtain ⟨s, c, hEnds, -⟩ := intercalate_ends hFront fun l hl =>
      q.lower_clean l (hLabels ▸ List.mem_append_left _ hl)
    refine ⟨⟨_, hText⟩, ?_⟩
    have hPositive := Str.length_le_len (['.'].intercalate front)
    rw [hEnds, List.length_append, List.length_singleton] at hPositive
    rw [← hText, Str.len_append, hEnds]
    omega

namespace BlockList

variable {ps : List Pattern} {q : TypedName}

/-- A mode that is found for the name is that of a pattern for it. -/
theorem lastWrite_patterns {mode : BlockMode}
    (h : LastWrite.lastWrite (exacts (ps.map Pattern.entry)) (queryKey q.text) = some mode) :
    ∃ p ∈ ps, p.Names q ∧ p.mode = mode := by
  obtain ⟨e, he, hSuffix, hKey, hMode⟩ := mem_exacts.mp (LastWrite.mem_of_lastWrite h)
  obtain ⟨p, hp, rfl⟩ := List.mem_map.mp he
  have hWild : p.wild = false := by
    by_contra hWild
    rw [p.entry_suffix (by simpa using hWild)] at hSuffix
    cases hSuffix
  rw [p.entry_key hWild, queryKey, q.key_text] at hKey
  refine ⟨p, hp, ⟨hWild, ?_⟩, hMode⟩
  exact Str.intercalate_inj (fun l hl => (p.host.lower_clean l hl).2)
    (fun l hl => (q.lower_clean l hl).2) p.host.lower_ne_nil q.lower_ne_nil hKey

/-- A pattern for a name is found under it. -/
theorem lastWrite_of_names {p : Pattern} (hp : p ∈ ps) (h : p.Names q) :
    ∃ mode, LastWrite.lastWrite (exacts (ps.map Pattern.entry)) (queryKey q.text) = some mode := by
  rw [← Option.ne_none_iff_exists']
  intro hNone
  have hMem : (queryKey q.text, p.mode) ∈ exacts (ps.map Pattern.entry) := by
    refine mem_exacts.mpr ⟨p.entry, List.mem_map_of_mem hp, p.entry_exact h.1, ?_, rfl⟩
    rw [p.entry_key h.1, h.2, queryKey, q.key_text]
  exact LastWrite.lastWrite_eq_none_iff.mp hNone _ hMem rfl

/-- The list has the names of its rows and those below its starred rows, and the mode
of a name that has a row is that of such a row. -/
theorem modeFor_patterns (ps : List Pattern) (q : TypedName) :
    (((new (ps.map Pattern.entry)).modeFor q.text).isSome ↔ ∃ p ∈ ps, p.Names q ∨ p.Covers q) ∧
      ((∃ p ∈ ps, p.Names q) →
        ∃ p ∈ ps, p.Names q ∧ (new (ps.map Pattern.entry)).modeFor q.text = some p.mode) := by
  rw [modeFor_new]
  refine ⟨?_, fun ⟨p, hp, hNames⟩ => ?_⟩
  · rw [Option.isSome_or, Option.isSome_map, Bool.or_eq_true]
    constructor
    · rintro (hExact | hWild)
      · obtain ⟨mode, hMode⟩ := Option.isSome_iff_exists.mp hExact
        obtain ⟨p, hp, hNames, -⟩ := lastWrite_patterns hMode
        exact ⟨p, hp, Or.inl hNames⟩
      · obtain ⟨⟨s, mode⟩, hMem, hEnds⟩ := List.find?_isSome.mp hWild
        obtain ⟨e, he, hSuffix, -⟩ := mem_wildcards.mp hMem
        obtain ⟨p, hp, rfl⟩ := List.mem_map.mp he
        have hStarred : p.wild = true := by
          by_contra hNot
          rw [p.entry_exact (by simpa using hNot)] at hSuffix
          cases hSuffix
        rw [p.entry_suffix hStarred] at hSuffix
        cases hSuffix
        rw [decide_eq_true_eq, queryKey, q.key_text, endsIn_iff] at hEnds
        exact ⟨p, hp, Or.inr ⟨hStarred, hEnds⟩⟩
    · rintro ⟨p, hp, hNames | hCovers⟩
      · obtain ⟨mode, hMode⟩ := lastWrite_of_names hp hNames
        exact Or.inl (by rw [hMode]; rfl)
      · right
        refine List.find?_isSome.mpr ⟨⟨_, p.mode⟩, mem_wildcards.mpr ⟨p.entry,
          List.mem_map_of_mem hp, p.entry_suffix hCovers.1, rfl⟩, ?_⟩
        rw [decide_eq_true_eq, queryKey, q.key_text, endsIn_iff]
        exact hCovers.2
  · obtain ⟨mode, hMode⟩ := lastWrite_of_names hp hNames
    obtain ⟨p', hp', hNames', rfl⟩ := lastWrite_patterns hMode
    exact ⟨p', hp', hNames', by rw [hMode]; rfl⟩

/-- A name of which each label is tested. -/
def typedName (labels : List Str) (dots : Nat) (hNonempty : labels ≠ [])
    (h : (labels.all fun l => decide (l ≠ []) && l.all fun c =>
      decide (0x21 ≤ c.toNat ∧ c.toNat ≤ 0x7E ∧ c ≠ '.')) = true) : TypedName :=
  ⟨labels, dots, hNonempty, by simpa only [List.all_eq_true, Bool.and_eq_true, decide_eq_true_eq] using h⟩

/-- A name as somebody has typed it, and all names below the one that it ends in. -/
def typedPatterns : List Pattern :=
  [⟨typedName ["Ads".toList, "lab".toList, "example".toList] 1 (by decide) rfl, by decide, false, .loopback⟩,
    ⟨typedName ["LAB".toList, "example".toList] 0 (by decide) rfl, by decide, true, .random⟩]

-- the row of the very name goes before the starred one, which its own host is not below
example : let list := new (typedPatterns.map Pattern.entry)
    list.modeFor "ads.LAB.example".toList = some .loopback ∧
      list.modeFor "b.ads.lab.example.".toList = some .random ∧
      list.modeFor "lab.example".toList = none := by
  decide +kernel

end BlockList

end Dnsd.Resolve
