import Dnsd.Base.Longest
import Dnsd.Proto.Spelling
import Dnsd.Resolve.BlockMatching
import Mathlib.Algebra.Order.BigOperators.Group.List

/-! Whether the mode of a name hangs on the order of the rows: the later of two rows
for one name and the first of the suffixes win, whatever their length. -/

namespace Dnsd.Resolve

open Proto

namespace BlockList

/-- No order of the rows changes the mode of a name. -/
def OrderFree (entries : List BlockedDomain) : Prop :=
  ∀ other, entries.Perm other → ∀ qname, (new other).modeFor qname = (new entries).modeFor qname

/-- Rows for one name have one mode, and so have suffixes that end in each other. -/
structure Agree (entries : List BlockedDomain) : Prop where
  exact : ∀ a ∈ entries, ∀ b ∈ entries, a.suffix? = none → b.suffix? = none → a.key = b.key →
    a.mode = b.mode
  wild : ∀ a ∈ entries, ∀ b ∈ entries, ∀ s t, a.suffix? = some s → b.suffix? = some t →
    s <:+ t → a.mode = b.mode

/-- A row for this name has the mode. -/
def ExactMode (entries : List BlockedDomain) (n : Str) (mode : BlockMode) : Prop :=
  ∃ e ∈ entries, e.suffix? = none ∧ e.key = n ∧ e.mode = mode

/-- A row whose suffix the name ends in has the mode. -/
def WildMode (entries : List BlockedDomain) (n : Str) (mode : BlockMode) : Prop :=
  ∃ e ∈ entries, ∃ s, e.suffix? = some s ∧ EndsIn n s ∧ e.mode = mode

variable {entries other : List BlockedDomain} {n : Str}

theorem exact_picks (entries : List BlockedDomain) (n : Str) :
    Picks (LastWrite.lastWrite (exacts entries) n) (ExactMode entries n) := by
  constructor
  · exact fun mode hLast => mem_exacts.mp (LastWrite.mem_of_lastWrite hLast)
  · intro hNone mode hMode
    exact LastWrite.lastWrite_eq_none_iff.mp hNone _ (mem_exacts.mpr hMode) rfl

theorem wild_picks (entries : List BlockedDomain) (n : Str) :
    Picks (((wildcards entries).find? fun p => EndsIn n p.1).map Prod.snd) (WildMode entries n) := by
  constructor
  · intro mode hFirst
    obtain ⟨⟨s, mode'⟩, hFind, rfl⟩ := Option.map_eq_some_iff.mp hFirst
    obtain ⟨e, he, hSuffix, hMode⟩ := mem_wildcards.mp (List.mem_of_find?_eq_some hFind)
    have hEnds := List.find?_some hFind
    exact ⟨e, he, s, hSuffix, of_decide_eq_true hEnds, hMode⟩
  · rintro hNone mode ⟨e, he, s, hSuffix, hEnds, hMode⟩
    rw [Option.map_eq_none_iff, List.find?_eq_none] at hNone
    exact hNone _ (mem_wildcards.mpr ⟨e, he, hSuffix, hMode⟩) (decide_eq_true hEnds)

theorem exactMode_perm (h : entries.Perm other) : ExactMode other n = ExactMode entries n := by
  funext mode
  simp only [ExactMode, h.mem_iff]

theorem wildMode_perm (h : entries.Perm other) : WildMode other n = WildMode entries n := by
  funext mode
  simp only [WildMode, h.mem_iff]

theorem Agree.orderFree (h : Agree entries) : OrderFree entries := by
  intro other hPerm qname
  have hExact : LastWrite.lastWrite (exacts other) (queryKey qname) =
      LastWrite.lastWrite (exacts entries) (queryKey qname) := by
    refine Picks.eq (exactMode_perm hPerm ▸ exact_picks other _) (exact_picks entries _) ?_
    rintro _ _ ⟨a, ha, hName, hKey, rfl⟩ ⟨b, hb, hName', hKey', rfl⟩
    exact h.exact a ha b hb hName hName' (hKey.trans hKey'.symm)
  have hWild : ((wildcards other).find? fun p => EndsIn (queryKey qname) p.1).map Prod.snd =
      ((wildcards entries).find? fun p => EndsIn (queryKey qname) p.1).map Prod.snd := by
    refine Picks.eq (wildMode_perm hPerm ▸ wild_picks other _) (wild_picks entries _) ?_
    rintro _ _ ⟨a, ha, s, hSuffix, hEnds, rfl⟩ ⟨b, hb, t, hSuffix', hEnds', rfl⟩
    -- of two ends of one name, one is an end of the other
    rcases List.suffix_or_suffix_of_suffix hEnds.1 hEnds'.1 with hShort | hShort
    · exact h.wild a ha b hb s t hSuffix hSuffix' hShort
    · exact (h.wild b hb a ha t s hSuffix' hSuffix hShort).symm
  rw [modeFor_new, modeFor_new, hExact, hWild]

/-! ## Orders that tell two rows apart -/

theorem exists_last {a : BlockedDomain} (ha : a ∈ entries) : ∃ rest, entries.Perm (rest ++ [a]) := by
  obtain ⟨before, after, rfl⟩ := List.append_of_mem ha
  exact ⟨before ++ after, List.perm_middle.trans (List.perm_append_singleton a _).symm⟩

theorem exists_first {a : BlockedDomain} (ha : a ∈ entries) : ∃ rest, entries.Perm (a :: rest) := by
  obtain ⟨before, after, rfl⟩ := List.append_of_mem ha
  exact ⟨before ++ after, List.perm_middle⟩

theorem modeFor_last (rest : List BlockedDomain) {a : BlockedDomain} (h : a.suffix? = none)
    {qname : Str} (hKey : a.key = queryKey qname) :
    (new (rest ++ [a])).modeFor qname = some a.mode := by
  have hExacts : exacts (rest ++ [a]) = exacts rest ++ [(a.key, a.mode)] := by
    simp [exacts, h]
  rw [modeFor_new, hExacts, LastWrite.lastWrite_concat, if_pos hKey, Option.some_or]

theorem modeFor_first (rest : List BlockedDomain) {a : BlockedDomain} {s : Str}
    (h : a.suffix? = some s) {qname : Str} (hEnds : EndsIn (queryKey qname) s)
    (hNone : LastWrite.lastWrite (exacts (a :: rest)) (queryKey qname) = none) :
    (new (a :: rest)).modeFor qname = some a.mode := by
  have hWildcards : wildcards (a :: rest) = (s, a.mode) :: wildcards rest := by
    simp [wildcards, h]
  have hFind : (wildcards (a :: rest)).find? (fun p => EndsIn (queryKey qname) p.1) =
      some (s, a.mode) := by
    rw [hWildcards]
    exact List.find?_cons_of_pos (decide_eq_true hEnds)
  rw [modeFor_new, hNone, Option.none_or, hFind, Option.map_some]

/-- What a row has as suffix ends in no dot and has no capital. -/
theorem suffix_clean {e : BlockedDomain} {s : Str} (h : e.suffix? = some s) :
    (∃ t c, s = t ++ [c] ∧ c ≠ '.') ∧ ∀ c ∈ s, Str.CaseStable c := by
  obtain ⟨rest, hKey, rfl⟩ := e.suffix?_eq_some_iff.mp h
  have hStable (c : Char) (hc : c ∈ e.key) : Str.CaseStable c :=
    caseStable_canonicalName ((List.rdropWhile_prefix _ _).subset hc)
  have hSuffix : '.' :: rest <:+ e.key := hKey ▸ List.suffix_cons _ _
  constructor
  · have hNil : e.key ≠ [] := by simp [hKey]
    have hLast : e.key.getLast hNil ≠ '.' := fun hDot =>
      List.rdropWhile_last_not (· == '.') (canonicalName e.domain) hNil (beq_iff_eq.mpr hDot)
    obtain ⟨t, c, hText⟩ := List.eq_nil_or_concat ('.' :: rest) |>.resolve_left (by simp)
    rw [List.concat_eq_append] at hText
    refine ⟨t, c, hText, fun hDot => hLast ?_⟩
    simp only [hKey, hText, ← List.cons_append, List.getLast_append_singleton, hDot]
  · exact fun c hc => hStable c (hSuffix.subset hc)

/-- Letters in front of a suffix make a name that is none of the rows. -/
theorem exists_below (entries : List BlockedDomain) {e : BlockedDomain} {s : Str}
    (h : e.suffix? = some s) : ∃ qname, EndsIn (queryKey qname) s ∧
      ∀ r ∈ entries, r.key ≠ queryKey qname := by
  obtain ⟨⟨t, c, rfl, hDot⟩, hStable⟩ := suffix_clean h
  let k := (entries.map fun r => r.key.length).sum + 1
  let name := List.replicate k 'a' ++ (t ++ [c])
  have hKey : queryKey (name ++ ['.']) = name := by
    have hTrim : Str.trim (name ++ ['.']) = name ++ ['.'] := by
      refine Str.trim_of_ends (fun d hd => ?_) fun d hd => ?_
      · simp only [name, k, List.replicate_succ, List.cons_append, List.head?_cons,
          Option.some.injEq] at hd
        rw [← hd]
        decide
      · rw [List.getLast?_concat] at hd
        cases hd
        decide
    have hDots : Str.trimEndMatches name '.' = name := by
      rw [show name = (List.replicate k 'a' ++ t) ++ [c] from (List.append_assoc _ _ _).symm]
      exact Str.trimEndMatches_append_of_ne _ hDot
    have hLower : Str.toLowercase name = name := by
      refine Str.toLowercase_of_stable fun d hd => ?_
      rcases List.mem_append.mp hd with hd | hd
      · rw [List.eq_of_mem_replicate hd]
        exact ⟨by decide, by decide⟩
      · exact hStable d hd
    rw [queryKey, canonicalName, hTrim, Str.trimEndMatches_append_self, hDots, hLower,
      if_neg (by simp [name]), Str.trimEndMatches_append_self, hDots]
  refine ⟨name ++ ['.'], ?_, fun r hr hSame => ?_⟩
  · rw [hKey]
    refine ⟨List.suffix_append _ _, ?_⟩
    have hLength := Str.length_le_len (List.replicate k 'a')
    rw [List.length_replicate] at hLength
    change Str.len (t ++ [c]) < Str.len (List.replicate k 'a' ++ (t ++ [c]))
    rw [Str.len_append (List.replicate k 'a')]
    omega
  · have hLength := congrArg List.length hSame
    have hMax : r.key.length ≤ (entries.map fun r => r.key.length).sum :=
      List.single_le_sum (fun _ _ => Nat.zero_le _) _ (List.mem_map.mpr ⟨r, hr, rfl⟩)
    rw [hKey, List.length_append, List.length_replicate] at hLength
    omega

/-- The mode of no name hangs on the order of the rows exactly if rows for one name
have one mode, and rows whose suffixes end in each other have. -/
theorem orderFree_iff (entries : List BlockedDomain) : OrderFree entries ↔ Agree entries := by
  refine ⟨fun hFree => ⟨?_, ?_⟩, Agree.orderFree⟩
  · intro a ha b hb hName hName' hKey
    obtain ⟨rest, hPerm⟩ := exists_last ha
    obtain ⟨rest', hPerm'⟩ := exists_last hb
    have hBoth := (hFree _ hPerm a.domain).trans (hFree _ hPerm' a.domain).symm
    rw [modeFor_last rest hName rfl, modeFor_last rest' hName' hKey.symm] at hBoth
    exact Option.some.inj hBoth
  · intro a ha b hb s t hSuffix hSuffix' hEnds
    obtain ⟨qname, hBelow, hOther⟩ := exists_below entries hSuffix'
    have hNone {order : List BlockedDomain} (hPerm : entries.Perm order) :
        LastWrite.lastWrite (exacts order) (queryKey qname) = none := by
      refine LastWrite.lastWrite_eq_none_iff.mpr fun p hp hSame => ?_
      obtain ⟨r, hr, -, hKey, -⟩ := mem_exacts.mp hp
      exact hOther r (hPerm.mem_iff.mpr hr) (hKey.trans hSame)
    have hShort : EndsIn (queryKey qname) s := by
      obtain ⟨front, rfl⟩ := hEnds
      refine ⟨(List.suffix_append front s).trans hBelow.1, ?_⟩
      have hLen := hBelow.2
      rw [Str.len_append] at hLen
      omega
    obtain ⟨rest, hPerm⟩ := exists_first ha
    obtain ⟨rest', hPerm'⟩ := exists_first hb
    have hBoth := (hFree _ hPerm qname).trans (hFree _ hPerm' qname).symm
    rw [modeFor_first rest hSuffix hShort (hNone hPerm),
      modeFor_first rest' hSuffix' hBelow (hNone hPerm')] at hBoth
    exact Option.some.inj hBoth

/-- A wildcard for all names under "com". -/
def broadRow : BlockedDomain := ⟨"*.com".toList, .random⟩

/-- A wildcard for some of them, with another mode. -/
def narrowRow : BlockedDomain := ⟨"*.a.com".toList, .loopback⟩

/-- Two stars at different depths with different modes: the mode of a name below both is
that of the row that came first. -/
theorem not_orderFree_overlap :
    ¬∀ entries : List BlockedDomain, (entries.map BlockedDomain.domain).Nodup → OrderFree entries := by
  intro h
  have hSame := h [broadRow, narrowRow] (by decide) [narrowRow, broadRow] (List.Perm.swap _ _ _)
    "x.a.com".toList
  exact absurd hSame (by decide +kernel)

end BlockList

end Dnsd.Resolve
