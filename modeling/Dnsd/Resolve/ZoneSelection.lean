import Dnsd.Base.Longest
import Dnsd.Resolve.Custom
import Dnsd.Resolve.Provenance

/-! Which zone answers for a name: the index compares texts, the ancestry of names
is one of labels. -/

namespace Dnsd.Resolve

open Proto

/-! ## Texts and labels -/

/-- The canonical form is the text of the labels. -/
theorem canonicalName_labelsOf (name : Str) : canonicalName name = nameText (labelsOf name) := by
  rcases canonicalName_form name with hRoot | ⟨lower, hNonempty, hTrim, hName⟩
  · rw [labelsOf, hRoot]
    rfl
  · have hText : Str.trimEndMatches (canonicalName name) '.' ≠ [] := by
      rwa [hName, Str.trimEndMatches_append_self, hTrim]
    rw [labelsOf, if_neg hText, nameText_splitOn (by simpa [hName] using hNonempty)]

/-- Whole labels that are at the end of a name are at the end of its text. -/
theorem InZone.suffix {name zone : Str} (h : InZone name zone) :
    canonicalName zone <:+ canonicalName name := by
  obtain ⟨front, hLabels⟩ := h
  rw [canonicalName_labelsOf, canonicalName_labelsOf name, ← hLabels]
  by_cases hZone : labelsOf zone = []
  · rw [hZone, List.append_nil, nameText, if_pos List.isEmpty_nil, nameText]
    split_ifs
    · exact List.suffix_rfl
    · exact List.suffix_append _ _
  · by_cases hFront : front = []
    · simp only [hFront, List.nil_append, List.suffix_rfl]
    · rw [nameText, nameText, if_neg (by simpa using hZone), if_neg (by simp [hZone]), dotted, dotted,
        Str.intercalate_append hFront hZone, List.append_assoc]
      exact List.suffix_append _ _

instance (name zone : Str) : Decidable (InZone name zone) :=
  inferInstanceAs (Decidable (_ <:+ _))

/-- Two ends of a text of the same length are the same. -/
theorem suffix_eq_of_len {s t text : Str} (hs : s <:+ text) (ht : t <:+ text)
    (hLen : s.len = t.len) : s = t := by
  have hPart {u v : Str} (hSuffix : u <:+ v) (h : u.len = v.len) : u = v := by
    obtain ⟨front, rfl⟩ := hSuffix
    rw [Str.len_append] at h
    have hFront : front = [] := by
      rw [← Str.bytes_eq_nil, ← List.length_eq_zero_iff]
      change Str.len front = 0
      omega
    rw [hFront, List.nil_append]
  rcases List.suffix_or_suffix_of_suffix hs ht with h | h
  · exact hPart h hLen
  · exact (hPart h hLen.symm).symm

/-- The zone is the name or an ancestor of it, and no other such one is longer. -/
structure Closest (zones : List Zone) (qname : Str) (z : Zone) : Prop where
  mem : z ∈ zones
  inZone : InZone qname z.name
  longest : ∀ z' ∈ zones, InZone qname z'.name →
    (canonicalName z'.name).len ≤ (canonicalName z.name).len

theorem exists_closest {zones : List Zone} {qname : Str}
    (h : ∃ z ∈ zones, InZone qname z.name) : ∃ z, Closest zones qname z := by
  obtain ⟨z, hz, hZone⟩ := h
  cases hScan : zones.foldl (Longest.keep (fun z => InZone qname z.name) id
      fun z => (canonicalName z.name).len) none with
  | none => exact absurd hZone (Longest.eq_none_iff.mp hScan z hz)
  | some best =>
      obtain ⟨⟨_, hBest, hIn, rfl⟩, hLargest⟩ := Longest.found_of_eq_some hScan
      exact ⟨_, hBest, hIn, hLargest⟩

namespace ZoneIndex

/-- The name is that of a zone that some record belongs to. -/
def Filled (zones : List Zone) (records : List ZoneRecord) (key : Str) : Prop :=
  ∃ z ∈ zones, canonicalName z.name = key ∧ ∃ r ∈ records, r.zoneId = z.id

theorem names_get {zones : List Zone} (hIds : (zones.map Zone.id).Nodup) (id name : Str) :
    (zones.foldl (fun names z => names.insert z.id z.name) (∅ : HashMap Str Str)).get id =
      some name ↔ ∃ z ∈ zones, z.id = id ∧ z.name = name := by
  induction zones using List.reverseRecOn with
  | nil => simp
  | append_singleton zones z ih =>
      rw [List.map_append, List.nodup_append] at hIds
      obtain ⟨hOld, -, hNew⟩ := hIds
      have hFresh : ∀ y ∈ zones, y.id ≠ z.id := fun y hy =>
        hNew y.id (List.mem_map_of_mem hy) z.id (by simp)
      rw [List.foldl_append, List.foldl_cons, List.foldl_nil, HashMap.get_insert]
      split_ifs with hId
      · constructor
        · intro h
          exact ⟨z, by simp, hId.symm, Option.some.inj h⟩
        · rintro ⟨y, hy, hIdY, rfl⟩
          rcases List.mem_append.mp hy with hy | hy
          · exact absurd (hIdY.trans hId) (hFresh y hy)
          · rw [List.mem_singleton.mp hy]
      · rw [ih hOld]
        constructor
        · rintro ⟨y, hy, h⟩
          exact ⟨y, by simp [hy], h⟩
        · rintro ⟨y, hy, hIdY, hName⟩
          rcases List.mem_append.mp hy with hy | hy
          · exact ⟨y, hy, hIdY, hName⟩
          · rw [List.mem_singleton.mp hy] at hIdY
            exact absurd hIdY.symm hId

/-- The index has the zones that have records. -/
theorem new_get_isSome {zones : List Zone} (hIds : (zones.map Zone.id).Nodup)
    (records : List ZoneRecord) (key : Str) :
    ((new zones records).zones.get key).isSome ↔ Filled zones records key := by
  rw [new]
  induction records using List.reverseRecOn with
  | nil => simp [Filled, empty]
  | append_singleton records r ih =>
      have hSplit : Filled zones (records ++ [r]) key ↔ Filled zones records key ∨
          ∃ z ∈ zones, canonicalName z.name = key ∧ r.zoneId = z.id := by
        simp only [Filled, List.mem_append, List.mem_singleton, or_and_right, exists_or,
          exists_eq_left, and_or_left]
      rw [List.foldl_append, List.foldl_cons, List.foldl_nil, hSplit, ← ih, insert]
      cases hName : HashMap.get _ r.zoneId with
      | none =>
          constructor
          · exact Or.inl
          · rintro (h | ⟨z, hz, -, hId⟩)
            · exact h
            · have hSome := (names_get hIds r.zoneId z.name).mpr ⟨z, hz, hId.symm, rfl⟩
              rw [hName] at hSome
              cases hSome
      | some name =>
          obtain ⟨z, hz, hId, rfl⟩ := (names_get hIds _ _).mp hName
          dsimp only
          rw [HashMap.get_insert]
          split_ifs with hKey
          · simp only [Option.isSome_some, true_iff]
            exact Or.inr ⟨z, hz, hKey.symm, hId.symm⟩
          · constructor
            · exact Or.inl
            · rintro (h | ⟨y, hy, hNameY, hIdY⟩)
              · exact h
              · have hSame := (names_get hIds r.zoneId y.name).mpr ⟨y, hy, hIdY.symm, rfl⟩
                rw [hName] at hSame
                exact absurd (Option.some.inj hSame ▸ hNameY.symm) hKey

/-- The zone that is used is one of the index, and none of those that the text of
the name ends in is longer. -/
theorem findZone_scan (index : ZoneIndex) (qname : Str) :
    index.findZone qname = index.zones.entries.foldl
      (Longest.keep (fun e => canonicalName qname = e.1 ∨ e.1 <:+ canonicalName qname)
        (fun e => (e.1, e.2)) fun b : Str × List ZoneRecord => b.1.len) none := rfl

theorem get_isSome_iff {index : ZoneIndex} {key : Str} :
    (index.zones.get key).isSome ↔ ∃ e ∈ index.zones.entries, e.1 = key := by
  rw [Option.isSome_iff_exists]
  constructor
  · rintro ⟨recs, h⟩
    exact ⟨⟨key, recs⟩, HashMap.mem_entries_iff.mpr h, rfl⟩
  · rintro ⟨⟨_, recs⟩, he, rfl⟩
    exact ⟨recs, HashMap.mem_entries_iff.mp he⟩

theorem findZone_eq_some {index : ZoneIndex} {qname key : Str} {recs : List ZoneRecord}
    (h : index.findZone qname = some (key, recs)) :
    index.zones.get key = some recs ∧ key <:+ canonicalName qname ∧
      ∀ key', (index.zones.get key').isSome → key' <:+ canonicalName qname → key'.len ≤ key.len := by
  rw [findZone_scan] at h
  obtain ⟨⟨⟨zone, recs'⟩, he, hFits, hOut⟩, hLargest⟩ := Longest.found_of_eq_some h
  cases hOut
  refine ⟨HashMap.mem_entries_iff.mp he, ?_, fun key' hKey' hSuffix => ?_⟩
  · rcases hFits with hSame | hSuffix
    · exact hSame ▸ List.suffix_rfl
    · exact hSuffix
  · obtain ⟨e, he, rfl⟩ := get_isSome_iff.mp hKey'
    exact hLargest e he (Or.inr hSuffix)

theorem findZone_eq_none_iff {index : ZoneIndex} {qname : Str} :
    index.findZone qname = none ↔
      ∀ key, (index.zones.get key).isSome → ¬key <:+ canonicalName qname := by
  rw [findZone_scan, Longest.eq_none_iff]
  constructor
  · intro h key hKey hSuffix
    obtain ⟨e, he, rfl⟩ := get_isSome_iff.mp hKey
    exact h e he (Or.inr hSuffix)
  · intro h e he hFits
    refine h e.1 (get_isSome_iff.mpr ⟨e, he, rfl⟩) ?_
    rcases hFits with hSame | hSuffix
    · exact hSame ▸ List.suffix_rfl
    · exact hSuffix

variable {zones : List Zone} {records : List ZoneRecord} {q : Question}

theorem respond_isSome (index : ZoneIndex) (q : Question) :
    (index.respond q).isSome = (index.findZone q.name).isSome := by
  rw [respond, Option.isSome_map]

/-- The zone that names are to be in or not. -/
def labZone : Zone := ⟨"1".toList, "lab.example".toList⟩

/-- An address of the zone. -/
def labRecord : ZoneRecord := ⟨"1".toList, "@".toList, "A", "192.0.2.1".toList, 60, 0⟩

/-- A question for the addresses of a name. -/
def askA (name : String) : Question := ⟨name.toList, typeA, classIn⟩

/-- A name is made of labels that are not empty and have no dot in them. -/
def OfLabels (name : Str) : Prop :=
  ∃ labels : List Str, labels ≠ [] ∧ (∀ l ∈ labels, l ≠ [] ∧ '.' ∉ l) ∧
    (name = ['.'].intercalate labels ∨ name = dotted labels)

end ZoneIndex

end Dnsd.Resolve
