import Dnsd.Resolve.ZoneDenial

/-! When a zone answers from a wildcard. The wildcards come behind the records of the
name that have the type of the question, and no other record of the name keeps them
back. -/

namespace Dnsd.Resolve

open Proto

namespace ZoneIndex

/-- The name has more labels than the zone, and ends in those of the zone. -/
def Below (name zone : Str) : Prop := InZone name zone ∧ labelsOf zone ≠ labelsOf name

instance (name zone : Str) : Decidable (Below name zone) := inferInstanceAs (Decidable (_ ∧ _))

/-- An answer of the response is made from a record named `*` that is none of the name
itself. -/
def Synthesises (index : ZoneIndex) (zone : Str) (q : Question) (m : Message) : Prop :=
  ∃ z r, (z, r) ∈ (index.answering q).zip m.answers ∧ z.name = ['*'] ∧
    ownerName z zone ≠ canonicalName q.name

/-- What is answered from a wildcard is below the apex, and has no record of its own. -/
def WildcardLaw (index : ZoneIndex) (q : Question) : Prop :=
  ∀ zone recs m, index.findZone q.name = some (zone, recs) → index.respond q = some m →
    Synthesises index zone q m →
    Below q.name zone ∧ ∀ r ∈ recs, ownerName r zone ≠ canonicalName q.name

/-- A record of the name answers, or is an alias. -/
def OwnData (recs : List ZoneRecord) (zone : Str) (q : Question) : Prop :=
  ∃ r ∈ recs, ownerName r zone = canonicalName q.name ∧ (r.rtype = "CNAME" ∨ r.answers q.qtype)

/-- A wildcard of the zone has a value for the type of the question. -/
def WildcardData (recs : List ZoneRecord) (q : Question) : Prop :=
  ∃ r ∈ recs, r.name = ['*'] ∧ r.answers q.qtype

variable {index : ZoneIndex} {q : Question} {m : Message} {zone : Str} {recs : List ZoneRecord}

/-- The answers from records of the name are not from a wildcard. -/
theorem answering_owned (hZone : index.findZone q.name = some (zone, recs))
    (hOwn : OwnData recs zone q) {z : ZoneRecord} (hz : z ∈ index.answering q) :
    ownerName z zone = canonicalName q.name := by
  obtain ⟨r, hr, hOwner, hData⟩ := hOwn
  have hOwned : r ∈ recs.filter fun r => ownerName r zone = canonicalName q.name :=
    List.mem_filter.mpr ⟨hr, decide_eq_true hOwner⟩
  rw [answering, hZone] at hz
  dsimp only at hz
  split_ifs at hz with hTyped
  · exact of_decide_eq_true (List.mem_filter.mp (List.mem_filter.mp hz).1).2
  · rw [not_not, List.filter_eq_nil_iff] at hTyped
    have hAlias : r.rtype = "CNAME" := hData.resolve_right (hTyped r hOwned)
    split at hz
    · rename_i first hFind
      rw [List.mem_singleton.mp hz]
      exact of_decide_eq_true (List.mem_filter.mp (List.mem_of_find?_eq_some hFind)).2
    · rename_i hFind
      exact absurd (decide_eq_true hAlias) (List.find?_eq_none.mp hFind r hOwned)

/-- Without data of its own, a name is answered from the wildcards. -/
theorem answering_wildcards (hZone : index.findZone q.name = some (zone, recs))
    (hOwn : ¬OwnData recs zone q) :
    index.answering q = recs.filter fun r => r.name = ['*'] ∧ r.answers q.qtype := by
  have hOwned {r : ZoneRecord} (h : r ∈ recs.filter fun r => ownerName r zone = canonicalName q.name) :
      r.rtype ≠ "CNAME" ∧ ¬r.answers q.qtype := by
    obtain ⟨hr, hOwner⟩ := List.mem_filter.mp h
    constructor
    · exact fun hAlias => hOwn ⟨r, hr, of_decide_eq_true hOwner, Or.inl hAlias⟩
    · exact fun hAnswers => hOwn ⟨r, hr, of_decide_eq_true hOwner, Or.inr hAnswers⟩
  have hTyped : (recs.filter fun r => ownerName r zone = canonicalName q.name).filter
      (ZoneRecord.answers q.qtype) = [] := by
    rw [List.filter_eq_nil_iff]
    exact fun r hr => (hOwned hr).2
  have hAlias : (recs.filter fun r => ownerName r zone = canonicalName q.name).find?
      (fun r => r.rtype = "CNAME") = none := by
    rw [List.find?_eq_none]
    exact fun r hr => by simpa using (hOwned hr).1
  rw [answering, hZone]
  dsimp only
  rw [if_neg (not_not.mpr hTyped), hAlias]

theorem synthesises_iff (hZone : index.findZone q.name = some (zone, recs))
    (hRespond : index.respond q = some m) :
    Synthesises index zone q m ↔ ¬OwnData recs zone q ∧ WildcardData recs q := by
  obtain ⟨answers, rcode, rfl, hGives⟩ := respond_gives hRespond
  constructor
  · rintro ⟨z, r, hMem, hStar, hOther⟩
    have hz := (List.of_mem_zip hMem).1
    have hOwn : ¬OwnData recs zone q := fun hOwn => hOther (answering_owned hZone hOwn hz)
    rw [answering_wildcards hZone hOwn] at hz
    obtain ⟨hRec, hBoth⟩ := List.mem_filter.mp hz
    exact ⟨hOwn, z, hRec, of_decide_eq_true hBoth⟩
  · rintro ⟨hOwn, z, hRec, hStar, hAnswers⟩
    have hz : z ∈ index.answering q := by
      rw [answering_wildcards hZone hOwn]
      exact List.mem_filter.mpr ⟨hRec, decide_eq_true ⟨hStar, hAnswers⟩⟩
    obtain ⟨i, hi, hGet⟩ := List.getElem_of_mem hz
    have hLength := hGives.length_eq
    refine ⟨z, answers[i], ?_, hStar, fun hOwner => hOwn ⟨z, hRec, hOwner, Or.inr hAnswers⟩⟩
    rw [← hGet, ← List.getElem_zip (h := by
      rw [List.length_zip]
      omega)]
    exact List.getElem_mem _

/-- A name is answered from a wildcard as it should exactly if the zone has no wildcard
for the type, or an answer or alias of the name, or the name is below the apex and has
no record of any type. -/
theorem wildcardLaw_iff (index : ZoneIndex) (q : Question) :
    WildcardLaw index q ↔ ∀ zone recs, index.findZone q.name = some (zone, recs) →
      ¬WildcardData recs q ∨ OwnData recs zone q ∨
        Below q.name zone ∧ ∀ r ∈ recs, ownerName r zone ≠ canonicalName q.name := by
  constructor
  · intro hLaw zone recs hZone
    by_cases hWild : WildcardData recs q
    · by_cases hOwn : OwnData recs zone q
      · exact Or.inr (Or.inl hOwn)
      · obtain ⟨m, hRespond⟩ := respond_of_zone hZone
        exact Or.inr (Or.inr (hLaw zone recs m hZone hRespond
          ((synthesises_iff hZone hRespond).mpr ⟨hOwn, hWild⟩)))
    · exact Or.inl hWild
  · intro hCases zone recs m hZone hRespond hFrom
    obtain ⟨hOwn, hWild⟩ := (synthesises_iff hZone hRespond).mp hFrom
    rcases hCases zone recs hZone with hNone | hOwn' | hBelow
    · exact absurd hWild hNone
    · exact absurd hOwn' hOwn
    · exact hBelow

/-- A text for all names that have no row. -/
def anyText : ZoneRecord := ⟨"1".toList, "*".toList, "TXT", "any".toList, 300, 0⟩

/-- A name with an IPv4 address has the text of the wildcard, though it has a row of its
own and the wildcard is for names that have none. -/
theorem not_wildcardLaw_otherType : ¬∀ (index : ZoneIndex) (q : Question), WildcardLaw index q := by
  intro h
  let index := new [plainZone] [addressRecord, anyText]
  let q : Question := ⟨"k.z.".toList, typeTxt, classIn⟩
  have hZone : index.findZone q.name = some ("k.z.".toList, [addressRecord, anyText]) := rfl
  obtain ⟨m, hRespond⟩ := respond_of_zone hZone
  have hOwner : ownerName addressRecord "k.z.".toList = canonicalName q.name := by decide
  have hOther : ownerName anyText "k.z.".toList ≠ canonicalName q.name := by decide
  have hOwn : ¬OwnData [addressRecord, anyText] "k.z.".toList q := by
    rintro ⟨r, hr, hName, hData⟩
    rcases List.mem_pair.mp hr with rfl | rfl
    · exact absurd hData (by decide)
    · exact hOther hName
  have hWild : WildcardData [addressRecord, anyText] q :=
    ⟨anyText, List.mem_pair.mpr (Or.inr rfl), rfl, by decide⟩
  have hFrom := (synthesises_iff hZone hRespond).mpr ⟨hOwn, hWild⟩
  exact (h index q _ _ _ hZone hRespond hFrom).2 addressRecord List.mem_cons_self hOwner

end ZoneIndex

end Dnsd.Resolve
