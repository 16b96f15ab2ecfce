import Dnsd.Resolve.ZoneAnswers

/-! When a zone denies a name. NXDOMAIN says that there is no such name, for any type;
the answer of a zone depends on the records that answer for the type of the question. -/

namespace Dnsd.Resolve

open Proto

namespace ZoneIndex

/-- The zone has data for the question: a record of the name that answers or is an
alias, or a wildcard that answers. -/
def HasData (recs : List ZoneRecord) (zone : Str) (q : Question) : Prop :=
  ∃ r ∈ recs, (ownerName r zone = canonicalName q.name ∧ (r.rtype = "CNAME" ∨ r.answers q.qtype)) ∨
    r.name = ['*'] ∧ r.answers q.qtype

/-- A record of the zone is one of the name, or a wildcard that answers for some type. -/
def Named (recs : List ZoneRecord) (zone name : Str) : Prop :=
  ∃ r ∈ recs, ownerName r zone = canonicalName name ∨ r.name = ['*'] ∧ ∃ qtype, r.answers qtype

/-- The name has a record in the zone, or an answer for some question. -/
def NameExists (index : ZoneIndex) (recs : List ZoneRecord) (zone name : Str) : Prop :=
  (∃ r ∈ recs, ownerName r zone = canonicalName name) ∨
    ∃ q m, q.name = name ∧ index.respond q = some m ∧ m.answers ≠ []

variable {index : ZoneIndex} {q : Question} {m : Message} {zone : Str} {recs : List ZoneRecord}

/-- A zone denies the name exactly if it has no answer. -/
theorem respond_nxdomain_iff (h : index.respond q = some m) :
    m.header.rcode = rcodeNxdomain ↔ m.answers = [] := by
  have hOther : rcodeNoerror ≠ rcodeNxdomain := by decide
  obtain ⟨⟨zone, recs⟩, -, rfl⟩ := Option.map_eq_some_iff.mp h
  dsimp only
  split
  · exact iff_of_false hOther (List.cons_ne_nil _ _)
  · exact iff_of_false hOther (List.cons_ne_nil _ _)
  · split_ifs with hWild
    · exact iff_of_false hOther hWild
    · exact iff_of_true rfl rfl

theorem answering_eq_nil_iff (hZone : index.findZone q.name = some (zone, recs)) :
    index.answering q = [] ↔ ¬HasData recs zone q := by
  have hOwned {z : ZoneRecord} : z ∈ recs.filter (fun r => ownerName r zone = canonicalName q.name) ↔
      z ∈ recs ∧ ownerName z zone = canonicalName q.name := by
    rw [List.mem_filter, decide_eq_true_eq]
  rw [answering, hZone]
  dsimp only
  split_ifs with hTyped
  · obtain ⟨z, hz⟩ := List.exists_mem_of_ne_nil _ hTyped
    obtain ⟨hMem, hAnswers⟩ := List.mem_filter.mp hz
    obtain ⟨hMem, hOwner⟩ := hOwned.mp hMem
    exact iff_of_false hTyped (not_not.mpr ⟨z, hMem, Or.inl ⟨hOwner, Or.inr hAnswers⟩⟩)
  · rw [not_not, List.filter_eq_nil_iff] at hTyped
    split
    · rename_i z hFind
      obtain ⟨hMem, hOwner⟩ := hOwned.mp (List.mem_of_find?_eq_some hFind)
      have hType : z.rtype = "CNAME" := by simpa using List.find?_some hFind
      exact iff_of_false (List.cons_ne_nil _ _)
        (not_not.mpr ⟨z, hMem, Or.inl ⟨hOwner, Or.inl hType⟩⟩)
    · rename_i hFind
      rw [List.filter_eq_nil_iff]
      constructor
      · rintro hWild ⟨z, hz, ⟨hOwner, hType | hAnswers⟩ | hBoth⟩
        · exact List.find?_eq_none.mp hFind z (hOwned.mpr ⟨hz, hOwner⟩) (decide_eq_true hType)
        · exact hTyped z (hOwned.mpr ⟨hz, hOwner⟩) hAnswers
        · exact hWild z hz (decide_eq_true hBoth)
      · intro hNoData z hz hBoth
        exact hNoData ⟨z, hz, Or.inr (of_decide_eq_true hBoth)⟩

theorem answers_eq_nil_iff (hZone : index.findZone q.name = some (zone, recs))
    (h : index.respond q = some m) : m.answers = [] ↔ ¬HasData recs zone q := by
  obtain ⟨answers, rcode, rfl, hGives⟩ := respond_gives h
  rw [← answering_eq_nil_iff hZone]
  constructor
  · intro hNil
    rw [show answers = [] from hNil] at hGives
    exact List.forall₂_nil_right_iff.mp hGives
  · intro hNil
    rw [hNil] at hGives
    exact List.forall₂_nil_left_iff.mp hGives

theorem respond_of_zone (hZone : index.findZone q.name = some (zone, recs)) :
    ∃ m, index.respond q = some m := by
  rw [respond, hZone]
  exact ⟨_, rfl⟩

theorem nameExists_iff {name : Str} (hZone : index.findZone name = some (zone, recs)) :
    NameExists index recs zone name ↔ Named recs zone name := by
  constructor
  · rintro (⟨r, hr, hOwner⟩ | ⟨q, m, rfl, hRespond, hAnswers⟩)
    · exact ⟨r, hr, Or.inl hOwner⟩
    · obtain ⟨r, hr, hData⟩ := not_not.mp (mt (answers_eq_nil_iff hZone hRespond).mpr hAnswers)
      rcases hData with ⟨hOwner, -⟩ | ⟨hStar, hType⟩
      · exact ⟨r, hr, Or.inl hOwner⟩
      · exact ⟨r, hr, Or.inr ⟨hStar, q.qtype, hType⟩⟩
  · rintro ⟨r, hr, hOwner | ⟨hStar, qtype, hType⟩⟩
    · exact Or.inl ⟨r, hr, hOwner⟩
    · have hAsked : index.findZone (Question.mk name qtype classIn).name = some (zone, recs) := hZone
      obtain ⟨m, hRespond⟩ := respond_of_zone hAsked
      refine Or.inr ⟨_, m, rfl, hRespond, fun hNil => ?_⟩
      exact (answers_eq_nil_iff hAsked hRespond).mp hNil ⟨r, hr, Or.inr ⟨hStar, hType⟩⟩

/-- A name that exists is not denied, and without data for the question it has an
empty answer. -/
def DenialLaw (index : ZoneIndex) (q : Question) : Prop :=
  ∀ zone recs m, index.findZone q.name = some (zone, recs) → index.respond q = some m →
    NameExists index recs zone q.name →
    m.header.rcode ≠ rcodeNxdomain ∧
      (¬HasData recs zone q → m.header.rcode = rcodeNoerror ∧ m.answers = [])

/-- A zone denies names rightly exactly for those that have no record of any type, neither
their own nor a wildcard. -/
theorem denialLaw_iff (index : ZoneIndex) (q : Question) :
    DenialLaw index q ↔ ∀ zone recs, index.findZone q.name = some (zone, recs) →
      HasData recs zone q ∨ ¬Named recs zone q.name := by
  constructor
  · intro hLaw zone recs hZone
    by_contra hNeither
    obtain ⟨hNoData, hNamed⟩ := not_or.mp hNeither
    obtain ⟨m, hRespond⟩ := respond_of_zone hZone
    have hExists := (nameExists_iff hZone).mpr (not_not.mp hNamed)
    have hDenied := (respond_nxdomain_iff hRespond).mpr ((answers_eq_nil_iff hZone hRespond).mpr hNoData)
    exact (hLaw zone recs m hZone hRespond hExists).1 hDenied
  · intro hCases zone recs m hZone hRespond hExists
    rcases hCases zone recs hZone with hData | hAbsent
    · refine ⟨fun hDenied => ?_, fun hNoData => absurd hData hNoData⟩
      exact (answers_eq_nil_iff hZone hRespond).mp ((respond_nxdomain_iff hRespond).mp hDenied) hData
    · exact absurd ((nameExists_iff hZone).mp hExists) hAbsent

/-- The zone of the row. -/
def plainZone : Zone := ⟨"1".toList, "k.z".toList⟩

/-- The zone itself has an address and nothing else. -/
def addressRecord : ZoneRecord := ⟨"1".toList, "@".toList, "A", "192.0.2.1".toList, 300, 0⟩

/-- A name with an IPv4 address is denied as a name when its IPv6 address is asked for,
instead of being answered without data. -/
theorem not_denialLaw_otherType : ¬∀ (index : ZoneIndex) (q : Question), DenialLaw index q := by
  intro h
  have hZone : (new [plainZone] [addressRecord]).findZone "k.z.".toList =
      some ("k.z.".toList, [addressRecord]) := rfl
  have hRespond : (new [plainZone] [addressRecord]).respond ⟨"k.z.".toList, typeAaaa, classIn⟩ =
      some (makeResponse ⟨"k.z.".toList, typeAaaa, classIn⟩ [] rcodeNxdomain) := by
    decide +kernel
  have hOwner : ownerName addressRecord "k.z.".toList = canonicalName "k.z.".toList := by decide
  have hExists : NameExists (new [plainZone] [addressRecord]) [addressRecord] "k.z.".toList
      "k.z.".toList :=
    Or.inl ⟨addressRecord, List.mem_cons_self, hOwner⟩
  have hLaw := h (new [plainZone] [addressRecord]) ⟨"k.z.".toList, typeAaaa, classIn⟩
  exact (hLaw _ _ _ hZone hRespond hExists).1 rfl

end ZoneIndex

end Dnsd.Resolve
