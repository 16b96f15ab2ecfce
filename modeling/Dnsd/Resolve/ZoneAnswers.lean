import Dnsd.Proto.Sizes
import Dnsd.Proto.Survival
import Dnsd.Resolve.ZoneSelection

/-! Which answers of a zone survive the wire: no value is checked when its record is
built, and the encoding of its type may have no room for it. -/

namespace Dnsd.Resolve

open Proto

/-! ## Values -/

/-- The encoding of the type has room for the value. -/
def ZoneRecord.Fits (r : ZoneRecord) : Prop :=
  match r.rtype with
  | "CNAME" | "NS" | "PTR" | "DNAME" | "MX" => Spelled r.value
  | "TXT" => r.value.len ≤ 255
  | "SRV" => ∀ target ∈ (Str.splitWhitespace r.value)[3]?, Spelled target
  | "CAA" => ∀ tag ∈ (Str.splitWhitespace r.value).head?, tag.len ≤ 255
  | "A" | "AAAA" => True
  | _ => False

/-- How the data of a record comes from its fields. -/
inductive ZoneRecord.Converted (r : ZoneRecord) : RData → Prop where
  | a (ip : Ipv4Addr) (hType : r.rtype = "A") : Converted r (.a ip)
  | aaaa (ip : Ipv6Addr) (hType : r.rtype = "AAAA") : Converted r (.aaaa ip)
  | name (hType : r.rtype ∈ ["CNAME", "NS", "PTR", "DNAME"]) :
      Converted r (.name (canonicalName r.value))
  | txt (hType : r.rtype = "TXT") : Converted r (.txt [r.value.bytes])
  | mx (hType : r.rtype = "MX") : Converted r (.mx r.priority (canonicalName r.value))
  | srv (priority weight port : UInt16) (fields : Str × Str × Str) (target : Str)
      (hType : r.rtype = "SRV")
      (hValue : Str.splitWhitespace r.value = [fields.1, fields.2.1, fields.2.2, target]) :
      Converted r (.srv priority weight port (canonicalName target))
  | caaEmpty (hType : r.rtype = "CAA") (hValue : Str.splitWhitespace r.value = []) :
      Converted r (.caa 0 [] [])
  | caa (tag : Str) (value : List Str) (hType : r.rtype = "CAA")
      (hValue : Str.splitWhitespace r.value = tag :: value) :
      Converted r (.caa 0 tag (Str.bytes ([' '].intercalate value)))

namespace ZoneRecord

variable {r : ZoneRecord} {d : RData}

theorem typeToRdata_converted (h : r.typeToRdata = some d) : r.Converted d := by
  rw [typeToRdata] at h
  split at h
  · obtain ⟨ip, -, rfl⟩ := Option.map_eq_some_iff.mp h
    exact .a ip ‹_›
  · obtain ⟨ip, -, rfl⟩ := Option.map_eq_some_iff.mp h
    exact .aaaa ip ‹_›
  iterate 4
    · rename_i hType
      cases h
      exact .name (by simp [hType])
  · cases h
    exact .txt ‹_›
  · cases h
    exact .mx ‹_›
  · split at h
    · rename_i hType _ priority weight port target hValue
      obtain ⟨p, -, h⟩ := Option.bind_eq_some_iff.mp h
      obtain ⟨w, -, h⟩ := Option.bind_eq_some_iff.mp h
      obtain ⟨t, -, h⟩ := Option.bind_eq_some_iff.mp h
      cases h
      exact .srv p w t (priority, weight, port) target hType hValue
    · cases h
  · split at h
    · cases h
      exact .caaEmpty ‹_› ‹_›
    · cases h
      exact .caa _ _ ‹_› ‹_›
  · cases h

theorem Converted.single (h : r.Converted d) : d.Single := by
  cases h with
  | a | aaaa | caaEmpty | caa => trivial
  | name | mx | srv => exact canonicalName_canonicalName _
  | txt => exact ⟨_, rfl⟩

/-- The data fits exactly if the value of the record does. -/
theorem Converted.wf_iff (h : r.Converted d) : d.Wf Spelled ↔ r.Fits := by
  cases h with
  | a ip hType | aaaa ip hType => simp only [Fits, hType, RData.Wf]
  | name hType =>
      simp only [List.mem_cons, List.not_mem_nil, or_false] at hType
      rcases hType with hType | hType | hType | hType <;>
        simp only [Fits, hType, RData.Wf, spelled_canonicalName]
  | txt hType => simp [Fits, hType, RData.Wf, Str.len]
  | mx hType => simp only [Fits, hType, RData.Wf, spelled_canonicalName]
  | srv priority weight port fields target hType hValue =>
      simp [Fits, hType, hValue, RData.Wf, spelled_canonicalName]
  | caaEmpty hType hValue => simp [Fits, hType, hValue, RData.Wf, Str.len]
  | caa tag value hType hValue => simp [Fits, hType, hValue, RData.Wf]

theorem namesSize_le {name : Str} {n : Nat} (h : namesSize [canonicalName name] = some n) :
    n ≤ 8 * name.length + 7 := by
  obtain ⟨x, hFold, rfl⟩ := Option.map_eq_some_iff.mp h
  rw [List.foldlM_cons] at hFold
  obtain ⟨y, hName, hNil⟩ := Option.bind_eq_some_iff.mp hFold
  cases hNil
  have hSize := Extent.name_size hName
  have hBytes := Str.len_le (canonicalName name)
  have hChars := canonicalName_length name
  rw [canonicalName_canonicalName] at hSize
  dsimp only at hSize
  omega

/-- A value of the database is not too large for the length field of a record. -/
theorem Converted.small (h : r.Converted d) (hValue : r.value.length ≤ 512) {e : Bytes}
    (hEncode : encodeRdata d = .ok e) : e.length < 65536 := by
  have hData := (encodeRdata_size d).of_ok hEncode
  generalize e.length = n at hData ⊢
  have hTokens := Str.splitWhitespace_length r.value
  cases h with
  | a | aaaa =>
      cases hData
      decide
  | name =>
      have hName := namesSize_le hData
      omega
  | txt =>
      have hBytes := Str.len_le r.value
      cases hData
      simp only [List.map_cons, List.map_nil, List.sum_cons, List.sum_nil]
      rw [Str.len] at hBytes
      omega
  | mx =>
      rw [rdataSize] at hData
      obtain ⟨k, hSize, rfl⟩ := Option.map_eq_some_iff.mp hData
      have hName := namesSize_le hSize
      omega
  | srv priority weight port fields target hType hSplit =>
      rw [rdataSize] at hData
      obtain ⟨k, hSize, rfl⟩ := Option.map_eq_some_iff.mp hData
      have hName := namesSize_le hSize
      rw [hSplit] at hTokens
      simp only [List.map_cons, List.map_nil, List.sum_cons, List.sum_nil] at hTokens
      omega
  | caaEmpty =>
      cases hData
      decide
  | caa tag value hType hSplit =>
      cases hData
      have hTag := Str.len_le tag
      have hBytes := Str.len_le ([' '].intercalate value)
      rw [hSplit, List.map_cons, List.sum_cons] at hTokens
      have hText : ([' '].intercalate value).length ≤ (value.map fun t => t.length + 1).sum := by
        by_cases hNil : value = []
        · simp [hNil]
        · have hExact : ([' '].intercalate value).length + 1 = (value.map fun t => t.length + 1).sum :=
            Str.intercalate_length hNil
          omega
      rw [Str.len] at hBytes
      omega

end ZoneRecord

/-! ## Answers -/

theorem buildRecord_of_label {r : ZoneRecord} {qtype : UInt16} (h : r.rtype = typeLabel qtype)
    (owner : Str) :
    buildRecord owner r = r.typeToRdata.map fun d => ⟨owner, qtype, classIn, r.ttl, d⟩ := by
  unfold typeLabel at h
  split at h
  case h_9 =>
    have hNone : r.typeToRdata = none := by simp [ZoneRecord.typeToRdata, h]
    rw [buildRecord, hNone]
    rfl
  all_goals
    simp only [buildRecord, h]
    cases r.typeToRdata <;> rfl

theorem ZoneRecord.Converted.kind_eq {r : ZoneRecord} {d : RData} (hData : r.Converted d)
    {qtype : UInt16} (h : r.rtype = typeLabel qtype) : d.kind = rdataKind qtype := by
  unfold typeLabel at h
  split at h <;> cases hData <;> simp_all [RData.kind] <;> decide

/-- The record answers for the type, with a value that converts to data. -/
def ZoneRecord.answers (qtype : UInt16) (r : ZoneRecord) : Bool :=
  r.rtype = typeLabel qtype ∧ r.typeToRdata.isSome

/-- The records that answer: those of the name itself, in their absence its first
CNAME record, and in the absence of that the wildcards of the zone. -/
def ZoneIndex.answering (index : ZoneIndex) (q : Question) : List ZoneRecord :=
  match index.findZone q.name with
  | none => []
  | some (zone, recs) =>
      let owned := recs.filter fun r => ownerName r zone = canonicalName q.name
      if owned.filter (ZoneRecord.answers q.qtype) ≠ [] then
        owned.filter (ZoneRecord.answers q.qtype)
      else
        match owned.find? fun r => r.rtype = "CNAME" with
        | some r => [r]
        | none => recs.filter fun r => r.name = ['*'] ∧ r.answers q.qtype

/-- The record of the answer that comes from a record of the zone. -/
structure Gives (q : Question) (z : ZoneRecord) (r : Record) : Prop where
  name : r.name = canonicalName q.name
  data : z.typeToRdata = some r.data
  kind : r.data.kind = rdataKind r.rtype

theorem gives_of_answers {q : Question} {z : ZoneRecord} (h : z.answers q.qtype) :
    ∃ r, buildRecord (canonicalName q.name) z = some r ∧ Gives q z r := by
  obtain ⟨hType, hSome⟩ := of_decide_eq_true h
  obtain ⟨d, hData⟩ := Option.isSome_iff_exists.mp hSome
  rw [buildRecord_of_label hType, hData]
  exact ⟨_, rfl, rfl, hData, (ZoneRecord.typeToRdata_converted hData).kind_eq hType⟩

theorem buildRecord_of_not_answers {q : Question} {z : ZoneRecord} (h : ¬z.answers q.qtype)
    (hType : z.rtype = typeLabel q.qtype) : buildRecord (canonicalName q.name) z = none := by
  have hNone : z.typeToRdata = none := by
    by_contra hSome
    exact h (decide_eq_true ⟨hType, Option.isSome_iff_ne_none.mpr hSome⟩)
  rw [buildRecord_of_label hType, hNone]
  rfl

/-- A filter that keeps exactly what the map is defined on. -/
theorem forall₂_filter_filterMap {α β : Type} {rel : α → β → Prop} {p : α → Bool} {f : α → Option β}
    {items : List α} (hSome : ∀ a ∈ items, p a → ∃ b, f a = some b ∧ rel a b)
    (hNone : ∀ a ∈ items, ¬p a → f a = none) :
    List.Forall₂ rel (items.filter p) (items.filterMap f) := by
  induction items with
  | nil => exact .nil
  | cons a rest ih =>
      have hRest := ih (fun b hb => hSome b (List.mem_cons_of_mem a hb))
        fun b hb => hNone b (List.mem_cons_of_mem a hb)
      by_cases hp : p a
      · obtain ⟨b, hb, hRel⟩ := hSome a List.mem_cons_self hp
        rw [List.filter_cons_of_pos hp, List.filterMap_cons_some hb]
        exact .cons hRel hRest
      · rw [List.filter_cons_of_neg hp, List.filterMap_cons_none (hNone a List.mem_cons_self hp)]
        exact hRest

namespace ZoneIndex

/-- The records of the name itself that answer. -/
theorem exact_gives (recs : List ZoneRecord) (zone : Str) (q : Question) :
    List.Forall₂ (Gives q)
      ((recs.filter fun r => ownerName r zone = canonicalName q.name).filter
        (ZoneRecord.answers q.qtype)) (exact recs zone (canonicalName q.name) q.qtype).1 := by
  refine forall₂_filter_filterMap (fun z _ hAnswers => ?_) fun z _ hNot => ?_
  · obtain ⟨r, hBuild, hGives⟩ := gives_of_answers hAnswers
    exact ⟨r, by rw [if_pos (of_decide_eq_true hAnswers).1, hBuild], hGives⟩
  · split_ifs with hType
    · exact buildRecord_of_not_answers hNot hType
    · rfl

/-- The wildcards that answer. -/
theorem wildcard_gives (recs : List ZoneRecord) (q : Question) :
    List.Forall₂ (Gives q) (recs.filter fun r => r.name = ['*'] ∧ r.answers q.qtype)
      (recs.filterMap fun r => if r.name = ['*'] ∧ r.rtype = typeLabel q.qtype then
        buildRecord (canonicalName q.name) r else none) := by
  refine forall₂_filter_filterMap (fun z _ hBoth => ?_) fun z _ hNot => ?_
  · obtain ⟨hStar, hAnswers⟩ := of_decide_eq_true hBoth
    obtain ⟨r, hBuild, hGives⟩ := gives_of_answers hAnswers
    exact ⟨r, by rw [if_pos ⟨hStar, (of_decide_eq_true hAnswers).1⟩, hBuild], hGives⟩
  · split_ifs with hBoth
    · exact buildRecord_of_not_answers (fun hAnswers => hNot (decide_eq_true ⟨hBoth.1, hAnswers⟩))
        hBoth.2
    · rfl

/-- Every record that answers gives one record of the answer. -/
theorem respond_gives {index : ZoneIndex} {q : Question} {m : Message}
    (h : index.respond q = some m) :
    ∃ answers rcode, m = makeResponse q answers rcode ∧
      List.Forall₂ (Gives q) (index.answering q) answers := by
  obtain ⟨⟨zone, recs⟩, hZone, rfl⟩ := Option.map_eq_some_iff.mp h
  rw [answering, hZone]
  dsimp only
  have hTyped := exact_gives recs zone q
  split
  · rename_i answer answers target hExact
    rw [hExact] at hTyped
    have hSome : (recs.filter fun r => ownerName r zone = canonicalName q.name).filter
        (ZoneRecord.answers q.qtype) ≠ [] := by
      intro hNil
      rw [hNil] at hTyped
      cases hTyped
    rw [if_pos hSome]
    exact ⟨_, _, rfl, hTyped⟩
  · rename_i target hExact
    rw [hExact] at hTyped
    have hEmpty := List.forall₂_nil_right_iff.mp hTyped
    rw [if_neg (not_not.mpr hEmpty)]
    obtain ⟨z, hFind, hTarget⟩ := Option.map_eq_some_iff.mp (congrArg Prod.snd hExact)
    have hType : z.rtype = "CNAME" := by simpa using List.find?_some hFind
    rw [hFind]
    have hKind : rdataKind typeCname = .name := by decide
    refine ⟨_, _, rfl, .cons ⟨rfl, ?_, hKind.symm⟩ .nil⟩
    rw [← hTarget]
    simp [ZoneRecord.typeToRdata, hType]
  · rename_i hExact
    rw [hExact] at hTyped
    have hEmpty := List.forall₂_nil_right_iff.mp hTyped
    rw [if_neg (not_not.mpr hEmpty)]
    have hFind := Option.map_eq_none_iff.mp (congrArg Prod.snd hExact)
    rw [hFind]
    have hWild := wildcard_gives recs q
    split_ifs with hNil
    · exact ⟨_, _, rfl, hWild⟩
    · rw [not_not] at hNil
      rw [hNil] at hWild
      exact ⟨_, _, rfl, hWild⟩

/-- The index lists nothing but the given records. -/
theorem new_get_subset {zones : List Zone} {records : List ZoneRecord} {key : Str}
    {recs : List ZoneRecord} (h : (new zones records).zones.get key = some recs) :
    recs ⊆ records := by
  rw [new] at h
  induction records using List.reverseRecOn generalizing key recs with
  | nil => simp [empty] at h
  | append_singleton records r ih =>
      rw [List.foldl_append, List.foldl_cons, List.foldl_nil, insert] at h
      split at h
      · exact List.Subset.trans (ih h) (List.subset_append_left _ _)
      · dsimp only at h
        rw [HashMap.get_insert] at h
        split_ifs at h
        · cases h
          refine List.append_subset.mpr ⟨?_, List.subset_append_right _ _⟩
          obtain hNone | ⟨old, hOld⟩ := Option.eq_none_or_eq_some
            ((new zones records).zones.get (canonicalName _))
          · exact hNone ▸ List.nil_subset _
          · exact hOld ▸ List.Subset.trans (ih hOld) (List.subset_append_left _ _)
        · exact List.Subset.trans (ih h) (List.subset_append_left _ _)

theorem answering_subset (zones : List Zone) (records : List ZoneRecord) (q : Question) :
    (new zones records).answering q ⊆ records := by
  rw [answering]
  split
  · exact List.nil_subset _
  · rename_i zone recs hFind
    have hRecs := new_get_subset (findZone_eq_some hFind).1
    have hOwned : (recs.filter fun r => ownerName r zone = canonicalName q.name) ⊆ records :=
      List.Subset.trans List.filter_sublist.subset hRecs
    dsimp only
    split_ifs
    · exact List.Subset.trans List.filter_sublist.subset hOwned
    · split
      · rename_i r hFirst
        rintro z hz
        rw [List.mem_singleton.mp hz]
        exact hOwned (List.mem_of_find?_eq_some hFirst)
      · exact List.Subset.trans List.filter_sublist.subset hRecs

/-- What holds of each side of related items holds of all on that side. -/
theorem forall₂_forall {α β : Type} {rel : α → β → Prop} {p : β → Prop} {as : List α} {bs : List β}
    (h : List.Forall₂ rel as bs) (hp : ∀ a ∈ as, ∀ b, rel a b → p b) : ∀ b ∈ bs, p b := by
  induction h with
  | nil => simp
  | cons hHead _ ih =>
      refine List.forall_mem_cons.mpr ⟨hp _ List.mem_cons_self _ hHead, ih fun a ha => ?_⟩
      exact hp a (List.mem_cons_of_mem _ ha)

/-- The answer of a zone survives the wire exactly if the values of the records that
answer fit into their encodings, and their number into the header. -/
theorem survives_iff {zones : List Zone} {records : List ZoneRecord} {q : Question} {m : Message}
    (hValues : ∀ r ∈ records, r.value.length ≤ 512) (hName : HostName q.name)
    (hRespond : (new zones records).respond q = some m) :
    (∃ b m', m.encode = .ok b ∧ Message.parse b = .ok m' ∧ m'.answers = m.answers) ↔
      ((new zones records).answering q).length < 65536 ∧
        ∀ r ∈ (new zones records).answering q, r.Fits := by
  obtain ⟨answers, rcode, rfl, hGives⟩ := respond_gives hRespond
  have hSubset := answering_subset zones records q
  have hLegible := hName.legible
  have hCanonical : canonicalName q.name = q.name := by
    obtain ⟨labels, hLabels, hText⟩ := hLegible
    rw [hText, hLabels.canonicalName_nameText]
  have hSimple : ∀ r ∈ answers, r.Simple := forall₂_forall hGives fun z hz r hr =>
    have hData := ZoneRecord.typeToRdata_converted hr.data
    ⟨by rw [hr.name, hCanonical]; exact hLegible, hr.kind, hData.single,
      fun _ hEncode => hData.small (hValues z (hSubset hz)) hEncode⟩
  rw [answers_survive_iff (by simpa [makeResponse] using hLegible) (by simp [makeResponse]) hSimple rfl
    rfl, hGives.length_eq]
  refine and_congr_right fun _ => ⟨fun hWf => ?_, fun hFits => ?_⟩
  · exact forall₂_forall hGives.flip fun r hr z hz =>
      (ZoneRecord.typeToRdata_converted hz.data).wf_iff.mp (hWf r hr)
  · exact forall₂_forall hGives fun z hz r hr =>
      (ZoneRecord.typeToRdata_converted hr.data).wf_iff.mpr (hFits z hz)

/-- The zone of the rows. -/
def keyZone : Zone := ⟨"1".toList, "k.z".toList⟩

/-- A text of so many characters. -/
def keyRecord (size : Nat) : ZoneRecord :=
  ⟨"1".toList, "@".toList, "TXT", List.replicate size 'k', 300, 0⟩

/-- The question for the text of the zone. -/
def keyQuestion : Question := ⟨"k.z.".toList, typeTxt, classIn⟩

/-- The question on the wire. -/
def keyQuery : Bytes := [0, 7, 1, 0, 0, 1, 0, 0, 0, 0, 0, 0, 1, 107, 1, 122, 0, 0, 16, 0, 1]

/-- The answer with a text of this size. -/
def keyReply (size : Nat) : Message :=
  makeResponse keyQuestion
    [⟨keyQuestion.name, typeTxt, classIn, 300, .txt [List.replicate size 107]⟩] rcodeNoerror

theorem hostName_keyQuestion : HostName keyQuestion.name :=
  hostName_nameText ["k".toList, "z".toList] (by decide) (by decide)

/-- The answer with a text of a few characters is read back from the wire as the zone
gives it. -/
theorem survives_shortText : (new [keyZone] [keyRecord 9]).respond keyQuestion = some (keyReply 9) ∧
    ∃ b m', (keyReply 9).encode = .ok b ∧ Message.parse b = .ok m' ∧
      m'.answers = (keyReply 9).answers := by
  have hRespond : (new [keyZone] [keyRecord 9]).respond keyQuestion = some (keyReply 9) := by
    decide +kernel
  refine ⟨hRespond, (survives_iff ?_ hostName_keyQuestion hRespond).mpr ⟨by decide +kernel, ?_⟩⟩
  · intro r hr
    rw [List.mem_singleton.mp hr]
    decide
  · intro r hr
    rw [List.mem_singleton.mp (answering_subset _ _ _ hr)]
    change Str.len (List.replicate 9 'k') ≤ 255
    decide

/-- A text of 300 characters makes a reply that cannot be parsed, because its length is
cut to eight bits. -/
theorem lost_longText : ¬∀ zones records raw req q m,
    (∀ r ∈ records, (ZoneRecord.value r).length ≤ 512) → Message.parse raw = .ok req →
    req.question = some q → HostName q.name → (new zones records).respond q = some m →
    ∃ b m', m.encode = .ok b ∧ Message.parse b = .ok m' ∧ m'.answers = m.answers := by
  intro hAll
  have hParse : Message.parse keyQuery =
      .ok { header := { id := 7, rd := true }, questions := [keyQuestion] } := by
    decide +kernel
  have hRespond : (new [keyZone] [keyRecord 300]).respond keyQuestion = some (keyReply 300) := by
    decide +kernel
  have hValues : ∀ r ∈ [keyRecord 300], (ZoneRecord.value r).length ≤ 512 := by
    intro r hr
    rw [List.mem_singleton.mp hr, keyRecord, List.length_replicate]
    decide
  obtain ⟨b, m', hEncode, hRead, -⟩ := hAll [keyZone] [keyRecord 300] keyQuery _ keyQuestion
    (keyReply 300) hValues hParse rfl hostName_keyQuestion hRespond
  have hFails : (keyReply 300).encode >>= Message.parse = .err (.parse "truncated: bytes") := by
    decide +kernel
  rw [hEncode, Exec.ok_bind, hRead] at hFails
  cases hFails

end ZoneIndex

end Dnsd.Resolve
