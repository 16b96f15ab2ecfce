import Dnsd.Proto.Headers
import Dnsd.Proto.Spelling

/-! Which answers survive the wire. Data with one name at most is read back exactly
if its name and its strings have room, and a section if all its data is. -/

namespace Dnsd.Proto

open Bytes Exec

/-! ## Record data -/

/-- Data with one name at most, which is canonical, or with one string. -/
def RData.Single : RData → Prop
  | .a _ | .aaaa _ | .caa .. => True
  | .name target | .mx _ target | .srv _ _ _ target => canonicalName target = target
  | .txt strings => ∃ s, strings = [s]
  | _ => False

theorem RData.Single.kind_ne_opt {d : RData} (h : d.Single) : d.kind ≠ .opt := by
  cases d with
  | opt => exact absurd h id
  | _ => simp [RData.kind]

/-- The bytes of data that fits. -/
theorem encodeRdata_of_wf {d : RData} (hSingle : d.Single) (hWf : d.Wf Spelled) :
    ∃ e, encodeRdata d = .ok e := by
  have hName {name : Str} (h : Spelled name) :
      encodeNamesAlone [name] = .ok (wireName (wireLabels name)) :=
    encodeNamesAlone_eq_ok_iff.mpr ⟨fun l hl => (h.label l hl).2, rfl⟩
  cases d with
  | a | aaaa | txt | caa => exact ⟨_, rfl⟩
  | name name => exact ⟨_, hName hWf⟩
  | mx preference exchange => exact ⟨_, by rw [encodeRdata, hName hWf, ok_bind]⟩
  | srv priority weight port target => exact ⟨_, by rw [encodeRdata, hName hWf, ok_bind]⟩
  | soa | rrsig | nsec | raw | opt => exact absurd hSingle id

/-- A single string is read back exactly if its length fits the length byte. -/
theorem parseTxt_eq_self_iff {s : Bytes} :
    parseTxt ⟨encodeTxtString s, 0⟩ = .ok (.txt [s]) ↔ s.length ≤ 255 := by
  constructor
  · intro h
    obtain ⟨strings, hStrings, hSame⟩ := bind_eq_ok_iff.mp h
    cases hSame
    have hRoom : Cursor.remaining ⟨encodeTxtString s, 0⟩ = s.length + 1 := rfl
    rw [hRoom, txtStrings, hRoom, if_neg (Nat.succ_ne_zero _)] at hStrings
    obtain ⟨⟨l, c⟩, hByte, hStrings⟩ := bind_eq_ok_iff.mp hStrings
    obtain ⟨⟨first, c'⟩, hFirst, hStrings⟩ := bind_eq_ok_iff.mp hStrings
    obtain ⟨rest, -, hStrings⟩ := bind_eq_ok_iff.mp hStrings
    cases hStrings
    obtain ⟨-, hLength⟩ := (Cursor.bytes_safe ((Cursor.u8_safe _).of_eq_ok hByte).inside _).of_eq_ok
      hFirst
    have hLess := l.toNat_lt
    dsimp only at hLength
    omega
  · intro h
    exact parseTxt_at (by simpa using h) (by simp)

theorem parseCaa_eq_self_iff {flags : UInt8} {tag : Str} {value : Bytes} :
    parseCaa ⟨[flags] ++ labelBytes tag ++ value, 0⟩ = .ok (.caa flags tag value) ↔
      tag.len ≤ 255 := by
  constructor
  · intro h
    obtain ⟨⟨flags', c1⟩, hFlags, h⟩ := bind_eq_ok_iff.mp h
    obtain ⟨⟨tagLen, c2⟩, hTagLen, h⟩ := bind_eq_ok_iff.mp h
    obtain ⟨⟨tag', c3⟩, hTag, h⟩ := bind_eq_ok_iff.mp h
    obtain ⟨⟨value', c4⟩, hValue, h⟩ := bind_eq_ok_iff.mp h
    cases h
    have hFirst := (Cursor.u8_safe _).of_eq_ok hFlags
    have hSecond := (Cursor.u8_safe _).of_eq_ok hTagLen
    obtain ⟨hThird, -⟩ := (Cursor.bytes_safe hSecond.inside _).of_eq_ok hTag
    obtain ⟨-, hLength⟩ := (Cursor.bytes_safe hThird.inside _).of_eq_ok hValue
    obtain ⟨hBuf1, hPos1, -⟩ := hFirst
    obtain ⟨hBuf2, hPos2, -⟩ := hSecond
    obtain ⟨hBuf3, hPos3, hEnd3⟩ := hThird
    have hLess := tagLen.toNat_lt
    dsimp only at hBuf1 hPos1 hBuf2 hPos2 hBuf3 hPos3 hLength
    -- The value starts where the tag ends: a shorter tag makes a longer value.
    rw [Cursor.remaining, hBuf3, hBuf2, hBuf1, hPos3, hPos2, hPos1, List.length_append,
      List.length_append, labelBytes_length, List.length_singleton] at hLength
    rw [hBuf2, hBuf1] at hEnd3
    omega
  · exact parseCaa_at

/-- Data is read back exactly if it fits. -/
theorem parseRdata_eq_self_iff {d : RData} {rtype : UInt16} (hKind : d.kind = rdataKind rtype)
    (hSingle : d.Single) {e : Bytes} (hEncode : encodeRdata d = .ok e) {buf : Bytes} {start : Nat}
    (hAt : At buf start e) : parseRdata buf start e.length rtype = .ok d ↔ d.Wf Spelled := by
  have hOpt : rtype ≠ typeOpt := fun h =>
    hSingle.kind_ne_opt (hKind.trans (rdataKind_eq_opt_iff.mpr h))
  have hName {name : Str} {e : Bytes} {pos : Nat} {make : Str → RData}
      (hMake : ∀ n n', make n = make n' → n = n') (hCanonical : canonicalName name = name)
      (hWrite : encodeNamesAlone [name] = .ok e) (hAt : At buf pos e) :
      (readName buf pos >>= fun r => .ok (make r.1)) = .ok (make name) ↔ Spelled name := by
    obtain ⟨hShort, rfl⟩ := encodeNamesAlone_eq_ok_iff.mp hWrite
    rw [← readName_eq_self_iff hShort hAt, hCanonical]
    constructor
    · intro h
      obtain ⟨⟨name', p⟩, hRead, hSame⟩ := bind_eq_ok_iff.mp h
      have hName : name' = name := hMake _ _ (Exec.ok.inj hSame)
      exact ⟨p, by rw [hRead, hName]⟩
    · rintro ⟨p, hRead⟩
      rw [hRead, ok_bind]
  cases d with
  | a | aaaa =>
      obtain ⟨e', hEncode', hRead⟩ := parseRdata_encode hKind hOpt trivial id
      cases hEncode.symm.trans hEncode'
      exact iff_of_true (hRead buf start hAt) trivial
  | name name =>
      rw [parseRdata_window hAt, ← hKind]
      exact hName (fun _ _ h => RData.name.inj h) hSingle hEncode hAt
  | mx preference exchange =>
      obtain ⟨names, hWrite, hBytes⟩ := bind_eq_ok_iff.mp hEncode
      cases hBytes
      rw [parseRdata_window hAt, ← hKind]
      dsimp only [RData.kind]
      rw [parseMx, Cursor.u16_at (At.self _).left, ok_bind]
      exact hName (fun _ _ h => (RData.mx.inj h).2) hSingle hWrite hAt.right
  | srv priority weight port target =>
      obtain ⟨names, hWrite, hBytes⟩ := bind_eq_ok_iff.mp hEncode
      cases hBytes
      have hSelf := At.self (priority.toBeBytes ++ weight.toBeBytes ++ port.toBeBytes ++ names)
      rw [parseRdata_window hAt, ← hKind]
      dsimp only [RData.kind]
      rw [parseSrv, Cursor.u16_at hSelf.left.left.left, ok_bind]
      dsimp only
      rw [Cursor.u16_at (by simpa using hSelf.left.left.right), ok_bind]
      dsimp only
      rw [Cursor.u16_at (by simpa using hSelf.left.right), ok_bind]
      exact hName (fun _ _ h => (RData.srv.inj h).2.2.2) hSingle hWrite hAt.right
  | txt strings =>
      obtain ⟨s, rfl⟩ := hSingle
      cases hEncode
      rw [parseRdata_window hAt, ← hKind]
      simpa [RData.Wf, RData.kind] using parseTxt_eq_self_iff
  | caa flags tag value =>
      cases hEncode
      rw [parseRdata_window hAt, ← hKind]
      exact parseCaa_eq_self_iff
  | soa | rrsig | nsec | raw | opt => exact absurd hSingle id

/-! ## Records and sections -/

/-- An answer with simple data, which is not larger than its length field says. -/
structure Record.Simple (r : Record) : Prop where
  name : LegibleName r.name
  kind : r.data.kind = rdataKind r.rtype
  data : r.data.Single
  small : ∀ e, encodeRdata r.data = .ok e → e.length < 65536

namespace Record.Simple

variable {r : Record}

theorem type_ne_opt (h : r.Simple) : r.rtype ≠ typeOpt := fun hOpt =>
  h.data.kind_ne_opt (h.kind.trans (rdataKind_eq_opt_iff.mpr hOpt))

theorem rdataBytes (h : r.Simple) : Proto.rdataBytes r = encodeRdata r.data :=
  if_neg h.type_ne_opt

theorem onWire (h : r.Simple) : r.onWire = r := Record.onWire_of_ne h.data.kind_ne_opt

/-- A record whose data fits is read as itself. -/
theorem readsAs (h : r.Simple) (hWf : r.data.Wf Spelled) {enc : Encoder} (hMap : MapSound enc) :
    ∃ enc', enc.writeRecord r = .ok enc' ∧ ReadsAs readRecord enc enc' r.onWire := by
  obtain ⟨e, hEncode⟩ := encodeRdata_of_wf h.data hWf
  obtain ⟨enc', start, hWrite, hSound, hGrows, hRead⟩ :=
    writeRecord_reading h.name (h.rdataBytes.trans hEncode) (h.small e hEncode) hMap
  refine ⟨enc', hWrite, hSound, hGrows, fun rest => ?_⟩
  obtain ⟨hAt, hEquation⟩ := hRead rest
  rw [hEquation, (parseRdata_eq_self_iff h.kind h.data hEncode hAt).mpr hWf, ok_bind, h.onWire]

/-- Only a record whose data fits is read as itself. -/
theorem of_read (h : r.Simple) {enc enc' : Encoder} (hMap : MapSound enc)
    (hWrite : enc.writeRecord r = .ok enc') :
    MapSound enc' ∧ (∃ bs, enc'.out = enc.out ++ bs) ∧
      ∀ rest p, readRecord (enc'.out ++ rest) enc.out.length = .ok (r, p) →
        r.data.Wf Spelled ∧ p = enc'.out.length := by
  obtain ⟨e, hEncode⟩ : ∃ e, encodeRdata r.data = .ok e := by
    obtain ⟨mid, -, hBody⟩ := bind_eq_ok_iff.mp hWrite
    dsimp only at hBody
    rw [if_neg h.type_ne_opt] at hBody
    obtain ⟨e, hEncode, -⟩ := bind_eq_ok_iff.mp hBody
    exact ⟨e, hEncode⟩
  obtain ⟨enc'', start, hAgain, hSound, hGrows, hRead⟩ :=
    writeRecord_reading h.name (h.rdataBytes.trans hEncode) (h.small e hEncode) hMap
  cases hWrite.symm.trans hAgain
  refine ⟨hSound, hGrows, fun rest p hSelf => ?_⟩
  obtain ⟨hAt, hEquation⟩ := hRead rest
  obtain ⟨d, hData, hPair⟩ := bind_eq_ok_iff.mp (hEquation.symm.trans hSelf)
  obtain ⟨hRecord, hEnd⟩ := Prod.mk.inj (Exec.ok.inj hPair)
  have hSame : d = r.data := congrArg Record.data hRecord
  rw [hSame] at hData
  exact ⟨(parseRdata_eq_self_iff h.kind h.data hEncode hAt).mp hData, hEnd.symm⟩

end Record.Simple

/-- A section that is read as itself has only items that are. -/
theorem writeAll_of_reads {α : Type} {write : Encoder → α → Result Encoder}
    {read : Bytes → Nat → Result (α × Nat)} {good : α → Prop} {items : List α}
    (hItem : ∀ item ∈ items, ∀ enc enc', MapSound enc → write enc item = .ok enc' →
      MapSound enc' ∧ (∃ bs, enc'.out = enc.out ++ bs) ∧
        ∀ rest p, read (enc'.out ++ rest) enc.out.length = .ok (item, p) →
          good item ∧ p = enc'.out.length)
    {enc enc' : Encoder} (hMap : MapSound enc)
    (hWrite : Encoder.writeAll write enc items = .ok enc') :
    (∃ bs, enc'.out = enc.out ++ bs) ∧
      ∀ rest p, Exec.times (read (enc'.out ++ rest)) items.length enc.out.length = .ok (items, p) →
        ∀ item ∈ items, good item := by
  induction items generalizing enc with
  | nil =>
      cases hWrite
      exact ⟨⟨[], by simp⟩, by simp⟩
  | cons item rest ih =>
      obtain ⟨mid, hFirst, hRest⟩ := bind_eq_ok_iff.mp hWrite
      obtain ⟨hSound, ⟨bs, hBytes⟩, hReads⟩ := hItem item List.mem_cons_self enc mid hMap hFirst
      obtain ⟨⟨more, hMore⟩, hTail⟩ :=
        ih (fun other hOther => hItem other (List.mem_cons_of_mem item hOther)) hSound hRest
      refine ⟨⟨bs ++ more, by rw [hMore, hBytes, List.append_assoc]⟩, fun tail p hTimes => ?_⟩
      rw [List.length_cons, times_succ] at hTimes
      obtain ⟨⟨got, next⟩, hRead, hTimes⟩ := bind_eq_ok_iff.mp hTimes
      obtain ⟨⟨others, last⟩, hOthers, hPair⟩ := bind_eq_ok_iff.mp hTimes
      obtain ⟨hList, -⟩ := Prod.mk.inj (Exec.ok.inj hPair)
      obtain ⟨rfl, rfl⟩ := List.cons.inj hList
      rw [hMore, List.append_assoc] at hRead
      obtain ⟨hGood, rfl⟩ := hReads (more ++ tail) next hRead
      exact List.forall_mem_cons.mpr ⟨hGood, hTail tail last hOthers⟩

/-! ## Messages -/

/-- Simple answers survive exactly if the data of each of them fits, and their
number the header. -/
theorem answers_survive_iff {m : Message} (hQuestions : ∀ q ∈ m.questions, LegibleName q.name)
    (hQuestionCount : m.questions.length < 65536) (hAnswers : ∀ r ∈ m.answers, r.Simple)
    (hAuthority : m.authority = []) (hAdditional : m.additional = []) :
    (∃ b m', m.encode = .ok b ∧ Message.parse b = .ok m' ∧ m'.answers = m.answers) ↔
      m.answers.length < 65536 ∧ ∀ r ∈ m.answers, r.data.Wf Spelled := by
  have hQuestion (q : Question) (hq : q ∈ m.questions) (enc : Encoder) (hMap : MapSound enc) :=
    writeQuestion_readsAs (hQuestions q hq) hMap
  constructor
  · rintro ⟨b, m', hEncode, hParse, hSame⟩
    obtain ⟨-, -, hCount, hAnswerCount, -⟩ := headerWords (encode_header hEncode)
    obtain ⟨enc1, enc2, enc3, enc4, hWrite1, hWrite2, hWrite3, hWrite4, rfl⟩ := encode_eq_ok hEncode
    rw [hAuthority] at hWrite3
    rw [hAdditional] at hWrite4
    cases hWrite3
    cases hWrite4
    obtain ⟨enc1', hAgain, hRead1⟩ := writeAll_readsAs id m.questions hQuestion
      (mapSound_new.push (headerBytes m))
    cases hWrite1.symm.trans hAgain
    obtain ⟨⟨bs, hBytes⟩, hGood⟩ := writeAll_of_reads
      (fun r hr _ _ hMap hWrite => (hAnswers r hr).of_read hMap hWrite) hRead1.sound hWrite2
    have hTimes1 := hRead1.reads bs
    have hStart : (Encoder.new.push (headerBytes m)).out.length = 12 := headerBytes_length m
    rw [← hBytes, hStart, List.map_id] at hTimes1
    have hQuestionWord : (headerWord enc2.out 2).toNat = m.questions.length := by
      rw [hCount, UInt16.toNat_ofNat']
      omega
    obtain ⟨-, questions, answers, authority, records, p1, p2, p3, p4, hRead, hTimes2, -, -, rfl⟩ :=
      parse_eq_ok hParse
    rw [hQuestionWord, hTimes1] at hRead
    cases hRead
    obtain ⟨rcode, hFold⟩ := foldExtRcode_eq_withRcode ⟨headerOfFlags (headerWord enc2.out 0)
      (headerWord enc2.out 1), m.questions, answers, authority, records.map recoverOpt⟩
    rw [hFold] at hSame
    dsimp only at hSame hTimes2
    subst hSame
    have hLength := times_length hTimes2
    have hFits : m.answers.length < 65536 := hLength ▸ UInt16.toNat_lt _
    rw [← hLength] at hTimes2
    exact ⟨hFits, hGood [] p2 (by rwa [List.append_nil])⟩
  · rintro ⟨hCount, hWf⟩
    have hOnly : m.answers ++ m.authority ++ m.additional = m.answers := by
      rw [hAuthority, hAdditional, List.append_nil, List.append_nil]
    obtain ⟨b, hEncode, hParse⟩ := parse_encode_of_reads hQuestion
      (fun r hr _ hMap => (hAnswers r (hOnly ▸ hr)).readsAs (hWf r (hOnly ▸ hr)) hMap) hQuestionCount
      hCount (by simp [hAuthority]) (by simp [hAdditional])
    refine ⟨b, _, hEncode, hParse, ?_⟩
    obtain ⟨rcode, hFold⟩ := foldExtRcode_eq_withRcode m.onWire
    rw [hFold]
    exact (List.map_congr_left fun r hr => (hAnswers r hr).onWire).trans (List.map_id _)

end Dnsd.Proto
