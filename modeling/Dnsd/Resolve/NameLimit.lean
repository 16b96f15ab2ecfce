import Dnsd.Proto.WireNames
import Dnsd.Resolve.Pipeline
import Dnsd.Rust.AsciiCase

/-! The length check on the name of a query. It measures the text of the name, and
the limit is one on the octets that the name takes on the wire. -/

namespace Dnsd.Resolve

open Proto Bytes

/-! ## The length of a name -/

/-- The octets of a name on the wire, without compression. -/
def wireLength (labels : List Bytes) : Nat := (labels.map fun raw => raw.length + 1).sum + 1

/-- Printable ASCII without dots, so that a label has as many characters as octets. -/
def PrintableLabel (raw : Bytes) : Prop :=
  ∀ b ∈ raw, 0x20 ≤ b.toNat ∧ b.toNat ≤ 0x7E ∧ b.toNat ≠ 0x2E

instance (raw : Bytes) : Decidable (PrintableLabel raw) := List.decidableBAll _ raw

theorem PrintableLabel.text_len {raw : Bytes} (h : PrintableLabel raw) :
    (labelText raw).len = raw.length := by
  have hAscii : ∀ b ∈ raw, b.toNat < 0x80 := fun b hb => by
    have := h b hb
    omega
  have hDecoded : ∀ c ∈ raw.map fun b => Char.ofNat b.toNat, c.toNat < 0x80 := by
    intro c hc
    obtain ⟨b, hb, rfl⟩ := List.mem_map.mp hc
    rw [Str.toNat_ofNat_ascii (hAscii b hb)]
    exact hAscii b hb
  rw [labelText, Str.fromUtf8Lossy_ascii hAscii,
    Str.toLowercase_of_asciiCased fun c hc => Or.inl (hDecoded c hc), Str.len_ascii, List.length_map,
    List.length_map]
  intro c hc
  obtain ⟨d, hd, rfl⟩ := List.mem_map.mp hc
  exact Char.toLower_lt (hDecoded d hd)

/-- The text of a name is one octet shorter than the name on the wire, but for the
root. -/
theorem nameText_len {labels : List Bytes} (h : ∀ raw ∈ labels, PrintableLabel raw)
    (hNil : labels ≠ []) : (nameText (labels.map labelText)).len + 1 = wireLength labels := by
  have hTexts : labels.map labelText ≠ [] := by simpa using hNil
  have hLengths : (labels.map labelText).map (fun l => l.len + 1) =
      labels.map fun raw => raw.length + 1 := by
    rw [List.map_map]
    exact List.map_congr_left fun raw hRaw => congrArg (· + 1) (h raw hRaw).text_len
  rw [nameText, if_neg (by simpa using hTexts), dotted_len hTexts, hLengths, wireLength]

/-- The check is one octet short of the limit. -/
theorem textTooLong_iff {labels : List Bytes} (h : ∀ raw ∈ labels, PrintableLabel raw) :
    253 < (nameText (labels.map labelText)).len ↔ 255 ≤ wireLength labels := by
  by_cases hNil : labels = []
  · subst hNil
    decide
  · have hLength := nameText_len h hNil
    omega

/-! ## Queries -/

/-- A query with these labels in the name of its first question. -/
structure Names (call : Call) (req : Message) (q : Question) (labels : List Bytes) : Prop where
  parse : Message.parse call.raw = .ok req
  query : req.header.qr = false
  question : req.question = some q
  name : ∃ turns stop, NameAt call.raw turns 12 labels stop
  printable : ∀ raw ∈ labels, PrintableLabel raw

/-- The name of the first question is behind the header. -/
theorem parse_question {buf : Bytes} {m : Message} {q : Question} (h : Message.parse buf = .ok m)
    (hQuestion : m.question = some q) : ∃ stop, readName buf 12 = .ok (q.name, stop) := by
  obtain ⟨-, questions, answers, authority, records, p1, p2, p3, p4, hQuestions, -, -, -, rfl⟩ :=
    parse_eq_ok h
  obtain ⟨rcode, hFolded⟩ := foldExtRcode_eq_withRcode ⟨headerOfFlags (headerWord buf 0)
    (headerWord buf 1), questions, answers, authority, records.map recoverOpt⟩
  rw [hFolded] at hQuestion
  cases hCount : (headerWord buf 2).toNat with
  | zero =>
      rw [hCount, Exec.times_zero] at hQuestions
      cases hQuestions
      cases hQuestion
  | succ n =>
      rw [hCount, Exec.times_succ] at hQuestions
      obtain ⟨first, hFirst, hQuestions⟩ := Exec.bind_eq_ok_iff.mp hQuestions
      obtain ⟨rest, -, hPair⟩ := Exec.bind_eq_ok_iff.mp hQuestions
      cases hPair
      cases hQuestion
      rw [readQuestion] at hFirst
      obtain ⟨⟨name, stop⟩, hName, hFirst⟩ := Exec.bind_eq_ok_iff.mp hFirst
      obtain ⟨qtype, -, hFirst⟩ := Exec.bind_eq_ok_iff.mp hFirst
      obtain ⟨qclass, -, hFirst⟩ := Exec.bind_eq_ok_iff.mp hFirst
      cases hFirst
      exact ⟨stop, hName⟩

theorem Names.text {call : Call} {req : Message} {q : Question} {labels : List Bytes}
    (h : Names call req q labels) : q.name = nameText (labels.map labelText) := by
  obtain ⟨stop, hRead⟩ := parse_question h.parse h.question
  obtain ⟨turns, raws, hName, -, hText⟩ := readName_eq_ok_iff.mp hRead
  obtain ⟨turns', stop', hName'⟩ := h.name
  obtain ⟨-, rfl, -⟩ := hName.unique hName'
  exact hText

/-- Refused though the rate limiter admits the client. -/
def RefusedAtLength (s : Settings) (call : Call) : Prop :=
  ∃ resp info, judge s { call with allowed := true } = .ok (.echo resp, info) ∧
    resp.header.rcode = rcodeRefused

/-- Left to the block list, the zones or the cache, if the rate limiter admits the
client. -/
def Served (s : Settings) (call : Call) : Prop :=
  ∃ v info, judge s { call with allowed := true } = .ok (v, info) ∧
    ((∃ resp, v = .blocked resp) ∨ (∃ resp, v = .zone resp) ∨ ∃ l, v = .lookup l)

theorem applyPolicy_served (s : Settings) (call : Call) (req : Message) (q : Question)
    (info : RespMeta) : ∃ v info', applyPolicy s call req q info = (v, info') ∧
      ((∃ resp, v = .blocked resp) ∨ (∃ resp, v = .zone resp) ∨ ∃ l, v = .lookup l) := by
  rw [applyPolicy]
  dsimp only
  split
  · exact ⟨_, _, rfl, .inl ⟨_, rfl⟩⟩
  · split
    · exact ⟨_, _, rfl, .inr (.inl ⟨_, rfl⟩)⟩
    · exact ⟨_, _, rfl, .inr (.inr ⟨_, rfl⟩)⟩

/-- What becomes of a query that is within the rate. -/
theorem judge_admitted {call : Call} {req : Message} {q : Question} {labels : List Bytes}
    (h : Names call req q labels) (s : Settings) :
    (RefusedAtLength s call ↔ 253 < q.name.len) ∧
      (q.name.len ≤ 253 → otherVersion req = false → Served s call) := by
  obtain ⟨v, info, hPolicy, hServed⟩ := applyPolicy_served s { call with allowed := true } req q
    { qname := canonicalName q.name, qtype := typeToString q.qtype }
  have hJudge : judge s { call with allowed := true } =
      if 253 < q.name.len then
        .ok (.echo { header := { id := req.header.id, qr := true, rcode := rcodeRefused }
                     questions := req.questions },
          { qname := canonicalName q.name, qtype := typeToString q.qtype, rcode := "REFUSED" })
      else if otherVersion req then
        .ok (badvers req { qname := canonicalName q.name, qtype := typeToString q.qtype })
      else .ok (v, info) := by
    rw [judge, h.parse]
    dsimp only
    rw [if_neg (by rw [h.query]; decide), h.question]
    dsimp only
    rw [refuse, h.parse, hPolicy]
    rfl
  rw [RefusedAtLength, Served, hJudge]
  constructor
  · constructor
    · rintro ⟨resp, info', hVerdict, hRcode⟩
      by_contra hShort
      rw [if_neg hShort] at hVerdict
      split at hVerdict
      · cases hVerdict
        exact absurd (show (16 : UInt8) = rcodeRefused from hRcode) (by decide)
      · cases hVerdict
        rcases hServed with ⟨_, hv⟩ | ⟨_, hv⟩ | ⟨_, hv⟩ <;> cases hv
    · intro hLong
      rw [if_pos hLong]
      exact ⟨_, _, rfl, rfl⟩
  · intro hShort hVersion
    rw [if_neg (Nat.not_lt.mpr hShort), if_neg (by rw [hVersion]; decide)]
    exact ⟨v, info, rfl, hServed⟩

/-- The check keeps to the limit on names: it refuses those that are longer, and a
name up to the limit is served. -/
def KeepsLimit (s : Settings) (call : Call) (req : Message) (labels : List Bytes) : Prop :=
  (RefusedAtLength s call ↔ 255 < wireLength labels) ∧
    (wireLength labels ≤ 255 → otherVersion req = false → Served s call)

/-- The check refuses the names beyond the limit and lets the others be served, but for
those of 255 octets, which are within the limit and are refused. -/
theorem keepsLimit_iff {call : Call} {req : Message} {q : Question} {labels : List Bytes}
    (h : Names call req q labels) (s : Settings) :
    KeepsLimit s call req labels ↔ wireLength labels ≠ 255 := by
  obtain ⟨hRefused, hServed⟩ := judge_admitted h s
  have hCheck := textTooLong_iff h.printable
  rw [← h.text] at hCheck
  rw [KeepsLimit, hRefused, hCheck]
  constructor
  · rintro ⟨hLimit, -⟩ hLongest
    omega
  · intro hOther
    exact ⟨by omega, fun hLegal => hServed (by omega)⟩

/-! ## The boundary -/

/-- A query for the address of a name in full. -/
def addressCall (names : List Str) : Call :=
  ⟨[0, 7, 1, 0, 0, 1, 0, 0, 0, 0, 0, 0] ++ wireName names ++ [0, 1, 0, 1], .v4 Ipv4Addr.localhost,
    true, fun _ _ => none⟩

/-- A message that asks for the addresses of some names. -/
def addressQuery (names : List Str) : Message where
  header := { id := 7, rd := true }
  questions := [⟨nameText names, typeA, classIn⟩]

theorem names_addressCall (names : List Str)
    (hParse : Message.parse (addressCall names).raw = .ok (addressQuery names))
    (hNames : ∀ l ∈ names, l ≠ [] ∧ l.len ≤ 63)
    (hPrintable : ∀ raw ∈ names.map Str.bytes, PrintableLabel raw) :
    Names (addressCall names) (addressQuery names) ⟨nameText names, typeA, classIn⟩
      (names.map Str.bytes) where
  parse := hParse
  query := rfl
  question := rfl
  name := ⟨_, _, nameAt_wireName ⟨_, _, rfl, rfl⟩ hNames⟩
  printable := hPrintable

/-- Three labels of 63 letters and one of `n`. -/
def longName (n : Nat) : List Str :=
  [List.replicate 63 'a', List.replicate 63 'b', List.replicate 63 'c', List.replicate n 'd']

/-- A name of 254 octets is within the limit, and it is served as it should be. -/
theorem keepsLimit_second :
    wireLength ((longName 60).map Str.bytes) = 254 ∧
      KeepsLimit plainSettings (addressCall (longName 60)) (addressQuery (longName 60))
        ((longName 60).map Str.bytes) :=
  ⟨by decide, (keepsLimit_iff (names_addressCall (longName 60) (by decide +kernel) (by decide) (by decide))
    plainSettings).mpr (by decide)⟩

/-- A name of 255 octets, which is the limit, is refused: the check is stricter by one
octet. -/
theorem not_keepsLimit_longest :
    ¬∀ (call : Call) (req : Message) (q : Question) (labels : List Bytes) (s : Settings),
      Names call req q labels → KeepsLimit s call req labels := by
  intro h
  have hNames := names_addressCall (longName 61) (by decide +kernel) (by decide) (by decide)
  have hRefused := ((judge_admitted hNames plainSettings).1).mpr (by decide +kernel)
  exact absurd ((h _ _ _ _ plainSettings hNames).1.mp hRefused) (by decide)

end Dnsd.Resolve
