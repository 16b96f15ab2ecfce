import Dnsd.Proto.MessageCodec
import Dnsd.Rust.NetParse

/-! Custom zones: authoritative answers from the records of the longest zone
that the name ends in. -/

namespace Dnsd.Resolve

open Proto

/-- A row of the table of zones: its identifier and its name. -/
structure Zone where
  id : Str
  name : Str

/-- A row of the table of records, its value still a text. -/
structure ZoneRecord where
  zoneId : Str
  name : Str
  rtype : String
  value : Str
  ttl : UInt32
  priority : UInt16

/-- The records of each zone, under its canonical name. -/
structure ZoneIndex where
  zones : HashMap Str (List ZoneRecord)

/-- `owner_name`: the name of a row is below its zone, and "@" stands for the zone itself.
-/
def ownerName (r : ZoneRecord) (zone : Str) : Str :=
  let zone := zone.trimEndMatches '.'
  if r.name = ['@'] then canonicalName zone
  else canonicalName (r.name.trimEndMatches '.' ++ '.' :: zone)

/-- `type_label`: the type as the rows of the zones name it, or a text that no row has. -/
def typeLabel (qtype : UInt16) : String :=
  match qtype with
  | 1 => "A"
  | 28 => "AAAA"
  | 5 => "CNAME"
  | 16 => "TXT"
  | 15 => "MX"
  | 2 => "NS"
  | 33 => "SRV"
  | 257 => "CAA"
  | _ => ""

/-- `parse().ok()` of a `u16`: a sign in front of the digits can be a plus. -/
def parseU16 (s : Str) : Option UInt16 := (Str.parseUnsigned 65536 s).map UInt16.ofNat

/-- `type_to_rdata`: the data that the value stands for, if it can be read. -/
def ZoneRecord.typeToRdata (r : ZoneRecord) : Option RData :=
  match r.rtype with
  | "A" => (Ipv4Addr.parse r.value).map .a
  | "AAAA" => (Ipv6Addr.parse r.value).map .aaaa
  | "CNAME" | "NS" | "PTR" | "DNAME" => some (.name (canonicalName r.value))
  | "TXT" => some (.txt [r.value.bytes])
  | "MX" => some (.mx r.priority (canonicalName r.value))
  | "SRV" =>
      match Str.splitWhitespace r.value with
      | [priority, weight, port, target] => do
          let priority ← parseU16 priority
          let weight ← parseU16 weight
          let port ← parseU16 port
          some (.srv priority weight port (canonicalName target))
      | _ => none
  | "CAA" =>
      match Str.splitWhitespace r.value with
      | [] => some (.caa 0 [] [])
      | tag :: value => some (.caa 0 tag (Str.bytes ([' '].intercalate value)))
  | _ => none

/-- `build_record`. A row with an unreadable value or an unknown type is left out. -/
def buildRecord (owner : Str) (r : ZoneRecord) : Option Record := do
  let data ← r.typeToRdata
  let rtype ← match r.rtype with
    | "A" => some 1
    | "AAAA" => some 28
    | "CNAME" => some 5
    | "TXT" => some 16
    | "MX" => some 15
    | "NS" => some 2
    | "SRV" => some 33
    | "CAA" => some 257
    | _ => none
  some ⟨owner, rtype, classIn, r.ttl, data⟩

/-- `make_response`: an authoritative answer without an authority section. -/
def makeResponse (q : Question) (answers : List Record) (rcode : UInt8) : Message where
  header := { qr := true, aa := true, rd := true, ra := true, rcode := rcode }
  questions := [q]
  answers := answers

namespace ZoneIndex

/-- `ZoneIndex::empty`, which answers nothing. -/
def empty : ZoneIndex := ⟨∅⟩

/-- A record of an unknown zone is left out. -/
def insert (names : HashMap Str Str) (index : ZoneIndex) (r : ZoneRecord) : ZoneIndex :=
  match names.get r.zoneId with
  | none => index
  | some name =>
      let zone := canonicalName name
      ⟨index.zones.insert zone ((index.zones.get zone).getD [] ++ [r])⟩

/-- `ZoneIndex::new`: a zone without records is not in the index. -/
def new (zones : List Zone) (records : List ZoneRecord) : ZoneIndex :=
  let names : HashMap Str Str := zones.foldl (fun names z => names.insert z.id z.name) ∅
  records.foldl (insert names) empty

/-- The longest zone that the canonical name ends in, with its records. -/
def findZone (index : ZoneIndex) (qname : Str) : Option (Str × List ZoneRecord) :=
  let n := canonicalName qname
  index.zones.entries.foldl (fun best e =>
    if (n = e.1 ∨ e.1 <:+ n) ∧ best.all fun b : Str × List ZoneRecord => b.1.len < e.1.len then
      some (e.1, e.2)
    else best) none

/-- What the records of the name itself give: answers of the type, a target. -/
def exact (recs : List ZoneRecord) (zone qname : Str) (qtype : UInt16) :
    List Record × Option Str :=
  let owned := recs.filter fun r => ownerName r zone = qname
  (owned.filterMap fun r => if r.rtype = typeLabel qtype then buildRecord qname r else none,
    (owned.find? fun r => r.rtype = "CNAME").map fun r => canonicalName r.value)

/-- An authoritative answer for a name under a zone; other names have none. -/
def respond (index : ZoneIndex) (q : Question) : Option Message :=
  (index.findZone q.name).map fun (zone, recs) =>
    let qname := canonicalName q.name
    match exact recs zone qname q.qtype with
    | (answer :: answers, _) => makeResponse q (answer :: answers) rcodeNoerror
    | ([], some target) =>
        makeResponse q [⟨qname, typeCname, classIn, 300, .name target⟩] rcodeNoerror
    | ([], none) =>
        let wildcard := recs.filterMap fun r =>
          if r.name = ['*'] ∧ r.rtype = typeLabel q.qtype then buildRecord qname r else none
        if wildcard ≠ [] then makeResponse q wildcard rcodeNoerror
        else makeResponse q [] rcodeNxdomain

/-- The answer repeats the question, and its records are in the answer section. -/
theorem respond_eq_some {index : ZoneIndex} {q : Question} {resp : Message}
    (h : index.respond q = some resp) : ∃ answers rcode, resp = makeResponse q answers rcode := by
  obtain ⟨⟨zone, recs⟩, _, rfl⟩ := Option.map_eq_some_iff.mp h
  dsimp only
  split
  · exact ⟨_, _, rfl⟩
  · exact ⟨_, _, rfl⟩
  · split_ifs
    · exact ⟨_, _, rfl⟩
    · exact ⟨_, _, rfl⟩

theorem respond_rcode {index : ZoneIndex} {q : Question} {resp : Message}
    (h : index.respond q = some resp) :
    resp.header.rcode = rcodeNoerror ∨ resp.header.rcode = rcodeNxdomain := by
  obtain ⟨⟨zone, recs⟩, _, rfl⟩ := Option.map_eq_some_iff.mp h
  dsimp only
  split
  · exact Or.inl rfl
  · exact Or.inl rfl
  · split_ifs
    · exact Or.inl rfl
    · exact Or.inr rfl

end ZoneIndex

end Dnsd.Resolve
