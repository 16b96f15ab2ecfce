import Dnsd.Proto.Message
import Dnsd.Proto.Name
import Dnsd.Rust.HashMap

/-! Encoding: names with suffix compression, record data and whole messages. -/

namespace Dnsd.Proto

/-- Bytes written so far, and the offset of every name suffix among them. -/
structure Encoder where
  out : Bytes
  nameMap : HashMap Str UInt16

namespace Encoder

/-- `Encoder::new`: nothing is written, and no suffix can be pointed at. -/
def new : Encoder := ⟨[], ∅⟩

/-- Bytes at the end of what is written. They are no names, so the table stays. -/
def push (enc : Encoder) (bs : Bytes) : Encoder := { enc with out := enc.out ++ bs }

@[simp] theorem push_out (enc : Encoder) (bs : Bytes) : (enc.push bs).out = enc.out ++ bs := rfl
@[simp] theorem push_nameMap (enc : Encoder) (bs : Bytes) :
    (enc.push bs).nameMap = enc.nameMap := rfl

end Encoder

/-- The longest suffix already in the map: the labels before it, its offset. -/
def findSuffix (map : HashMap Str UInt16) : List Str → Option (List Str × UInt16)
  | [] => none
  | label :: rest =>
      match map.get (dotted (label :: rest)) with
      | some off => some ([], off)
      | none => (findSuffix map rest).map fun (before, off) => (label :: before, off)

/-- The labels in front of a compression pointer. -/
def writePrefix (enc : Encoder) : List Str → Result Encoder
  | [] => .ok enc
  | label :: rest =>
      if 63 < label.len then .err (.encode "label too long")
      else writePrefix (enc.push (labelBytes label)) rest

/-- List a suffix in the map, as long as its offset fits the 14 bits of a pointer. -/
def Encoder.record (enc : Encoder) (key : Str) (labelStart : Nat) : Encoder :=
  if labelStart ≤ 0x3FFF then
    { enc with nameMap := enc.nameMap.insert key (UInt16.ofNat labelStart) }
  else enc

/-- A whole name, with the offset of each of its suffixes. -/
def writeFull (enc : Encoder) : List Str → Result Encoder
  | [] => .ok enc
  | label :: rest =>
      if 63 < label.len then .err (.encode "label too long")
      else
        let labelStart := enc.out.length
        let enc := enc.push (labelBytes label)
        writeFull (enc.record (dotted (label :: rest)) labelStart) rest

namespace Encoder

/-- `Encoder::write_name`: the name in lower case, each suffix by a pointer if it was
written before. -/
def writeName (enc : Encoder) (name : Str) : Result Encoder :=
  let name := canonicalName name
  if name = ['.'] then .ok (enc.push [0])
  else
    let labels := (name.trimEndMatches '.').splitOn '.'
    match findSuffix enc.nameMap labels with
    | some (before, off) => do
        let enc ← writePrefix enc before
        .ok (enc.push (0xC000 ||| off).toBeBytes)
    | none => do
        let enc ← writeFull enc labels
        .ok (enc.push [0])

/-- `Encoder::write_question`: a name, which may be compressed, then type and class. -/
def writeQuestion (enc : Encoder) (q : Question) : Result Encoder := do
  let enc ← enc.writeName q.name
  .ok ((enc.push q.qtype.toBeBytes).push q.qclass.toBeBytes)

end Encoder

/-- The names of one RDATA, written by an encoder of its own that starts empty. -/
def encodeNames : Encoder → List Str → Result Encoder
  | enc, [] => .ok enc
  | enc, name :: rest => do
      let enc ← enc.writeName name
      encodeNames enc rest

/-- Names of RDATA, written by an encoder of their own: its pointers count from the start
of the RDATA. -/
def encodeNamesAlone (names : List Str) : Result Bytes := do
  let tmp ← encodeNames Encoder.new names
  .ok tmp.out

/-- An option behind its code and its length. -/
def encodeOption (o : OptOption) : Bytes :=
  o.code.toBeBytes ++ (UInt16.ofNat o.data.length).toBeBytes ++ o.data

/-- `encode_opt_rdata`: the options one behind the other, each with its code and its
length. -/
def encodeOptRdata (r : Record) : Result Bytes :=
  match r.data with
  | .opt _ _ _ _ options => .ok (options.flatMap encodeOption)
  | _ => .err (.encode "OPT record missing Opt data")

/-- A string of a TXT record behind the byte of its length, which keeps the low bits of
it. -/
def encodeTxtString (s : Bytes) : Bytes := UInt8.ofNat s.length :: s

/-- `encode_rdata`, by the kind of the data. Names in it are written without regard to the
rest of the message. -/
def encodeRdata (d : RData) : Result Bytes :=
  match d with
  | .a ip => .ok ip.octets
  | .aaaa ip => .ok ip.octets
  | .name name => encodeNamesAlone [name]
  | .mx preference exchange => do
      let names ← encodeNamesAlone [exchange]
      .ok (preference.toBeBytes ++ names)
  | .soa mname rname serial refresh retry expire minimum => do
      let names ← encodeNamesAlone [mname, rname]
      .ok (names ++ serial.toBeBytes ++ refresh.toBeBytes ++ retry.toBeBytes ++
        expire.toBeBytes ++ minimum.toBeBytes)
  | .txt strings => .ok (strings.flatMap encodeTxtString)
  | .srv priority weight port target => do
      let names ← encodeNamesAlone [target]
      .ok (priority.toBeBytes ++ weight.toBeBytes ++ port.toBeBytes ++ names)
  | .caa flags tag value => .ok ([flags] ++ labelBytes tag ++ value)
  | .rrsig typeCovered algorithm labels originalTtl expiration inception keyTag
      signerName signature => do
      let names ← encodeNamesAlone [signerName]
      .ok (typeCovered.toBeBytes ++ [algorithm] ++ [labels] ++ originalTtl.toBeBytes ++
        expiration.toBeBytes ++ inception.toBeBytes ++ keyTag.toBeBytes ++ names ++ signature)
  | .nsec nextDomain typeBitmaps => do
      let names ← encodeNamesAlone [nextDomain]
      .ok (names ++ typeBitmaps)
  | .raw bytes => .ok bytes
  | .opt .. => .err (.encode "unexpected OPT in encode_rdata")

/-- The ttl field of an OPT record: extended code, version and flags. -/
def packOptTtl (extRcode version : UInt8) (flags : UInt16) : UInt32 :=
  (extRcode.toUInt32 <<< 24) ||| (version.toUInt32 <<< 16) ||| flags.toUInt32

namespace Encoder

/-- RDLENGTH and RDATA; `as u16` keeps the low bits of the length. -/
def pushRdata (enc : Encoder) (rdata : Bytes) : Encoder :=
  (enc.push (UInt16.ofNat rdata.length).toBeBytes).push rdata

/-- The body shared by every record that is not a well-formed OPT record. -/
def writePlain (enc : Encoder) (r : Record) : Result Encoder := do
  let enc := (enc.push r.rclass.toBeBytes).push r.ttl.toBeBytes
  let rdata ← encodeRdata r.data
  .ok (enc.pushRdata rdata)

/-- `Encoder::write_record`. An OPT record has its size and its flags where another has
class and time to live. -/
def writeRecord (enc : Encoder) (r : Record) : Result Encoder := do
  let enc ← enc.writeName r.name
  let enc := enc.push r.rtype.toBeBytes
  if r.rtype = typeOpt then
    match r.data with
    | .opt udpSize extRcode version flags _ => do
        let enc := (enc.push udpSize.toBeBytes).push (packOptTtl extRcode version flags).toBeBytes
        let payload ← encodeOptRdata r
        .ok (enc.pushRdata payload)
    | _ => enc.writePlain r
  else enc.writePlain r

/-- Some items, one behind the other, up to the first that cannot be written. -/
def writeAll {α : Type} (write : Encoder → α → Result Encoder) :
    Encoder → List α → Result Encoder
  | enc, [] => .ok enc
  | enc, item :: rest => do
      let enc ← write enc item
      writeAll write enc rest

end Encoder

/-- A flag in its place, and zero if it is not set. -/
def flagBit (b : Bool) (mask : UInt16) : UInt16 := if b then mask else 0

/-- The flag word of a header. Of the response code it has four bits. -/
def flagsOfHeader (h : Header) : UInt16 :=
  flagBit h.qr 0x8000 ||| ((h.opcode.toUInt16 &&& 0xF) <<< 11) ||| flagBit h.aa 0x0400 |||
    flagBit h.tc 0x0200 ||| flagBit h.rd 0x0100 ||| flagBit h.ra 0x0080 |||
    flagBit h.ad 0x0020 ||| flagBit h.cd 0x0010 ||| (h.rcode &&& 0xF).toUInt16

/-- The twelve header bytes; `as u16` keeps the low bits of each count. -/
def headerBytes (m : Message) : Bytes :=
  m.header.id.toBeBytes ++ (flagsOfHeader m.header).toBeBytes ++
    (UInt16.ofNat m.questions.length).toBeBytes ++ (UInt16.ofNat m.answers.length).toBeBytes ++
    (UInt16.ofNat m.authority.length).toBeBytes ++ (UInt16.ofNat m.additional.length).toBeBytes

/-- `Message::encode`: the header with the four counts, then the sections. The counts keep
the low bits of the lengths. -/
def Message.encode (m : Message) : Result Bytes := do
  let enc := Encoder.new.push (headerBytes m)
  let enc ← Encoder.writeAll Encoder.writeQuestion enc m.questions
  let enc ← Encoder.writeAll Encoder.writeRecord enc m.answers
  let enc ← Encoder.writeAll Encoder.writeRecord enc m.authority
  let enc ← Encoder.writeAll Encoder.writeRecord enc m.additional
  .ok enc.out

/-- The encoders behind the sections of an encoded message. -/
theorem encode_eq_ok {m : Message} {b : Bytes} (h : m.encode = .ok b) :
    ∃ enc1 enc2 enc3 enc4 : Encoder,
      Encoder.writeAll Encoder.writeQuestion (Encoder.new.push (headerBytes m)) m.questions = .ok enc1 ∧
      Encoder.writeAll Encoder.writeRecord enc1 m.answers = .ok enc2 ∧
      Encoder.writeAll Encoder.writeRecord enc2 m.authority = .ok enc3 ∧
      Encoder.writeAll Encoder.writeRecord enc3 m.additional = .ok enc4 ∧ b = enc4.out := by
  obtain ⟨enc1, hWrite1, h⟩ := Exec.bind_eq_ok_iff.mp h
  obtain ⟨enc2, hWrite2, h⟩ := Exec.bind_eq_ok_iff.mp h
  obtain ⟨enc3, hWrite3, h⟩ := Exec.bind_eq_ok_iff.mp h
  obtain ⟨enc4, hWrite4, h⟩ := Exec.bind_eq_ok_iff.mp h
  cases h
  exact ⟨enc1, enc2, enc3, enc4, hWrite1, hWrite2, hWrite3, hWrite4, rfl⟩

end Dnsd.Proto
