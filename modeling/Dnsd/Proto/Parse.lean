import Dnsd.Proto.Message
import Dnsd.Proto.Name

/-! Parsing: the cursor, compressed names, record data and whole messages. An
index or slice outside its buffer unwinds, and is kept apart from an error. -/

namespace Dnsd.Proto

open Bytes

/-! ## Cursor -/

/-- `Cursor`: bytes, and the place of the next one that is read. -/
structure Cursor where
  buf : Bytes
  pos : Nat

namespace Cursor

/-- `Cursor::remaining`: how many bytes there are behind the position. -/
def remaining (c : Cursor) : Nat := c.buf.length - c.pos

/-- `Cursor::u8`. All reads of the cursor check their bounds and fail with an error. -/
def u8 (c : Cursor) : Result (UInt8 × Cursor) :=
  if c.remaining < 1 then .err (.parse "truncated: u8")
  else do
    let v ← idx c.buf c.pos
    .ok (v, { c with pos := c.pos + 1 })

/-- `Cursor::u16`: two bytes in network order, or an error at the end of the buffer. -/
def u16 (c : Cursor) : Result (UInt16 × Cursor) :=
  if c.remaining < 2 then .err (.parse "truncated: u16")
  else do
    let b0 ← idx c.buf c.pos
    let b1 ← idx c.buf (c.pos + 1)
    .ok (UInt16.fromBeBytes [b0, b1], { c with pos := c.pos + 2 })

/-- `Cursor::u32`: four bytes in network order, or an error at the end of the buffer. -/
def u32 (c : Cursor) : Result (UInt32 × Cursor) :=
  if c.remaining < 4 then .err (.parse "truncated: u32")
  else do
    let b0 ← idx c.buf c.pos
    let b1 ← idx c.buf (c.pos + 1)
    let b2 ← idx c.buf (c.pos + 2)
    let b3 ← idx c.buf (c.pos + 3)
    .ok (UInt32.fromBeBytes [b0, b1, b2, b3], { c with pos := c.pos + 4 })

/-- `Cursor::bytes`: so many bytes as they are, or an error if there are fewer. -/
def bytes (c : Cursor) (n : Nat) : Result (Bytes × Cursor) :=
  if c.remaining < n then .err (.parse "truncated: bytes")
  else do
    let s ← slice c.buf c.pos (c.pos + n)
    .ok (s, { c with pos := c.pos + n })

end Cursor

/-! ## Names -/

section Names

/-! Names are lower-cased by the tables of any toolchain. -/

variable [Unicode.Tables]

/-- One run of the label loop. `guard` counts the turns left of the 256 that
are allowed; `pos` is where reading resumes once a pointer was followed. -/
def readLabels (buf : Bytes) : Nat → Nat → Bool → Nat → List Str → Result (List Str × Nat)
  | 0, _, _, _, _ => .err (.parse "name compression loop")
  | guard + 1, next, jumped, pos, labels =>
      if buf.length ≤ next then .err (.parse "name runs past end")
      else do
        let len ← idx buf next
        if len &&& 0xC0 = 0xC0 then
          if buf.length ≤ next + 1 then .err (.parse "truncated pointer")
          else do
            let low ← idx buf (next + 1)
            let ptr := ((len &&& 0x3F).toNat <<< 8) ||| low.toNat
            readLabels buf guard ptr true (if jumped then pos else next + 2) labels
        else if len &&& 0xC0 ≠ 0 then .err (.parse "bad label length")
        else if len = 0 then .ok (labels, if jumped then pos else next + 1)
        else if 63 < len.toNat ∨ buf.length < next + 1 + len.toNat then .err (.parse "bad label")
        else do
          let raw ← slice buf (next + 1) (next + 1 + len.toNat)
          let label := (Str.fromUtf8Lossy raw).toLowercase
          readLabels buf guard (next + 1 + len.toNat) jumped pos (labels ++ [label])

/-- A possibly compressed name; pointers are offsets into the whole message. -/
def readName (buf : Bytes) (pos : Nat) : Result (Str × Nat) := do
  let (labels, pos) ← readLabels buf 256 pos false pos []
  .ok (if labels.isEmpty then ['.'] else dotted labels, pos)

end Names

/-- `read_u16_at`: two bytes in network order at a place, with the place behind them. -/
def readU16At (buf : Bytes) (pos : Nat) : Result (UInt16 × Nat) :=
  if buf.length < pos + 2 then .err (.parse "truncated u16")
  else do
    let b0 ← idx buf pos
    let b1 ← idx buf (pos + 1)
    .ok (UInt16.fromBeBytes [b0, b1], pos + 2)

/-- `read_u32_at`: four bytes in network order at a place, with the place behind them. -/
def readU32At (buf : Bytes) (pos : Nat) : Result (UInt32 × Nat) :=
  if buf.length < pos + 4 then .err (.parse "truncated u32")
  else do
    let b0 ← idx buf pos
    let b1 ← idx buf (pos + 1)
    let b2 ← idx buf (pos + 2)
    let b3 ← idx buf (pos + 3)
    .ok (UInt32.fromBeBytes [b0, b1, b2, b3], pos + 4)

/-! ## Record data -/

/-- The data of an A record, which are four bytes and no more. -/
def parseA (c : Cursor) (len : Nat) : Result RData :=
  if len ≠ 4 then .err (.parse "A rdata len != 4")
  else do
    let (b, _) ← c.bytes 4
    let b0 ← idx b 0
    let b1 ← idx b 1
    let b2 ← idx b 2
    let b3 ← idx b 3
    .ok (.a ⟨b0, b1, b2, b3⟩)

/-- The copy into a `[u8; 16]` unwinds when the lengths differ. -/
def parseAaaa (c : Cursor) (len : Nat) : Result RData :=
  if len ≠ 16 then .err (.parse "AAAA rdata len != 16")
  else do
    let (b, _) ← c.bytes 16
    if h : b.length = 16 then .ok (.aaaa ⟨b, h⟩) else .panicked

/-- A single name, read from the whole message: it may point out of the data. -/
def parseNameRdata (buf : Bytes) (start : Nat) : Result RData := do
  let (name, _) ← readName buf start
  .ok (.name name)

/-- The preference is read in the data, the name from the whole message. -/
def parseMx (buf : Bytes) (start : Nat) (c : Cursor) : Result RData := do
  let (preference, _) ← c.u16
  let (exchange, _) ← readName buf (start + 2)
  .ok (.mx preference exchange)

/-- `u32::from_be_bytes([buf[p], .., buf[p + 3]])`, with no length check. -/
def rawU32 (buf : Bytes) (p : Nat) : Result UInt32 := do
  let b0 ← idx buf p
  let b1 ← idx buf (p + 1)
  let b2 ← idx buf (p + 2)
  let b3 ← idx buf (p + 3)
  .ok (UInt32.fromBeBytes [b0, b1, b2, b3])

/-- Two names and five numbers. The numbers are read behind the names without a check,
wherever these end. -/
def parseSoa (buf : Bytes) (start : Nat) : Result RData := do
  let (mname, p) ← readName buf start
  let (rname, p) ← readName buf p
  let serial ← rawU32 buf p
  let refresh ← rawU32 buf (p + 4)
  let retry ← rawU32 buf (p + 8)
  let expire ← rawU32 buf (p + 12)
  let minimum ← rawU32 buf (p + 16)
  .ok (.soa mname rname serial refresh retry expire minimum)

/-- `while c.remaining() > 0`. A turn takes at least the length byte, so as
many turns as there are bytes always reach the end of the loop. -/
def txtStrings : Nat → Cursor → Result (List Bytes)
  | 0, _ => .ok []
  | turns + 1, c =>
      if c.remaining = 0 then .ok []
      else do
        let (l, c) ← c.u8
        let (s, c) ← c.bytes l.toNat
        let rest ← txtStrings turns c
        .ok (s :: rest)

/-- Strings behind their lengths, up to the end of the data. -/
def parseTxt (c : Cursor) : Result RData := do
  let strings ← txtStrings c.remaining c
  .ok (.txt strings)

/-- Three numbers of the data and a name from the whole message. -/
def parseSrv (buf : Bytes) (start : Nat) (c : Cursor) : Result RData := do
  let (priority, c) ← c.u16
  let (weight, c) ← c.u16
  let (port, _) ← c.u16
  let (target, _) ← readName buf (start + 6)
  .ok (.srv priority weight port target)

/-- A flag, a tag and all the rest as the value. -/
def parseCaa (c : Cursor) : Result RData := do
  let (flags, c) ← c.u8
  let (tagLen, c) ← c.u8
  let (tag, c) ← c.bytes tagLen.toNat
  let (value, _) ← c.bytes c.remaining
  .ok (.caa flags (Str.fromUtf8Lossy tag) value)

/-- The fixed fields are read in the data, the signer's name from the whole message, and
the signature is what is left of the data behind it. -/
def parseRrsig (buf : Bytes) (start len : Nat) (c : Cursor) : Result RData := do
  let (typeCovered, c) ← c.u16
  let (algorithm, c) ← c.u8
  let (labels, c) ← c.u8
  let (originalTtl, c) ← c.u32
  let (expiration, c) ← c.u32
  let (inception, c) ← c.u32
  let (keyTag, _) ← c.u16
  let (signerName, sigStart) ← readName buf (start + 18)
  let signature ← slice buf sigStart (start + len)
  .ok (.rrsig typeCovered algorithm labels originalTtl expiration inception keyTag
    signerName signature)

/-- The next name, and what is left of the data behind it. -/
def parseNsec (buf : Bytes) (start len : Nat) : Result RData := do
  let (nextDomain, p) ← readName buf start
  let typeBitmaps ← slice buf p (start + len)
  .ok (.nsec nextDomain typeBitmaps)

/-- `while c.remaining() >= 4`. A turn takes at least the four bytes of the
option header. -/
def optOptions : Nat → Cursor → Result (List OptOption)
  | 0, _ => .ok []
  | turns + 1, c =>
      if c.remaining < 4 then .ok []
      else do
        let (code, c) ← c.u16
        let (len, c) ← c.u16
        let (data, c) ← c.bytes len.toNat
        let rest ← optOptions turns c
        .ok (⟨code, data⟩ :: rest)

/-- The fixed OPT fields live in the record's class and ttl and are zero here. -/
def parseOptRdata (c : Cursor) : Result RData := do
  let options ← optOptions c.remaining c
  .ok (.opt 0 0 0 0 options)

/-- The data of a type that is not taken apart. -/
def parseRaw (buf : Bytes) (start len : Nat) : Result RData := do
  let raw ← slice buf start (start + len)
  .ok (.raw raw)

/-- `parse_rdata`: the data by the type. A window over the data bounds only the reads of
the cursor. -/
def parseRdata (buf : Bytes) (start len : Nat) (rtype : UInt16) : Result RData := do
  let window ← slice buf start (start + len)
  let c : Cursor := ⟨window, 0⟩
  match rdataKind rtype with
  | .a => parseA c len
  | .aaaa => parseAaaa c len
  | .name => parseNameRdata buf start
  | .mx => parseMx buf start c
  | .soa => parseSoa buf start
  | .txt => parseTxt c
  | .srv => parseSrv buf start c
  | .caa => parseCaa c
  | .rrsig => parseRrsig buf start len c
  | .nsec => parseNsec buf start len
  | .opt => parseOptRdata c
  | .raw => parseRaw buf start len

/-- `read_record`: the parsing goes on behind the data as their length says, whatever was
read for them. -/
def readRecord (buf : Bytes) (pos : Nat) : Result (Record × Nat) := do
  let (name, pos) ← readName buf pos
  let (rtype, pos) ← readU16At buf pos
  let (rclass, pos) ← readU16At buf pos
  let (ttl, pos) ← readU32At buf pos
  let (rdlen, pos) ← readU16At buf pos
  if buf.length < pos + rdlen.toNat then .err (.parse "rdata past end")
  else do
    let data ← parseRdata buf pos rdlen.toNat rtype
    .ok (⟨name, rtype, rclass, ttl, data⟩, pos + rdlen.toNat)

/-! ## Messages -/

/-- A question; its class is read and kept, but never checked. -/
def readQuestion (buf : Bytes) (pos : Nat) : Result (Question × Nat) := do
  let (name, pos) ← readName buf pos
  let (qtype, c) ← Cursor.u16 ⟨buf, pos⟩
  let (qclass, c) ← c.u16
  .ok (⟨name, qtype, qclass⟩, c.pos)

/-- The fixed fields of an OPT record, recovered from its class and ttl. -/
def recoverOpt (rec : Record) : Record :=
  if rec.rtype = typeOpt then
    match rec.data with
    | .opt _ _ _ _ options =>
        let udpSize := rec.rclass
        let extRcode := ((rec.ttl >>> 24) &&& 0xFF).toUInt8
        let version := ((rec.ttl >>> 16) &&& 0xFF).toUInt8
        let flags := (rec.ttl &&& 0xFFFF).toUInt16
        { rec with data := .opt udpSize extRcode version flags options }
    | _ => rec
  else rec

/-- A record of the additional section, where an OPT record is recognised by its type. -/
def readAdditional (buf : Bytes) (pos : Nat) : Result (Record × Nat) := do
  let (rec, pos) ← readRecord buf pos
  .ok (recoverOpt rec, pos)

theorem times_readAdditional (buf : Bytes) (n pos : Nat) :
    Exec.times (readAdditional buf) n pos =
      Exec.times (readRecord buf) n pos >>= fun r => .ok (r.1.map recoverOpt, r.2) :=
  Exec.times_map (readRecord buf) recoverOpt n pos

/-- The header that a flag word stands for. -/
def headerOfFlags (id flags : UInt16) : Header where
  id := id
  qr := flags &&& 0x8000 ≠ 0
  opcode := ((flags >>> 11) &&& 0xF).toUInt8
  aa := flags &&& 0x0400 ≠ 0
  tc := flags &&& 0x0200 ≠ 0
  rd := flags &&& 0x0100 ≠ 0
  ra := flags &&& 0x0080 ≠ 0
  ad := flags &&& 0x0020 ≠ 0
  cd := flags &&& 0x0010 ≠ 0
  rcode := (flags &&& 0xF).toUInt8

/-- Fold the extended response code of the first OPT record into the header. -/
def foldExtRcode (m : Message) : Message :=
  match m.edns with
  | some opt =>
      match opt.data with
      | .opt _ extRcode _ _ _ =>
          { m with header := { m.header with rcode := m.header.rcode ||| (extRcode <<< 4) } }
      | _ => m
  | none => m

/-- Only the response code changes. -/
theorem foldExtRcode_eq_withRcode (m : Message) :
    ∃ rcode, foldExtRcode m = { m with header := { m.header with rcode := rcode } } := by
  rw [foldExtRcode]
  split
  · split
    · exact ⟨_, rfl⟩
    · exact ⟨m.header.rcode, rfl⟩
  · exact ⟨m.header.rcode, rfl⟩

/-- `Message::parse`: the header, then as many records of each section as the counts say.
-/
def Message.parse (buf : Bytes) : Result Message :=
  let c : Cursor := ⟨buf, 0⟩
  if c.remaining < 12 then .err (.parse "message shorter than header")
  else do
    let (id, c) ← c.u16
    let (flags, c) ← c.u16
    let (qd, c) ← c.u16
    let (an, c) ← c.u16
    let (ns, c) ← c.u16
    let (ar, c) ← c.u16
    let (questions, pos) ← Exec.times (readQuestion buf) qd.toNat c.pos
    let (answers, pos) ← Exec.times (readRecord buf) an.toNat pos
    let (authority, pos) ← Exec.times (readRecord buf) ns.toNat pos
    let (additional, _) ← Exec.times (readAdditional buf) ar.toNat pos
    .ok (foldExtRcode ⟨headerOfFlags id flags, questions, answers, authority, additional⟩)

/-! ## The fixed header -/

/-- The `k`-th sixteen-bit word of a buffer, in network order. Of a header there are six.
-/
def headerWord (buf : Bytes) (k : Nat) : UInt16 :=
  UInt16.fromBeBytes [buf.getD (2 * k) 0, buf.getD (2 * k + 1) 0]

theorem Cursor.u16_of_le {buf : Bytes} {pos : Nat} (h : pos + 2 ≤ buf.length) :
    Cursor.u16 ⟨buf, pos⟩ =
      .ok (UInt16.fromBeBytes [buf.getD pos 0, buf.getD (pos + 1) 0], ⟨buf, pos + 2⟩) := by
  have hRoom : ¬ remaining ⟨buf, pos⟩ < 2 := by
    simp only [remaining]
    omega
  rw [u16, if_neg hRoom]
  dsimp only
  rw [idx_getD (by omega), Exec.ok_bind, idx_getD (by omega)]
  rfl

/-- With a complete header, parsing is its four loops over the counted items. -/
theorem parse_of_header {buf : Bytes} (h : 12 ≤ buf.length) :
    Message.parse buf = (do
      let (questions, pos) ← Exec.times (readQuestion buf) (headerWord buf 2).toNat 12
      let (answers, pos) ← Exec.times (readRecord buf) (headerWord buf 3).toNat pos
      let (authority, pos) ← Exec.times (readRecord buf) (headerWord buf 4).toNat pos
      let (additional, _) ← Exec.times (readAdditional buf) (headerWord buf 5).toNat pos
      .ok (foldExtRcode ⟨headerOfFlags (headerWord buf 0) (headerWord buf 1), questions, answers,
        authority, additional⟩)) := by
  have hRoom : ¬ Cursor.remaining ⟨buf, 0⟩ < 12 := by
    simp only [Cursor.remaining]
    omega
  unfold Message.parse
  rw [if_neg hRoom]
  rw [Cursor.u16_of_le (by omega), Exec.ok_bind]
  dsimp only
  rw [Cursor.u16_of_le (by omega), Exec.ok_bind]
  dsimp only
  rw [Cursor.u16_of_le (by omega), Exec.ok_bind]
  dsimp only
  rw [Cursor.u16_of_le (by omega), Exec.ok_bind]
  dsimp only
  rw [Cursor.u16_of_le (by omega), Exec.ok_bind]
  dsimp only
  rw [Cursor.u16_of_le (by omega), Exec.ok_bind]
  rfl

theorem parse_of_short {buf : Bytes} (h : buf.length < 12) :
    Message.parse buf = .err (.parse "message shorter than header") := by
  have hRoom : Cursor.remaining ⟨buf, 0⟩ < 12 := by
    simp only [Cursor.remaining]
    omega
  unfold Message.parse
  rw [if_pos hRoom]

/-- The parts of a parsed message, each from where the one before it ends. -/
theorem parse_eq_ok {buf : Bytes} {m : Message} (h : Message.parse buf = .ok m) :
    12 ≤ buf.length ∧ ∃ questions answers authority records p1 p2 p3 p4,
      Exec.times (readQuestion buf) (headerWord buf 2).toNat 12 = .ok (questions, p1) ∧
      Exec.times (readRecord buf) (headerWord buf 3).toNat p1 = .ok (answers, p2) ∧
      Exec.times (readRecord buf) (headerWord buf 4).toNat p2 = .ok (authority, p3) ∧
      Exec.times (readRecord buf) (headerWord buf 5).toNat p3 = .ok (records, p4) ∧
      m = foldExtRcode ⟨headerOfFlags (headerWord buf 0) (headerWord buf 1), questions, answers,
        authority, records.map recoverOpt⟩ := by
  by_cases hShort : buf.length < 12
  · rw [parse_of_short hShort] at h
    cases h
  · rw [parse_of_header (by omega)] at h
    obtain ⟨⟨questions, p1⟩, hQuestions, h⟩ := Exec.bind_eq_ok_iff.mp h
    obtain ⟨⟨answers, p2⟩, hAnswers, h⟩ := Exec.bind_eq_ok_iff.mp h
    obtain ⟨⟨authority, p3⟩, hAuthority, h⟩ := Exec.bind_eq_ok_iff.mp h
    obtain ⟨⟨additional, p4⟩, hAdditional, h⟩ := Exec.bind_eq_ok_iff.mp h
    rw [times_readAdditional] at hAdditional
    obtain ⟨⟨records, p5⟩, hRecords, hPair⟩ := Exec.bind_eq_ok_iff.mp hAdditional
    cases hPair
    cases h
    exact ⟨by omega, questions, answers, authority, records, p1, p2, p3, _, hQuestions, hAnswers,
      hAuthority, hRecords, rfl⟩

end Dnsd.Proto
