import Dnsd.Rust.BufReader
import Dnsd.Rust.Text
import Dnsd.Rust.Window
import Dnsd.Rust.Words

/-! The log of the second cache level: the bytes of a record, the sequential
reader of records, and what that reader makes of a written log. -/

namespace Dnsd.Cache

open Bytes

/-- The first byte of every record; a replay stops in front of any other. -/
def magic : UInt8 := 0xA5

/-- The bytes of magic, key_len, val_len, expire_at_ms and crc. -/
def headerLen : Nat := 1 + 4 + 4 + 8 + 4

/-- `fnv64`, of which the low half is the checksum. -/
def fnv64 (data : Bytes) : UInt64 :=
  data.foldl (fun h b => (h ^^^ b.toUInt64) * 0x100000001b3) 0xcbf29ce484222325

/-- The checksum field over key, value and expiry. -/
def checksum (body : Bytes) (expireAtMs : Int64) : UInt32 :=
  (fnv64 (body ++ expireAtMs.toLeBytes)).toUInt32

/-- What one `put` writes: a key, a value and when it expires. -/
structure LogRecord where
  key : Str
  val : Bytes
  expireAtMs : Int64
  deriving DecidableEq

namespace LogRecord

/-- The bytes in front of the key: magic, the two lengths, the end of the lifetime and the
checksum. -/
def header (r : LogRecord) : Bytes :=
  [magic] ++ (UInt32.ofNat r.key.len).toLeBytes ++ (UInt32.ofNat r.val.length).toLeBytes ++
    r.expireAtMs.toLeBytes ++ (checksum (r.key.bytes ++ r.val) r.expireAtMs).toLeBytes

/-- A record as it is appended: the header, then the key, then the value. -/
def bytes (r : LogRecord) : Bytes := r.header ++ (r.key.bytes ++ r.val)

/-- Both lengths fit their field of the header. -/
structure Fits (r : LogRecord) : Prop where
  key : r.key.len < 2 ^ 32
  val : r.val.length < 2 ^ 32

@[simp] theorem header_length (r : LogRecord) : r.header.length = headerLen := by
  simp [header, headerLen]

theorem bytes_length (r : LogRecord) :
    r.bytes.length = headerLen + (r.key.len + r.val.length) := by
  simp [bytes, Str.len]

end LogRecord

/-- A record as the sequential reader hands it out. -/
structure RawRecord where
  offset : Nat
  key : Str
  valLen : UInt32
  expireAtMs : Int64
  raw : Bytes
  deriving DecidableEq

/-- The lengths in a header, as `usize`. -/
def keyLenOf (hdr : Bytes) : Nat := (UInt32.fromLeBytes ((hdr.drop 1).take 4)).toNat

/-- The length of the value that a header announces. -/
def valLenOf (hdr : Bytes) : Nat := (UInt32.fromLeBytes ((hdr.drop 5).take 4)).toNat

/-- The end of the lifetime that a header says. -/
def expireOf (hdr : Bytes) : Int64 := Int64.fromLeBytes ((hdr.drop 9).take 8)

/-- The checksum that a header says. It is over the key, the value and the expiry. -/
def crcOf (hdr : Bytes) : UInt32 := UInt32.fromLeBytes ((hdr.drop 17).take 4)

/-- `read_record`. The header is fetched by a single `read`, the body by
`read_exact`; every failure stops the caller's loop. -/
def readRecord (file : Bytes) (r : BufReader UInt8) (readOffset : Nat) :
    Option (RawRecord × BufReader UInt8 × Nat) :=
  let (hdr, r) := r.read file headerLen
  if hdr.length = 0 then none
  else if hdr.length < headerLen ∨ hdr.head? ≠ some magic then none
  else
    let bodyLen := keyLenOf hdr + valLenOf hdr
    match r.readExact file bodyLen with
    | none => none
    | some (body, r) =>
        if checksum body (expireOf hdr) ≠ crcOf hdr then none
        else
          some ({ offset := readOffset
                  key := Str.fromUtf8Lossy (body.take (keyLenOf hdr))
                  valLen := UInt32.ofNat (valLenOf hdr)
                  expireAtMs := expireOf hdr
                  raw := hdr ++ body }, r, readOffset + headerLen + bodyLen)

/-- `while let Some(rec) = read_record(..)`, in at most `turns` turns. -/
def readRecords (file : Bytes) : Nat → BufReader UInt8 → Nat → List RawRecord
  | 0, _, _ => []
  | turns + 1, r, readOffset =>
      match readRecord file r readOffset with
      | none => []
      | some (rec, r, readOffset) => rec :: readRecords file turns r readOffset

/-- All records that a fresh reader gets from a file. A turn takes at least a
header, so the length of the file bounds the turns. -/
def scan (b : Buffering) (file : Bytes) : List RawRecord :=
  readRecords file file.length (BufReader.new b) 0

/-! ## One record -/

namespace LogRecord

/-- The record that reading `r` at an offset gives. -/
def toRaw (r : LogRecord) (offset : Nat) : RawRecord where
  offset := offset
  key := r.key
  valLen := UInt32.ofNat r.val.length
  expireAtMs := r.expireAtMs
  raw := r.bytes

/-- The header holds both lengths in four bytes each. -/
theorem header_lengths (r : LogRecord) :
    keyLenOf r.header = r.key.len % 2 ^ 32 ∧ valLenOf r.header = r.val.length % 2 ^ 32 := by
  have hAt := At.self r.header
  have hKey : At r.header 1 (UInt32.ofNat r.key.len).toLeBytes := hAt.left.left.left.right
  have hVal : At r.header 5 (UInt32.ofNat r.val.length).toLeBytes := by
    simpa using hAt.left.left.right
  refine ⟨?_, ?_⟩
  · rw [keyLenOf, hKey.take_drop (by simp), UInt32.fromLeBytes_toLeBytes, UInt32.toNat_ofNat']
  · rw [valLenOf, hVal.take_drop (by simp), UInt32.fromLeBytes_toLeBytes, UInt32.toNat_ofNat']

theorem header_fields {r : LogRecord} (h : r.Fits) :
    r.header.head? = some magic ∧ keyLenOf r.header = r.key.len ∧
      valLenOf r.header = r.val.length ∧ expireOf r.header = r.expireAtMs ∧
      crcOf r.header = checksum (r.key.bytes ++ r.val) r.expireAtMs := by
  have hAt := At.self r.header
  have hExpire : At r.header 9 r.expireAtMs.toLeBytes := by
    simpa using hAt.left.right
  have hCrc : At r.header 17 (checksum (r.key.bytes ++ r.val) r.expireAtMs).toLeBytes := by
    simpa using hAt.right
  obtain ⟨hKeyLen, hValLen⟩ := r.header_lengths
  refine ⟨rfl, ?_, ?_, ?_, ?_⟩
  · rw [hKeyLen, Nat.mod_eq_of_lt h.key]
  · rw [hValLen, Nat.mod_eq_of_lt h.val]
  · rw [expireOf, hExpire.take_drop (by simp), Int64.fromLeBytes_toLeBytes]
  · rw [crcOf, hCrc.take_drop (by simp), UInt32.fromLeBytes_toLeBytes]

end LogRecord

/-- Where the fetches of a reader have come to behind a record at `o`, when they had come
to `stop` in front of it: the header is one read, the body another. -/
def LogRecord.reach (r : LogRecord) (b : Buffering) (o stop : Nat) : Nat :=
  b.reach (b.reach stop (o + headerLen)) (o + r.bytes.length)

variable {file : Bytes} {rd : BufReader UInt8} {o stop size : Nat} {r : LogRecord}

/-- A record is read as soon as the one read of its header is full. -/
theorem readRecord_full (hReader : BufReader.InStep file size rd o stop) (hFits : r.Fits)
    (hAt : At file o r.bytes) (hFull : (rd.read file headerLen).1.length = headerLen) :
    ∃ rd', readRecord file rd o = some (r.toRaw o, rd', o + r.bytes.length) ∧
      BufReader.InStep file size rd' (o + r.bytes.length) (r.reach rd.buffering o stop) ∧
        rd'.buffering = rd.buffering := by
  obtain ⟨hMagic, hKeyLen, hValLen, hExpire, hCrc⟩ := LogRecord.header_fields hFits
  have hLength := r.bytes_length
  have hEnd := hAt.length_le
  have hHeader : (rd.read file headerLen).1 = r.header := by
    rw [(hReader.stands.read headerLen).1, hFull]
    exact (At.left hAt).take_drop r.header_length
  have hNext := hReader.read_whole (by decide) hFull
  have hWhole : At file o (r.header ++ (r.key.bytes ++ r.val)) := hAt
  have hBodyAt : At file (o + headerLen) (r.key.bytes ++ r.val) := by simpa using hWhole.right
  have hBody : (r.key.bytes ++ r.val).length = r.key.len + r.val.length := by simp [Str.len]
  obtain ⟨rd', hRead, hAfter, hSame⟩ := hNext.readExact (n := r.key.len + r.val.length) (by omega)
  rw [hBodyAt.take_drop hBody] at hRead
  rw [Nat.add_assoc, ← hLength, BufReader.read_buffering] at hAfter
  refine ⟨rd', ?_, hAfter, hSame.trans (BufReader.read_buffering ..)⟩
  rw [readRecord]
  dsimp only
  rw [hHeader, r.header_length, if_neg (by decide), if_neg (by simp [hMagic]), hKeyLen, hValLen,
    hRead]
  dsimp only
  rw [hExpire, hCrc, if_neg (by simp), Nat.add_assoc, ← hLength]
  have hKey : (r.key.bytes ++ r.val).take r.key.len = r.key.bytes := by simp [Str.len]
  rw [hKey, Str.fromUtf8Lossy_bytes]
  rfl

theorem readRecord_short (hShort : (rd.read file headerLen).1.length < headerLen) (off : Nat) :
    readRecord file rd off = none := by
  rw [readRecord]
  dsimp only
  split_ifs
  · rfl
  · rfl
  · omega

/-- At a record the reader gets this record or ends its loop. -/
theorem readRecord_cases (hReader : BufReader.InStep file size rd o stop) (hFits : r.Fits)
    (hAt : At file o r.bytes) :
    readRecord file rd o = none ∨
      ∃ rd', readRecord file rd o = some (r.toRaw o, rd', o + r.bytes.length) ∧
        BufReader.InStep file size rd' (o + r.bytes.length) (r.reach rd.buffering o stop) ∧
          rd'.buffering = rd.buffering := by
  rcases Nat.lt_or_ge (rd.read file headerLen).1.length headerLen with hShort | hFull
  · exact Or.inl (readRecord_short hShort o)
  · have hAtMost := BufReader.read_length_le file headerLen rd
    exact Or.inr (readRecord_full hReader hFits hAt (by omega))

/-- A record below the horizon is read if the one read of its header is full. -/
theorem readRecord_at (hReader : BufReader.InStep file size rd o stop) (hFits : r.Fits)
    (hAt : At file o r.bytes) (hRoom : o + r.bytes.length ≤ size)
    (hFull : rd.buffering.Full stop o headerLen) :
    ∃ rd', readRecord file rd o = some (r.toRaw o, rd', o + r.bytes.length) ∧
      BufReader.InStep file size rd' (o + r.bytes.length) (r.reach rd.buffering o stop) ∧
        rd'.buffering = rd.buffering := by
  have hLength := r.bytes_length
  have hSize := hReader.size_le
  refine readRecord_full hReader hFits hAt ?_
  rw [hReader.read_full (by omega) hFull, List.length_take, List.length_drop]
  omega

/-- A header that comes back short ends the reading. -/
theorem readRecord_cut (hReader : BufReader.InStep file size rd o stop) (hBelow : o < size)
    (hShort : ¬rd.buffering.Full stop o headerLen) (off : Nat) : readRecord file rd off = none :=
  readRecord_short (hReader.read_short hBelow hShort) off

/-- The bytes begin with a record, as far as the checks of the reader can tell. -/
def recordStarts (bs : Bytes) : Bool :=
  let hdr := bs.take headerLen
  let bodyLen := keyLenOf hdr + valLenOf hdr
  let body := (bs.drop headerLen).take bodyLen
  hdr.length = headerLen ∧ hdr.head? = some magic ∧ body.length = bodyLen ∧
    checksum body (expireOf hdr) = crcOf hdr

/-- Where no record begins, reading ends, however much a read returns. -/
theorem readRecord_rejected (hReader : BufReader.Stands file rd o)
    (hStarts : recordStarts (file.drop o) = false) (off : Nat) :
    readRecord file rd off = none := by
  obtain ⟨hGot, hNext⟩ := hReader.read headerLen
  have hAtMost := BufReader.read_length_le file headerLen rd
  rw [readRecord]
  dsimp only
  split_ifs with hEmpty hBad
  · rfl
  · rfl
  · rw [not_or, not_lt, not_not] at hBad
    have hFull : (rd.read file headerLen).1.length = headerLen := by omega
    rw [hFull] at hGot hNext
    rcases Nat.lt_or_ge file.length (o + headerLen + (keyLenOf (rd.read file headerLen).1 +
      valLenOf (rd.read file headerLen).1)) with hEnd | hRoom
    · rw [hNext.readExact_short hEnd]
    · obtain ⟨rd', hRead, _⟩ := hNext.readExact hRoom
      rw [hRead]
      dsimp only
      rw [if_pos]
      intro hCrc
      have hLength : ((file.drop (o + headerLen)).take (keyLenOf (rd.read file headerLen).1 +
          valLenOf (rd.read file headerLen).1)).length =
          keyLenOf (rd.read file headerLen).1 + valLenOf (rd.read file headerLen).1 := by
        rw [List.length_take, List.length_drop]
        omega
      simp only [recordStarts, ← hGot, List.drop_drop, hFull, hBad.2, hLength, hCrc, and_self,
        decide_true, Bool.true_eq_false] at hStarts

@[simp] theorem recordStarts_nil : recordStarts [] = false := rfl

/-- A record that is not complete does not begin. -/
theorem recordStarts_torn (hFits : r.Fits) {torn : Bytes} (hTorn : torn <+: r.bytes)
    (hProper : torn ≠ r.bytes) : recordStarts torn = false := by
  have hLess : torn.length < r.bytes.length :=
    lt_of_le_of_ne hTorn.length_le fun hEq => hProper (hTorn.eq_of_length hEq)
  rw [r.bytes_length] at hLess
  rw [recordStarts, decide_eq_false_iff_not]
  rintro ⟨hFull, _, hBody, _⟩
  rw [List.length_take] at hFull
  have hHeader : torn.take headerLen = r.header := by
    obtain ⟨more, hMore⟩ := hTorn
    have hLong : headerLen ≤ torn.length := by omega
    rw [← @List.take_append_of_le_length _ torn more _ hLong, hMore, LogRecord.bytes]
    exact List.take_left' r.header_length
  obtain ⟨_, hKeyLen, hValLen, _, _⟩ := LogRecord.header_fields hFits
  rw [hHeader, hKeyLen, hValLen, List.length_take, List.length_drop] at hBody
  omega

/-! ## A whole log -/

/-- A log of whole records, one behind the other. -/
def logBytes (recs : List LogRecord) : Bytes := recs.flatMap LogRecord.bytes

@[simp] theorem logBytes_nil : logBytes [] = [] := rfl

@[simp] theorem logBytes_cons (r : LogRecord) (recs : List LogRecord) :
    logBytes (r :: recs) = r.bytes ++ logBytes recs := rfl

@[simp] theorem logBytes_append (recs more : List LogRecord) :
    logBytes (recs ++ more) = logBytes recs ++ logBytes more := List.flatMap_append

/-- Records with the offsets they get when written one after another. -/
def placed : Nat → List LogRecord → List (Nat × LogRecord)
  | _, [] => []
  | o, r :: rest => (o, r) :: placed (o + r.bytes.length) rest

theorem placed_append (o : Nat) (recs more : List LogRecord) :
    placed o (recs ++ more) = placed o recs ++ placed (o + (logBytes recs).length) more := by
  induction recs generalizing o with
  | nil => simp [placed]
  | cons r rest ih => simp [placed, ih, Nat.add_assoc]

@[simp] theorem placed_map_snd (o : Nat) (recs : List LogRecord) :
    (placed o recs).map Prod.snd = recs := by
  induction recs generalizing o with
  | nil => rfl
  | cons r rest ih => simp [placed, ih]

/-- A placed record stands in the log at its offset. -/
theorem at_of_mem_placed (before after : Bytes) {recs : List LogRecord} {p : Nat × LogRecord}
    (h : p ∈ placed before.length recs) : At (before ++ logBytes recs ++ after) p.1 p.2.bytes := by
  induction recs generalizing before with
  | nil => cases h
  | cons r rest ih =>
      rw [placed, List.mem_cons] at h
      rcases h with rfl | h
      · exact ⟨before, logBytes rest ++ after, by simp, rfl⟩
      · rw [← List.length_append] at h
        have hRest := ih _ h
        rwa [List.append_assoc before, ← logBytes_cons] at hRest

theorem length_le_logBytes (recs : List LogRecord) : recs.length ≤ (logBytes recs).length := by
  induction recs with
  | nil => simp
  | cons r rest ih =>
      have hLength := r.bytes_length
      have hHeader : headerLen = 21 := rfl
      simp only [List.length_cons, logBytes_cons, List.length_append]
      omega

/-- A record at its place, with where the fetches of a reader have come to in front of it. -/
structure Fetched where
  offset : Nat
  stop : Nat
  record : LogRecord

/-- The record at its offset. -/
def Fetched.place (f : Fetched) : Nat × LogRecord := (f.offset, f.record)

/-- The header of the record is handed out by one read. -/
def Fetched.full (b : Buffering) (f : Fetched) : Bool := b.Full f.stop f.offset headerLen

/-- The records of a log as a reader meets them that stands at the first one. -/
def fetched (b : Buffering) : Nat → Nat → List LogRecord → List Fetched
  | _, _, [] => []
  | o, stop, r :: rest => ⟨o, stop, r⟩ :: fetched b (o + r.bytes.length) (r.reach b o stop) rest

/-- Where the fetches have come to behind some records. -/
def fetchedTo (b : Buffering) : Nat → Nat → List LogRecord → Nat
  | _, stop, [] => stop
  | o, stop, r :: rest => fetchedTo b (o + r.bytes.length) (r.reach b o stop) rest

@[simp] theorem fetched_map_place (b : Buffering) (o stop : Nat) (recs : List LogRecord) :
    (fetched b o stop recs).map Fetched.place = placed o recs := by
  induction recs generalizing o stop with
  | nil => rfl
  | cons r rest ih => simp [fetched, placed, Fetched.place, ih]

theorem fetched_append (b : Buffering) (o stop : Nat) (recs more : List LogRecord) :
    fetched b o stop (recs ++ more) = fetched b o stop recs ++
      fetched b (o + (logBytes recs).length) (fetchedTo b o stop recs) more := by
  induction recs generalizing o stop with
  | nil => simp [fetched, fetchedTo]
  | cons r rest ih => simp [fetched, fetchedTo, ih, Nat.add_assoc]

theorem fetchedTo_append (b : Buffering) (o stop : Nat) (recs more : List LogRecord) :
    fetchedTo b o stop (recs ++ more) =
      fetchedTo b (o + (logBytes recs).length) (fetchedTo b o stop recs) more := by
  induction recs generalizing o stop with
  | nil => simp [fetchedTo]
  | cons r rest ih => simp [fetchedTo, ih, Nat.add_assoc]

/-- The records of a log in front of the first header that comes back short. -/
def readableFrom (b : Buffering) (o stop : Nat) (recs : List LogRecord) : List (Nat × LogRecord) :=
  ((fetched b o stop recs).takeWhile (Fetched.full b)).map Fetched.place

/-- What a fresh reader gets of a log. -/
def readable (b : Buffering) (recs : List LogRecord) : List (Nat × LogRecord) :=
  readableFrom b 0 0 recs

/-- No header of a log comes back short. -/
def Readable (b : Buffering) (recs : List LogRecord) : Prop :=
  ∀ f ∈ fetched b 0 0 recs, f.full b

theorem readable_isPrefix (b : Buffering) (recs : List LogRecord) :
    readable b recs <+: placed 0 recs := by
  rw [readable, readableFrom, ← fetched_map_place b 0 0 recs]
  exact (List.takeWhile_prefix _).map _

theorem readable_eq_placed_iff {b : Buffering} {recs : List LogRecord} :
    readable b recs = placed 0 recs ↔ Readable b recs := by
  rw [Readable, ← List.takeWhile_eq_self_iff]
  constructor
  · intro h
    refine (List.takeWhile_prefix _).eq_of_length ?_
    have hLength := congrArg List.length h
    rwa [readable, readableFrom, ← fetched_map_place b 0 0 recs, List.length_map,
      List.length_map] at hLength
  · intro h
    rw [readable, readableFrom, h, fetched_map_place]

/-- The sequential reader gets the readable records, and no other when no
record begins behind them. -/
theorem readRecords_placed {recs : List LogRecord} {tail : Bytes}
    (hReader : BufReader.InStep file file.length rd o stop)
    (hLog : file.drop o = logBytes recs ++ tail) (hFits : ∀ r ∈ recs, r.Fits)
    (hTail : recordStarts tail = false) {turns : Nat} (hTurns : recs.length ≤ turns) :
    readRecords file turns rd o =
      (readableFrom rd.buffering o stop recs).map fun p => p.2.toRaw p.1 := by
  have hEnd := hReader.stands.le
  have hLength := congrArg List.length hLog
  rw [List.length_drop, List.length_append] at hLength
  induction recs generalizing rd o stop turns with
  | nil =>
      rw [logBytes_nil, List.nil_append] at hLog
      cases turns with
      | zero => rfl
      | succ turns =>
          rw [readRecords, readRecord_rejected hReader.stands (hLog ▸ hTail)]
          rfl
  | cons r rest ih =>
      obtain ⟨turns, rfl⟩ : ∃ t, turns = t + 1 := ⟨turns - 1, by simp at hTurns; omega⟩
      rw [logBytes_cons, List.append_assoc] at hLog
      rw [logBytes_cons, List.length_append] at hLength
      rw [readableFrom, fetched, List.takeWhile_cons, readRecords]
      by_cases hFull : rd.buffering.Full stop o headerLen
      · have hAt : At file o r.bytes := At.of_drop hEnd hLog
        obtain ⟨rd', hRead, hNext, hSame⟩ := readRecord_at hReader
          (hFits r List.mem_cons_self) hAt (by omega) hFull
        have hRest : file.drop (o + r.bytes.length) = logBytes rest ++ tail := by
          rw [← List.drop_drop, hLog, List.drop_left]
        rw [hRead, if_pos (by simpa [Fetched.full] using hFull), List.map_cons, List.map_cons]
        dsimp only
        rw [ih hNext hRest (fun r' hr' => hFits r' (List.mem_cons_of_mem r hr'))
          (by simpa using hTurns) hNext.stands.le (by omega), hSame]
        rfl
      · have hRecord := r.bytes_length
        have hHeader : headerLen = 21 := rfl
        rw [readRecord_cut hReader (by omega) hFull, if_neg (by simpa [Fetched.full] using hFull)]
        rfl

/-- What a fresh reader makes of a log, with or without a torn tail. -/
theorem scan_logBytes (b : Buffering) {recs : List LogRecord} (hFits : ∀ r ∈ recs, r.Fits)
    {tail : Bytes} (hTail : recordStarts tail = false) :
    scan b (logBytes recs ++ tail) = (readable b recs).map fun p => p.2.toRaw p.1 := by
  refine readRecords_placed (BufReader.inStep_new (Nat.le_refl _) b) rfl hFits hTail ?_
  rw [List.length_append]
  exact Nat.le_add_right_of_le (length_le_logBytes recs)

end Dnsd.Cache
