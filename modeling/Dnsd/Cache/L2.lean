import Dnsd.Base.LastWrite
import Dnsd.Cache.Log
import Mathlib.Logic.Function.Basic

/-! The second cache level: an append-only log with an index in memory. Its
purpose is a map with an expiry for each key; every operation under the lock
refines the operation on that map. -/

namespace Dnsd.Cache

open Bytes LastWrite

/-! ## The store -/

/-- Where the record of a key is, the length of its value and the time at which it ends.
-/
structure IndexEntry where
  offset : Nat
  valLen : UInt32
  expireAtMs : Int64
  deriving DecidableEq

/-- Index, the bytes of `data.log`, and the two counters. Both file handles
refer to `data.log`; the write handle appends. -/
structure Inner where
  index : HashMap Str IndexEntry
  log : Bytes
  size : Nat
  deadBytes : Nat

/-- `BufReader::new`, and the most that Linux hands out for one read of a file. -/
def bufReader : Buffering := ⟨8 * 1024, 0x7ffff000, by decide, by decide⟩

/-- `expire_at_ms != 0 && now >= expire_at_ms`: a time of zero means never. -/
def expired (expireAtMs now : Int64) : Bool := expireAtMs ≠ 0 ∧ expireAtMs ≤ now

/-- The entry that a replay makes of a record. -/
def indexEntry (rec : RawRecord) : IndexEntry := ⟨rec.offset, rec.valLen, rec.expireAtMs⟩

/-- A later record of the same key replaces the earlier one. -/
def replay (b : Buffering) (file : Bytes) : HashMap Str IndexEntry :=
  (scan b file).foldl (fun index rec => index.insert rec.key (indexEntry rec)) ∅

/-- The value of the record at an offset, as two exact reads get it. -/
def readValue (log : Bytes) (offset : Nat) : Option Bytes :=
  let hdr := (log.drop offset).take headerLen
  if hdr.length < headerLen then none
  else if hdr.head? ≠ some magic then none
  else
    let bodyLen := keyLenOf hdr + valLenOf hdr
    let body := (log.drop (offset + headerLen)).take bodyLen
    if body.length < bodyLen then none else some (body.drop (keyLenOf hdr))

/-- The dead bytes that an overwritten or deleted entry adds. -/
def deadLen (key : Str) (old : Option IndexEntry) : Nat :=
  match old with
  | some old => headerLen + key.len + old.valLen.toNat
  | none => 0

namespace Inner

/-- `L2Store::open` on a directory with or without a log. -/
def openStore (b : Buffering) (disk : Option Bytes) : Inner where
  index := match disk with
    | some file => replay b file
    | none => ∅
  log := disk.getD []
  size := (disk.getD []).length
  deadBytes := 0

/-- What a lookup sees of the contents: the value, until it expires. -/
def get (inner : Inner) (now : Int64) (key : Str) : Option Bytes :=
  match inner.index.get key with
  | none => none
  | some ent => if expired ent.expireAtMs now then none else readValue inner.log ent.offset

/-- A `put` whose write succeeds: the record is appended, and the index points to it. -/
def put (inner : Inner) (now : Int64) (key : Str) (val : Bytes) (ttlSecs : Int64) : Inner :=
  if ttlSecs ≤ 0 then inner
  else
    let record : LogRecord := ⟨key, val, now + ttlSecs * 1000⟩
    { index := inner.index.insert key ⟨inner.size, UInt32.ofNat val.length, record.expireAtMs⟩
      log := inner.log ++ record.bytes
      size := inner.size + record.bytes.length
      deadBytes := inner.deadBytes + deadLen key (inner.index.get key) }

/-- What a delete does to the contents: one key is gone. -/
def delete (inner : Inner) (key : Str) : Inner :=
  match inner.index.get key with
  | none => inner
  | some old =>
      { inner with
        index := inner.index.erase key
        deadBytes := inner.deadBytes + deadLen key (some old) }

end Inner

/-! ## Compaction -/

/-- The compacting thread between its snapshot and its swap. -/
structure Copying where
  liveOffsets : List Nat
  reader : BufReader UInt8
  readOffset : Nat
  tmp : Bytes
  newIndex : HashMap Str IndexEntry
  offset : Nat

/-- Phase one, under the lock: the offsets of the entries not expired. -/
def Inner.liveOffsets (inner : Inner) (now : Int64) : List Nat :=
  (inner.index.values.filter fun e => !expired e.expireAtMs now).map IndexEntry.offset

/-- The first phase of a compaction, under the lock: the offsets that are live. Nothing is
read or copied yet. -/
def Inner.snapshot (inner : Inner) (b : Buffering) (now : Int64) : Copying where
  liveOffsets := inner.liveOffsets now
  reader := BufReader.new b
  readOffset := 0
  tmp := []
  newIndex := ∅
  offset := 0

/-- The loop body: a live record is copied and listed at its new offset. -/
def Copying.take (c : Copying) (rec : RawRecord) : Copying :=
  if c.liveOffsets.contains rec.offset then
    { c with
      tmp := c.tmp ++ rec.raw
      newIndex := c.newIndex.insert rec.key ⟨c.offset, rec.valLen, rec.expireAtMs⟩
      offset := c.offset + rec.raw.length }
  else c

/-- One turn of phase two on the log as it then is; `none` at its end. -/
def Copying.copy (file : Bytes) (c : Copying) : Option Copying :=
  match readRecord file c.reader c.readOffset with
  | none => none
  | some (rec, reader, readOffset) =>
      some { c.take rec with reader := reader, readOffset := readOffset }

/-- Phase three, under the lock: the copy takes the place of the log. -/
def Copying.swap (c : Copying) : Inner where
  index := c.newIndex
  log := c.tmp
  size := c.offset
  deadBytes := 0

/-- Phase two with no other thread in between. -/
def Copying.copyAll (file : Bytes) : Nat → Copying → Copying
  | 0, c => c
  | turns + 1, c =>
      match c.copy file with
      | none => c
      | some c => copyAll file turns c

/-- `compact` with no other thread in between: snapshot, copy of all live records, and
swap. -/
def Inner.compact (inner : Inner) (b : Buffering) (now : Int64) : Inner :=
  ((inner.snapshot b now).copyAll inner.log inner.log.length).swap

/-! ## The map that a store stands for -/

/-- A value and the time at which it ends. -/
structure Entry where
  val : Bytes
  expireAtMs : Int64
  deriving DecidableEq

/-- The latest write of every key, expired or not. -/
abbrev Contents := Str → Option Entry

namespace Contents

/-- What a lookup sees of the contents. -/
def get (m : Contents) (now : Int64) (key : Str) : Option Bytes :=
  match m key with
  | none => none
  | some e => if expired e.expireAtMs now then none else some e.val

/-- What a put does to the contents; one for no time at all does nothing. -/
def put (m : Contents) (now : Int64) (key : Str) (val : Bytes) (ttlSecs : Int64) : Contents :=
  if ttlSecs ≤ 0 then m else Function.update m key (some ⟨val, now + ttlSecs * 1000⟩)

/-- What a delete does to the contents. -/
def delete (m : Contents) (key : Str) : Contents := Function.update m key none

end Contents

/-- What a record says of its key: the value and when it expires. -/
def LogRecord.entry (r : LogRecord) : Entry := ⟨r.val, r.expireAtMs⟩

/-- The map left by a history of records. -/
def contentsOf (recs : List LogRecord) : Contents :=
  lastWrite (recs.map fun r => (r.key, r.entry))

/-- The index lists exactly the keys of the map, each at a record of its value. -/
structure Inner.Holds (inner : Inner) (m : Contents) : Prop where
  size : inner.size = inner.log.length
  absent : ∀ k, m k = none → inner.index.get k = none
  present : ∀ k e, m k = some e → LogRecord.Fits ⟨k, e.val, e.expireAtMs⟩ ∧
    ∃ offset, inner.index.get k = some ⟨offset, UInt32.ofNat e.val.length, e.expireAtMs⟩ ∧
      At inner.log offset (LogRecord.bytes ⟨k, e.val, e.expireAtMs⟩)

/-- What a read of a value finds: a header and a body of the lengths it gives. -/
theorem readValue_eq_some_iff {log : Bytes} {offset : Nat} {v : Bytes} :
    readValue log offset = some v ↔
      ∃ hdr body, At log offset (hdr ++ body) ∧ hdr.length = headerLen ∧
        hdr.head? = some magic ∧ body.length = keyLenOf hdr + valLenOf hdr ∧
        body.drop (keyLenOf hdr) = v := by
  constructor
  · intro h
    rw [readValue] at h
    dsimp only at h
    split_ifs at h with hShort hMagic hBody
    cases h
    have hHeader : ((log.drop offset).take headerLen).length = headerLen := by
      have hAtMost := List.length_take_le headerLen (log.drop offset)
      omega
    refine ⟨(log.drop offset).take headerLen, _, ?_, hHeader, not_not.mp hMagic, ?_, rfl⟩
    · have hInside : offset ≤ log.length := by
        rw [List.length_take, List.length_drop] at hHeader
        have hPositive : 0 < headerLen := by decide
        omega
      refine ⟨log.take offset, (log.drop (offset + headerLen)).drop
        (keyLenOf ((log.drop offset).take headerLen) + valLenOf ((log.drop offset).take headerLen)),
        ?_, by rw [List.length_take, Nat.min_eq_left hInside]⟩
      rw [List.append_assoc, List.append_assoc, List.take_append_drop, ← List.drop_drop,
        List.take_append_drop, List.take_append_drop]
    · have hAtMost := List.length_take_le (keyLenOf ((log.drop offset).take headerLen) +
        valLenOf ((log.drop offset).take headerLen)) (log.drop (offset + headerLen))
      omega
  · rintro ⟨hdr, body, hAt, hLength, hMagic, hBody, rfl⟩
    have hHeader : (log.drop offset).take headerLen = hdr := hAt.left.take_drop hLength
    have hRest : (log.drop (offset + headerLen)).take (keyLenOf hdr + valLenOf hdr) = body := by
      rw [← hLength]
      exact hAt.right.take_drop hBody
    rw [readValue]
    dsimp only
    rw [hHeader, if_neg (by omega), if_neg (by simp [hMagic]), hRest, if_neg (by omega)]

theorem readValue_grow {log : Bytes} {offset : Nat} {v : Bytes} (h : readValue log offset = some v)
    (more : Bytes) : readValue (log ++ more) offset = some v := by
  obtain ⟨hdr, body, hAt, hRest⟩ := readValue_eq_some_iff.mp h
  exact readValue_eq_some_iff.mpr ⟨hdr, body, hAt.grow more, hRest⟩

/-- A value has the length that the header in front of it gives. -/
theorem length_of_readValue {log : Bytes} {offset : Nat} {v : Bytes}
    (h : readValue log offset = some v) :
    v.length = valLenOf ((log.drop offset).take headerLen) := by
  obtain ⟨hdr, body, hAt, hLength, -, hBody, rfl⟩ := readValue_eq_some_iff.mp h
  rw [hAt.left.take_drop hLength, List.length_drop, hBody, Nat.add_sub_cancel_left]

theorem readValue_at {log : Bytes} {offset : Nat} {r : LogRecord} (hFits : r.Fits)
    (hAt : At log offset r.bytes) : readValue log offset = some r.val := by
  obtain ⟨hMagic, hKeyLen, hValLen, _, _⟩ := LogRecord.header_fields hFits
  refine readValue_eq_some_iff.mpr
    ⟨r.header, r.key.bytes ++ r.val, hAt, r.header_length, hMagic, ?_, ?_⟩
  · rw [List.length_append, hKeyLen, hValLen, Str.len]
  · rw [hKeyLen, Str.len, List.drop_left]

namespace Inner

variable {inner : Inner} {m : Contents}

theorem Holds.get (h : inner.Holds m) (now : Int64) (k : Str) :
    inner.get now k = m.get now k := by
  rw [Inner.get, Contents.get]
  cases hEntry : m k with
  | none => rw [h.absent k hEntry]
  | some e =>
      obtain ⟨hFits, offset, hIndex, hAt⟩ := h.present k e hEntry
      rw [hIndex]
      dsimp only
      rw [readValue_at hFits hAt]

theorem Holds.put (h : inner.Holds m) {now : Int64} {k : Str} {v : Bytes} {ttlSecs : Int64}
    (hFits : LogRecord.Fits ⟨k, v, now + ttlSecs * 1000⟩) :
    (inner.put now k v ttlSecs).Holds (m.put now k v ttlSecs) := by
  rw [Inner.put, Contents.put]
  split_ifs
  · exact h
  · refine ⟨by simp [h.size], fun k' hNone => ?_, fun k' e hSome => ?_⟩
    · by_cases hKey : k' = k
      · subst hKey
        simp at hNone
      · rw [Function.update_of_ne hKey] at hNone
        rw [HashMap.get_insert_ne _ _ hKey, h.absent k' hNone]
    · by_cases hKey : k' = k
      · subst hKey
        rw [Function.update_self] at hSome
        cases hSome
        refine ⟨hFits, inner.size, by rw [HashMap.get_insert_self], ?_⟩
        rw [h.size]
        exact ⟨inner.log, [], by simp, rfl⟩
      · rw [Function.update_of_ne hKey] at hSome
        obtain ⟨hFits', offset, hIndex, hAt⟩ := h.present k' e hSome
        exact ⟨hFits', offset, by rw [HashMap.get_insert_ne _ _ hKey, hIndex], hAt.grow _⟩

theorem Holds.delete (h : inner.Holds m) (k : Str) : (inner.delete k).Holds (m.delete k) := by
  rw [Inner.delete]
  cases hOld : inner.index.get k with
  | none =>
      have hSame : m.delete k = m := by
        have hNone : m k = none := by
          cases hEntry : m k with
          | none => rfl
          | some e =>
              obtain ⟨_, offset, hIndex, _⟩ := h.present k e hEntry
              rw [hOld] at hIndex
              cases hIndex
        rw [Contents.delete, ← hNone, Function.update_eq_self]
      rw [hSame]
      exact h
  | some old =>
      refine ⟨h.size, fun k' hNone => ?_, fun k' e hSome => ?_⟩
      · dsimp only
        rw [HashMap.get_erase]
        split_ifs with hKey
        · rfl
        · rw [Contents.delete, Function.update_of_ne hKey] at hNone
          exact h.absent k' hNone
      · by_cases hKey : k' = k
        · subst hKey
          simp [Contents.delete] at hSome
        · rw [Contents.delete, Function.update_of_ne hKey] at hSome
          obtain ⟨hFits, offset, hIndex, hAt⟩ := h.present k' e hSome
          exact ⟨hFits, offset, by rw [HashMap.get_erase_ne _ hKey, hIndex], hAt⟩

theorem holds_empty (b : Buffering) : (openStore b none).Holds fun _ => none :=
  ⟨rfl, fun _ _ => rfl, fun _ _ h => by cases h⟩

end Inner

/-- The bytes of a record that the sequential reader hands out can be read as
such wherever they stand. -/
theorem readValue_raw {file : Bytes} {rd rd' : BufReader UInt8} {o next : Nat} {rec : RawRecord}
    (h : readRecord file rd o = some (rec, rd', next)) {log : Bytes} {offset : Nat}
    (hAt : At log offset rec.raw) : (readValue log offset).isSome := by
  have hAtMost := BufReader.read_length_le file headerLen rd
  rw [readRecord] at h
  dsimp only at h
  split_ifs at h with hEmpty hBad
  rw [not_or] at hBad
  cases hBody : (rd.read file headerLen).2.readExact file
      (keyLenOf (rd.read file headerLen).1 + valLenOf (rd.read file headerLen).1) with
  | none =>
      rw [hBody] at h
      cases h
  | some read =>
      rw [hBody] at h
      dsimp only at h
      split_ifs at h
      cases h
      rw [Option.isSome_iff_exists]
      exact ⟨_, readValue_eq_some_iff.mpr ⟨_, read.1, hAt, by omega, not_not.mp hBad.2,
        BufReader.readLoop_length hBody, rfl⟩⟩

/-- The sequential reader hands out the next bytes of the file. -/
theorem readRecord_stands {file : Bytes} {rd rd' : BufReader UInt8} {o next : Nat}
    {rec : RawRecord} (hReader : BufReader.Stands file rd o)
    (h : readRecord file rd o = some (rec, rd', next)) :
    rec.offset = o ∧ next = o + rec.raw.length ∧ At file o rec.raw ∧
      BufReader.Stands file rd' next ∧ rd'.buffering = rd.buffering := by
  obtain ⟨hGot, hNext⟩ := hReader.read headerLen
  have hAtMost := BufReader.read_length_le file headerLen rd
  rw [readRecord] at h
  dsimp only at h
  split_ifs at h with hEmpty hBad
  have hFull : (rd.read file headerLen).1.length = headerLen := by
    rw [not_or] at hBad
    omega
  rw [hFull] at hGot hNext
  rcases Nat.lt_or_ge file.length
    (o + headerLen + (keyLenOf (rd.read file headerLen).1 + valLenOf (rd.read file headerLen).1))
    with hEnd | hRoom
  · rw [hNext.readExact_short hEnd] at h
    cases h
  · obtain ⟨rd'', hRead, hAfter, hSame⟩ :=
      hNext.readExact hRoom
    rw [hRead] at h
    dsimp only at h
    split_ifs at h
    cases h
    have hLength : ((rd.read file headerLen).1 ++ (file.drop (o + headerLen)).take
        (keyLenOf (rd.read file headerLen).1 + valLenOf (rd.read file headerLen).1)).length =
          headerLen + (keyLenOf (rd.read file headerLen).1 + valLenOf (rd.read file headerLen).1) := by
      rw [List.length_append, hFull, List.length_take, List.length_drop]
      omega
    refine ⟨rfl, ?_, ?_, by rwa [Nat.add_assoc] at hAfter ⊢, hSame.trans (BufReader.read_buffering ..)⟩
    · rw [hLength]
      omega
    · rw [hGot, ← List.drop_drop, ← List.take_add]
      exact ⟨file.take o, (file.drop o).drop _, by
        rw [List.append_assoc, List.take_append_drop, List.take_append_drop],
        by rw [List.length_take, Nat.min_eq_left (by omega)]⟩

/-- Every record that a fresh reader gets can be read again at its offset. -/
theorem readValue_of_mem_scan {b : Buffering} {file : Bytes} {rec : RawRecord}
    (h : rec ∈ scan b file) : (readValue file rec.offset).isSome := by
  have hAll (turns : Nat) (rd : BufReader UInt8) (o : Nat) (hReader : BufReader.Stands file rd o)
      (hMem : rec ∈ readRecords file turns rd o) :
      (readValue file rec.offset).isSome := by
    induction turns generalizing rd o with
    | zero => cases hMem
    | succ turns ih =>
        rw [readRecords] at hMem
        cases hRead : readRecord file rd o with
        | none =>
            rw [hRead] at hMem
            cases hMem
        | some next =>
            obtain ⟨first, rd', o'⟩ := next
            obtain ⟨hOffset, -, hAt, hStands, -⟩ := readRecord_stands hReader hRead
            have hValue := readValue_raw hRead hAt
            rw [hRead] at hMem
            rcases List.mem_cons.mp hMem with rfl | hRest
            · rwa [hOffset]
            · exact ih rd' o' hStands hRest
  exact hAll _ _ 0 (BufReader.stands_new file b) h

/-- An index over placed records, the last one of a key winning. -/
def indexOf (recs : List (Nat × LogRecord)) (k : Str) : Option IndexEntry :=
  (lastWrite (recs.map fun p => (p.2.key, p)) k).map fun p =>
    ⟨p.1, UInt32.ofNat p.2.val.length, p.2.expireAtMs⟩

theorem indexOf_append (recs more : List (Nat × LogRecord)) (k : Str) :
    indexOf (recs ++ more) k = (indexOf more k).or (indexOf recs k) := by
  rw [indexOf, List.map_append, lastWrite_append, Option.map_or]
  rfl

theorem indexOf_cons (p : Nat × LogRecord) (recs : List (Nat × LogRecord)) (k : Str) :
    indexOf (p :: recs) k = (indexOf recs k).or
      (if p.2.key = k then some ⟨p.1, UInt32.ofNat p.2.val.length, p.2.expireAtMs⟩ else none) := by
  rw [indexOf, List.map_cons, lastWrite, Option.map_or, indexOf]
  split_ifs <;> rfl

theorem contentsOf_map_snd (recs : List (Nat × LogRecord)) (k : Str) :
    contentsOf (recs.map Prod.snd) k =
      (lastWrite (recs.map fun p => (p.2.key, p)) k).map fun p => p.2.entry := by
  rw [contentsOf, List.map_map, ← lastWrite_map]
  rfl

/-- An index over records that stand in the log makes the map of the records. -/
theorem Inner.holds_of_index {inner : Inner} {recs : List (Nat × LogRecord)}
    (hSize : inner.size = inner.log.length) (hIndex : ∀ k, inner.index.get k = indexOf recs k)
    (hAt : ∀ p ∈ recs, p.2.Fits ∧ At inner.log p.1 p.2.bytes) :
    inner.Holds (contentsOf (recs.map Prod.snd)) := by
  refine ⟨hSize, fun k hNone => ?_, fun k e hSome => ?_⟩
  · rw [contentsOf_map_snd, Option.map_eq_none_iff] at hNone
    rw [hIndex, indexOf, hNone]
    rfl
  · rw [contentsOf_map_snd] at hSome
    obtain ⟨p, hLast, rfl⟩ := Option.map_eq_some_iff.mp hSome
    obtain ⟨p', hMem, hEq⟩ := List.mem_map.mp (mem_of_lastWrite hLast)
    cases hEq
    obtain ⟨hFits, hPlace⟩ := hAt p hMem
    exact ⟨hFits, p.1, by rw [hIndex, indexOf, hLast]; rfl, hPlace⟩

theorem Inner.openStore_index {file : Bytes} {b : Buffering} {recs : List (Nat × LogRecord)}
    (hScan : scan b file = recs.map fun p => p.2.toRaw p.1) (k : Str) :
    (openStore b (some file)).index.get k = indexOf recs k := by
  rw [openStore, replay, HashMap.get_foldl_insert, HashMap.get_empty, Option.or_none, hScan,
    List.map_map, indexOf, ← lastWrite_map]
  rfl

/-- Opening a file makes the map of the records that the reader gets. -/
theorem Inner.holds_open {file : Bytes} {b : Buffering} {recs : List (Nat × LogRecord)}
    (hScan : scan b file = recs.map fun p => p.2.toRaw p.1)
    (hAt : ∀ p ∈ recs, p.2.Fits ∧ At file p.1 p.2.bytes) :
    (openStore b (some file)).Holds (contentsOf (recs.map Prod.snd)) :=
  Inner.holds_of_index rfl (Inner.openStore_index hScan) hAt

/-- The readable records of a log stand in it. -/
theorem at_of_mem_readable {b : Buffering} {recs : List LogRecord} (hFits : ∀ r ∈ recs, r.Fits)
    (after : Bytes) :
    ∀ p ∈ readable b recs, p.2.Fits ∧ At (logBytes recs ++ after) p.1 p.2.bytes := by
  intro p hp
  have hPlaced := (readable_isPrefix b recs).subset hp
  refine ⟨hFits p.2 ?_, at_of_mem_placed [] after hPlaced⟩
  have hMem := List.mem_map_of_mem (f := Prod.snd) hPlaced
  rwa [placed_map_snd] at hMem

/-- Opening a log, with or without a torn tail. -/
theorem Inner.holds_reopen (b : Buffering) {recs : List LogRecord}
    (hFits : ∀ r ∈ recs, r.Fits) {tail : Bytes} (hTail : recordStarts tail = false) :
    (openStore b (some (logBytes recs ++ tail))).Holds
      (contentsOf ((readable b recs).map Prod.snd)) :=
  Inner.holds_open (scan_logBytes b hFits hTail) (at_of_mem_readable hFits tail)

/-! ## What a compaction keeps -/

/-- The copy made so far consists of these records. -/
structure Copying.Kept (c : Copying) (kept : List LogRecord) : Prop where
  fits : ∀ r ∈ kept, r.Fits
  tmp : c.tmp = logBytes kept
  offset : c.offset = c.tmp.length
  index : ∀ k, c.newIndex.get k = indexOf (placed 0 kept) k

theorem Inner.kept_snapshot (inner : Inner) (b : Buffering) (now : Int64) :
    (inner.snapshot b now).Kept [] :=
  ⟨by simp, rfl, rfl, fun _ => rfl⟩

/-- A turn of the loop either keeps the record or leaves the copy alone. -/
theorem Copying.Kept.take {c : Copying} {kept : List LogRecord} (h : c.Kept kept) {r : LogRecord}
    (hFits : r.Fits) (o : Nat) :
    (c.take (r.toRaw o)).Kept (if c.liveOffsets.contains o then kept ++ [r] else kept) := by
  rw [Copying.take, show (r.toRaw o).offset = o from rfl]
  split_ifs
  · refine ⟨fun r' hr' => ?_, by simp [h.tmp, LogRecord.toRaw], by simp [h.offset], fun k => ?_⟩
    · rcases List.mem_append.mp hr' with hOld | hNew
      · exact h.fits r' hOld
      · rwa [List.mem_singleton.mp hNew]
    · have hStart : c.offset = 0 + (logBytes kept).length := by rw [h.offset, h.tmp, Nat.zero_add]
      simp only [HashMap.get_insert, h.index, indexOf, placed_append, placed, List.map_append,
        List.map_cons, List.map_nil, lastWrite_concat, ← hStart]
      by_cases hKey : k = r.key
      · rw [if_pos (show k = (r.toRaw o).key from hKey), if_pos hKey.symm]
        rfl
      · rw [if_neg (show ¬k = (r.toRaw o).key from hKey), if_neg (Ne.symm hKey)]
  · exact h

/-- After the swap the store is the copy. -/
theorem Copying.Kept.holds_swap {c : Copying} {kept : List LogRecord} (h : c.Kept kept) :
    c.swap.Holds (contentsOf kept) := by
  have hHolds : c.swap.Holds (contentsOf ((placed 0 kept).map Prod.snd)) :=
    Inner.holds_of_index h.offset h.index fun p hp => ?_
  · rwa [placed_map_snd] at hHolds
  · have hMem := List.mem_map_of_mem (f := Prod.snd) hp
    rw [placed_map_snd] at hMem
    refine ⟨h.fits p.2 hMem, ?_⟩
    have hAt := at_of_mem_placed [] [] hp
    rwa [List.nil_append, List.append_nil, ← h.tmp] at hAt

/-- The copying thread has read the log up to an offset. -/
structure Copying.Follows (c : Copying) (b : Buffering) (file : Bytes) (size o stop : Nat) :
    Prop where
  reader : BufReader.InStep file size c.reader o stop
  buffering : c.reader.buffering = b
  readOffset : c.readOffset = o

theorem Inner.follows_snapshot (inner : Inner) (b : Buffering) (now : Int64) :
    (inner.snapshot b now).Follows b inner.log inner.log.length 0 0 :=
  ⟨BufReader.inStep_new (Nat.le_refl _) b, rfl, rfl⟩

section Following

variable {c : Copying} {b : Buffering} {file : Bytes} {size o stop : Nat}

theorem Copying.Follows.grow (h : c.Follows b file size o stop) (more : Bytes) :
    c.Follows b (file ++ more) size o stop :=
  ⟨h.reader.grow more, h.buffering, h.readOffset⟩

@[simp] theorem Copying.take_liveOffsets (c : Copying) (rec : RawRecord) :
    (c.take rec).liveOffsets = c.liveOffsets := by
  unfold Copying.take
  split <;> rfl

/-- One turn at a record of the log: the loop ends, or the record is taken. -/
theorem Copying.Follows.copy {r : LogRecord} (h : c.Follows b file size o stop) (hFits : r.Fits)
    (hAt : At file o r.bytes) {kept : List LogRecord} (hKept : c.Kept kept) :
    c.copy file = none ∨ ∃ c', c.copy file = some c' ∧
      c'.Follows b file size (o + r.bytes.length) (r.reach b o stop) ∧
      c'.liveOffsets = c.liveOffsets ∧
      c'.Kept (if c.liveOffsets.contains o then kept ++ [r] else kept) := by
  rw [Copying.copy, h.readOffset]
  rcases readRecord_cases h.reader hFits hAt with hEnd | ⟨rd', hRead, hNext, hSame⟩
  · rw [hEnd]
    exact Or.inl rfl
  · rw [hRead]
    rw [h.buffering] at hNext
    obtain ⟨hKeptFits, hTmp, hOffset, hIndex⟩ := hKept.take hFits o
    exact Or.inr ⟨_, rfl, ⟨hNext, hSame.trans h.buffering, rfl⟩, c.take_liveOffsets _,
      ⟨hKeptFits, hTmp, hOffset, hIndex⟩⟩

/-- The turn is not the last one at a record below the horizon whose header is handed
out by one read. -/
theorem Copying.Follows.copy_ne_none {r : LogRecord} (h : c.Follows b file size o stop)
    (hFits : r.Fits) (hAt : At file o r.bytes) (hRoom : o + r.bytes.length ≤ size)
    (hFull : b.Full stop o headerLen) : c.copy file ≠ none := by
  obtain ⟨rd', hRead, _⟩ := readRecord_at h.reader hFits hAt hRoom (h.buffering ▸ hFull)
  rw [Copying.copy, h.readOffset, hRead]
  simp

/-- It is the last one at any other record below the horizon. -/
theorem Copying.Follows.copy_eq_none (h : c.Follows b file size o stop) (hBelow : o < size)
    (hShort : ¬b.Full stop o headerLen) : c.copy file = none := by
  rw [Copying.copy, readRecord_cut h.reader hBelow (h.buffering ▸ hShort)]

end Following

/-- The live ones of some placed records: those at an offset of the snapshot. -/
def liveOf (liveOffsets : List Nat) (recs : List (Nat × LogRecord)) : List LogRecord :=
  (recs.filter fun p => liveOffsets.contains p.1).map Prod.snd

theorem liveOf_cons (liveOffsets : List Nat) (p : Nat × LogRecord) (recs : List (Nat × LogRecord)) :
    liveOf liveOffsets (p :: recs) =
      (if liveOffsets.contains p.1 then [p.2] else []) ++ liveOf liveOffsets recs := by
  rw [liveOf, liveOf, List.filter_cons]
  split_ifs <;> simp

/-- Alone, the copying thread takes the live ones of the records that can be read. -/
theorem Copying.Follows.copyAll {c : Copying} {b : Buffering} {file tail : Bytes} {o stop : Nat}
    {recs : List LogRecord} (h : c.Follows b file file.length o stop) (hFits : ∀ r ∈ recs, r.Fits)
    (hLog : file.drop o = logBytes recs ++ tail) (hTail : recordStarts tail = false)
    {kept : List LogRecord} (hKept : c.Kept kept) {turns : Nat} (hTurns : recs.length ≤ turns) :
    (c.copyAll file turns).Kept (kept ++ liveOf c.liveOffsets (readableFrom b o stop recs)) := by
  have hEnd := h.reader.stands.le
  have hLength := congrArg List.length hLog
  rw [List.length_drop, List.length_append] at hLength
  induction recs generalizing c o stop kept turns with
  | nil =>
      rw [readableFrom, fetched, List.takeWhile_nil, List.map_nil, liveOf, List.filter_nil,
        List.map_nil, List.append_nil]
      rw [logBytes_nil, List.nil_append] at hLog
      cases turns with
      | zero => exact hKept
      | succ turns =>
          have hNone : c.copy file = none := by
            rw [Copying.copy, readRecord_rejected h.reader.stands (hLog ▸ hTail)]
          rw [Copying.copyAll, hNone]
          exact hKept
  | cons r rest ih =>
      obtain ⟨turns, rfl⟩ : ∃ t, turns = t + 1 := ⟨turns - 1, by simp at hTurns; omega⟩
      rw [logBytes_cons, List.append_assoc] at hLog
      rw [logBytes_cons, List.length_append] at hLength
      have hAt := At.of_drop hEnd hLog
      have hr := hFits r List.mem_cons_self
      rw [readableFrom, fetched, List.takeWhile_cons, Copying.copyAll]
      by_cases hFull : b.Full stop o headerLen
      · have hNe := h.copy_ne_none hr hAt (by omega) hFull
        rcases h.copy hr hAt hKept with hNone | ⟨c', hSome, hNext, hLive, hTaken⟩
        · exact absurd hNone hNe
        · have hRest := ih hNext (fun r' hr' => hFits r' (List.mem_cons_of_mem r hr'))
            (by rw [← List.drop_drop, hLog, List.drop_left]) hTaken
            (by simpa using hTurns) hNext.reader.stands.le (by omega)
          rw [hSome, if_pos (by simpa [Fetched.full] using hFull), List.map_cons, liveOf_cons,
            ← hLive]
          rw [← hLive] at hRest
          change Copying.Kept _ (kept ++ ((if c'.liveOffsets.contains o then [r] else []) ++
            liveOf c'.liveOffsets (readableFrom b (o + r.bytes.length) (r.reach b o stop) rest)))
          split_ifs at hRest ⊢ with hContains
          · simpa using hRest
          · simpa using hRest
      · have hRecord := r.bytes_length
        have hHeader : headerLen = 21 := rfl
        rw [h.copy_eq_none (by omega) hFull, if_neg (by simpa [Fetched.full] using hFull),
          List.map_nil, liveOf, List.filter_nil, List.map_nil, List.append_nil]
        exact hKept

end Dnsd.Cache
