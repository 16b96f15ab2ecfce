import Dnsd.Cache.Compaction

/-! Crashes that cut the last record short. The store opens on such a file, but
appends behind the torn bytes, where neither a later replay nor a compaction
finds what it appended. Reads are full here: a fetch takes the rest of the file. -/

namespace Dnsd.Cache

open Bytes LastWrite

/-- What a crash leaves: whole records and a proper prefix of one more. -/
structure CrashedLog where
  recs : List LogRecord
  last : LogRecord
  torn : Bytes
  recs_fit : ∀ r ∈ recs, r.Fits
  last_fits : last.Fits
  torn_prefix : torn <+: last.bytes
  torn_ne : torn ≠ last.bytes

/-- The bytes on the disk: whole records, and the torn one behind them. -/
def CrashedLog.file (c : CrashedLog) : Bytes := logBytes c.recs ++ c.torn

/-- Puts with a ttl of zero or less are accepted and store nothing. -/
def Put.stored (p : Put) : Bool := 0 < p.ttlSecs

/-- The records that some puts append. -/
def recordsOf (puts : List Put) : List LogRecord := (puts.filter Put.stored).map Put.record

/-- The store after a reopen of the crashed file and the puts made since. -/
def CrashedLog.store (c : CrashedLog) (b : Buffering) (puts : List Put) : Inner :=
  (Inner.openStore b (some c.file)).run (puts.map .put)

/-- Every key put since the crash has its last value while unexpired: at once,
after a reopen, after a compaction and after both. -/
def Recovered (s : Inner) (b : Buffering) (t now : Int64) (puts : List Put) : Prop :=
  ∀ k p, lastPut (puts.filter Put.stored) k = some p → expired p.record.expireAtMs now = false →
    s.get now k = some p.val ∧ (s.reopenWith b).get now k = some p.val ∧
      (s.compact b t).get now k = some p.val ∧
      ((s.reopenWith b).compact b t).get now k = some p.val

/-! ## Appending to any file -/

theorem Inner.run_puts (inner : Inner) (puts : List Put) :
    (inner.run (puts.map .put)).log = inner.log ++ logBytes (recordsOf puts) ∧
      (inner.run (puts.map .put)).size = inner.size + (logBytes (recordsOf puts)).length ∧
      ∀ k, (inner.run (puts.map .put)).index.get k =
        (indexOf (placed inner.size (recordsOf puts)) k).or (inner.index.get k) := by
  induction puts generalizing inner with
  | nil => exact ⟨by simp [Inner.run, recordsOf], by simp [Inner.run, recordsOf], fun k => rfl⟩
  | cons p rest ih =>
      obtain ⟨hLog, hSize, hIndex⟩ := ih (inner.step (.put p))
      have hRun : inner.run ((p :: rest).map .put) =
          (inner.step (.put p)).run (rest.map .put) := rfl
      by_cases hTtl : p.ttlSecs ≤ 0
      · have hStep : inner.step (.put p) = inner := by rw [Inner.step, Inner.put, if_pos hTtl]
        have hRecords : recordsOf (p :: rest) = recordsOf rest := by
          rw [recordsOf, List.filter_cons_of_neg, recordsOf]
          simpa [Put.stored, Int64.not_lt] using hTtl
        rw [hStep] at hLog hSize hIndex
        rw [hRun, hStep, hRecords]
        exact ⟨hLog, hSize, hIndex⟩
      · have hStep : inner.step (.put p) =
            { index := inner.index.insert p.key
                ⟨inner.size, UInt32.ofNat p.val.length, p.record.expireAtMs⟩
              log := inner.log ++ p.record.bytes
              size := inner.size + p.record.bytes.length
              deadBytes := inner.deadBytes + deadLen p.key (inner.index.get p.key) } := by
          rw [Inner.step, Inner.put, if_neg hTtl]
          rfl
        have hRecords : recordsOf (p :: rest) = p.record :: recordsOf rest := by
          rw [recordsOf, List.filter_cons_of_pos, List.map_cons, recordsOf]
          simpa [Put.stored, Int64.not_le] using hTtl
        rw [hRun, hRecords]
        refine ⟨by rw [hLog, hStep]; simp, by rw [hSize, hStep]; simp [Nat.add_assoc], fun k => ?_⟩
        rw [hIndex, hStep, placed, indexOf_cons, Option.or_assoc]
        dsimp only
        rw [HashMap.get_insert]
        congr 1
        by_cases hKey : p.key = k
        · rw [if_pos hKey.symm, if_pos (show p.record.key = k from hKey)]
          rfl
        · rw [if_neg (Ne.symm hKey), if_neg (show ¬p.record.key = k from hKey), Option.none_or]

/-- Where the buffer holds the rest of a log, every header of it is handed out in one read. -/
theorem full_of_fetched {b : Buffering} {o stop : Nat} {recs : List LogRecord}
    (h : o + (logBytes recs).length ≤ stop) : ∀ f ∈ fetched b o stop recs, f.full b := by
  induction recs generalizing o with
  | nil => simp [fetched]
  | cons r rest ih =>
      have hLength := r.bytes_length
      rw [logBytes_cons, List.length_append] at h
      have hReach : r.reach b o stop = stop := by
        rw [LogRecord.reach, Buffering.reach_of_le (by omega : o + headerLen ≤ stop),
          Buffering.reach_of_le (by omega)]
      intro f hf
      rw [fetched, hReach] at hf
      rcases List.mem_cons.mp hf with rfl | hRest
      · rw [Fetched.full, decide_eq_true_eq]
        exact .inl (by dsimp only; omega)
      · exact ih (by omega) f hRest

/-- With full reads every record of a whole log is readable. -/
theorem readable_of_long {b : Buffering} {recs : List LogRecord}
    (hCapacity : (logBytes recs).length < b.capacity) : Readable b recs := by
  cases recs with
  | nil => simp [Readable, fetched]
  | cons r rest =>
      have hLength := r.bytes_length
      have hHeader : headerLen = 21 := rfl
      have hLimit := b.capacity_le
      rw [logBytes_cons, List.length_append] at hCapacity
      have hFill : b.reach 0 (0 + headerLen) = b.capacity := by
        rw [Buffering.reach_of_le_limit (by omega) (by omega), Nat.max_eq_right (by omega),
          Nat.zero_add]
      have hReach : r.reach b 0 0 = b.capacity := by
        rw [LogRecord.reach, hFill, Buffering.reach_of_le (by omega)]
      intro f hf
      rw [fetched, hReach] at hf
      rcases List.mem_cons.mp hf with rfl | hRest
      · rw [Fetched.full, decide_eq_true_eq]
        exact .inr ⟨rfl, by omega⟩
      · exact full_of_fetched (by omega) f hRest

theorem readable_eq_placed {b : Buffering} {recs : List LogRecord}
    (hCapacity : (logBytes recs).length < b.capacity) : readable b recs = placed 0 recs :=
  readable_eq_placed_iff.mpr (readable_of_long hCapacity)

/-- The store after the crash: where its index points to. -/
theorem CrashedLog.store_index (c : CrashedLog) {b : Buffering} {puts : List Put}
    (hCapacity : (c.store b puts).log.length < b.capacity) :
    (c.store b puts).log = c.file ++ logBytes (recordsOf puts) ∧
      (c.store b puts).size = (c.store b puts).log.length ∧
      ∀ k, (c.store b puts).index.get k =
        (indexOf (placed c.file.length (recordsOf puts)) k).or (indexOf (placed 0 c.recs) k) := by
  obtain ⟨hLog, hSize, hIndex⟩ := (Inner.openStore b (some c.file)).run_puts puts
  have hOpen : (Inner.openStore b (some c.file)).log = c.file := rfl
  have hStart : (Inner.openStore b (some c.file)).size = c.file.length := rfl
  rw [hOpen] at hLog
  rw [hStart] at hSize hIndex
  rw [CrashedLog.store] at hCapacity ⊢
  have hShort : (logBytes c.recs).length < b.capacity := by
    rw [hLog, CrashedLog.file] at hCapacity
    simp only [List.length_append] at hCapacity
    omega
  refine ⟨hLog, by rw [hSize, hLog, List.length_append], fun k => ?_⟩
  rw [hIndex, CrashedLog.file, Inner.openStore_index
    (scan_logBytes b c.recs_fit (recordStarts_torn c.last_fits c.torn_prefix c.torn_ne)),
    readable_eq_placed hShort]

/-- The last put on a key is among the appended records, and indexed there. -/
theorem indexOf_lastPut {puts : List Put} {k : Str} {p : Put}
    (hLast : lastPut (puts.filter Put.stored) k = some p) (start : Nat) :
    ∃ o, (o, p.record) ∈ placed start (recordsOf puts) ∧
      lastWrite ((placed start (recordsOf puts)).map fun q => (q.2.key, q)) k =
        some (o, p.record) := by
  have hRecord : (lastWrite ((placed start (recordsOf puts)).map fun q => (q.2.key, q)) k).map
      Prod.snd = some p.record := by
    have hSnd : (placed start (recordsOf puts)).map (fun q => (q.2.key, q.2)) =
        (recordsOf puts).map fun r => (r.key, r) := by
      conv_rhs => rw [← placed_map_snd start (recordsOf puts), List.map_map]
      rfl
    rw [← lastWrite_map, hSnd, recordsOf, List.map_map]
    change lastWrite ((puts.filter Put.stored).map fun q => (q.key, q.record)) k = _
    rw [lastWrite_map, ← lastPut, hLast]
    rfl
  obtain ⟨⟨o, r⟩, hPlaced, rfl⟩ := Option.map_eq_some_iff.mp hRecord
  obtain ⟨q, hMem, hEq⟩ := List.mem_map.mp (mem_of_lastWrite hPlaced)
  cases hEq
  exact ⟨o, hMem, hPlaced⟩

/-- Every stored put is read back while the store stays open. -/
theorem Inner.run_puts_get {inner : Inner} (hSize : inner.size = inner.log.length)
    {puts : List Put} (hPuts : ∀ p ∈ puts, p.record.Fits) {k : Str} {p : Put} {now : Int64}
    (hLast : lastPut (puts.filter Put.stored) k = some p)
    (hLive : expired p.record.expireAtMs now = false) :
    (inner.run (puts.map .put)).get now k = some p.val := by
  obtain ⟨hLog, -, hIndex⟩ := inner.run_puts puts
  obtain ⟨o, hPlaced, hWrite⟩ := indexOf_lastPut hLast inner.size
  rw [hSize] at hPlaced
  have hAt := at_of_mem_placed inner.log [] hPlaced
  rw [List.append_nil, ← hLog] at hAt
  obtain ⟨p', hMem, hEq⟩ := List.mem_map.mp (mem_of_lastWrite hLast)
  cases hEq
  have hValue := readValue_at (hPuts p (List.mem_of_mem_filter hMem)) hAt
  rw [Inner.get, hIndex, indexOf, hWrite]
  simp only [Option.map_some, Option.some_or, hLive, hValue]
  rfl

/-- Without torn bytes the log stays whole, and everything is found again. -/
theorem CrashedLog.recovered_of_clean (c : CrashedLog) {b : Buffering} {puts : List Put}
    (hCapacity : (c.store b puts).log.length < b.capacity)
    (hPuts : ∀ p ∈ puts, p.record.Fits) {t now : Int64} (hTime : t ≤ now) (hClean : c.torn = []) :
    Recovered (c.store b puts) b t now puts := by
  obtain ⟨hLog, hSize, hIndex⟩ := c.store_index hCapacity
  have hFile : c.file = logBytes c.recs := by rw [CrashedLog.file, hClean, List.append_nil]
  have hFits : ∀ r ∈ c.recs ++ recordsOf puts, r.Fits := by
    intro r hr
    rcases List.mem_append.mp hr with hOld | hNew
    · exact c.recs_fit r hOld
    · obtain ⟨p, hp, rfl⟩ := List.mem_map.mp hNew
      exact hPuts p (List.mem_of_mem_filter hp)
  rw [hFile, ← logBytes_append] at hLog
  have hReadable := readable_of_long (hLog ▸ hCapacity)
  have hTracks : (c.store b puts).Tracks (c.recs ++ recordsOf puts)
      (lastWrite ((placed 0 (c.recs ++ recordsOf puts)).map fun p => (p.2.key, p))) := by
    refine Inner.tracks_of_index hLog hFits hSize (fun k => ?_) fun _ hp => hp
    rw [hIndex, placed_append, indexOf_append, hFile, Nat.zero_add]
  have hReopened := Inner.tracks_open b hFits
  rw [readable_eq_placed_iff.mpr hReadable, ← hLog] at hReopened
  intro k p hLast hLive
  have hGet : (c.store b puts).get now k = some p.val := Inner.run_puts_get rfl hPuts hLast hLive
  have hReopen : ((c.store b puts).reopenWith b).get now k = some p.val := by
    rw [← hGet, hTracks.holds.get, Inner.reopenWith, hReopened.holds.get, Contents.get,
      Contents.get, hTracks.contents_eq, hReopened.contents_eq]
  refine ⟨hGet, hReopen, ?_, ?_⟩
  · rw [hTracks.compact_get hReadable hTime, hGet]
  · rw [Inner.reopenWith, hReopened.compact_get hReadable hTime, ← Inner.reopenWith,
      hReopen]

/-- A copy of the log ends at the torn bytes and misses every later record. -/
theorem CrashedLog.compact_get_of_rejected (c : CrashedLog) {b : Buffering} {puts : List Put}
    (hCapacity : (c.store b puts).log.length < b.capacity)
    (hRejected : recordStarts (c.torn ++ logBytes (recordsOf puts)) = false) (t now : Int64)
    {k : Str} {p : Put} (hLast : lastPut (puts.filter Put.stored) k = some p) :
    ((c.store b puts).compact b t).get now k = none := by
  obtain ⟨hLog, _, hIndex⟩ := c.store_index hCapacity
  rw [CrashedLog.file, List.append_assoc] at hLog
  have hShort : (logBytes c.recs).length < b.capacity := by
    rw [hLog, List.length_append] at hCapacity
    omega
  have hTurns : c.recs.length ≤ (c.store b puts).log.length := by
    rw [hLog, List.length_append]
    exact Nat.le_add_right_of_le (length_le_logBytes c.recs)
  have hKept := ((c.store b puts).follows_snapshot b t).copyAll
    c.recs_fit (by rw [List.drop_zero, hLog]) hRejected ((c.store b puts).kept_snapshot b t) hTurns
  rw [← readable, readable_eq_placed hShort] at hKept
  rw [Inner.compact, hKept.holds_swap.get, Contents.get, contentsOf, lastWrite_eq_none_iff.mpr]
  intro e he hKey
  obtain ⟨r, hr, rfl⟩ := List.mem_map.mp he
  rw [List.nil_append, liveOf] at hr
  obtain ⟨q, hq, rfl⟩ := List.mem_map.mp hr
  obtain ⟨hPlaced, hContains⟩ := List.mem_filter.mp hq
  have hLive : q.1 ∈ (c.store b puts).liveOffsets t := List.contains_iff_mem.mp hContains
  obtain ⟨k', ent, hGet, _, hOffset⟩ := Inner.mem_liveOffsets.mp hLive
  rw [hIndex, Option.or_eq_some_iff] at hGet
  have hBounds := placed_bounds hPlaced
  have hLength := q.2.bytes_length
  have hHeader : headerLen = 21 := rfl
  rcases hGet with hBehind | ⟨hNone, hFront⟩
  -- The entry cannot be one of a later put: those lie behind the torn bytes.
  · obtain ⟨q', hLater, rfl⟩ := Option.map_eq_some_iff.mp hBehind
    obtain ⟨_, hMem, hEq⟩ := List.mem_map.mp (mem_of_lastWrite hLater)
    cases hEq
    have hStart := (placed_bounds hMem).1
    rw [CrashedLog.file, List.length_append] at hStart
    dsimp only at hOffset
    omega
  -- Nor one of an older record of `k`, as the later put has replaced it.
  · obtain ⟨q', hOlder, rfl⟩ := Option.map_eq_some_iff.mp hFront
    obtain ⟨_, hMem, hEq⟩ := List.mem_map.mp (mem_of_lastWrite hOlder)
    cases hEq
    have hSame := placed_unique hMem hPlaced hOffset
    obtain ⟨o, _, hWrite⟩ := indexOf_lastPut hLast c.file.length
    rw [← hKey, ← hSame] at hWrite
    rw [indexOf, Option.map_eq_none_iff] at hNone
    rw [hNone] at hWrite
    cases hWrite

/-- After a crash every key put since is found again over reopens and compactions
when the crash left no torn byte, or when nothing put since is still unexpired.
It is so only then, as long as no checksum accepts the torn bytes together with
what was appended to them. -/
theorem recovered_iff (c : CrashedLog) {b : Buffering} {puts : List Put}
    (hCapacity : (c.store b puts).log.length < b.capacity)
    (hPuts : ∀ p ∈ puts, p.record.Fits) {t now : Int64} (hTime : t ≤ now) :
    (c.torn = [] ∨ (∀ k p, lastPut (puts.filter Put.stored) k = some p →
        expired p.record.expireAtMs now = true) →
      Recovered (c.store b puts) b t now puts) ∧
    (recordStarts (c.torn ++ logBytes (recordsOf puts)) = false →
      Recovered (c.store b puts) b t now puts →
      c.torn = [] ∨ ∀ k p, lastPut (puts.filter Put.stored) k = some p →
        expired p.record.expireAtMs now = true) := by
  constructor
  · rintro (hClean | hExpired)
    · exact c.recovered_of_clean hCapacity hPuts hTime hClean
    · intro k p hLast hLive
      rw [hExpired k p hLast] at hLive
      cases hLive
  · intro hRejected hRecovered
    refine Or.inr fun k p hLast => ?_
    by_contra hLive
    obtain ⟨_, _, hCompact, _⟩ := hRecovered k p hLast (by simpa using hLive)
    rw [c.compact_get_of_rejected hCapacity hRejected t now hLast] at hCompact
    cases hCompact

/-- A reader whose first fill takes all of a short file. -/
def hundredAtOnce : Buffering := ⟨100, 100, by decide, by decide⟩

/-- A crash after the first byte of a record in an otherwise empty log. -/
def oneTornByte : CrashedLog where
  recs := []
  last := ⟨['a'], [1], 60000⟩
  torn := [0xA5]
  recs_fit := by simp
  last_fits := ⟨by decide, by decide⟩
  torn_prefix := by decide +kernel
  torn_ne := by decide +kernel

/-- The torn byte stays in the log, and a put after the reopen is appended behind it. That
one is not found after the next reopen, whose replay stops at the byte. -/
theorem reopen_oneTornByte :
    ¬Recovered (oneTornByte.store hundredAtOnce [⟨0, ['b'], [2], 60⟩]) hundredAtOnce 500 1000
      [⟨0, ['b'], [2], 60⟩] := by
  intro hRecovered
  obtain ⟨_, hReopened, _⟩ := hRecovered ['b'] ⟨0, ['b'], [2], 60⟩ rfl (by decide)
  have hNone : ((oneTornByte.store hundredAtOnce [⟨0, ['b'], [2], 60⟩]).reopenWith hundredAtOnce).get 1000 ['b'] =
      none := by
    decide +kernel
  rw [hNone] at hReopened
  cases hReopened

/-- A crash between two records. -/
def noTornByte : CrashedLog := { oneTornByte with
  torn := []
  torn_prefix := List.nil_prefix
  torn_ne := by decide +kernel }

/-- A crash between two records tears nothing off, and the key that is put after the
reopen is found again. -/
theorem recovered_noTornByte :
    Recovered (noTornByte.store hundredAtOnce [⟨0, ['b'], [2], 60⟩]) hundredAtOnce 500 1000
      [⟨0, ['b'], [2], 60⟩] := by
  refine (recovered_iff noTornByte (by decide +kernel) (fun p hp => ?_) (by decide)).1
    (Or.inl rfl)
  rw [List.mem_singleton.mp hp]
  exact ⟨by decide, by decide⟩

end Dnsd.Cache
