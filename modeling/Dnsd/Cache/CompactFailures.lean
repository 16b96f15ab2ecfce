import Dnsd.Cache.Crash
import Dnsd.Cache.PutFailures

/-! Compactions that end with an error. The swap replaces the two handles, the
name of the file and the index one after another, and an error in between leaves
a store whose handles, file and index belong to different logs. -/

namespace Dnsd.Cache

open Bytes LastWrite

/-- The steps of `compact` that can fail, in order. -/
inductive IoStep where
  | createTmp
  | openLog
  | readRecord
  | writeRecord
  | flush
  | openTmpAppend
  | openTmpRead
  | rename
  | openDataAppend
  | openDataRead
  deriving DecidableEq

/-- The two files: the log of the store and the copy made of it. -/
inductive FileId where
  | log
  | copy
  deriving DecidableEq

/-- A store with its handles apart: the file that each is open on, and the file
that has the name `data.log`. -/
structure Store where
  index : HashMap Str IndexEntry
  content : FileId → Bytes
  writeFile : FileId
  readFile : FileId
  dataLog : FileId
  size : Nat
  deadBytes : Nat

namespace Store

/-- A lookup through the handle that the store reads with, wherever that points to. -/
def get (s : Store) (now : Int64) (key : Str) : Option Bytes :=
  match s.index.get key with
  | none => none
  | some ent =>
      if expired ent.expireAtMs now then none else readValue (s.content s.readFile) ent.offset

/-- A `put` whose write succeeds, on a store whose handles may be at different files. -/
def put (s : Store) (p : Put) : Store :=
  if p.ttlSecs ≤ 0 then s
  else
    { s with
      index := s.index.insert p.key ⟨s.size, UInt32.ofNat p.val.length, p.record.expireAtMs⟩
      content := Function.update s.content s.writeFile (s.content s.writeFile ++ p.record.bytes)
      size := s.size + p.record.bytes.length
      deadBytes := s.deadBytes + deadLen p.key (s.index.get p.key) }

/-- One put after the other, none of which fails. -/
def putAll (s : Store) (puts : List Put) : Store := puts.foldl put s

/-- A clean close and `L2Store::open` on the same directory. -/
def reopen (s : Store) (b : Buffering) : Inner :=
  Inner.openStore b (some (s.content s.dataLog))

/-- The store in front of the swap: both handles are open on the log. -/
def start (inner : Inner) (c : Copying) : Store where
  index := inner.index
  content
    | .log => inner.log
    | .copy => c.tmp
  writeFile := .log
  readFile := .log
  dataLog := .log
  size := inner.size
  deadBytes := inner.deadBytes

/-- From here on the puts go to the copy. -/
def openTmpAppend (s : Store) : Store := { s with writeFile := .copy }

/-- From here on the lookups read the copy. -/
def openTmpRead (s : Store) : Store := { s with readFile := .copy }

/-- The copy takes the place of the log, and the handles stay where they are. -/
def rename (s : Store) : Store := { s with dataLog := .copy }

/-- The puts go to the file that has the name of the log. -/
def openDataAppend (s : Store) : Store := { s with writeFile := s.dataLog }

/-- The lookups read the file that has the name of the log. -/
def openDataRead (s : Store) : Store := { s with readFile := s.dataLog }

/-- The last assignments of the swap: the new index, the size of the copy, and no dead
bytes. -/
def install (s : Store) (c : Copying) : Store :=
  { s with index := c.newIndex, size := c.offset, deadBytes := 0 }

/-- What a compaction leaves that fails at a step: everything in front of the
step is done. The copying itself touches none of the fields. -/
def failed (inner : Inner) (c : Copying) : IoStep → Store
  | .createTmp | .openLog | .readRecord | .writeRecord | .flush | .openTmpAppend => start inner c
  | .openTmpRead => (start inner c).openTmpAppend
  | .rename => (start inner c).openTmpAppend.openTmpRead
  | .openDataAppend => (start inner c).openTmpAppend.openTmpRead.rename
  | .openDataRead => (start inner c).openTmpAppend.openTmpRead.rename.openDataAppend

end Store

/-- `compact` returns an error at a step, with the store that it leaves. -/
def World.compactErr (w : World) (io : IoStep) : Option Store :=
  match w.phase, io with
  | .copying c, .createTmp | .copying c, .openLog | .copying c, .readRecord
  | .copying c, .writeRecord => some (.failed w.inner c io)
  | .copied c, .flush | .copied c, .openTmpAppend | .copied c, .openTmpRead | .copied c, .rename
  | .copied c, .openDataAppend | .copied c, .openDataRead => some (.failed w.inner c io)
  | _, _ => none

/-- How much of a log the sequential reader gets through. -/
def scanned (b : Buffering) (file : Bytes) : Nat :=
  ((scan b file).map fun rec => rec.raw.length).sum

/-- The compaction that failed has changed no answer, and later puts are read
back, at once and after a reopen that gets through the log they belong to. -/
structure CompactAtomic (inner : Inner) (s : Store) : Prop where
  unchanged : ∀ now k, s.get now k = inner.get now k
  later : ∀ puts : List Put, (∀ p ∈ puts, p.record.Fits) →
    ∀ now k q, lastPut (puts.filter Put.stored) k = some q →
      expired q.record.expireAtMs now = false →
      (s.putAll puts).get now k = some q.val ∧
        ∀ b, scanned b (inner.log ++ logBytes (recordsOf puts)) =
            (inner.log ++ logBytes (recordsOf puts)).length →
          ((s.putAll puts).reopen b).get now k = some q.val

/-! ## Stores with one file -/

/-- Both handles and the name are at one file, and all belongs together. -/
structure Store.Shows (s : Store) (inner : Inner) : Prop where
  index : s.index = inner.index
  size : s.size = inner.size
  deadBytes : s.deadBytes = inner.deadBytes
  written : s.content s.writeFile = inner.log
  read : s.readFile = s.writeFile
  named : s.dataLog = s.writeFile

/-- Without an error the swap is the one of the store with one file. -/
theorem Store.swap_shows (inner : Inner) (c : Copying) :
    ((start inner c).openTmpAppend.openTmpRead.rename.openDataAppend.openDataRead.install c).Shows
      c.swap :=
  ⟨rfl, rfl, rfl, rfl, rfl, rfl⟩

namespace Store.Shows

variable {s : Store} {inner : Inner}

/-- A store with two handles returns what the one that it shows does. -/
theorem get (h : s.Shows inner) (now : Int64) (k : Str) : s.get now k = inner.get now k := by
  cases hGet : inner.index.get k with
  | none => simp only [Store.get, Inner.get, h.index, hGet]
  | some ent => simp only [Store.get, Inner.get, h.index, hGet, h.read, h.written]

/-- It goes on showing it after a put. -/
theorem put (h : s.Shows inner) (p : Put) : (s.put p).Shows (inner.step (.put p)) := by
  rw [Store.put]
  by_cases hTtl : 0 < p.ttlSecs
  · rw [if_neg (Int64.not_le.mpr hTtl), Inner.step_put hTtl]
    exact ⟨by simp [h.index, h.size], by simp [h.size], by simp [h.index, h.deadBytes],
      by simp [h.written], h.read, h.named⟩
  · rwa [if_pos (Int64.not_lt.mp hTtl), Inner.step_put_refused hTtl]

/-- And after any number of them. -/
theorem putAll (h : s.Shows inner) (puts : List Put) :
    (s.putAll puts).Shows (inner.run (puts.map .put)) := by
  induction puts generalizing s inner with
  | nil => exact h
  | cons p rest ih => exact ih (h.put p)

/-- What it leaves for a reopen is the same too. -/
theorem reopen (h : s.Shows inner) (b : Buffering) : s.reopen b = inner.reopenWith b := by
  rw [Store.reopen, Inner.reopenWith, h.named, h.written]

end Store.Shows

theorem logBytes_eq_nil {recs : List LogRecord} (h : (logBytes recs).length = 0) : recs = [] := by
  have hLength := length_le_logBytes recs
  exact List.length_eq_zero_iff.mp (by omega)

theorem scanned_logBytes (b : Buffering) {recs : List LogRecord} (hFits : ∀ r ∈ recs, r.Fits) :
    scanned b (logBytes recs) = (logBytes ((readable b recs).map Prod.snd)).length := by
  have hScan := scan_logBytes b hFits recordStarts_nil
  rw [List.append_nil] at hScan
  rw [scanned, hScan]
  induction readable b recs with
  | nil => rfl
  | cons p rest ih => simpa [LogRecord.toRaw] using ih

/-- A reader that gets through a whole log reads all its records. -/
theorem readable_of_scanned {b : Buffering} {recs : List LogRecord} (hFits : ∀ r ∈ recs, r.Fits)
    (h : scanned b (logBytes recs) = (logBytes recs).length) : readable b recs = placed 0 recs := by
  obtain ⟨rest, hRest⟩ := readable_isPrefix b recs
  have hWhole : logBytes recs =
      logBytes ((readable b recs).map Prod.snd) ++ logBytes (rest.map Prod.snd) := by
    rw [← logBytes_append, ← List.map_append, hRest, placed_map_snd]
  rw [scanned_logBytes b hFits, hWhole, List.length_append] at h
  have hNone : rest.map Prod.snd = [] := logBytes_eq_nil (by omega)
  rw [← hRest, List.map_eq_nil_iff.mp hNone, List.append_nil]

/-- A store with one file reads back every later put. -/
theorem Store.Shows.atomic {s : Store} {inner : Inner} (h : s.Shows inner)
    {recs : List LogRecord} {current : Str → Option (Nat × LogRecord)}
    (hTracks : inner.Tracks recs current) : CompactAtomic inner s := by
  refine ⟨fun now k => h.get now k, fun puts hPuts now k q hLast hLive => ⟨?_, ?_⟩⟩
  · rw [(h.putAll puts).get]
    exact Inner.run_puts_get hTracks.size hPuts hLast hLive
  · intro b hScanned
    have hFits : ∀ r ∈ recs ++ recordsOf puts, r.Fits := by
      intro r hr
      rcases List.mem_append.mp hr with hOld | hNew
      · exact hTracks.fits r hOld
      · obtain ⟨p, hp, rfl⟩ := List.mem_map.mp hNew
        exact hPuts p (List.mem_of_mem_filter hp)
    have hLog : (inner.run (puts.map .put)).log = logBytes (recs ++ recordsOf puts) := by
      rw [(inner.run_puts puts).1, hTracks.log, logBytes_append]
    rw [hTracks.log, ← logBytes_append] at hScanned
    have hHolds := Inner.holds_reopen b hFits recordStarts_nil
    rw [List.append_nil, readable_of_scanned hFits hScanned, placed_map_snd] at hHolds
    rw [(h.putAll puts).reopen, Inner.reopenWith, hLog, hHolds.get, Contents.get_eq_some_iff]
    have hWrite := contentsOf_puts (puts.filter Put.stored) k
    rw [hLast, Option.map_some] at hWrite
    refine ⟨q.record.entry, ?_, hLive, rfl⟩
    rw [contentsOf, List.map_append, lastWrite_append, ← contentsOf, recordsOf, hWrite]
    rfl

/-! ## How much was copied -/

/-- The copying thread has copied pieces of the log one after another: no more
than it has read, and if as much, then all of it. -/
structure Copying.Behind (c : Copying) (file : Bytes) : Prop where
  stands : BufReader.Stands file c.reader c.readOffset
  short : c.tmp.length ≤ c.readOffset
  whole : c.tmp.length = c.readOffset → c.tmp = file.take c.readOffset

namespace Copying.Behind

variable {c : Copying} {file : Bytes}

/-- A copy that is behind a file is behind every longer one. -/
theorem grow (h : c.Behind file) (more : Bytes) : c.Behind (file ++ more) := by
  refine ⟨h.stands.grow more, h.short, fun hAll => ?_⟩
  rw [List.take_append_of_le_length h.stands.le]
  exact h.whole hAll

theorem copy {c' : Copying} (h : c.Behind file) (hCopy : c.copy file = some c') :
    c'.Behind file := by
  rw [Copying.copy] at hCopy
  cases hRead : readRecord file c.reader c.readOffset with
  | none =>
      rw [hRead] at hCopy
      cases hCopy
  | some read =>
      obtain ⟨rec, rd', next⟩ := read
      obtain ⟨-, rfl, hAt, hStands, -⟩ := readRecord_stands h.stands hRead
      have hShort := h.short
      rw [hRead] at hCopy
      cases hCopy
      rw [Copying.take]
      split_ifs with hLive
      · refine ⟨hStands, by simpa using hShort, fun hAll => ?_⟩
        have hBefore : c.tmp.length = c.readOffset := by simpa using hAll
        dsimp only
        rw [List.take_add, h.whole hBefore, hAt.take_drop rfl]
      · refine ⟨hStands, hShort.trans (Nat.le_add_right ..), fun hAll => ?_⟩
        dsimp only at hAll ⊢
        have hNone : rec.raw.length = 0 := by omega
        rw [hNone, Nat.add_zero] at hAll ⊢
        exact h.whole hAll

end Copying.Behind

/-- A copy under way, or one that is ready, against the log as it is. -/
def World.Behind (w : World) : Prop :=
  match w.phase with
  | .idle => True
  | .copying c | .copied c => c.Behind w.inner.log

theorem World.Behind.grow {w w' : World} (h : w.Behind) {more : Bytes} (hPhase : w'.phase = w.phase)
    (hLog : w'.inner.log = w.inner.log ++ more) : w'.Behind := by
  rw [World.Behind] at h ⊢
  rw [hPhase, hLog]
  cases hCase : w.phase with
  | idle => trivial
  | copying c =>
      rw [hCase] at h
      exact h.grow more
  | copied c =>
      rw [hCase] at h
      exact h.grow more

theorem World.Behind.same {w w' : World} (h : w.Behind) (hPhase : w'.phase = w.phase)
    (hLog : w'.inner.log = w.inner.log) : w'.Behind := by
  have hMore : w'.inner.log = w.inner.log ++ [] := by rw [hLog, List.append_nil]
  exact h.grow hPhase hMore

theorem World.Behind.follow {w w' : World} (h : w.Behind) {e : Event} (hStep : w.follow e = some w') :
    w'.Behind := by
  cases World.follows_of_follow hStep with
  | putFails f => exact h.grow rfl rfl
  | compactFails hUnderWay => trivial
  | done hSteps =>
      cases hSteps with
      | put p =>
          by_cases hTtl : 0 < p.ttlSecs
          · exact h.grow rfl (by rw [Inner.step_put hTtl])
          · exact h.same rfl (by rw [Inner.step_put_refused hTtl])
      | get now key => exact h
      | delete key =>
          refine h.same rfl ?_
          dsimp only
          rw [Inner.delete]
          split <;> rfl
      | snapshot now hIdle =>
          exact ⟨BufReader.stands_new _ _, le_refl _, fun _ => rfl⟩
      | copy hCopying hCopy =>
          rw [World.Behind, hCopying] at h
          exact h.copy hCopy
      | finish hCopying hCopy =>
          rw [World.Behind, hCopying] at h
          exact h
      | swap hCopied => trivial
      | restart => trivial

/-- A world in which failures have left nothing behind stays sound, whatever is done or
fails next. -/
theorem World.Sound.follow {w w' : World} (h : w.Sound) {e : Event} (hClean : e.Clean)
    (hStep : w.follow e = some w') : w'.Sound := by
  cases World.follows_of_follow hStep with
  | done hSteps => exact h.step hClean hStep
  | putFails f =>
      rw [Event.Clean] at hClean
      have hSame : w.putFails f = w := by simp [World.putFails, Inner.putFails, hClean]
      rwa [hSame]
  | compactFails hUnderWay => exact .inl ⟨rfl, h.tracks⟩

/-- What any interleaving leads to from an empty directory, with puts that fail
before they write and compactions that fail in front of their swap. -/
def ReachableClean (w : World) : Prop :=
  ∃ events, (∀ e ∈ events, e.Clean) ∧ Runs.run World.follow World.init events = some w

/-- Every world is sound that is reached with clean events. -/
theorem ReachableClean.sound {w : World} (h : ReachableClean w) : w.Sound ∧ w.Behind := by
  obtain ⟨events, hClean, hRun⟩ := h
  have hInit : World.init.Sound := Or.inl ⟨rfl, _, _, Inner.tracks_empty bufReader⟩
  have hStep (s : World) (e : Event) (s' : World) (hKept : s.Sound ∧ s.Behind) (hEvent : e.Clean)
      (hFollow : s.follow e = some s') : s'.Sound ∧ s'.Behind :=
    ⟨hKept.1.follow hEvent hFollow, hKept.2.follow hFollow⟩
  exact Runs.run_invariant hStep ⟨hInit, trivial⟩ hClean hRun

/-! ## Errors in the swap -/

/-- The length of a copy that is ready. -/
def World.copyLength (w : World) : Option Nat :=
  match w.phase with
  | .copied c => some c.tmp.length
  | _ => none

/-- Where a compaction may fail without a trace: in front of the new handles, or
behind the rename when the copy is the whole log. -/
def IoStep.Intact (io : IoStep) (w : World) : Prop :=
  match io with
  | .createTmp | .openLog | .readRecord | .writeRecord | .flush | .openTmpAppend => True
  | .openTmpRead | .rename => False
  | .openDataAppend | .openDataRead => w.copyLength = some w.inner.log.length

/-- Less than a header cannot be read. -/
theorem readValue_short {log : Bytes} {offset : Nat} (h : log.length < offset + headerLen) :
    readValue log offset = none := by
  have hHeader : 0 < headerLen := by decide
  rw [readValue]
  dsimp only
  rw [if_pos]
  rw [List.length_take, List.length_drop]
  omega

theorem probe_length (n : Nat) : (probe n).record.bytes.length = headerLen + n := by
  rw [LogRecord.bytes_length]
  simp [probe, Put.record, Str.len, Str.bytes]

theorem recordsOf_probe (n : Nat) : recordsOf [probe n] = [(probe n).record] := by
  have hStored : (probe n).stored = true := by
    rw [Put.stored, decide_eq_true_eq]
    exact probe_ttlSecs n
  simp [recordsOf, hStored]

section Probing

variable {inner : Inner} {s : Store}

/-- What a probe after the failure tells. -/
theorem CompactAtomic.probe (h : CompactAtomic inner s) {n : Nat} (hn : n < 3) :
    (s.put (Cache.probe n)).get 0 (Cache.probe n).key = some (List.replicate n 0) ∧
      ∀ b, scanned b (inner.log ++ (Cache.probe n).record.bytes) =
          (inner.log ++ (Cache.probe n).record.bytes).length →
        ((s.put (Cache.probe n)).reopen b).get 0 (Cache.probe n).key =
          some (List.replicate n 0) := by
  have hFits : ∀ p ∈ [Cache.probe n], p.record.Fits := by
    intro p hp
    rw [List.mem_singleton.mp hp]
    exact (probe_inRange hn).fits
  have hStored : [Cache.probe n].filter Put.stored = [Cache.probe n] := by
    have hPositive : (Cache.probe n).stored = true := by
      rw [Put.stored, decide_eq_true_eq]
      exact probe_ttlSecs n
    rw [List.filter_cons_of_pos hPositive, List.filter_nil]
  have hLast : lastPut ([Cache.probe n].filter Put.stored) [] = some (Cache.probe n) := by
    rw [hStored]
    rfl
  have hLater := h.later [Cache.probe n] hFits 0 [] (Cache.probe n) hLast (probe_live n)
  rw [recordsOf_probe, logBytes_cons, logBytes_nil, List.append_nil] at hLater
  exact hLater

theorem Store.put_probe (s : Store) (n : Nat) :
    (s.put (probe n)).get 0 (probe n).key =
      readValue (Function.update s.content s.writeFile
        (s.content s.writeFile ++ (probe n).record.bytes) s.readFile) s.size := by
  rw [Store.put, if_neg (Int64.not_le.mpr (probe_ttlSecs n)), Store.get]
  dsimp only
  rw [HashMap.get_insert_self]
  dsimp only
  rw [probe_live, if_neg (by decide)]

/-- A put that goes to one file and is read from another is lost. -/
theorem not_compactAtomic_of_apart (hApart : s.readFile ≠ s.writeFile)
    (hSize : (s.content s.readFile).length ≤ s.size) : ¬CompactAtomic inner s := by
  intro hAtomic
  have hGet := (hAtomic.probe (show 0 < 3 by decide)).1
  rw [Store.put_probe, Function.update_of_ne hApart, readValue_short] at hGet
  · cases hGet
  · have hHeader : 0 < headerLen := by decide
    omega

/-- So is one that is listed behind the end of the file it goes to. -/
theorem not_compactAtomic_of_gap (hSame : s.readFile = s.writeFile)
    (hGap : (s.content s.readFile).length < s.size) : ¬CompactAtomic inner s := by
  intro hAtomic
  have hGet := (hAtomic.probe (show 0 < 3 by decide)).1
  rw [Store.put_probe, ← hSame, Function.update_self, readValue_short] at hGet
  · cases hGet
  · rw [List.length_append, probe_length]
    omega

/-- A put that goes to a file without the name of the log is gone after a
reopen. -/
theorem not_compactAtomic_of_unnamed {recs : List LogRecord}
    {current : Str → Option (Nat × LogRecord)} (hTracks : inner.Tracks recs current)
    (hApart : s.dataLog ≠ s.writeFile) : ¬CompactAtomic inner s := by
  intro hAtomic
  -- A reader that takes the log with one more record in one fill.
  let b : Buffering := ⟨inner.log.length + 24, inner.log.length + 24, by omega, Nat.le_refl _⟩
  have hReopen (n : Nat) (hn : n < 3) :
      (s.reopen b).get 0 [] = some (List.replicate n 0) := by
    have hFits : ∀ r ∈ recs ++ [(probe n).record], r.Fits := by
      intro r hr
      rcases List.mem_append.mp hr with hOld | hNew
      · exact hTracks.fits r hOld
      · rw [List.mem_singleton.mp hNew]
        exact (probe_inRange hn).fits
    have hLog : inner.log ++ (probe n).record.bytes = logBytes (recs ++ [(probe n).record]) := by
      simp [hTracks.log]
    have hLength := congrArg List.length hLog
    rw [List.length_append, probe_length] at hLength
    have hHeader : headerLen = 21 := rfl
    have hReadable : readable b (recs ++ [(probe n).record]) =
        placed 0 (recs ++ [(probe n).record]) := readable_eq_placed (by dsimp only [b]; omega)
    have hScanned : scanned b (inner.log ++ (probe n).record.bytes) =
        (inner.log ++ (probe n).record.bytes).length := by
      rw [hLog, scanned_logBytes b hFits, hReadable, placed_map_snd]
    have hSame : (s.put (probe n)).content (s.put (probe n)).dataLog = s.content s.dataLog := by
      rw [Store.put, if_neg (Int64.not_le.mpr (probe_ttlSecs n))]
      exact Function.update_of_ne hApart _ _
    have hGet := (hAtomic.probe hn).2 b hScanned
    rwa [Store.reopen, hSame, ← Store.reopen] at hGet
  have hNone := (hReopen 0 (by decide)).symm.trans (hReopen 1 (by decide))
  cases hNone

end Probing

/-- A compaction fails while it copies or after it, and each kind of failure leaves its
own store. -/
theorem World.compactErr_cases {w : World} {io : IoStep} {s : Store}
    (hErr : w.compactErr io = some s) :
    ∃ c, s = .failed w.inner c io ∧
      (w.phase = .copied c ∨
        w.phase = .copying c ∧ io ∈ [.createTmp, .openLog, .readRecord, .writeRecord]) := by
  unfold World.compactErr at hErr
  cases hCase : w.phase with
  | idle =>
      rw [hCase] at hErr
      cases hErr
  | copying c =>
      rw [hCase] at hErr
      cases io <;> cases hErr <;> exact ⟨c, rfl, .inr ⟨rfl, by decide⟩⟩
  | copied c =>
      rw [hCase] at hErr
      cases io <;> cases hErr <;> exact ⟨c, rfl, .inl rfl⟩

theorem Store.start_shows (inner : Inner) (c : Copying) : (start inner c).Shows inner :=
  ⟨rfl, rfl, rfl, rfl, rfl, rfl⟩

/-- A compaction that fails is atomic exactly if it fails in front of the new
handles, or behind the rename with a copy that is the whole log. -/
theorem compactAtomic_iff {w : World} (hReach : ReachableClean w) {io : IoStep} {s : Store}
    (hErr : w.compactErr io = some s) : CompactAtomic w.inner s ↔ io.Intact w := by
  obtain ⟨hSound, hBehind⟩ := hReach.sound
  obtain ⟨recs, current, hTracks⟩ := hSound.tracks
  obtain ⟨c, rfl, hPhase⟩ := World.compactErr_cases hErr
  have hSize := hTracks.size
  have hStart := (Store.start_shows w.inner c).atomic hTracks
  have hCopied (hLate : io ∉ [IoStep.createTmp, .openLog, .readRecord, .writeRecord]) :
      w.phase = .copied c ∧ c.Behind w.inner.log := by
    rcases hPhase with hCopied | ⟨-, hEarly⟩
    · rw [World.Behind, hCopied] at hBehind
      exact ⟨hCopied, hBehind⟩
    · exact absurd hEarly hLate
  have hDone (hLate : io ∉ [IoStep.createTmp, .openLog, .readRecord, .writeRecord])
      {s : Store} (hNamed : s.Shows { w.inner with log := c.tmp }) :
      CompactAtomic w.inner s ↔ w.copyLength = some w.inner.log.length := by
    obtain ⟨hCase, hCopy⟩ := hCopied hLate
    have hShort := hCopy.short
    have hEnd := hCopy.stands.le
    rw [World.copyLength, hCase, Option.some_inj]
    constructor
    · intro hAtomic
      by_contra hLess
      refine not_compactAtomic_of_gap hNamed.read ?_ hAtomic
      rw [hNamed.read, hNamed.written, hNamed.size, hSize]
      dsimp only
      omega
    · intro hLength
      have hAll : c.tmp = w.inner.log := by
        have hTake := hCopy.whole (by omega)
        rwa [List.take_of_length_le (by omega)] at hTake
      rw [hAll] at hNamed
      exact hNamed.atomic hTracks
  cases io with
  | createTmp => exact iff_of_true hStart trivial
  | openLog => exact iff_of_true hStart trivial
  | readRecord => exact iff_of_true hStart trivial
  | writeRecord => exact iff_of_true hStart trivial
  | flush => exact iff_of_true hStart trivial
  | openTmpAppend => exact iff_of_true hStart trivial
  | openTmpRead =>
      have hApart : FileId.log ≠ FileId.copy := by decide
      exact iff_of_false (not_compactAtomic_of_apart hApart hSize.ge) id
  | rename =>
      have hApart : FileId.log ≠ FileId.copy := by decide
      exact iff_of_false (not_compactAtomic_of_unnamed hTracks hApart) id
  | openDataAppend => exact hDone (by decide) ⟨rfl, rfl, rfl, rfl, rfl, rfl⟩
  | openDataRead => exact hDone (by decide) ⟨rfl, rfl, rfl, rfl, rfl, rfl⟩

/-- A put, and a compaction up to its swap. -/
def copyEvents : List Event :=
  [.done (.put ⟨0, ['a'], [1], 60⟩), .done (.snapshot 500), .done .turn, .done .turn]

theorem copyEvents_clean : ∀ e ∈ copyEvents, e.Clean := by
  intro e he
  simp only [copyEvents, List.mem_cons, List.not_mem_nil, or_false] at he
  rcases he with rfl | rfl | rfl | rfl
  · exact ⟨by decide, by decide⟩
  · trivial
  · trivial
  · trivial

/-- A compaction fails at its last step, the new read handle. The copy that has taken the
name is the whole log, so nothing is lost. -/
theorem compactAtomic_openDataRead :
    ∃ w s, Runs.run World.follow World.init copyEvents = some w ∧
      w.compactErr .openDataRead = some s ∧ CompactAtomic w.inner s := by
  have hCopied : (Runs.run World.follow World.init copyEvents).any (fun w =>
      decide (w.copyLength = some w.inner.log.length) && (w.compactErr .openDataRead).isSome) =
        true := by
    decide +kernel
  obtain ⟨w, hRun, hCheck⟩ := (Option.any_eq_true _ _).mp hCopied
  obtain ⟨hLength, hSome⟩ := Bool.and_eq_true_iff.mp hCheck
  obtain ⟨s, hErr⟩ := Option.isSome_iff_exists.mp hSome
  have hWhole : w.copyLength = some w.inner.log.length := of_decide_eq_true hLength
  exact ⟨w, s, hRun, hErr, (compactAtomic_iff ⟨_, copyEvents_clean, hRun⟩ hErr).mpr hWhole⟩

/-- The read handle cannot be opened on the copy, and the write handle is there already:
the next put goes to the copy and is read from the log. -/
theorem not_compactAtomic_openTmpRead :
    ∃ w s, Runs.run World.follow World.init copyEvents = some w ∧
      w.compactErr .openTmpRead = some s ∧ ¬CompactAtomic w.inner s := by
  have hLost : (Runs.run World.follow World.init copyEvents).any (fun w =>
      (w.compactErr .openTmpRead).any fun s =>
        decide ((s.put ⟨600, ['b'], [2], 60⟩).get 1000 ['b'] = none)) = true := by
    decide +kernel
  obtain ⟨w, hRun, hErr⟩ := (Option.any_eq_true _ _).mp hLost
  obtain ⟨s, hErr, hNone⟩ := (Option.any_eq_true _ _).mp hErr
  refine ⟨w, s, hRun, hErr, fun hAtomic => ?_⟩
  have hFits : ∀ p ∈ [(⟨600, ['b'], [2], 60⟩ : Put)], p.record.Fits := by
    intro p hp
    rw [List.mem_singleton.mp hp]
    exact ⟨by decide, by decide⟩
  have hGet := (hAtomic.later _ hFits 1000 ['b'] _ rfl (by decide)).1
  exact absurd hGet (by simp [Store.putAll, of_decide_eq_true hNone])

end Dnsd.Cache
