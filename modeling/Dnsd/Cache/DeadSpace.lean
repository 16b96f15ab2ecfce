import Dnsd.Base.Totals
import Dnsd.Cache.PutFailures

/-! The dead bytes that decide when to compact. Puts, deletes and compactions
keep the counter equal to what the index no longer refers to. A reopen starts it
at 0, whatever the log it has replayed holds. -/

namespace Dnsd.Cache

open Bytes LastWrite

/-- The length that the header at an offset gives to its record. -/
def recordLen (log : Bytes) (offset : Nat) : Nat :=
  let hdr := (log.drop offset).take headerLen
  headerLen + keyLenOf hdr + valLenOf hdr

/-- The total length of the records that the index refers to. -/
def Inner.liveBytes (inner : Inner) : Nat :=
  HashMap.total (fun _ ent => recordLen inner.log ent.offset) inner.index

/-- The dead bytes are the size without the records that the index refers to. -/
def Inner.Accounted (inner : Inner) : Prop := inner.deadBytes + inner.liveBytes = inner.size

/-- `should` in `compaction_loop`: the log is over its limit, or more than half of it is
dead and that is over 64 MiB. -/
def Inner.shouldCompact (inner : Inner) (maxFileBytes : Nat) : Bool :=
  inner.size > maxFileBytes ∨
    (inner.deadBytes > inner.size / 2 ∧ inner.deadBytes > 64 * 1024 * 1024)

/-- An operation, or a clean close and a reopen. -/
inductive Change where
  | op (op : Op)
  | reopen

/-- What a step makes of the store. A reopen starts from the bytes of the log alone. -/
def Inner.change (inner : Inner) : Change → Inner
  | .op op => inner.step op
  | .reopen => inner.reopen

/-- A store that was opened on an empty directory, after some changes. -/
def changed (changes : List Change) : Inner :=
  changes.foldl Inner.change (Inner.openStore bufReader none)

/-- The log consists of records of pairwise different keys, and no header comes back
short. -/
def Inner.Settled (inner : Inner) : Prop :=
  ∃ recs, inner.Whole recs ∧ (recs.map LogRecord.key).Nodup ∧ Readable bufReader recs

/-- A stored record fits its header, and a reopen finds a settled log. -/
def Inner.Admits (inner : Inner) : Change → Prop
  | .op (.put p) => 0 < p.ttlSecs → p.record.Fits
  | .op (.delete _) => True
  | .op (.compact _) => True
  | .reopen => inner.Settled

/-! ## The length of an entry's record -/

/-- What an overwrite or a delete takes an entry to occupy. -/
def entryLen (key : Str) (ent : IndexEntry) : Nat := headerLen + key.len + ent.valLen.toNat

/-- The entry of a record at its place. -/
def entryAt (p : Nat × LogRecord) : IndexEntry :=
  ⟨p.1, UInt32.ofNat p.2.val.length, p.2.expireAtMs⟩

theorem recordLen_at {log : Bytes} {offset : Nat} {r : LogRecord} (hAt : At log offset r.bytes) :
    recordLen log offset = headerLen + r.key.len % 2 ^ 32 + r.val.length % 2 ^ 32 := by
  obtain ⟨hKeyLen, hValLen⟩ := r.header_lengths
  rw [LogRecord.bytes] at hAt
  rw [recordLen, hAt.left.take_drop r.header_length, hKeyLen, hValLen]

theorem entryLen_entryAt {p : Nat × LogRecord} (hFits : p.2.Fits) :
    entryLen p.2.key (entryAt p) = p.2.bytes.length := by
  rw [entryLen, entryAt, p.2.bytes_length, UInt32.toNat_ofNat', Nat.mod_eq_of_lt hFits.val,
    Nat.add_assoc]

theorem deadLen_eq (key : Str) (old : Option IndexEntry) :
    deadLen key old = (old.map (entryLen key)).getD 0 := by
  cases old <;> rfl

theorem length_logBytes (recs : List LogRecord) :
    (logBytes recs).length = (recs.map fun r => r.bytes.length).sum :=
  List.length_flatMap

theorem placed_map_key (o : Nat) (recs : List LogRecord) :
    (placed o recs).map (fun p => p.2.key) = recs.map LogRecord.key := by
  conv_rhs => rw [← placed_map_snd o recs, List.map_map]
  rfl

/-- The first of some records are shorter than all of them. -/
theorem length_of_front {o : Nat} {recs : List LogRecord} {listed : List (Nat × LogRecord)}
    (h : listed <+: placed o recs) :
    (logBytes (listed.map Prod.snd)).length ≤ (logBytes recs).length ∧
      ((logBytes (listed.map Prod.snd)).length = (logBytes recs).length →
        listed = placed o recs) := by
  obtain ⟨rest, hRest⟩ := h
  have hLength : (logBytes recs).length =
      (logBytes (listed.map Prod.snd)).length + (logBytes (rest.map Prod.snd)).length := by
    rw [← List.length_append, ← logBytes_append, ← List.map_append, hRest, placed_map_snd]
  have hCount := length_le_logBytes (rest.map Prod.snd)
  rw [List.length_map] at hCount
  refine ⟨by omega, fun hSame => ?_⟩
  have hNone : rest = [] := List.eq_nil_of_length_eq_zero (by omega)
  rw [← hRest, hNone, List.append_nil]

namespace Inner.Tracks

variable {inner : Inner} {recs : List LogRecord} {current : Str → Option (Nat × LogRecord)}

theorem recordLen_eq (h : inner.Tracks recs current) {k : Str} {ent : IndexEntry}
    (hEntry : inner.index.get k = some ent) (more : Bytes) :
    recordLen (inner.log ++ more) ent.offset = entryLen k ent := by
  rw [h.index] at hEntry
  obtain ⟨p, hCurrent, rfl⟩ := Option.map_eq_some_iff.mp hEntry
  obtain ⟨hp, rfl⟩ := h.lists k p hCurrent
  have hFits := h.fits p.2 (mem_of_mem_placed hp)
  have hLength := (entryLen_entryAt hFits).trans p.2.bytes_length
  rw [entryAt] at hLength
  rw [recordLen_at ((h.at_placed hp).grow more), hLength, Nat.mod_eq_of_lt hFits.key,
    Nat.mod_eq_of_lt hFits.val, Nat.add_assoc]

theorem liveBytes_eq (h : inner.Tracks recs current) :
    inner.liveBytes = HashMap.total entryLen inner.index := by
  apply HashMap.total_congr
  intro k ent hEntry
  have hLength := h.recordLen_eq hEntry []
  rwa [List.append_nil] at hLength

/-- The new record comes to what the index refers to, the overwritten one leaves it. -/
theorem liveBytes_put (h : inner.Tracks recs current) {p : Put} (hTtl : 0 < p.ttlSecs) :
    (inner.step (.put p)).liveBytes + deadLen p.key (inner.index.get p.key) =
      inner.liveBytes + (headerLen + p.key.len % 2 ^ 32 + p.val.length % 2 ^ 32) := by
  have hAt : At (inner.log ++ p.record.bytes) inner.size p.record.bytes := by
    rw [h.size]
    exact ⟨inner.log, [], by simp, rfl⟩
  have hNew := recordLen_at hAt
  have hOld : HashMap.total (fun _ ent => recordLen (inner.log ++ p.record.bytes) ent.offset)
      inner.index = inner.liveBytes := by
    rw [h.liveBytes_eq]
    exact HashMap.total_congr fun k ent hEntry => h.recordLen_eq hEntry _
  have hReplaced : HashMap.measure
      (fun _ ent => recordLen (inner.log ++ p.record.bytes) ent.offset) inner.index p.key =
        deadLen p.key (inner.index.get p.key) := by
    rw [deadLen_eq]
    exact HashMap.measure_congr fun ent hEntry => h.recordLen_eq hEntry _
  have hInsert := HashMap.total_insert
    (fun _ ent => recordLen (inner.log ++ p.record.bytes) ent.offset) inner.index p.key
    ⟨inner.size, UInt32.ofNat p.val.length, p.record.expireAtMs⟩
  rw [hOld, hReplaced, hNew] at hInsert
  rw [step_put hTtl]
  exact hInsert

/-! ## One change -/

/-- A put counts right just when the record fits its header. -/
theorem accounted_put_iff (h : inner.Tracks recs current) (hAccounted : inner.Accounted) {p : Put}
    (hTtl : 0 < p.ttlSecs) : (inner.step (.put p)).Accounted ↔ p.record.Fits := by
  have hLive := h.liveBytes_put hTtl
  have hDead : (inner.step (.put p)).deadBytes =
      inner.deadBytes + deadLen p.key (inner.index.get p.key) := by
    rw [step_put hTtl]
  have hSize : (inner.step (.put p)).size =
      inner.size + (headerLen + (p.key.len + p.val.length)) := by
    rw [step_put hTtl, p.record.bytes_length]
    rfl
  have hFits : p.record.Fits ↔ p.key.len < 2 ^ 32 ∧ p.val.length < 2 ^ 32 :=
    ⟨fun h => ⟨h.key, h.val⟩, fun h => ⟨h.1, h.2⟩⟩
  rw [Accounted] at hAccounted ⊢
  rw [hFits, hDead, hSize]
  omega

theorem accounted_delete (h : inner.Tracks recs current) (hAccounted : inner.Accounted)
    (k : Str) : (inner.delete k).Accounted := by
  obtain ⟨current', hNext⟩ := h.delete k
  have hErase := HashMap.total_erase entryLen inner.index k
  rw [Accounted, h.liveBytes_eq] at hAccounted
  rw [Accounted, hNext.liveBytes_eq, Inner.delete]
  cases hOld : inner.index.get k with
  | none => exact hAccounted
  | some old =>
      rw [HashMap.measure_of_some hOld] at hErase
      have hDead : deadLen k (some old) = entryLen k old := rfl
      dsimp only
      omega

/-- An index over some records refers to no more than their length, and to all
of it just when their keys are different. -/
theorem liveBytes_listed {listed : List (Nat × LogRecord)}
    (h : inner.Tracks recs (lastWrite (listed.map fun p => (p.2.key, p))))
    (hListed : listed ⊆ placed 0 recs) :
    inner.liveBytes ≤ (logBytes (listed.map Prod.snd)).length ∧
      (inner.liveBytes = (logBytes (listed.map Prod.snd)).length ↔
        (listed.map fun p => p.2.key).Nodup) := by
  have hWritten : HashMap.written (fun p : Nat × LogRecord => p.2.key) entryAt entryLen listed =
      (logBytes (listed.map Prod.snd)).length := by
    rw [HashMap.written, length_logBytes, List.map_map]
    congr 1
    apply List.map_congr_left
    intro p hp
    exact entryLen_entryAt (h.fits p.2 (mem_of_mem_placed (hListed hp)))
  have hIndex : HashMap.total entryLen inner.index =
      HashMap.total entryLen (listed.foldl (fun m p => m.insert p.2.key (entryAt p)) ∅) := by
    apply HashMap.total_eq_of_get
    intro k
    rw [HashMap.get_foldl_insert, HashMap.get_empty, Option.or_none, lastWrite_map, h.index]
    rfl
  have hPositive (k : Str) (ent : IndexEntry) : 0 < entryLen k ent := by
    rw [entryLen, headerLen]
    omega
  have hTotal := HashMap.total_foldl_insert (fun p : Nat × LogRecord => p.2.key) entryAt hPositive
    listed ∅
  rw [← hIndex, hWritten, HashMap.total_empty, Nat.zero_add, ← h.liveBytes_eq] at hTotal
  refine ⟨hTotal.1, hTotal.2.trans (and_iff_left ?_)⟩
  exact fun _ _ => rfl

/-- The records that the index lists have different keys. -/
theorem nodup_keys {listed : List (Nat × LogRecord)} (hNodup : listed.Nodup)
    (hCurrent : ∀ p ∈ listed, current p.2.key = some p) : (listed.map fun p => p.2.key).Nodup := by
  refine List.Nodup.map_on (fun p hp q hq hKey => ?_) hNodup
  have hBoth := hCurrent p hp
  rw [hKey, hCurrent q hq] at hBoth
  exact (Option.some.inj hBoth).symm

/-- What the copying thread keeps is listed in the index. -/
theorem current_of_copied (h : inner.Tracks recs current) (now : Int64) {done rest : List LogRecord}
    (hDone : recs = done ++ rest) :
    ∀ p ∈ (placed 0 done).filter fun p => (inner.liveOffsets now).contains p.1,
      current p.2.key = some p := by
  intro p hp
  obtain ⟨hPlaced, hLive⟩ := List.mem_filter.mp hp
  apply h.current_of_live _ (List.contains_iff_mem.mp hLive)
  rw [hDone, placed_append]
  exact List.mem_append_left _ hPlaced

/-- The size of a compacted log that could be read to its end: what the index
refers to, as long as nothing in it has expired. -/
theorem compact_size (h : inner.Tracks recs current)
    (hReadable : Readable bufReader recs) {now : Int64}
    (hLive : ∀ k ent, inner.index.get k = some ent → expired ent.expireAtMs now = false) :
    (inner.compact bufReader now).size = inner.liveBytes := by
  have hKept := h.kept_copyAll bufReader now
  rw [readable_eq_placed_iff.mpr hReadable] at hKept
  have hCopied := h.current_of_copied now (List.append_nil recs).symm
  have hIndex : lastWrite (((placed 0 recs).filter fun p =>
      (inner.liveOffsets now).contains p.1).map fun p => (p.2.key, p)) = current := by
    funext k
    apply lastWrite_eq_of_mem
    · intro e he
      obtain ⟨p, hp, rfl⟩ := List.mem_map.mp he
      exact hCopied p hp
    · intro k p hCurrent
      obtain ⟨hp, rfl⟩ := h.lists k p hCurrent
      have hListed : p.1 ∈ inner.liveOffsets now := h.mem_liveOffsets.mpr
        ⟨p.2.key, p, hCurrent, hLive p.2.key _ (by rw [h.index, hCurrent]; rfl), rfl⟩
      exact List.mem_map_of_mem (List.mem_filter.mpr ⟨hp, List.contains_iff_mem.mpr hListed⟩)
  obtain ⟨-, hAll⟩ := liveBytes_listed (hIndex ▸ h) (List.filter_sublist).subset
  rw [hAll.mpr (nodup_keys ((placed_nodup 0 recs).filter _) hCopied), Inner.compact]
  exact hKept.offset.trans (congrArg List.length hKept.tmp)

/-- With the right counter the trigger goes by what a compaction would reclaim. -/
theorem shouldCompact_iff (h : inner.Tracks recs current) (hAccounted : inner.Accounted)
    (hReadable : Readable bufReader recs) {now : Int64}
    (hLive : ∀ k ent, inner.index.get k = some ent → expired ent.expireAtMs now = false)
    (maxFileBytes : Nat) :
    inner.shouldCompact maxFileBytes ↔
      maxFileBytes < inner.size ∨
        inner.size / 2 < inner.size - (inner.compact bufReader now).size ∧
          64 * 1024 * 1024 < inner.size - (inner.compact bufReader now).size := by
  have hReclaimed : inner.deadBytes =
      inner.size - (inner.compact bufReader now).size := by
    rw [h.compact_size hReadable hLive]
    rw [Accounted] at hAccounted
    omega
  rw [← hReclaimed, shouldCompact, decide_eq_true_iff]

/-- A compaction starts the counter at 0, and lists all that it has kept. -/
theorem compact (h : inner.Tracks recs current) (now : Int64) :
    ∃ kept current', (inner.compact bufReader now).Tracks kept current' ∧
      (inner.compact bufReader now).Accounted := by
  obtain ⟨more, done, rest, -, hDone, -, hLive, hKept, -⟩ :=
    (h.copies_snapshot now).copyAll h.fits inner.log.length
  rw [← h.log] at hKept
  have hNext := hKept.tracks_swap
  have hNodup := nodup_keys ((placed_nodup 0 done).filter _) (h.current_of_copied now hDone)
  refine ⟨_, _, hNext, ?_⟩
  obtain ⟨-, hAll⟩ := hNext.liveBytes_listed (fun _ hp => hp)
  rw [placed_map_snd] at hAll
  have hKeys : ((placed 0 (liveOf (inner.liveOffsets now) (placed 0 done))).map
      fun p => p.2.key).Nodup := by
    rw [placed_map_key, liveOf, List.map_map]
    exact hNodup
  have hSize := hNext.size
  rw [hNext.log, ← hAll.mpr hKeys] at hSize
  rw [Accounted]
  exact (Nat.zero_add _).trans hSize.symm

end Inner.Tracks

namespace Inner

variable {inner : Inner} {recs : List LogRecord}

theorem Whole.tracks_reopen (h : inner.Whole recs) :
    inner.reopen.Tracks recs
      (lastWrite ((readable bufReader recs).map fun p => (p.2.key, p))) := by
  rw [reopen, reopenWith, h.1]
  exact Inner.tracks_open bufReader h.2

/-- A reopen counts right just when the log it reads is settled. -/
theorem Whole.accounted_reopen_iff (h : inner.Whole recs) :
    inner.reopen.Accounted ↔
      (recs.map LogRecord.key).Nodup ∧ Readable bufReader recs := by
  have hOpen := h.tracks_reopen
  obtain ⟨hAtMost, hAll⟩ := hOpen.liveBytes_listed (readable_isPrefix bufReader recs).subset
  obtain ⟨hShorter, hLost⟩ := length_of_front (readable_isPrefix bufReader recs)
  have hSize : inner.reopen.size = (logBytes recs).length := by
    rw [hOpen.size, hOpen.log]
  have hDead : inner.reopen.deadBytes = 0 := rfl
  rw [Accounted, hDead, hSize, Nat.zero_add, ← placed_map_key 0, ← readable_eq_placed_iff]
  constructor
  · intro hLive
    have hReadable := hLost (by omega)
    rw [hReadable, placed_map_snd] at hAll
    exact ⟨hAll.mp hLive, hReadable⟩
  · rintro ⟨hNodup, hReadable⟩
    rw [hReadable, placed_map_snd] at hAll
    exact hAll.mpr hNodup

/-! ## Runs -/

/-- A whole log with an index over its records, and a counter that is right. -/
structure Balanced (inner : Inner) : Prop where
  tracks : ∃ recs current, inner.Tracks recs current
  accounted : inner.Accounted

theorem balanced_empty (b : Buffering) : (openStore b none).Balanced :=
  ⟨⟨[], _, tracks_empty b⟩, rfl⟩

theorem Balanced.change (h : inner.Balanced) {c : Change} (hAdmits : inner.Admits c) :
    (inner.change c).Balanced := by
  obtain ⟨⟨recs, current, hTracks⟩, hAccounted⟩ := h
  cases c with
  | op op =>
      cases op with
      | put p =>
          by_cases hTtl : 0 < p.ttlSecs
          · have hFits := hAdmits hTtl
            obtain ⟨more, current', hNext⟩ := hTracks.put hFits
            exact ⟨⟨_, _, hNext⟩, (hTracks.accounted_put_iff hAccounted hTtl).mpr hFits⟩
          · rw [Inner.change, step_put_refused hTtl]
            exact ⟨⟨recs, current, hTracks⟩, hAccounted⟩
      | delete k =>
          obtain ⟨current', hNext⟩ := hTracks.delete k
          exact ⟨⟨_, _, hNext⟩, hTracks.accounted_delete hAccounted k⟩
      | compact now =>
          obtain ⟨kept, current', hNext, hAfter⟩ := hTracks.compact now
          exact ⟨⟨_, _, hNext⟩, hAfter⟩
  | reopen =>
      obtain ⟨recs', hWhole, hSettled⟩ := hAdmits
      exact ⟨⟨_, _, hWhole.tracks_reopen⟩, hWhole.accounted_reopen_iff.mpr hSettled⟩

/-- A change behind which the counter is right was admitted. -/
theorem Balanced.admits (h : inner.Balanced) {c : Change} (hAfter : (inner.change c).Accounted) :
    inner.Admits c := by
  obtain ⟨⟨recs, current, hTracks⟩, hAccounted⟩ := h
  cases c with
  | op op =>
      cases op with
      | put p =>
          intro hTtl
          exact (hTracks.accounted_put_iff hAccounted hTtl).mp hAfter
      | delete k => trivial
      | compact now => trivial
  | reopen =>
      have hWhole : inner.Whole recs := ⟨hTracks.log, hTracks.fits⟩
      exact ⟨recs, hWhole, hWhole.accounted_reopen_iff.mp hAfter⟩

end Inner

/-- The dead bytes are right in every state of a run just when every stored record
fits its header and every reopen finds a settled log. -/
theorem accounted_iff_admits (changes : List Change) :
    (∀ before, before <+: changes → (changed before).Accounted) ↔
      ∀ before c, before ++ [c] <+: changes → (changed before).Admits c := by
  have hStart := Inner.balanced_empty bufReader
  exact Runs.shown_iff_ok (fun _ h => h.accounted) (fun _ _ h hAdmits => h.change hAdmits)
    (fun _ _ h hAfter => h.admits hAfter) hStart changes

/-- Two puts of one key, a close and a reopen. -/
def overwrittenPut : List Change :=
  [.op (.put ⟨0, ['a'], [1], 60⟩), .op (.put ⟨500, ['a'], [2], 60⟩), .reopen]

/-- A key is put twice and the log is opened anew. The overwritten record is still in it,
and is no longer counted as dead. -/
theorem not_accounted_overwrittenPut :
    ¬∀ before, before <+: overwrittenPut → (changed before).Accounted := by
  intro hAll
  have hSize : (changed overwrittenPut).size = 46 := by decide +kernel
  have hDead : (changed overwrittenPut).deadBytes = 0 := rfl
  have hLive : (changed overwrittenPut).liveBytes = 23 := by decide +kernel
  have hAccounted := hAll overwrittenPut List.prefix_rfl
  rw [Inner.Accounted, hSize, hDead, hLive] at hAccounted
  cases hAccounted

end Dnsd.Cache
