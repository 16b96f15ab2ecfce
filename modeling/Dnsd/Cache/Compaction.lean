import Dnsd.Base.Runs
import Dnsd.Cache.Durability

/-! Compaction beside other threads. The lock is free while the log is copied,
so puts and deletes land between the snapshot and the swap. What the store holds
after the swap is what the snapshot held, in the records the copy could read. -/

namespace Dnsd.Cache

open Bytes LastWrite

/-! ## Stores with a whole log -/

/-- The log is whole, and the index lists one of its records for each key. -/
structure Inner.Tracks (inner : Inner) (recs : List LogRecord)
    (current : Str → Option (Nat × LogRecord)) : Prop where
  log : inner.log = logBytes recs
  fits : ∀ r ∈ recs, r.Fits
  size : inner.size = inner.log.length
  index : ∀ k, inner.index.get k = (current k).map fun p =>
    ⟨p.1, UInt32.ofNat p.2.val.length, p.2.expireAtMs⟩
  lists : ∀ k p, current k = some p → p ∈ placed 0 recs ∧ p.2.key = k

/-- The value and expiry of each key of the index. -/
def Inner.contents (inner : Inner) : Contents := fun k =>
  (inner.index.get k).bind fun ent =>
    (readValue inner.log ent.offset).map fun v => ⟨v, ent.expireAtMs⟩

/-- What has a place in the log is one of its records. -/
theorem mem_of_mem_placed {o : Nat} {recs : List LogRecord} {p : Nat × LogRecord}
    (h : p ∈ placed o recs) : p.2 ∈ recs := by
  have hMem := List.mem_map_of_mem (f := Prod.snd) h
  rwa [placed_map_snd] at hMem

/-- A record lies within the log. -/
theorem placed_bounds {o : Nat} {recs : List LogRecord} {p : Nat × LogRecord}
    (h : p ∈ placed o recs) : o ≤ p.1 ∧ p.1 + p.2.bytes.length ≤ o + (logBytes recs).length := by
  induction recs generalizing o with
  | nil => cases h
  | cons r rest ih =>
      rw [logBytes_cons, List.length_append]
      rcases List.mem_cons.mp h with rfl | hRest
      · exact ⟨Nat.le_refl _, by dsimp only; omega⟩
      · have hBounds := ih hRest
        omega

/-- A placed record is determined by its offset. -/
theorem placed_unique {o : Nat} {recs : List LogRecord} {p q : Nat × LogRecord}
    (hp : p ∈ placed o recs) (hq : q ∈ placed o recs) (h : p.1 = q.1) : p = q := by
  have hHeader : headerLen = 21 := rfl
  induction recs generalizing o with
  | nil => cases hp
  | cons r rest ih =>
      have hLength := r.bytes_length
      rcases List.mem_cons.mp hp with rfl | hp <;> rcases List.mem_cons.mp hq with rfl | hq
      · rfl
      · have hBounds := placed_bounds hq
        dsimp only at h
        omega
      · have hBounds := placed_bounds hp
        dsimp only at h
        omega
      · exact ih hp hq

/-- No two records start at one place. -/
theorem placed_nodup (o : Nat) (recs : List LogRecord) : (placed o recs).Nodup := by
  have hHeader : headerLen = 21 := rfl
  induction recs generalizing o with
  | nil => exact List.nodup_nil
  | cons r rest ih =>
      have hLength := r.bytes_length
      refine List.nodup_cons.mpr ⟨fun hMem => ?_, ih _⟩
      have hBounds := placed_bounds hMem
      dsimp only at hBounds
      omega

/-- The offsets that a snapshot collects. -/
theorem Inner.mem_liveOffsets {inner : Inner} {now : Int64} {o : Nat} :
    o ∈ inner.liveOffsets now ↔
      ∃ k ent, inner.index.get k = some ent ∧ expired ent.expireAtMs now = false ∧
        ent.offset = o := by
  simp only [Inner.liveOffsets, HashMap.values, List.mem_map, List.mem_filter]
  constructor
  · rintro ⟨ent, ⟨⟨⟨k, _⟩, hMem, rfl⟩, hLive⟩, rfl⟩
    exact ⟨k, _, HashMap.mem_entries_iff.mp hMem, by simpa using hLive, rfl⟩
  · rintro ⟨k, ent, hGet, hLive, rfl⟩
    exact ⟨ent, ⟨⟨_, HashMap.mem_entries_iff.mpr hGet, rfl⟩, by simpa using hLive⟩, rfl⟩

namespace Inner.Tracks

variable {inner : Inner} {recs : List LogRecord} {current : Str → Option (Nat × LogRecord)}

/-- The bytes of a record stand at its place. -/
theorem at_placed (h : inner.Tracks recs current) {p : Nat × LogRecord} (hp : p ∈ placed 0 recs) :
    At inner.log p.1 p.2.bytes := by
  have hAt := at_of_mem_placed [] [] hp
  rwa [List.nil_append, List.append_nil, ← h.log] at hAt

/-- The contents of a store that tracks its log are those of the listed records. -/
theorem contents_eq (h : inner.Tracks recs current) (k : Str) :
    inner.contents k = (current k).map fun p => p.2.entry := by
  rw [Inner.contents, h.index]
  cases hCurrent : current k with
  | none => rfl
  | some p =>
      obtain ⟨hp, _⟩ := h.lists k p hCurrent
      rw [Option.map_some, Option.bind_some,
        readValue_at (h.fits p.2 (mem_of_mem_placed hp)) (h.at_placed hp)]
      rfl

theorem holds (h : inner.Tracks recs current) : inner.Holds inner.contents := by
  refine ⟨h.size, fun k hNone => ?_, fun k e hSome => ?_⟩
  · rw [h.contents_eq, Option.map_eq_none_iff] at hNone
    rw [h.index, hNone]
    rfl
  · rw [h.contents_eq] at hSome
    obtain ⟨p, hCurrent, rfl⟩ := Option.map_eq_some_iff.mp hSome
    obtain ⟨hp, hKey⟩ := h.lists k p hCurrent
    subst hKey
    exact ⟨h.fits p.2 (mem_of_mem_placed hp), p.1, by rw [h.index, hCurrent]; rfl, h.at_placed hp⟩

/-- A put writes one record behind the others, or none where its lifetime is not positive.
-/
theorem put (h : inner.Tracks recs current) {p : Put} (hFits : p.record.Fits) :
    ∃ more current', (inner.step (.put p)).Tracks (recs ++ more) current' := by
  rw [Inner.step, Inner.put]
  split_ifs
  · exact ⟨[], current, by rwa [List.append_nil]⟩
  · have hEnd : inner.size = 0 + (logBytes recs).length := by rw [h.size, h.log, Nat.zero_add]
    refine ⟨[p.record], Function.update current p.key (some (inner.size, p.record)),
      ⟨by simp [h.log, Put.record], fun r hr => ?_, by simp [h.size], fun k => ?_,
        fun k q hq => ?_⟩⟩
    · rcases List.mem_append.mp hr with hOld | hNew
      · exact h.fits r hOld
      · rwa [List.mem_singleton.mp hNew]
    · dsimp only
      by_cases hKey : k = p.key
      · subst hKey
        rw [HashMap.get_insert_self, Function.update_self]
        rfl
      · rw [HashMap.get_insert_ne _ _ hKey, Function.update_of_ne hKey, h.index]
    · rw [placed_append, ← hEnd]
      by_cases hKey : k = p.key
      · subst hKey
        rw [Function.update_self] at hq
        cases hq
        exact ⟨by simp [placed], rfl⟩
      · rw [Function.update_of_ne hKey] at hq
        obtain ⟨hPlaced, hSame⟩ := h.lists k q hq
        exact ⟨List.mem_append_left _ hPlaced, hSame⟩

/-- A delete takes a key from the index, and leaves the log alone. -/
theorem delete (h : inner.Tracks recs current) (k : Str) :
    ∃ current', (inner.delete k).Tracks recs current' := by
  rw [Inner.delete]
  cases inner.index.get k with
  | none => exact ⟨current, h⟩
  | some old =>
      refine ⟨Function.update current k none, ⟨h.log, h.fits, h.size, fun k' => ?_, fun k' q hq => ?_⟩⟩
      · dsimp only
        rw [HashMap.get_erase]
        split_ifs with hKey
        · rw [hKey, Function.update_self]
          rfl
        · rw [Function.update_of_ne hKey, h.index]
      · by_cases hKey : k' = k
        · subst hKey
          simp at hq
        · rw [Function.update_of_ne hKey] at hq
          exact h.lists k' q hq

/-- The offsets of a snapshot are those of the listed records that have not expired. -/
theorem mem_liveOffsets (h : inner.Tracks recs current) {now : Int64} {o : Nat} :
    o ∈ inner.liveOffsets now ↔
      ∃ k p, current k = some p ∧ expired p.2.expireAtMs now = false ∧ p.1 = o := by
  rw [Inner.mem_liveOffsets]
  constructor
  · rintro ⟨k, ent, hGet, hLive, rfl⟩
    rw [h.index] at hGet
    obtain ⟨p, hCurrent, rfl⟩ := Option.map_eq_some_iff.mp hGet
    exact ⟨k, p, hCurrent, hLive, rfl⟩
  · rintro ⟨k, p, hCurrent, hLive, rfl⟩
    exact ⟨k, _, by rw [h.index, hCurrent]; rfl, hLive, rfl⟩

/-- A record at a live offset is the one that the index lists for its key. -/
theorem current_of_live (h : inner.Tracks recs current) {now : Int64} {p : Nat × LogRecord}
    (hp : p ∈ placed 0 recs) (hLive : p.1 ∈ inner.liveOffsets now) : current p.2.key = some p := by
  obtain ⟨k, q, hCurrent, _, hOffset⟩ := h.mem_liveOffsets.mp hLive
  obtain ⟨hq, hKey⟩ := h.lists k q hCurrent
  have hSame := placed_unique hq hp hOffset
  rw [← hSame, hKey, hCurrent]

end Inner.Tracks

/-- A whole log with an index of some of its records is tracked. -/
theorem Inner.tracks_of_index {inner : Inner} {recs : List LogRecord}
    {listed : List (Nat × LogRecord)} (hLog : inner.log = logBytes recs)
    (hFits : ∀ r ∈ recs, r.Fits) (hSize : inner.size = inner.log.length)
    (hIndex : ∀ k, inner.index.get k = indexOf listed k) (hListed : listed ⊆ placed 0 recs) :
    inner.Tracks recs (lastWrite (listed.map fun p => (p.2.key, p))) := by
  refine ⟨hLog, hFits, hSize, hIndex, fun k p hLast => ?_⟩
  obtain ⟨p', hMem, hEq⟩ := List.mem_map.mp (mem_of_lastWrite hLast)
  cases hEq
  exact ⟨hListed hMem, rfl⟩

/-- A store without a file tracks the empty log. -/
theorem Inner.tracks_empty (b : Buffering) :
    (openStore b none).Tracks [] fun _ => none :=
  ⟨rfl, by simp, rfl, fun _ => rfl, fun _ _ h => by cases h⟩

/-- Opening a whole log. -/
theorem Inner.tracks_open (b : Buffering) {recs : List LogRecord} (hFits : ∀ r ∈ recs, r.Fits) :
    (openStore b (some (logBytes recs))).Tracks recs
      (lastWrite ((readable b recs).map fun p => (p.2.key, p))) := by
  have hScan := scan_logBytes b hFits recordStarts_nil
  rw [List.append_nil] at hScan
  refine Inner.tracks_of_index rfl hFits rfl (fun k => ?_) (readable_isPrefix b recs).subset
  exact Inner.openStore_index hScan k

/-- After the swap the log is the copy. -/
theorem Copying.Kept.tracks_swap {c : Copying} {kept : List LogRecord} (h : c.Kept kept) :
    c.swap.Tracks kept (lastWrite ((placed 0 kept).map fun p => (p.2.key, p))) :=
  Inner.tracks_of_index h.tmp h.fits h.offset h.index fun _ hp => hp

/-! ## What a copy of the log holds -/

/-- What the snapshot lists, as far as its records can be read in sequence. -/
def Inner.readableContents (inner : Inner) (b : Buffering) : Contents := fun k =>
  (inner.index.get k).bind fun ent =>
    if (scan b inner.log).any fun rec => rec.offset == ent.offset then inner.contents k
    else none

/-- What can be read back of a key is its listed record, if the reader gets that far. -/
theorem Inner.Tracks.readableContents_eq {inner : Inner} {recs : List LogRecord}
    {current : Str → Option (Nat × LogRecord)} (h : inner.Tracks recs current) (b : Buffering)
    (k : Str) :
    inner.readableContents b k =
      (current k).bind fun p => if p ∈ readable b recs then some p.2.entry else none := by
  rw [Inner.readableContents, h.index, h.contents_eq]
  cases hCurrent : current k with
  | none => rfl
  | some p =>
      obtain ⟨hp, _⟩ := h.lists k p hCurrent
      have hScan := scan_logBytes b h.fits recordStarts_nil
      rw [List.append_nil, ← h.log] at hScan
      have hAny : ((scan b inner.log).any fun rec => rec.offset == p.1) = true ↔
          p ∈ readable b recs := by
        rw [hScan, List.any_eq_true]
        constructor
        · rintro ⟨rec, hRec, hOffset⟩
          obtain ⟨q, hq, rfl⟩ := List.mem_map.mp hRec
          have hSame := placed_unique ((readable_isPrefix b recs).subset hq) hp
            (by simpa [LogRecord.toRaw] using hOffset)
          rwa [← hSame]
        · intro hMem
          exact ⟨_, List.mem_map_of_mem hMem, by simp [LogRecord.toRaw]⟩
      simp only [Option.map_some, Option.bind_some, hAny]

/-- What has expired stays so. -/
theorem expired_mono {expireAtMs t now : Int64} (hTime : t ≤ now)
    (h : expired expireAtMs t = true) : expired expireAtMs now = true := by
  simp only [expired, decide_eq_true_eq] at h ⊢
  exact ⟨h.1, Int64.le_trans h.2 hTime⟩

/-- A copy of the live and readable records answers like the snapshot does from
its readable records. -/
theorem Inner.Tracks.liveOf_get {inner : Inner} {recs : List LogRecord}
    {current : Str → Option (Nat × LogRecord)} (h : inner.Tracks recs current) (b : Buffering)
    {t now : Int64} (hTime : t ≤ now) (k : Str) :
    (contentsOf (liveOf (inner.liveOffsets t) (readable b recs))).get now k =
      (inner.readableContents b).get now k := by
  have hCopied (q : Nat × LogRecord) (hRead : q ∈ readable b recs)
      (hLive : q.1 ∈ inner.liveOffsets t) : current q.2.key = some q :=
    h.current_of_live ((readable_isPrefix b recs).subset hRead) hLive
  rw [Contents.get, Contents.get, h.readableContents_eq b, liveOf, contentsOf_map_snd]
  cases hLast : lastWrite (((readable b recs).filter fun p =>
    (inner.liveOffsets t).contains p.1).map fun p => (p.2.key, p)) k with
  | some q =>
      obtain ⟨q', hMem, hEq⟩ := List.mem_map.mp (mem_of_lastWrite hLast)
      cases hEq
      obtain ⟨hRead, hLive⟩ := List.mem_filter.mp hMem
      rw [hCopied q hRead (by simpa using hLive), Option.bind_some, if_pos hRead, Option.map_some]
  | none =>
      rw [lastWrite_eq_none_iff] at hLast
      cases hCurrent : current k with
      | none => rfl
      | some p =>
          rw [Option.bind_some, Option.map_none]
          split_ifs with hRead
          · have hExpired : expired p.2.expireAtMs t = true := by
              by_contra hLive
              have hOffset : p.1 ∈ inner.liveOffsets t :=
                h.mem_liveOffsets.mpr ⟨k, p, hCurrent, by simpa using hLive, rfl⟩
              refine hLast (p.2.key, p) (List.mem_map_of_mem (List.mem_filter.mpr ⟨hRead, ?_⟩))
                (h.lists k p hCurrent).2
              simpa using hOffset
            dsimp only [LogRecord.entry]
            rw [if_pos (expired_mono hTime hExpired)]
          · rfl

/-- With no other thread beside it the copy takes every live record it can read. -/
theorem Inner.Tracks.kept_copyAll {inner : Inner} {recs : List LogRecord}
    {current : Str → Option (Nat × LogRecord)} (h : inner.Tracks recs current) (b : Buffering)
    (t : Int64) :
    ((inner.snapshot b t).copyAll inner.log inner.log.length).Kept
      (liveOf (inner.liveOffsets t) (readable b recs)) :=
  (inner.follows_snapshot b t).copyAll h.fits
    (by rw [List.drop_zero, List.append_nil, h.log]) recordStarts_nil
    (inner.kept_snapshot b t) (h.log ▸ length_le_logBytes recs)

/-- When all of a log is readable, a compaction with no other thread beside it
changes no answer. -/
theorem Inner.Tracks.compact_get {inner : Inner} {recs : List LogRecord}
    {current : Str → Option (Nat × LogRecord)} (h : inner.Tracks recs current) {b : Buffering}
    (hReadable : Readable b recs) {t now : Int64} (hTime : t ≤ now) (k : Str) :
    (inner.compact b t).get now k = inner.get now k := by
  have hAll := readable_eq_placed_iff.mpr hReadable
  have hContents : inner.readableContents b k = inner.contents k := by
    rw [h.readableContents_eq b, h.contents_eq]
    cases hCurrent : current k with
    | none => rfl
    | some p =>
        rw [Option.bind_some, if_pos (hAll ▸ (h.lists k p hCurrent).1)]
        rfl
  rw [Inner.compact, (h.kept_copyAll b t).holds_swap.get, h.holds.get]
  have hGet := h.liveOf_get b hTime k
  rw [Contents.get, Contents.get, hContents] at hGet
  exact hGet

/-! ## Threads and their steps -/

/-- Where the compacting thread stands; it holds the lock in no phase. -/
inductive Phase where
  | idle
  | copying (c : Copying)
  | copied (c : Copying)

/-- The store, and how far the compacting thread has come. -/
structure World where
  inner : Inner
  phase : Phase

/-- Puts, gets and deletes of any thread, the steps of the compacting thread,
and a restart of the process, which drops a compaction under way. -/
inductive Action where
  | put (p : Put)
  | get (now : Int64) (key : Str)
  | delete (key : Str)
  | snapshot (now : Int64)
  | turn
  | swap
  | restart

/-- One step; `none` for a step that the phase does not admit. -/
def World.step (w : World) : Action → Option World
  | .put p => some { w with inner := w.inner.step (.put p) }
  | .get _ _ => some w
  | .delete key => some { w with inner := w.inner.delete key }
  | .snapshot now =>
      match w.phase with
      | .idle => some { w with phase := .copying (w.inner.snapshot bufReader now) }
      | _ => none
  | .turn =>
      match w.phase with
      | .copying c =>
          match c.copy w.inner.log with
          | some c' => some { w with phase := .copying c' }
          | none => some { w with phase := .copied c }
      | _ => none
  | .swap =>
      match w.phase with
      | .copied c => some ⟨c.swap, .idle⟩
      | _ => none
  | .restart => some ⟨w.inner.reopen, .idle⟩

/-- All that a step can do, with the phase that admits it. -/
inductive World.Steps (w : World) : Action → World → Prop where
  | put (p : Put) : w.Steps (.put p) { w with inner := w.inner.step (.put p) }
  | get (now : Int64) (key : Str) : w.Steps (.get now key) w
  | delete (key : Str) : w.Steps (.delete key) { w with inner := w.inner.delete key }
  | snapshot (now : Int64) (hIdle : w.phase = .idle) :
      w.Steps (.snapshot now) { w with phase := .copying (w.inner.snapshot bufReader now) }
  | copy {c c' : Copying} (hCopying : w.phase = .copying c) (hCopy : c.copy w.inner.log = some c') :
      w.Steps .turn { w with phase := .copying c' }
  | finish {c : Copying} (hCopying : w.phase = .copying c) (hCopy : c.copy w.inner.log = none) :
      w.Steps .turn { w with phase := .copied c }
  | swap {c : Copying} (hCopied : w.phase = .copied c) : w.Steps .swap ⟨c.swap, .idle⟩
  | restart : w.Steps .restart ⟨w.inner.reopen, .idle⟩

/-- Each step that the machine takes is one of those listed. -/
theorem World.steps_of_step {w w' : World} {a : Action} (h : w.step a = some w') : w.Steps a w' := by
  cases a with
  | put p =>
      cases h
      exact .put p
  | get now key =>
      cases h
      exact .get now key
  | delete key =>
      cases h
      exact .delete key
  | snapshot now =>
      rw [World.step] at h
      split at h
      · rename_i hIdle
        cases h
        exact .snapshot now hIdle
      · cases h
  | turn =>
      rw [World.step] at h
      split at h
      · rename_i c hCopying
        split at h
        · rename_i c' hCopy
          cases h
          exact .copy hCopying hCopy
        · rename_i hCopy
          cases h
          exact .finish hCopying hCopy
      · cases h
  | swap =>
      rw [World.step] at h
      split at h
      · rename_i c hCopied
        cases h
        exact .swap hCopied
      · cases h
  | restart =>
      cases h
      exact .restart

/-- The lengths of a put fit their fields in the log. -/
def Action.Fits : Action → Prop
  | .put p => p.record.Fits
  | _ => True

/-- What a list of actions makes of the world, if all of them are due. -/
def World.run (w : World) (actions : List Action) : Option World := Runs.run World.step w actions

/-- A store on an empty directory, and nobody compacts. -/
def World.init : World := ⟨Inner.openStore bufReader none, .idle⟩

/-- What any interleaving leads to from an empty directory. -/
def Reachable (w : World) : Prop :=
  ∃ actions, (∀ a ∈ actions, a.Fits) ∧ World.init.run actions = some w

/-- The copying thread relative to the log `recs₀` of its snapshot: it has taken
the live ones of the records it has read, all of them readable. -/
def Copies (recs₀ : List LogRecord) (live : List Nat) (recs : List LogRecord) (c : Copying) :
    Prop :=
  ∃ more done rest, recs = recs₀ ++ more ∧ recs = done ++ rest ∧
    c.Follows bufReader (logBytes recs) (logBytes recs₀).length (logBytes done).length
      (fetchedTo bufReader 0 0 done) ∧
    c.liveOffsets = live ∧ c.Kept (liveOf live (placed 0 done)) ∧
    ∀ f ∈ fetched bufReader 0 0 done, f.offset < (logBytes recs₀).length → f.full bufReader

/-- Records behind the snapshot do not change what the copy is of. -/
theorem Copies.grow {recs₀ recs : List LogRecord} {live : List Nat} {c : Copying}
    (h : Copies recs₀ live recs c) (new : List LogRecord) : Copies recs₀ live (recs ++ new) c := by
  obtain ⟨more, done, rest, hMore, hDone, hFollows, hLive, hKept, hFull⟩ := h
  refine ⟨more ++ new, done, rest ++ new, by rw [hMore, List.append_assoc],
    by rw [hDone, List.append_assoc], ?_, hLive, hKept, hFull⟩
  rw [logBytes_append]
  exact hFollows.grow _

/-- A snapshot begins a copy of the live records, of which none has been copied yet. -/
theorem Inner.Tracks.copies_snapshot {inner : Inner} {recs : List LogRecord}
    {current : Str → Option (Nat × LogRecord)} (h : inner.Tracks recs current) (now : Int64) :
    Copies recs (inner.liveOffsets now) recs (inner.snapshot bufReader now) := by
  have hFollows := inner.follows_snapshot bufReader now
  rw [h.log] at hFollows
  exact ⟨[], [], recs, by simp, rfl, hFollows, rfl, inner.kept_snapshot bufReader now,
    fun p hp => by cases hp⟩

/-- Every record that is fetched starts before the end of the log. -/
theorem fetched_bounds {b : Buffering} {recs : List LogRecord} {f : Fetched}
    (h : f ∈ fetched b 0 0 recs) : f.offset < (logBytes recs).length := by
  have hPlace := List.mem_map_of_mem (f := Fetched.place) h
  rw [fetched_map_place] at hPlace
  have hBounds := (placed_bounds hPlace).2
  have hLength := f.record.bytes_length
  have hHeader : headerLen = 21 := rfl
  dsimp only [Fetched.place] at hBounds
  omega

/-- Everything in front of the first header that comes back short has been read. -/
theorem readable_of_cut {b : Buffering} {done rest : List LogRecord} {r : LogRecord}
    (hFull : Readable b done)
    (hShort : ¬b.Full (fetchedTo b 0 0 done) (logBytes done).length headerLen) :
    readable b (done ++ r :: rest) = placed 0 done := by
  rw [readable, readableFrom, fetched_append, List.takeWhile_append_of_pos hFull, fetched,
    Nat.zero_add, List.takeWhile_cons_of_neg (by simpa [Fetched.full] using hShort),
    List.append_nil, fetched_map_place]

/-- Records behind the snapshot are at no live offset. -/
theorem liveOf_behind {b : Buffering} {recs₀ more : List LogRecord} {live : List Nat}
    (hLive : ∀ o ∈ live, o < (logBytes recs₀).length)
    (hFull : ∀ f ∈ fetched b 0 0 (recs₀ ++ more), f.offset < (logBytes recs₀).length → f.full b) :
    liveOf live (placed 0 (recs₀ ++ more)) = liveOf live (readable b recs₀) := by
  have hReadable : readable b recs₀ = placed 0 recs₀ := by
    refine readable_eq_placed_iff.mpr fun f hf => hFull f ?_ (fetched_bounds hf)
    rw [fetched_append]
    exact List.mem_append_left _ hf
  have hBehind : ∀ p ∈ placed (0 + (logBytes recs₀).length) more,
      ¬(live.contains p.1 = true) := by
    intro p hp hContains
    have hStart := (placed_bounds hp).1
    have hEnd := hLive p.1 (by simpa using hContains)
    omega
  rw [hReadable, placed_append, liveOf, List.filter_append, List.filter_eq_nil_iff.mpr hBehind,
    List.append_nil, liveOf]

/-- Where the reading ends behind the snapshot, or at a header in it that comes back
short, nothing live and readable is left. -/
theorem liveOf_ended {b : Buffering} {recs₀ more done rest : List LogRecord} {live : List Nat}
    (hLog : recs₀ ++ more = done ++ rest) (hLive : ∀ o ∈ live, o < (logBytes recs₀).length)
    (hFull : ∀ f ∈ fetched b 0 0 done, f.offset < (logBytes recs₀).length → f.full b)
    (hEnded : ∀ r behind, rest = r :: behind →
      (logBytes done).length + r.bytes.length ≤ (logBytes recs₀).length →
        ¬b.Full (fetchedTo b 0 0 done) (logBytes done).length headerLen) :
    liveOf live (placed 0 done) = liveOf live (readable b recs₀) := by
  rcases List.append_eq_append_iff.mp hLog with ⟨d, rfl, _⟩ | ⟨d, rfl, hRest⟩
  · exact liveOf_behind hLive hFull
  · cases d with
    | nil =>
        rw [List.append_nil] at hLive hFull ⊢
        have hAll := @liveOf_behind b done [] live hLive
        rw [List.append_nil] at hAll
        exact hAll hFull
    | cons r front =>
        have hRoom : (logBytes done).length + r.bytes.length ≤
            (logBytes (done ++ r :: front)).length := by
          simp
        have hAll : Readable b done := fun f hf => hFull f hf (by
          have hBounds := fetched_bounds hf
          omega)
        rw [readable_of_cut hAll (hEnded r (front ++ more) hRest hRoom)]

/-- A turn reads one more record, or the end of the readable ones is reached. -/
theorem Copies.turn {recs₀ recs : List LogRecord} {live : List Nat} {c : Copying}
    (h : Copies recs₀ live recs c) (hFits : ∀ r ∈ recs, r.Fits) :
    (∃ c', c.copy (logBytes recs) = some c' ∧ Copies recs₀ live recs c') ∨
      c.copy (logBytes recs) = none ∧ ((∀ o ∈ live, o < (logBytes recs₀).length) →
        c.Kept (liveOf live (readable bufReader recs₀))) := by
  obtain ⟨more, done, rest, hMore, hDone, hFollows, hLive, hKept, hFull⟩ := h
  have hLog := hMore.symm.trans hDone
  cases rest with
  | nil =>
      refine Or.inr ⟨?_, fun hBound => ?_⟩
      · rw [Copying.copy, readRecord_rejected hFollows.reader.stands]
        rw [hDone, List.append_nil, List.drop_length]
        rfl
      · rwa [liveOf_ended hLog hBound hFull fun _ _ hNil => by cases hNil] at hKept
  | cons r rest =>
      have hr := hFits r (by rw [hDone]; simp)
      have hAt : At (logBytes recs) (logBytes done).length r.bytes :=
        ⟨logBytes done, logBytes rest, by rw [hDone]; simp, rfl⟩
      rcases hFollows.copy hr hAt hKept with hNone | ⟨c', hSome, hNext, hSame, hTaken⟩
      · refine Or.inr ⟨hNone, fun hBound => ?_⟩
        rwa [liveOf_ended hLog hBound hFull] at hKept
        intro r' behind hRest hRoom hInside
        cases hRest
        exact hFollows.copy_ne_none hr hAt hRoom hInside hNone
      · refine Or.inl ⟨c', hSome, more, done ++ [r], rest, hMore, by rw [hDone]; simp, ?_,
          hSame.trans hLive, ?_, fun f hf hBelow => ?_⟩
        · rw [fetchedTo_append, Nat.zero_add]
          simpa [fetchedTo] using hNext
        · rw [placed_append, placed, placed, Nat.zero_add]
          rw [hLive] at hTaken
          have hJoin : liveOf live (placed 0 done ++ [((logBytes done).length, r)]) =
              if live.contains (logBytes done).length then liveOf live (placed 0 done) ++ [r]
              else liveOf live (placed 0 done) := by
            rw [liveOf, List.filter_append, List.map_append, liveOf, List.filter_singleton]
            split_ifs <;> simp_all
          rwa [hJoin]
        · rw [fetched_append, Nat.zero_add] at hf
          rcases List.mem_append.mp hf with hOld | hNew
          · exact hFull f hOld hBelow
          · obtain rfl := List.mem_singleton.mp hNew
            by_contra hShort
            rw [hFollows.copy_eq_none hBelow (by simpa [Fetched.full] using hShort)] at hSome
            cases hSome

/-- Alone, the copying thread stays in step with the log. -/
theorem Copies.copyAll {recs₀ recs : List LogRecord} {live : List Nat} {c : Copying}
    (h : Copies recs₀ live recs c) (hFits : ∀ r ∈ recs, r.Fits) (turns : Nat) :
    Copies recs₀ live recs (c.copyAll (logBytes recs) turns) := by
  induction turns generalizing c with
  | zero => exact h
  | succ turns ih =>
      rw [Copying.copyAll]
      rcases h.turn hFits with ⟨c', hSome, hNext⟩ | ⟨hNone, -⟩
      · rw [hSome]
        exact ih hNext
      · rw [hNone]
        exact h

/-- The live offsets of a snapshot lie in its log. -/
theorem Inner.Tracks.liveOffsets_lt {inner : Inner} {recs : List LogRecord}
    {current : Str → Option (Nat × LogRecord)} (h : inner.Tracks recs current) (now : Int64) :
    ∀ o ∈ inner.liveOffsets now, o < (logBytes recs).length := by
  intro o ho
  obtain ⟨k, p, hCurrent, _, rfl⟩ := h.mem_liveOffsets.mp ho
  have hBounds := placed_bounds (h.lists k p hCurrent).1
  have hLength := p.2.bytes_length
  have hHeader : headerLen = 21 := rfl
  omega

/-- What holds between the snapshot `recs₀` and the swap. -/
def Compacting (recs₀ : List LogRecord) (live : List Nat) (w : World) : Prop :=
  ∃ recs current, w.inner.Tracks recs current ∧
    match w.phase with
    | .idle => False
    | .copying c => Copies recs₀ live recs c
    | .copied c => c.Kept (liveOf live (readable bufReader recs₀))

/-- A step beside a compaction, or a turn of its copy. -/
def Action.During : Action → Prop
  | .put p => p.record.Fits
  | .get _ _ | .delete _ | .turn => True
  | .snapshot _ | .swap | .restart => False

/-- Whatever happens during a compaction, the copy goes on as it was begun. -/
theorem Compacting.step {recs₀ : List LogRecord} {live : List Nat}
    (hLive : ∀ o ∈ live, o < (logBytes recs₀).length) {w w' : World}
    (h : Compacting recs₀ live w) {a : Action} (hAction : a.During) (hStep : w.step a = some w') :
    Compacting recs₀ live w' := by
  obtain ⟨recs, current, hTracks, hPhase⟩ := h
  cases World.steps_of_step hStep with
  | put p =>
      obtain ⟨more, current', hNext⟩ := hTracks.put hAction
      refine ⟨recs ++ more, current', hNext, ?_⟩
      cases hCase : w.phase with
      | idle => rw [hCase] at hPhase; exact hPhase
      | copying c => rw [hCase] at hPhase; exact hPhase.grow more
      | copied c => rw [hCase] at hPhase; exact hPhase
  | get now key => exact ⟨recs, current, hTracks, hPhase⟩
  | delete key =>
      obtain ⟨current', hNext⟩ := hTracks.delete key
      exact ⟨recs, current', hNext, hPhase⟩
  | copy hCopying hCopy =>
      rw [hCopying] at hPhase
      have hTurn := hPhase.turn hTracks.fits
      rw [← hTracks.log] at hTurn
      rcases hTurn with ⟨c', hSome, hNext⟩ | ⟨hNone, _⟩
      · obtain rfl := Option.some.inj (hCopy.symm.trans hSome)
        exact ⟨recs, current, hTracks, hNext⟩
      · simp [hCopy] at hNone
  | finish hCopying hCopy =>
      rw [hCopying] at hPhase
      have hTurn := hPhase.turn hTracks.fits
      rw [← hTracks.log] at hTurn
      rcases hTurn with ⟨c', hSome, _⟩ | ⟨_, hKept⟩
      · simp [hCopy] at hSome
      · exact ⟨recs, current, hTracks, hKept hLive⟩
  | snapshot now hIdle => exact hAction.elim
  | swap hCopied => exact hAction.elim
  | restart => exact hAction.elim

/-- The invariant of every run: a whole log, and a copy of whole records. -/
def World.Sound (w : World) : Prop :=
  (w.phase = .idle ∧ ∃ recs current, w.inner.Tracks recs current) ∨
    ∃ recs₀ live, (∀ o ∈ live, o < (logBytes recs₀).length) ∧ Compacting recs₀ live w

theorem World.Sound.tracks {w : World} (h : w.Sound) :
    ∃ recs current, w.inner.Tracks recs current := by
  rcases h with ⟨_, h⟩ | ⟨_, _, _, recs, current, h, _⟩
  · exact h
  · exact ⟨recs, current, h⟩

/-- The snapshot leaves the store alone, and the compaction is under way. -/
theorem World.sound_snapshot {w w' : World} {recs : List LogRecord}
    {current : Str → Option (Nat × LogRecord)} (hTracks : w.inner.Tracks recs current) {t : Int64}
    (hStep : w.step (.snapshot t) = some w') :
    w'.inner = w.inner ∧ Compacting recs (w.inner.liveOffsets t) w' := by
  cases World.steps_of_step hStep
  exact ⟨rfl, recs, current, hTracks, hTracks.copies_snapshot t⟩

/-- At the swap the copy has every live record of the snapshot that could be read. -/
theorem Compacting.swap {recs₀ : List LogRecord} {live : List Nat} {w w' : World}
    (h : Compacting recs₀ live w) (hStep : w.step .swap = some w') :
    ∃ c : Copying, c.Kept (liveOf live (readable bufReader recs₀)) ∧ w' = ⟨c.swap, .idle⟩ := by
  obtain ⟨recs, current, _, hPhase⟩ := h
  cases World.steps_of_step hStep with
  | swap hCopied =>
      rw [hCopied] at hPhase
      exact ⟨_, hPhase, rfl⟩

/-- Every step keeps the world sound. -/
theorem World.Sound.step {w w' : World} (h : w.Sound) {a : Action} (hFits : a.Fits)
    (hStep : w.step a = some w') : w'.Sound := by
  obtain ⟨recs, current, hTracks⟩ := h.tracks
  have hBeside (hDuring : a.During) (hPhase : w.phase = .idle → w'.phase = .idle ∧
      ∃ recs current, w'.inner.Tracks recs current) : w'.Sound := by
    rcases h with ⟨hIdle, _⟩ | ⟨recs₀, live, hLive, hCompacting⟩
    · exact Or.inl (hPhase hIdle)
    · exact Or.inr ⟨recs₀, live, hLive, hCompacting.step hLive hDuring hStep⟩
  cases a with
  | put p =>
      refine hBeside hFits fun hIdle => ?_
      cases hStep
      obtain ⟨more, current', hNext⟩ := hTracks.put hFits
      exact ⟨hIdle, _, _, hNext⟩
  | get now key =>
      refine hBeside trivial fun hIdle => ?_
      cases hStep
      exact ⟨hIdle, _, _, hTracks⟩
  | delete key =>
      refine hBeside trivial fun hIdle => ?_
      cases hStep
      obtain ⟨current', hNext⟩ := hTracks.delete key
      exact ⟨hIdle, _, _, hNext⟩
  | snapshot now =>
      exact Or.inr ⟨recs, _, hTracks.liveOffsets_lt now, (World.sound_snapshot hTracks hStep).2⟩
  | turn =>
      refine hBeside trivial fun hIdle => ?_
      simp [World.step, hIdle] at hStep
  | swap =>
      rcases h with ⟨hIdle, _⟩ | ⟨recs₀, live, _, hCompacting⟩
      · simp [World.step, hIdle] at hStep
      · obtain ⟨c, hKept, rfl⟩ := hCompacting.swap hStep
        exact Or.inl ⟨rfl, _, _, hKept.tracks_swap⟩
  | restart =>
      cases hStep
      have hOpen := Inner.tracks_open bufReader hTracks.fits
      rw [← hTracks.log] at hOpen
      exact Or.inl ⟨rfl, _, _, hOpen⟩

theorem World.Sound.run {w w' : World} (h : w.Sound) {actions : List Action}
    (hFits : ∀ a ∈ actions, a.Fits) (hRun : w.run actions = some w') : w'.Sound :=
  Runs.run_invariant (fun _ _ _ hSound hAction hStep => hSound.step hAction hStep) h hFits hRun

/-- Every world that is reached is sound. -/
theorem Reachable.sound {w : World} (h : Reachable w) : w.Sound := by
  obtain ⟨actions, hFits, hRun⟩ := h
  have hInit : World.init.Sound := Or.inl ⟨rfl, _, _, Inner.tracks_empty bufReader⟩
  exact hInit.run hFits hRun

/-- The run between a snapshot and its swap. -/
theorem Compacting.run {recs₀ : List LogRecord} {live : List Nat}
    (hLive : ∀ o ∈ live, o < (logBytes recs₀).length) {w s : World}
    (h : Compacting recs₀ live w) {actions : List Action} (hActions : ∀ a ∈ actions, a.During)
    (hRun : w.run (actions ++ [.swap]) = some s) :
    ∃ c : Copying, c.Kept (liveOf live (readable bufReader recs₀)) ∧
      s = ⟨c.swap, .idle⟩ := by
  induction actions generalizing w with
  | nil =>
      rw [List.nil_append, World.run, Runs.run_cons] at hRun
      obtain ⟨w', hStep, hRest⟩ := Option.bind_eq_some_iff.mp hRun
      cases hRest
      exact h.swap hStep
  | cons a rest ih =>
      rw [List.cons_append, World.run, Runs.run_cons] at hRun
      obtain ⟨w', hStep, hRest⟩ := Option.bind_eq_some_iff.mp hRun
      exact ih (h.step hLive (hActions a List.mem_cons_self) hStep)
        (fun b hb => hActions b (List.mem_cons_of_mem a hb)) hRest

/-- What puts and deletes make of a map; the other steps leave it alone. -/
def applied (m : Contents) (actions : List Action) : Contents :=
  actions.foldl (fun m a =>
    match a with
    | .put p => m.put p.now p.key p.val p.ttlSecs
    | .delete key => m.delete key
    | _ => m) m

/-- After a compaction each key has the value of its last put or delete exactly
when the operations since the snapshot leave visible what the snapshot listed in
its readable records: no other update made meanwhile survives the swap. -/
theorem compact_get_iff {w : World} (hReach : Reachable w) {t now : Int64} (hTime : t ≤ now)
    {actions : List Action} (hActions : ∀ a ∈ actions, a.During) {s : World}
    (hRun : w.run (.snapshot t :: (actions ++ [.swap])) = some s) :
    (∀ k, s.inner.get now k = (applied w.inner.contents actions).get now k) ↔
      ∀ k, (applied w.inner.contents actions).get now k =
        (w.inner.readableContents bufReader).get now k := by
  obtain ⟨recs, current, hTracks⟩ := hReach.sound.tracks
  rw [World.run, Runs.run_cons] at hRun
  obtain ⟨w', hSnapshot, hRest⟩ := Option.bind_eq_some_iff.mp hRun
  obtain ⟨_, hCompacting⟩ := World.sound_snapshot hTracks hSnapshot
  obtain ⟨c, hKept, rfl⟩ := hCompacting.run (hTracks.liveOffsets_lt t) hActions hRest
  have hGet (k : Str) : c.swap.get now k =
      (w.inner.readableContents bufReader).get now k := by
    rw [hKept.holds_swap.get]
    exact hTracks.liveOf_get bufReader hTime k
  simp only [hGet]
  exact ⟨fun h k => (h k).symm, fun h k => (h k).symm⟩

/-- All that the index lists is readable. -/
theorem Inner.readableContents_of_all {inner : Inner} {b : Buffering}
    (h : (inner.index.entries.all fun e => (scan b inner.log).any fun rec => rec.offset == e.2.offset) =
      true) : inner.readableContents b = inner.contents := by
  funext k
  rw [Inner.readableContents]
  cases hGet : inner.index.get k with
  | none => rw [Inner.contents, hGet, Option.bind_none, Option.bind_none]
  | some ent =>
      rw [Option.bind_some, if_pos]
      exact List.all_eq_true.mp h _ (HashMap.mem_entries_iff.mpr hGet)

/-- A store with two keys, one of them put again. -/
def overwritten : World := { World.init with inner := World.init.inner.run (threePuts.map .put) }

theorem overwritten_reachable : Reachable overwritten := by
  refine ⟨threePuts.map .put, fun a ha => ?_, rfl⟩
  simp only [threePuts, List.map_cons, List.map_nil, List.mem_cons, List.not_mem_nil, or_false] at ha
  rcases ha with rfl | rfl | rfl <;> exact ⟨by decide, by decide⟩

/-- The copy of the three records, with a lookup in between. -/
def copyTurns : List Action := [.turn, .get 600 ['a'], .turn, .turn, .turn]

/-- A log in which a key has been overwritten is compacted with a lookup in between. It
serves what it served before, of that key the last value. -/
theorem compact_overwritten :
    ∃ s, overwritten.run (.snapshot 500 :: (copyTurns ++ [.swap])) = some s ∧
      (∀ k, s.inner.get 1000 k = (applied overwritten.inner.contents copyTurns).get 1000 k) ∧
      s.inner.get 1000 ['a'] = some [3] := by
  have hRuns : (overwritten.run (.snapshot 500 :: (copyTurns ++ [.swap]))).map
      (fun s => s.inner.get 1000 ['a']) = some (some [3]) := by
    decide +kernel
  obtain ⟨s, hRun, hValue⟩ := Option.map_eq_some_iff.mp hRuns
  have hDuring : ∀ a ∈ copyTurns, a.During := by
    intro a ha
    simp only [copyTurns, List.mem_cons, List.not_mem_nil, or_false] at ha
    rcases ha with rfl | rfl | rfl | rfl | rfl <;> trivial
  have hReadable := @Inner.readableContents_of_all overwritten.inner bufReader (by decide +kernel)
  refine ⟨s, hRun, ?_, hValue⟩
  refine (compact_get_iff overwritten_reachable (by decide) hDuring hRun).mpr fun k => ?_
  rw [hReadable]
  rfl

/-- A store with one key. -/
def onePut : World := { World.init with inner := World.init.inner.step (.put ⟨0, ['a'], [1], 60⟩) }

/-- A put that lands while the log is copied is gone after the swap, since the new index
has only what was listed at the snapshot. -/
theorem compact_losesPut :
    ¬∀ s, onePut.run [.snapshot 500, .turn, .put ⟨600, ['b'], [2], 60⟩, .turn, .turn, .swap] =
        some s → ∀ k, s.inner.get 1000 k =
          (applied onePut.inner.contents [.turn, .put ⟨600, ['b'], [2], 60⟩, .turn, .turn]).get
            1000 k := by
  intro hAll
  have hLost : (onePut.run [.snapshot 500, .turn, .put ⟨600, ['b'], [2], 60⟩, .turn, .turn,
      .swap]).map (fun s => s.inner.get 1000 ['b']) = some none := by
    decide +kernel
  obtain ⟨s, hRun, hNone⟩ := Option.map_eq_some_iff.mp hLost
  have hGet := hAll s hRun ['b']
  rw [hNone] at hGet
  have hPut : (applied onePut.inner.contents [.turn, .put ⟨600, ['b'], [2], 60⟩, .turn,
      .turn]).get 1000 ['b'] = some [2] := by
    decide +kernel
  rw [hPut] at hGet
  cases hGet

end Dnsd.Cache
