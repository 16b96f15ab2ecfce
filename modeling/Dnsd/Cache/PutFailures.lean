import Dnsd.Cache.Compaction
import Dnsd.Cache.L2Runs

/-! Puts whose write fails half way. The file keeps what was written and the size
counter does not move, so later puts are listed at offsets where other bytes
stand. -/

namespace Dnsd.Cache

open Bytes

/-- The step of `put` at which `write_all` fails: a part of the record is in the
file, and `?` returns in front of the counter and the index. -/
def Inner.putFails (inner : Inner) (written : Bytes) : Inner :=
  { inner with log := inner.log ++ written }

/-- A put that fails in its write, and the part of its record that was written. -/
structure FailedPut where
  put : Put
  written : Bytes
  stored : 0 < put.ttlSecs
  part : written <+: put.record.bytes

/-- What happens to a store: a step that succeeds, a put that fails in its
write, or a compaction that ends with an error in front of its swap. -/
inductive Event where
  | done (a : Action)
  | putFails (f : FailedPut)
  | compactFails

namespace World

/-- `L2Store::open` on a directory with any log, or with none. -/
def opened (disk : Option Bytes) : World := ⟨Inner.openStore bufReader disk, .idle⟩

/-- The store behind a put that has failed, beside whatever the compacting thread does. -/
def putFails (w : World) (f : FailedPut) : World := { w with inner := w.inner.putFails f.written }

/-- The store behind a put that has succeeded. -/
def put (w : World) (p : Put) : World := { w with inner := w.inner.step (.put p) }

/-- What happens to the world: something without an error, a put that fails, or a
compaction that ends with an error in front of its swap and leaves the store as it is. -/
def follow (w : World) : Event → Option World
  | .done a => w.step a
  | .putFails f => some (w.putFails f)
  | .compactFails =>
      match w.phase with
      | .idle => none
      | _ => some { w with phase := .idle }

/-- All that an event can do to a world, with what it presupposes. -/
inductive Follows (w : World) : Event → World → Prop where
  | done {a : Action} {w' : World} (h : w.Steps a w') : w.Follows (.done a) w'
  | putFails (f : FailedPut) : w.Follows (.putFails f) (w.putFails f)
  | compactFails (hUnderWay : w.phase ≠ .idle) : w.Follows .compactFails { w with phase := .idle }

/-- Each event that the machine takes is one of those listed. -/
theorem follows_of_follow {w w' : World} {e : Event} (h : w.follow e = some w') :
    w.Follows e w' := by
  cases e with
  | done a => exact .done (World.steps_of_step h)
  | putFails f =>
      cases h
      exact .putFails f
  | compactFails =>
      rw [World.follow] at h
      split at h
      · cases h
      · rename_i hUnderWay
        cases h
        exact .compactFails hUnderWay

end World

namespace Event

/-- A put that goes through has a record that fits its header. -/
def Fits : Event → Prop
  | .done a => a.Fits
  | _ => True

/-- Puts that fail have written nothing; compactions may fail as they like. -/
def Clean : Event → Prop
  | .done a => a.Fits
  | .putFails f => f.written = []
  | .compactFails => True

/-- Nothing that replaces the entry of a key or the log. -/
def Beside (k : Str) : Event → Prop
  | .done (.put p) => p.key ≠ k
  | .done (.delete key) => key ≠ k
  | .done (.get _ _) | .done (.snapshot _) | .done .turn => True
  | .done .swap | .done .restart => False
  | .putFails _ | .compactFails => True

end Event

/-- The put that failed has changed no answer, and every later put is read back
with the bytes it stored, as long as nothing else happens to its key. -/
structure PutAtomic (w : World) (f : FailedPut) : Prop where
  unchanged : ∀ now k, (w.putFails f).inner.get now k = w.inner.get now k
  later : ∀ events w', (∀ e ∈ events, e.Clean) → Runs.run World.follow (w.putFails f) events = some w' →
    ∀ q : Put, q.InRange → 0 < q.ttlSecs → ∀ beside s, (∀ e ∈ beside, e.Beside q.key) →
      Runs.run World.follow (w'.put q) beside = some s →
      ∀ now, expired q.record.expireAtMs now = false → s.inner.get now q.key = some q.val

/-! ## The size counter -/

/-- The counter is not ahead of the file, and while it is level with it every
entry of the index can be read. -/
structure Inner.Counted (inner : Inner) : Prop where
  size_le : inner.size ≤ inner.log.length
  readable : inner.size = inner.log.length →
    ∀ k ent, inner.index.get k = some ent → (readValue inner.log ent.offset).isSome

/-- What can be read stays readable when the log grows. -/
theorem readValue_isSome_grow {log : Bytes} {offset : Nat} (h : (readValue log offset).isSome)
    (more : Bytes) : (readValue (log ++ more) offset).isSome := by
  obtain ⟨v, hValue⟩ := Option.isSome_iff_exists.mp h
  rw [readValue_grow hValue more]
  rfl

/-- A put, in full. -/
theorem Inner.step_put {inner : Inner} {p : Put} (hTtl : 0 < p.ttlSecs) :
    inner.step (.put p) =
      { index := inner.index.insert p.key
          ⟨inner.size, UInt32.ofNat p.val.length, p.record.expireAtMs⟩
        log := inner.log ++ p.record.bytes
        size := inner.size + p.record.bytes.length
        deadBytes := inner.deadBytes + deadLen p.key (inner.index.get p.key) } := by
  rw [Inner.step, Inner.put, if_neg (Int64.not_le.mpr hTtl)]
  rfl

/-- A put without a positive lifetime changes nothing. -/
theorem Inner.step_put_refused {inner : Inner} {p : Put} (hTtl : ¬0 < p.ttlSecs) :
    inner.step (.put p) = inner := by
  rw [Inner.step, Inner.put, if_pos (Int64.not_lt.mp hTtl)]

namespace Inner.Counted

variable {inner : Inner}

/-- A put keeps the counter at or before the end of the file. -/
theorem put (h : inner.Counted) {p : Put} (hFits : p.record.Fits) :
    (inner.step (.put p)).Counted := by
  by_cases hTtl : 0 < p.ttlSecs
  · rw [step_put hTtl]
    refine ⟨by simpa using h.size_le, fun hLevel k ent hEntry => ?_⟩
    have hSize : inner.size = inner.log.length := by simpa using hLevel
    dsimp only at hEntry ⊢
    rw [HashMap.get_insert] at hEntry
    split_ifs at hEntry with hKey
    · cases hEntry
      have hAt : At (inner.log ++ p.record.bytes) inner.size p.record.bytes := by
        rw [hSize]
        exact ⟨inner.log, [], by simp, rfl⟩
      rw [readValue_at hFits hAt]
      rfl
    · exact readValue_isSome_grow (h.readable hSize k ent hEntry) _
  · rwa [step_put_refused hTtl]

theorem delete (h : inner.Counted) (key : Str) : (inner.delete key).Counted := by
  rw [Inner.delete]
  cases hOld : inner.index.get key with
  | none => exact h
  | some old =>
      refine ⟨h.size_le, fun hLevel k ent hEntry => ?_⟩
      dsimp only at hEntry ⊢
      rw [HashMap.get_erase] at hEntry
      split_ifs at hEntry
      exact h.readable hLevel k ent hEntry

/-- So does a put that fails, whose bytes are then behind the counter. -/
theorem putFails (h : inner.Counted) (written : Bytes) : (inner.putFails written).Counted := by
  refine ⟨?_, fun hLevel k ent hEntry => ?_⟩
  · have hSize := h.size_le
    simp only [Inner.putFails, List.length_append]
    omega
  · have hSize := h.size_le
    simp only [Inner.putFails, List.length_append] at hLevel
    exact readValue_isSome_grow (h.readable (by omega) k ent hEntry) _

end Inner.Counted

/-- The entries of a replayed log are at records that were read. -/
theorem replay_get {b : Buffering} {file : Bytes} {k : Str} {ent : IndexEntry}
    (h : (replay b file).get k = some ent) :
    ∃ rec ∈ scan b file, ent = indexEntry rec := by
  rw [replay] at h
  generalize scan b file = recs at h ⊢
  induction recs using List.reverseRecOn with
  | nil => cases h
  | append_singleton recs rec ih =>
      rw [List.foldl_append, List.foldl_cons, List.foldl_nil, HashMap.get_insert] at h
      split_ifs at h with hKey
      · exact ⟨rec, by simp, (Option.some.inj h).symm⟩
      · obtain ⟨rec', hMem, hEq⟩ := ih h
        exact ⟨rec', List.mem_append_left _ hMem, hEq⟩

/-- A store that is opened counts the whole file. -/
theorem Inner.counted_open (disk : Option Bytes) :
    (Inner.openStore bufReader disk).Counted := by
  refine ⟨le_refl _, fun _ k ent hEntry => ?_⟩
  cases disk with
  | none => cases hEntry
  | some file =>
      obtain ⟨rec, hMem, rfl⟩ := replay_get hEntry
      exact readValue_of_mem_scan hMem

/-- What the copying thread has listed can be read in its copy. -/
structure Copying.Counted (c : Copying) : Prop where
  offset : c.offset = c.tmp.length
  readable : ∀ k ent, c.newIndex.get k = some ent → (readValue c.tmp ent.offset).isSome

/-- The copy of a compaction counts what it has written. -/
theorem Copying.Counted.copy {c c' : Copying} (h : c.Counted) {file : Bytes}
    (hCopy : c.copy file = some c') : c'.Counted := by
  rw [Copying.copy] at hCopy
  cases hRead : readRecord file c.reader c.readOffset with
  | none =>
      rw [hRead] at hCopy
      cases hCopy
  | some read =>
      obtain ⟨rec, rd', next⟩ := read
      rw [hRead] at hCopy
      cases hCopy
      rw [Copying.take]
      split_ifs with hLive
      · refine ⟨by simp [h.offset], fun k ent hEntry => ?_⟩
        dsimp only at hEntry ⊢
        rw [HashMap.get_insert] at hEntry
        split_ifs at hEntry
        · cases hEntry
          rw [h.offset]
          exact readValue_raw hRead ⟨c.tmp, [], by simp, rfl⟩
        · exact readValue_isSome_grow (h.readable k ent hEntry) _
      · exact ⟨h.offset, h.readable⟩

/-- What every run keeps. -/
structure World.Counted (w : World) : Prop where
  inner : w.inner.Counted
  phase : match w.phase with
    | .idle => True
    | .copying c | .copied c => c.Counted

/-- Every event keeps the counters right. -/
theorem World.Counted.follow {w w' : World} (h : w.Counted) {e : Event} (hFits : e.Fits)
    (hStep : w.follow e = some w') : w'.Counted := by
  obtain ⟨hInner, hPhase⟩ := h
  cases World.follows_of_follow hStep with
  | putFails f => exact ⟨hInner.putFails f.written, hPhase⟩
  | compactFails hUnderWay => exact ⟨hInner, trivial⟩
  | done hSteps =>
      cases hSteps with
      | put p => exact ⟨hInner.put hFits, hPhase⟩
      | get now key => exact ⟨hInner, hPhase⟩
      | delete key => exact ⟨hInner.delete key, hPhase⟩
      | snapshot now hIdle => exact ⟨hInner, rfl, fun k ent hEntry => by cases hEntry⟩
      | copy hCopying hCopy =>
          rw [hCopying] at hPhase
          exact ⟨hInner, hPhase.copy hCopy⟩
      | finish hCopying hCopy =>
          rw [hCopying] at hPhase
          exact ⟨hInner, hPhase⟩
      | swap hCopied =>
          rw [hCopied] at hPhase
          exact ⟨⟨hPhase.offset.le, fun _ => hPhase.readable⟩, trivial⟩
      | restart => exact ⟨Inner.counted_open (some w.inner.log), trivial⟩

/-- So does every run of them. -/
theorem World.Counted.run {w w' : World} (h : w.Counted) {events : List Event}
    (hFits : ∀ e ∈ events, e.Fits) (hRun : Runs.run World.follow w events = some w') : w'.Counted :=
  Runs.run_invariant (fun _ _ _ hCounted hEvent hStep => hCounted.follow hEvent hStep) h hFits hRun

/-- The counter is level with the file, in the store and in a copy under way. -/
structure World.Level (w : World) : Prop where
  counted : w.Counted
  size : w.inner.size = w.inner.log.length

theorem Event.Clean.fits {e : Event} (h : e.Clean) : e.Fits := by
  cases e with
  | done a => exact h
  | putFails f => trivial
  | compactFails => trivial

/-- As long as a put that fails writes nothing, the counter stays level with the file. -/
theorem World.Level.follow {w w' : World} (h : w.Level) {e : Event} (hClean : e.Clean)
    (hStep : w.follow e = some w') : w'.Level := by
  refine ⟨h.counted.follow hClean.fits hStep, ?_⟩
  have hSize := h.size
  cases World.follows_of_follow hStep with
  | putFails f =>
      rw [Event.Clean] at hClean
      simpa [World.putFails, Inner.putFails, hClean] using hSize
  | compactFails hUnderWay => exact hSize
  | done hSteps =>
      cases hSteps with
      | put p =>
          by_cases hTtl : 0 < p.ttlSecs
          · simp [Inner.step_put hTtl, hSize]
          · rwa [Inner.step_put_refused hTtl]
      | get now key => exact hSize
      | delete key =>
          dsimp only
          rw [Inner.delete]
          split <;> exact hSize
      | snapshot now hIdle => exact hSize
      | copy hCopying hCopy => exact hSize
      | finish hCopying hCopy => exact hSize
      | swap hCopied =>
          have hPhase := h.counted.phase
          rw [hCopied] at hPhase
          exact hPhase.offset
      | restart => rfl

theorem World.Level.run {w w' : World} (h : w.Level) {events : List Event}
    (hClean : ∀ e ∈ events, e.Clean) (hRun : Runs.run World.follow w events = some w') : w'.Level :=
  Runs.run_invariant (fun _ _ _ hLevel hEvent hStep => hLevel.follow hEvent hStep) h hClean hRun

/-! ## Later puts -/

/-- The entry of a put stands at its record. -/
def Inner.Lists (inner : Inner) (q : Put) : Prop :=
  ∃ offset, inner.index.get q.key =
      some ⟨offset, UInt32.ofNat q.val.length, q.record.expireAtMs⟩ ∧
    At inner.log offset q.record.bytes

/-- A put that is listed is found until it expires. -/
theorem Inner.Lists.get {inner : Inner} {q : Put} (h : inner.Lists q) (hFits : q.record.Fits)
    {now : Int64} (hLive : expired q.record.expireAtMs now = false) :
    inner.get now q.key = some q.val := by
  obtain ⟨offset, hIndex, hAt⟩ := h
  rw [Inner.get, hIndex]
  dsimp only
  rw [hLive, readValue_at hFits hAt]
  rfl

/-- A put is listed at once if the counter is level with the file. -/
theorem Inner.lists_put {inner : Inner} (hSize : inner.size = inner.log.length) {q : Put}
    (hTtl : 0 < q.ttlSecs) : (inner.step (.put q)).Lists q := by
  rw [Inner.step_put hTtl]
  exact ⟨inner.size, HashMap.get_insert_self _ _ _, inner.log, [], by simp, hSize.symm⟩

/-- An event that leaves a key alone leaves its put listed. -/
theorem World.lists_follow {w w' : World} {q : Put} (h : w.inner.Lists q) {e : Event}
    (hBeside : e.Beside q.key) (hStep : w.follow e = some w') : w'.inner.Lists q := by
  obtain ⟨offset, hIndex, hAt⟩ := h
  cases World.follows_of_follow hStep with
  | putFails f => exact ⟨offset, hIndex, hAt.grow _⟩
  | compactFails hUnderWay => exact ⟨offset, hIndex, hAt⟩
  | done hSteps =>
      cases hSteps with
      | put p =>
          by_cases hTtl : 0 < p.ttlSecs
          · rw [Inner.step_put hTtl]
            exact ⟨offset, by rw [HashMap.get_insert_ne _ _ (Ne.symm hBeside), hIndex], hAt.grow _⟩
          · rw [Inner.step_put_refused hTtl]
            exact ⟨offset, hIndex, hAt⟩
      | get now key => exact ⟨offset, hIndex, hAt⟩
      | delete key =>
          dsimp only
          rw [Inner.delete]
          split
          · exact ⟨offset, hIndex, hAt⟩
          · exact ⟨offset, by rw [HashMap.get_erase_ne _ (Ne.symm hBeside), hIndex], hAt⟩
      | snapshot now hIdle => exact ⟨offset, hIndex, hAt⟩
      | copy hCopying hCopy => exact ⟨offset, hIndex, hAt⟩
      | finish hCopying hCopy => exact ⟨offset, hIndex, hAt⟩
      | swap hCopied => exact hBeside.elim
      | restart => exact hBeside.elim

/-- So does a run of them. -/
theorem World.lists_run {w w' : World} {q : Put} (h : w.inner.Lists q) {events : List Event}
    (hBeside : ∀ e ∈ events, e.Beside q.key) (hRun : Runs.run World.follow w events = some w') :
    w'.inner.Lists q := by
  have hStep (s : World) (e : Event) (s' : World) (hLists : s.inner.Lists q)
      (hEvent : e.Beside q.key) (hFollow : s.follow e = some s') : s'.inner.Lists q :=
    World.lists_follow hLists hEvent hFollow
  exact Runs.run_invariant hStep h hBeside hRun

/-- Level with the file, a put that writes nothing before it fails is atomic. -/
theorem World.Level.putAtomic {w : World} (h : w.Level) {f : FailedPut} (hNone : f.written = []) :
    PutAtomic w f := by
  have hSame : w.putFails f = w := by simp [World.putFails, Inner.putFails, hNone]
  refine ⟨fun now k => by rw [hSame], ?_⟩
  intro events w' hClean hRun q hRange hTtl beside s hBeside hLast now hLive
  rw [hSame] at hRun
  have hLists := Inner.lists_put (h.run hClean hRun).size hTtl
  exact (World.lists_run (w := w'.put q) hLists hBeside hLast).get hRange.fits hLive

/-! ## Bytes in front of a record -/

/-- The empty key with a value of some zeros. -/
def probe (n : Nat) : Put := ⟨0, [], List.replicate n 0, 1⟩

theorem probe_inRange {n : Nat} (h : n < 3) : (probe n).InRange := by
  have hKey : Str.len [] < 2 ^ 32 := by decide
  have hTtl : (1 : Int64) < 4294967296 := by decide
  have hNow : (0 : Int64) ≤ 0 := by decide
  refine ⟨hKey, ?_, hTtl, hNow⟩
  simp only [probe, List.length_replicate]
  omega

theorem probe_ttlSecs (n : Nat) : 0 < (probe n).ttlSecs := show (0 : Int64) < 1 by decide

theorem probe_live (n : Nat) : expired (probe n).record.expireAtMs 0 = false :=
  show expired (0 + 1 * 1000) 0 = false by decide

theorem probe_bytes (n : Nat) : ∃ rest, (probe n).record.bytes =
    [magic, 0, 0, 0, 0] ++ ((UInt32.ofNat n).toLeBytes ++ rest) := by
  have hKeyLen : (UInt32.ofNat (Str.len [])).toLeBytes = [0, 0, 0, 0] := by decide
  have hValLen : (List.replicate n (0 : UInt8)).length = n := List.length_replicate
  simp only [LogRecord.bytes, LogRecord.header, Put.record, probe, hKeyLen, hValLen]
  simp only [List.append_assoc, List.cons_append, List.nil_append]
  exact ⟨_, rfl⟩

/-- The length of the value is in the header. -/
theorem valLenOf_take (bs : Bytes) : valLenOf (bs.take headerLen) = valLenOf bs := by
  rw [valLenOf, valLenOf, List.drop_take, List.take_take]
  rfl

/-- Up to eight bytes in front of it put a probe of length one out of place. -/
theorem valLenOf_short {garbage : Bytes} (hNe : garbage ≠ []) (hShort : garbage.length < 9) :
    valLenOf (garbage ++ (probe 1).record.bytes) ≠ 1 := by
  obtain ⟨rest, hBytes⟩ := probe_bytes 1
  have hOne : (UInt32.ofNat 1).toLeBytes = [1, 0, 0, 0] := by decide
  rw [hBytes, hOne, valLenOf, UInt32.fromLeBytes]
  have hByte (g : UInt8) : g.toNat < 256 := g.toNat_lt
  rcases garbage with _ | ⟨g0, _ | ⟨g1, _ | ⟨g2, _ | ⟨g3, _ | ⟨g4, _ | ⟨g5, _ | ⟨g6, _ | ⟨g7, tail⟩⟩⟩⟩⟩⟩⟩⟩
  · exact absurd rfl hNe
  · simp [Words.leValue, magic]
  · simp [Words.leValue, magic]
  · simp [Words.leValue, magic]
  · simp [Words.leValue, magic]
  · simp [Words.leValue, magic]
  · have h5 := hByte g5
    simp [Words.leValue, magic]
    omega
  · have h5 := hByte g5
    have h6 := hByte g6
    simp [Words.leValue, magic]
    omega
  · have hTail : tail = [] := by
      refine List.length_eq_zero_iff.mp ?_
      simp only [List.length_cons] at hShort
      omega
    have h5 := hByte g5
    have h6 := hByte g6
    have h7 := hByte g7
    simp [hTail, Words.leValue, magic]
    omega

/-- Bytes in front of a record put its lengths out of place: not every probe is
read with the length of its value. -/
theorem exists_probe {garbage : Bytes} (hNe : garbage ≠ []) :
    ∃ n, n < 3 ∧ valLenOf ((garbage ++ (probe n).record.bytes).take headerLen) ≠ n := by
  simp only [valLenOf_take]
  rcases Nat.lt_or_ge garbage.length 9 with hShort | hLong
  · exact ⟨1, by decide, valLenOf_short hNe hShort⟩
  · -- the length is one of those bytes: at most one of the probes agrees with it
    have hSame (n : Nat) : valLenOf (garbage ++ (probe n).record.bytes) = valLenOf garbage := by
      rw [valLenOf, valLenOf, List.drop_append_of_le_length (by omega),
        List.take_append_of_le_length (by rw [List.length_drop]; omega)]
    by_cases hOne : valLenOf garbage = 1
    · exact ⟨2, by decide, by rw [hSame, hOne]; decide⟩
    · exact ⟨1, by decide, by rwa [hSame]⟩

/-- Behind the counter there is nothing to list a put by: some put is not read
back. -/
theorem Inner.exists_lost {inner : Inner} (hSize : inner.size < inner.log.length) :
    ∃ q : Put, q.InRange ∧ 0 < q.ttlSecs ∧ expired q.record.expireAtMs 0 = false ∧
      (inner.step (.put q)).get 0 q.key ≠ some q.val := by
  have hNe : inner.log.drop inner.size ≠ [] := by simpa using hSize
  obtain ⟨n, hn, hLen⟩ := exists_probe hNe
  have hLive := probe_live n
  refine ⟨probe n, probe_inRange hn, probe_ttlSecs n, hLive, fun hGet => hLen ?_⟩
  rw [Inner.step_put (probe_ttlSecs n), Inner.get] at hGet
  dsimp only at hGet
  rw [HashMap.get_insert_self] at hGet
  dsimp only at hGet
  rw [hLive, if_neg (by decide)] at hGet
  have hLength := length_of_readValue hGet
  rw [List.drop_append_of_le_length hSize.le] at hLength
  rw [← hLength]
  simp [probe]

/-- A failed put is atomic exactly if it has written nothing and the counter was
level with the file: no put that failed since the log was opened or compacted
has left bytes in it. -/
theorem putAtomic_iff {disk : Option Bytes} {events : List Event} (hFits : ∀ e ∈ events, e.Fits)
    {w : World} (hRun : Runs.run World.follow (World.opened disk) events = some w) (f : FailedPut) :
    PutAtomic w f ↔ w.inner.size = w.inner.log.length ∧ f.written = [] := by
  have hOpened : (World.opened disk).Counted := ⟨Inner.counted_open disk, trivial⟩
  have hCounted := hOpened.run hFits hRun
  constructor
  · intro hAtomic
    by_contra hBehind
    have hSize := hCounted.inner.size_le
    have hLess : (w.putFails f).inner.size < (w.putFails f).inner.log.length := by
      have hWritten := List.length_eq_zero_iff (l := f.written)
      simp only [World.putFails, Inner.putFails, List.length_append]
      rw [← hWritten] at hBehind
      omega
    obtain ⟨q, hRange, hTtl, hLive, hLost⟩ := Inner.exists_lost hLess
    exact hLost (hAtomic.later [] _ (by simp) rfl q hRange hTtl [] _ (by simp) rfl 0 hLive)
  · rintro ⟨hSize, hNone⟩
    exact World.Level.putAtomic ⟨hCounted, hSize⟩ hNone

/-- A put of a second key that fails, and what of its record is in the file. -/
def secondPut (written : Bytes)
    (h : written <+: (⟨500, ['b'], [2], 60⟩ : Put).record.bytes) : FailedPut :=
  ⟨⟨500, ['b'], [2], 60⟩, written, by decide, h⟩

/-- A second put that fails with nothing written is atomic. -/
theorem putAtomic_secondPut :
    ∃ w, Runs.run World.follow (World.opened none) [.done (.put ⟨0, ['a'], [1], 60⟩)] = some w ∧
      PutAtomic w (secondPut [] List.nil_prefix) := by
  have hRun : Runs.run World.follow (World.opened none) [.done (.put ⟨0, ['a'], [1], 60⟩)] =
      some ((World.opened none).put ⟨0, ['a'], [1], 60⟩) := rfl
  refine ⟨_, hRun, (putAtomic_iff (fun e he => ?_) hRun _).mpr ⟨by decide +kernel, rfl⟩⟩
  rw [List.mem_singleton.mp he]
  exact ⟨by decide, by decide⟩

/-- One byte of the record is in the file when the put fails. The next put is appended
behind it, its offset is one too small, and it is not read back. -/
theorem not_putAtomic_secondPut :
    ¬PutAtomic (World.opened none) (secondPut [magic] (by decide +kernel)) := by
  intro hAtomic
  have hLost : (((World.opened none).putFails (secondPut [magic] (by decide +kernel))).put
      ⟨600, ['c'], [3], 60⟩).inner.get 1000 ['c'] = none := by
    decide +kernel
  have hRange : (⟨600, ['c'], [3], 60⟩ : Put).InRange :=
    ⟨by decide, by decide, by decide, by decide⟩
  have hGet := hAtomic.later [] _ (by simp) rfl _ hRange (by decide) [] _ (by simp) rfl 1000
    (by decide)
  rw [hLost] at hGet
  cases hGet

end Dnsd.Cache
