import Dnsd.Cache.L2

/-! What a store keeps over a close and a reopen: the puts up to the first header
that lies across two fills of the buffer, if every read hands out at most what is
buffered. -/

namespace Dnsd.Cache

open Bytes LastWrite

/-! ## Runs of one thread -/

/-- The arguments of a put, with the time at which it is made. -/
structure Put where
  now : Int64
  key : Str
  val : Bytes
  ttlSecs : Int64
  deriving DecidableEq

/-- Lengths below `2 ^ 31` and a ttl from one second to `2 ^ 32 - 1`. -/
structure Put.Admissible (p : Put) : Prop where
  key : p.key.len < 2 ^ 31
  val : p.val.length < 2 ^ 31
  positive : 0 < p.ttlSecs
  ttl : p.ttlSecs < 4294967296

/-- The record that a put appends, which expires as many seconds later as the put says. -/
def Put.record (p : Put) : LogRecord := ⟨p.key, p.val, p.now + p.ttlSecs * 1000⟩

theorem Put.Admissible.fits {p : Put} (h : p.Admissible) : p.record.Fits :=
  ⟨lt_trans h.key (by decide), lt_trans h.val (by decide)⟩

/-- What one thread does with a store between an open and a close. -/
inductive Op where
  | put (p : Put)
  | delete (key : Str)
  | compact (now : Int64)

/-- A compaction of one thread goes through its three phases at once. -/
def Inner.step (inner : Inner) : Op → Inner
  | .put p => inner.put p.now p.key p.val p.ttlSecs
  | .delete key => inner.delete key
  | .compact now => inner.compact bufReader now

/-- One operation after the other, each on what the one before has left. -/
def Inner.run (inner : Inner) (ops : List Op) : Inner := ops.foldl Inner.step inner

/-- The log is a sequence of whole records. -/
def Inner.Whole (inner : Inner) (recs : List LogRecord) : Prop :=
  inner.log = logBytes recs ∧ ∀ r ∈ recs, r.Fits

theorem Put.step_eq {p : Put} (h : p.Admissible) (inner : Inner) :
    (inner.step (.put p)).log = inner.log ++ p.record.bytes := by
  have hPositive : ¬p.ttlSecs ≤ 0 := Int64.not_le.mpr h.positive
  rw [Inner.step, Inner.put, if_neg hPositive]
  rfl

theorem Inner.whole_empty (b : Buffering) : (Inner.openStore b none).Whole [] :=
  ⟨rfl, by simp⟩

/-- A clean close and `L2Store::open` on the same directory, with any reader. -/
def Inner.reopenWith (inner : Inner) (b : Buffering) : Inner := Inner.openStore b (some inner.log)

/-- The same with the reader that `BufReader::new` makes. -/
def Inner.reopen (inner : Inner) : Inner := inner.reopenWith bufReader

/-- After a reopen the store answers from the readable records of the log. -/
theorem Inner.Whole.reopen_get {inner : Inner} {recs : List LogRecord} (h : inner.Whole recs)
    (b : Buffering) (now : Int64) (k : Str) :
    (inner.reopenWith b).get now k = (contentsOf ((readable b recs).map Prod.snd)).get now k := by
  obtain ⟨hLog, hFits⟩ := h
  have hHolds := Inner.holds_reopen b hFits recordStarts_nil
  rw [List.append_nil, ← hLog] at hHolds
  exact hHolds.get now k

/-! ## A reader that only refills -/

/-- The reader of this module is `bufReader` but for one thing: every read hands out at
most what is buffered. A direct read of no more than a fill comes to the same
(`BufReader.read_of_limit_eq`). -/
def refilling : Buffering :=
  { bufReader with limit := bufReader.capacity, capacity_le := Nat.le_refl _ }

/-- The header of a placed record lies within one fill of the buffer. -/
def withinFetch (capacity : Nat) (p : Nat × LogRecord) : Bool :=
  p.1 % capacity + headerLen ≤ capacity

/-- The fetches have come to the first multiple of the capacity that is not in front of
the reader. -/
structure Windowed (capacity o stop : Nat) : Prop where
  multiple : capacity ∣ stop
  le : o ≤ stop
  lt : stop < o + capacity

namespace Windowed

variable {b : Buffering} {o stop target : Nat}

theorem full_iff (h : Windowed b.capacity o stop) (hLimit : b.limit = b.capacity) {n : Nat} :
    b.Full stop o n ↔ o % b.capacity + n ≤ b.capacity := by
  obtain ⟨⟨k, rfl⟩, hLe, hLt⟩ := h
  rw [Buffering.Full, hLimit]
  rcases Nat.eq_or_lt_of_le hLe with rfl | hBehind
  · rw [Nat.mul_mod_right]
    omega
  · cases k with
    | zero => omega
    | succ k =>
        rw [Nat.mul_succ] at hLe hLt hBehind ⊢
        have hMod : o % b.capacity = o - b.capacity * k := by
          have hSplit : o = b.capacity * k + (o - b.capacity * k) := by omega
          conv_lhs => rw [hSplit, Nat.mul_add_mod]
          exact Nat.mod_eq_of_lt (by omega)
        rw [hMod]
        omega

theorem reach (h : Windowed b.capacity o stop) (hLimit : b.limit = b.capacity)
    (hTarget : o ≤ target) : Windowed b.capacity target (b.reach stop target) := by
  obtain ⟨hMultiple, hLe, hLt⟩ := h
  have hPositive := b.positive
  rcases Nat.lt_or_ge stop target with hBehind | hInside
  · have hSplit := Nat.div_add_mod (target - stop - 1) b.capacity
    have hRest := Nat.mod_lt (target - stop - 1) hPositive
    rw [Nat.mul_comm] at hSplit
    rw [Buffering.reach, if_neg (by omega), hLimit]
    dsimp only
    rw [Nat.max_eq_right (by omega)]
    refine ⟨?_, by omega, by omega⟩
    exact Nat.dvd_add (Nat.dvd_add hMultiple (Nat.dvd_mul_left ..)) (Nat.dvd_refl _)
  · rw [Buffering.reach_of_le hInside]
    exact ⟨hMultiple, hInside, by omega⟩

/-- The readable records lie in front of the first header across a multiple of the
capacity. -/
theorem readableFrom_eq (h : Windowed b.capacity o stop) (hLimit : b.limit = b.capacity)
    (recs : List LogRecord) :
    readableFrom b o stop recs = (placed o recs).takeWhile (withinFetch b.capacity) := by
  induction recs generalizing o stop with
  | nil => rfl
  | cons r rest ih =>
      have hFull := h.full_iff hLimit (n := headerLen)
      have hBody : o + headerLen ≤ o + r.bytes.length := by rw [r.bytes_length]; omega
      have hNext := (h.reach hLimit (Nat.le_add_right o headerLen)).reach hLimit hBody
      have hRest := ih hNext
      rw [readableFrom] at hRest ⊢
      rw [fetched, placed, List.takeWhile_cons, List.takeWhile_cons]
      by_cases hInside : o % b.capacity + headerLen ≤ b.capacity
      · rw [if_pos (by simpa [Fetched.full] using hFull.mpr hInside),
          if_pos (by simpa [withinFetch] using hInside), List.map_cons, LogRecord.reach, hRest]
        rfl
      · rw [if_neg (by simpa [Fetched.full] using mt hFull.mp hInside),
          if_neg (by simpa [withinFetch] using hInside)]
        rfl

end Windowed

theorem readable_refilling (recs : List LogRecord) :
    readable refilling recs = (placed 0 recs).takeWhile (withinFetch refilling.capacity) :=
  Windowed.readableFrom_eq ⟨Nat.dvd_zero _, Nat.le_refl 0, by decide⟩ rfl recs

/-- Behind a body that was read directly the buffer is empty, and the next header is read
across a multiple of the capacity, but not by a reader that only refills. -/
example (r r' : LogRecord) (h : r.bytes.length = 24570) :
    (readable bufReader [r, r']).length = 2 ∧ (readable refilling [r, r']).length = 1 := by
  have hHeader : headerLen = 21 := rfl
  simp [readable, readableFrom, fetched, LogRecord.reach, Buffering.reach, Fetched.full,
    Buffering.Full, List.takeWhile, bufReader, refilling, h, hHeader]

/-! ## Replay -/

/-- A store opened on an empty directory, behind some puts, with the reader of this
module. -/
def runPuts (puts : List Put) : Inner :=
  (Inner.openStore refilling none).run (puts.map .put)

/-- The put on `k` that counts, which is the last one of the list. -/
def lastPut (puts : List Put) (k : Str) : Option Put :=
  lastWrite (puts.map fun p => (p.key, p)) k

/-- The puts whose records lie in front of the first header that straddles a
multiple of the capacity of the reader. -/
def replayed (puts : List Put) : List Put :=
  puts.take ((placed 0 (puts.map Put.record)).takeWhile (withinFetch refilling.capacity)).length

theorem runPuts_whole {puts : List Put} (hPuts : ∀ p ∈ puts, p.Admissible) :
    (runPuts puts).Whole (puts.map Put.record) := by
  have hRun (inner : Inner) (recs : List LogRecord) (h : inner.Whole recs) :
      (inner.run (puts.map .put)).Whole (recs ++ puts.map Put.record) := by
    induction puts generalizing inner recs with
    | nil =>
        rw [List.map_nil, List.map_nil, List.append_nil]
        exact h
    | cons p rest ih =>
        obtain ⟨hLog, hFits⟩ := h
        have hp := hPuts p List.mem_cons_self
        have hStep : (inner.step (.put p)).Whole (recs ++ [p.record]) := by
          refine ⟨by rw [Put.step_eq hp, hLog]; simp, fun r hr => ?_⟩
          rcases List.mem_append.mp hr with hOld | hNew
          · exact hFits r hOld
          · rw [List.mem_singleton.mp hNew]
            exact hp.fits
        have hRest := ih (fun q hq => hPuts q (List.mem_cons_of_mem p hq)) _ _ hStep
        rwa [List.append_assoc] at hRest
  exact hRun _ [] (Inner.whole_empty _)

theorem readable_map_snd (b : Buffering) (recs : List LogRecord) :
    (readable b recs).map Prod.snd = recs.take (readable b recs).length := by
  have hMap := (readable_isPrefix b recs).map Prod.snd
  rw [placed_map_snd] at hMap
  rw [List.prefix_iff_eq_take.mp hMap, List.length_map]

theorem contentsOf_puts (puts : List Put) (k : Str) :
    contentsOf (puts.map Put.record) k = (lastPut puts k).map fun p => p.record.entry := by
  rw [contentsOf, List.map_map, lastPut, ← lastWrite_map]
  rfl

theorem reopen_runPuts_get {puts : List Put} (hPuts : ∀ p ∈ puts, p.Admissible) (now : Int64)
    (k : Str) :
    ((runPuts puts).reopenWith refilling).get now k =
      (contentsOf ((replayed puts).map Put.record)).get now k := by
  rw [(runPuts_whole hPuts).reopen_get, readable_map_snd, readable_refilling, replayed,
    List.map_take]

theorem Contents.get_eq_some_iff {m : Contents} {now : Int64} {k : Str} {v : Bytes} :
    m.get now k = some v ↔ ∃ e, m k = some e ∧ expired e.expireAtMs now = false ∧ e.val = v := by
  rw [Contents.get]
  cases m k with
  | none => simp
  | some e =>
      dsimp only
      cases hExpired : expired e.expireAtMs now <;> simp [hExpired]

/-- A reopened store returns the last put of every key still unexpired exactly
when each of those puts was replayed, or an unexpired one of the same value was. -/
theorem reopen_get_iff {puts : List Put} (hPuts : ∀ p ∈ puts, p.Admissible) (now : Int64) :
    (∀ k p, lastPut puts k = some p → expired p.record.expireAtMs now = false →
      ((runPuts puts).reopenWith refilling).get now k = some p.val) ↔
    ∀ k p, lastPut puts k = some p → expired p.record.expireAtMs now = false →
      ∃ q, lastPut (replayed puts) k = some q ∧ expired q.record.expireAtMs now = false ∧
        q.val = p.val := by
  have hGet (k : Str) (v : Bytes) : ((runPuts puts).reopenWith refilling).get now k = some v ↔
      ∃ q, lastPut (replayed puts) k = some q ∧ expired q.record.expireAtMs now = false ∧
        q.val = v := by
    rw [reopen_runPuts_get hPuts, Contents.get_eq_some_iff, contentsOf_puts]
    constructor
    · rintro ⟨e, hEntry, hLive, rfl⟩
      obtain ⟨q, hLast, rfl⟩ := Option.map_eq_some_iff.mp hEntry
      exact ⟨q, hLast, hLive, rfl⟩
    · rintro ⟨q, hLast, hLive, rfl⟩
      exact ⟨q.record.entry, by rw [hLast]; rfl, hLive, rfl⟩
  simp only [hGet]

/-- Without a straddling header every put is replayed. -/
theorem replayed_of_within {puts : List Put}
    (hWithin : ∀ p ∈ placed 0 (puts.map Put.record), withinFetch refilling.capacity p) :
    replayed puts = puts := by
  have hLength : (placed 0 (puts.map Put.record)).length = puts.length := by
    rw [← List.length_map Prod.snd, placed_map_snd, List.length_map]
  rw [replayed, List.takeWhile_eq_self_iff.mpr hWithin, hLength, List.take_length]

/-- Two keys, one of them put again. -/
def threePuts : List Put := [⟨0, ['a'], [1], 60⟩, ⟨100, ['b'], [2], 60⟩, ⟨200, ['a'], [3], 60⟩]

/-- Of a log with two keys, one of them put again, the reopened store returns both last
values. -/
theorem reopen_get_threePuts :
    ((runPuts threePuts).reopenWith refilling).get 1000 ['a'] = some [3] ∧
      ((runPuts threePuts).reopenWith refilling).get 1000 ['b'] = some [2] := by
  have hPuts : ∀ p ∈ threePuts, p.Admissible := by
    intro p hp
    simp only [threePuts, List.mem_cons, List.not_mem_nil, or_false] at hp
    rcases hp with rfl | rfl | rfl <;> exact ⟨by decide, by decide, by decide, by decide⟩
  have hAll : replayed threePuts = threePuts := replayed_of_within (by decide +kernel)
  have hFound := (reopen_get_iff hPuts 1000).mpr fun k p hLast hLive =>
    ⟨p, by rwa [hAll], hLive, rfl⟩
  exact ⟨hFound ['a'] _ rfl (by decide), hFound ['b'] _ rfl (by decide)⟩

/-- The record of the first put ends twelve bytes in front of a fetch. -/
def straddlingPuts : List Put :=
  [⟨0, ['a'], List.replicate 8158 0, 60⟩, ⟨0, ['b'], [1], 60⟩]

theorem straddlingPuts_admissible : ∀ p ∈ straddlingPuts, p.Admissible := by
  intro p hp
  rcases List.mem_cons.mp hp with rfl | hp
  · exact ⟨by decide, by rw [List.length_replicate]; decide, by decide, by decide⟩
  · rw [List.mem_singleton.mp hp]
    exact ⟨by decide, by decide, by decide, by decide⟩

/-- The second header starts at offset 8180 and is not replayed. -/
theorem replayed_straddlingPuts : replayed straddlingPuts = straddlingPuts.take 1 := by
  have hLength : (Put.record ⟨0, ['a'], List.replicate 8158 0, 60⟩).bytes.length = 8180 := by
    rw [LogRecord.bytes_length, Put.record, List.length_replicate]
    decide
  have hReadable (r r' : LogRecord) (h : r.bytes.length = 8180) :
      ((placed 0 [r, r']).takeWhile (withinFetch refilling.capacity)).length = 1 := by
    simp [placed, h, withinFetch, refilling, bufReader, headerLen]
  rw [replayed, straddlingPuts, List.map_cons, List.map_cons, List.map_nil, hReadable _ _ hLength]

/-- The header of the second record straddles a multiple of the capacity, where one read
returns less than a header. One second after it was stored, the second put is gone. -/
theorem reopen_straddlingPuts :
    ¬∀ k p, lastPut straddlingPuts k = some p → expired p.record.expireAtMs 1000 = false →
      ((runPuts straddlingPuts).reopenWith refilling).get 1000 k = some p.val := by
  intro hAll
  have hGet := hAll ['b'] ⟨0, ['b'], [1], 60⟩ rfl (by decide)
  have hNone : lastPut (straddlingPuts.take 1) ['b'] = none := rfl
  rw [reopen_runPuts_get straddlingPuts_admissible, replayed_straddlingPuts, Contents.get,
    contentsOf_puts, hNone] at hGet
  cases hGet

end Dnsd.Cache
