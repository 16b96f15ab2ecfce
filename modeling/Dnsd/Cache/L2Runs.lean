import Dnsd.Cache.Durability

/-! Runs of one store that is neither closed nor compacted: what it answers, and
where its index points to. -/

namespace Dnsd.Cache

open Bytes LastWrite

/-- What is asked of the second level, with the times that the calls read. -/
inductive Request where
  | put (p : Put)
  | get (now : Int64) (key : Str)
  | delete (key : Str)

/-- Lengths below `2 ^ 32`, a ttl below `2 ^ 32` seconds, and a clock that does not
run behind the epoch. -/
structure Put.InRange (p : Put) : Prop where
  key : p.key.len < 2 ^ 32
  val : p.val.length < 2 ^ 32
  ttl : p.ttlSecs < 4294967296
  now : 0 ≤ p.now

/-- The record of a put fits, and its lifetime does not leave the clock. -/
def Request.InRange : Request → Prop
  | .put p => p.InRange
  | _ => True

namespace Inner

/-- A `get` changes nothing but the position of the read handle. -/
def serve (inner : Inner) : Request → Inner
  | .put p => inner.put p.now p.key p.val p.ttlSecs
  | .get _ _ => inner
  | .delete key => inner.delete key

/-- What some requests make of a store, one after the other. -/
def serveAll (inner : Inner) (requests : List Request) : Inner := requests.foldl serve inner

end Inner

/-- What a request does to its key: a put that stores something, a delete. -/
def Request.write? : Request → Option (Str × Option Put)
  | .put p => if 0 < p.ttlSecs then some (p.key, some p) else none
  | .get _ _ => none
  | .delete key => some (key, none)

/-- The last operation on a key among the deletes and the puts with positive ttl. -/
def lastWriteOn (requests : List Request) (k : Str) : Option (Option Put) :=
  lastWrite (requests.filterMap Request.write?) k

/-- The map that the requests leave, without regard to the log. -/
def contentsAfter (requests : List Request) : Contents := fun k =>
  match lastWriteOn requests k with
  | some (some p) => some p.record.entry
  | _ => none

/-- The index entry stands at the start of a record of the log with its key, the
length of its value and its expiry. -/
def IndexEntry.Locates (ent : IndexEntry) (recs : List LogRecord) (k : Str) : Prop :=
  ∃ r, (ent.offset, r) ∈ placed 0 recs ∧ r.Fits ∧ r.key = k ∧
    r.val.length = ent.valLen.toNat ∧ r.expireAtMs = ent.expireAtMs

/-- What every request keeps: the store holds what the requests have left, and the log has
the records that the index points to. -/
structure Inner.Sound (inner : Inner) (requests : List Request) : Prop where
  holds : inner.Holds (contentsAfter requests)
  log : ∃ recs, inner.log = logBytes recs ∧
    ∀ k ent, inner.index.get k = some ent → ent.Locates recs k

theorem Put.InRange.fits {p : Put} (h : p.InRange) : p.record.Fits := ⟨h.key, h.val⟩

theorem lastWriteOn_concat (requests : List Request) (req : Request) (k : Str) :
    lastWriteOn (requests ++ [req]) k =
      match req.write? with
      | some (key, write) => if key = k then some write else lastWriteOn requests k
      | none => lastWriteOn requests k := by
  rw [lastWriteOn, List.filterMap_append]
  cases hWrite : req.write? with
  | none => simp [hWrite, lastWriteOn]
  | some e => rw [List.filterMap_cons_some hWrite, List.filterMap_nil, lastWrite_concat, lastWriteOn]

/-- The map follows each request as the map of one operation does. -/
theorem contentsAfter_concat (requests : List Request) (req : Request) :
    contentsAfter (requests ++ [req]) =
      match req with
      | .put p => (contentsAfter requests).put p.now p.key p.val p.ttlSecs
      | .get _ _ => contentsAfter requests
      | .delete key => (contentsAfter requests).delete key := by
  funext k
  rw [contentsAfter, lastWriteOn_concat]
  cases req with
  | get => rfl
  | delete key =>
      dsimp only [Request.write?]
      rw [Contents.delete, Function.update_apply]
      by_cases hKey : k = key
      · rw [if_pos hKey.symm, if_pos hKey]
      · rw [if_neg (Ne.symm hKey), if_neg hKey]
        rfl
  | put p =>
      dsimp only [Request.write?]
      rw [Contents.put]
      by_cases hTtl : 0 < p.ttlSecs
      · rw [if_pos hTtl, if_neg (Int64.not_le.mpr hTtl), Function.update_apply]
        dsimp only
        by_cases hKey : k = p.key
        · rw [if_pos hKey.symm, if_pos hKey]
          rfl
        · rw [if_neg (Ne.symm hKey), if_neg hKey]
          rfl
      · rw [if_neg hTtl, if_pos (Int64.not_lt.mp hTtl)]
        rfl

theorem IndexEntry.Locates.grow {ent : IndexEntry} {recs : List LogRecord} {k : Str}
    (h : ent.Locates recs k) (more : List LogRecord) : ent.Locates (recs ++ more) k := by
  obtain ⟨r, hPlaced, hRest⟩ := h
  refine ⟨r, ?_, hRest⟩
  rw [placed_append]
  exact List.mem_append_left _ hPlaced

namespace Inner

variable {inner : Inner} {requests : List Request}

theorem Sound.put (h : inner.Sound requests) {p : Put} (hRange : p.InRange) :
    (inner.put p.now p.key p.val p.ttlSecs).Sound (requests ++ [.put p]) := by
  obtain ⟨recs, hLog, hIndex⟩ := h.log
  refine ⟨?_, ?_⟩
  · rw [contentsAfter_concat]
    exact h.holds.put hRange.fits
  · rw [Inner.put]
    split_ifs
    · exact ⟨recs, hLog, hIndex⟩
    · refine ⟨recs ++ [p.record], by rw [logBytes_append, ← hLog]; simp [Put.record],
        fun k ent hEnt => ?_⟩
      dsimp only at hEnt
      rw [HashMap.get_insert] at hEnt
      split_ifs at hEnt with hKey
      · cases hEnt
        refine ⟨p.record, ?_, hRange.fits, hKey.symm, ?_, rfl⟩
        · rw [placed_append, h.holds.size, hLog]
          simp [placed]
        · rw [UInt32.toNat_ofNat']
          exact (Nat.mod_eq_of_lt hRange.val).symm
      · exact (hIndex k ent hEnt).grow _

theorem Sound.delete (h : inner.Sound requests) (key : Str) :
    (inner.delete key).Sound (requests ++ [.delete key]) := by
  obtain ⟨recs, hLog, hIndex⟩ := h.log
  refine ⟨?_, ?_⟩
  · rw [contentsAfter_concat]
    exact h.holds.delete key
  · rw [Inner.delete]
    split
    · exact ⟨recs, hLog, hIndex⟩
    · refine ⟨recs, hLog, fun k ent hEnt => ?_⟩
      dsimp only at hEnt
      rw [HashMap.get_erase] at hEnt
      split_ifs at hEnt
      exact hIndex k ent hEnt

theorem Sound.serve (h : inner.Sound requests) {req : Request} (hRange : req.InRange) :
    (inner.serve req).Sound (requests ++ [req]) := by
  cases req with
  | put p => exact h.put hRange
  | get now key =>
      refine ⟨?_, h.log⟩
      rw [contentsAfter_concat]
      exact h.holds
  | delete key => exact h.delete key

theorem sound_serveAll {requests : List Request} (hRange : ∀ req ∈ requests, req.InRange) :
    ((openStore bufReader none).serveAll requests).Sound requests := by
  induction requests using List.reverseRecOn with
  | nil => exact ⟨holds_empty bufReader, [], rfl, fun k ent hEnt => by cases hEnt⟩
  | append_singleton requests req ih =>
      rw [serveAll, List.foldl_append]
      exact (ih fun r hr => hRange r (List.mem_append_left _ hr)).serve (hRange req (by simp))

end Inner

/-- No expiry is 0, which would stand for a record without one. -/
theorem Put.InRange.expireAtMs_ne_zero {p : Put} (h : p.InRange) (hTtl : 0 < p.ttlSecs) :
    p.record.expireAtMs ≠ 0 := by
  have hNow := Int64.le_iff_toInt_le.mp h.now
  have hLeast := Int64.lt_iff_toInt_lt.mp hTtl
  have hMost := Int64.lt_iff_toInt_lt.mp h.ttl
  have hBound := p.now.toInt_lt
  have hThousand : (1000 : Int64).toInt = 1000 := by decide
  have hZero : (0 : Int64).toInt = 0 := by decide
  have hCap : (4294967296 : Int64).toInt = 4294967296 := by decide
  intro hExpire
  have hSum : (p.now + p.ttlSecs * 1000).toInt = 0 := congrArg Int64.toInt hExpire
  rw [Int64.toInt_add, Int64.toInt_mul, hThousand, Int.add_bmod_bmod, Int.bmod_def,
    Int.emod_eq_of_lt (by omega) (by omega)] at hSum
  omega

/-- A store that is opened empty returns a value exactly if the last operation on
the key was a put of it that has not expired, and its index points to the records
of the log. -/
theorem serveAll_get_iff {requests : List Request} (hRange : ∀ req ∈ requests, req.InRange) :
    (∀ now k v, ((Inner.openStore bufReader none).serveAll requests).get now k = some v ↔
      ∃ p, lastWriteOn requests k = some (some p) ∧ p.val = v ∧ now < p.record.expireAtMs) ∧
    ∃ recs, ((Inner.openStore bufReader none).serveAll requests).log = logBytes recs ∧
      ∀ k ent, ((Inner.openStore bufReader none).serveAll requests).index.get k = some ent →
        ent.Locates recs k := by
  have hSound := Inner.sound_serveAll hRange
  refine ⟨fun now k v => ?_, hSound.log⟩
  rw [hSound.holds.get, Contents.get_eq_some_iff]
  have hPositive (p : Put) (hLast : lastWriteOn requests k = some (some p)) :
      p.InRange ∧ 0 < p.ttlSecs := by
    obtain ⟨req, hReq, hWrite⟩ := List.mem_filterMap.mp (mem_of_lastWrite hLast)
    cases req with
    | get => cases hWrite
    | delete key => cases hWrite
    | put q =>
        rw [Request.write?] at hWrite
        split_ifs at hWrite with hTtl
        cases hWrite
        exact ⟨hRange _ hReq, hTtl⟩
  have hLive (p : Put) (hLast : lastWriteOn requests k = some (some p)) :
      expired p.record.expireAtMs now = false ↔ now < p.record.expireAtMs := by
    obtain ⟨hIn, hTtl⟩ := hPositive p hLast
    simp [expired, hIn.expireAtMs_ne_zero hTtl, Int64.not_le]
  constructor
  · rintro ⟨e, hEntry, hFresh, rfl⟩
    rw [contentsAfter] at hEntry
    split at hEntry
    · rename_i p hLast
      cases hEntry
      exact ⟨p, hLast, rfl, (hLive p hLast).mp hFresh⟩
    · cases hEntry
  · rintro ⟨p, hLast, rfl, hLater⟩
    exact ⟨p.record.entry, by rw [contentsAfter, hLast], (hLive p hLast).mpr hLater, rfl⟩

/-- Two puts, one more without effect, and a delete of the second key. -/
def mixedRequests : List Request :=
  [.put ⟨0, ['a'], [1], 60⟩, .put ⟨500, ['b'], [2], 60⟩, .put ⟨600, ['a'], [3], 0⟩,
    .get 700 ['a'], .delete ['b']]

/-- Two puts, a third one that is refused for its lifetime, and a delete: the first key
has its value and the deleted one none. -/
theorem serveAll_get_mixedRequests :
    ((Inner.openStore bufReader none).serveAll mixedRequests).get 1000 ['a'] = some [1] ∧
      ((Inner.openStore bufReader none).serveAll mixedRequests).get 1000 ['b'] = none := by
  have hRange : ∀ req ∈ mixedRequests, req.InRange := by
    intro req hReq
    simp only [mixedRequests, List.mem_cons, List.not_mem_nil, or_false] at hReq
    rcases hReq with rfl | rfl | rfl | rfl | rfl
    · exact ⟨by decide, by decide, by decide, by decide⟩
    · exact ⟨by decide, by decide, by decide, by decide⟩
    · exact ⟨by decide, by decide, by decide, by decide⟩
    · trivial
    · trivial
  have hGet := (serveAll_get_iff hRange).1 1000
  refine ⟨(hGet ['a'] [1]).mpr ⟨⟨0, ['a'], [1], 60⟩, rfl, rfl, by decide⟩, ?_⟩
  rw [Option.eq_none_iff_forall_ne_some]
  intro v hSome
  obtain ⟨p, hLast, -⟩ := (hGet ['b'] v).mp hSome
  cases hLast

end Dnsd.Cache
