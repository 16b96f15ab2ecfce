import Dnsd.Cache.Compaction

/-! Deleted keys over a close and a reopen. A delete writes no record, so a key comes
back with the last of its records that the log still holds. Which records those are
follows from the operations alone. -/

namespace Dnsd.Cache

open Bytes LastWrite

/-! ## The records that operations leave in a log -/

/-- A record of the log. It is current until its key is put again or deleted. -/
structure Logged where
  record : LogRecord
  current : Bool

/-- The key is put again or deleted; the record stays where it is. -/
def Logged.retire (key : Str) (e : Logged) : Logged :=
  { e with current := e.current && e.record.key ≠ key }

/-- The records in front of the first header that comes back short. -/
def front (log : List Logged) : List Logged :=
  log.take (readable bufReader (log.map Logged.record)).length

/-- What an operation makes of the records of a log. A compaction keeps those at the
front that are current and have not expired. -/
def logOp (log : List Logged) : Op → List Logged
  | .put p =>
      if p.ttlSecs ≤ 0 then log else log.map (Logged.retire p.key) ++ [⟨p.record, true⟩]
  | .delete key => log.map (Logged.retire key)
  | .compact now => (front log).filter fun e => e.current && !expired e.record.expireAtMs now

/-- The records that are left of some operations on an empty store. -/
def loggedBy (ops : List Op) : List Logged := ops.foldl logOp []

/-- The last record of `k` that is left and that a reopen reads. -/
def lastLogged (ops : List Op) (k : Str) : Option LogRecord :=
  lastWrite ((front (loggedBy ops)).map fun e => (e.record.key, e.record)) k

/-! ## Records at their places -/

/-- The records of a log with their offsets. -/
def spots : Nat → List Logged → List (Nat × Logged)
  | _, [] => []
  | o, e :: rest => (o, e) :: spots (o + e.record.bytes.length) rest

@[simp] theorem spots_map_snd (o : Nat) (log : List Logged) : (spots o log).map Prod.snd = log := by
  induction log generalizing o with
  | nil => rfl
  | cons e rest ih => simp [spots, ih]

theorem spots_map_place (o : Nat) (log : List Logged) :
    (spots o log).map (fun s => (s.1, s.2.record)) = placed o (log.map Logged.record) := by
  induction log generalizing o with
  | nil => rfl
  | cons e rest ih => simp [spots, placed, ih]

theorem spots_append (o : Nat) (log more : List Logged) :
    spots o (log ++ more) =
      spots o log ++ spots (o + (logBytes (log.map Logged.record)).length) more := by
  induction log generalizing o with
  | nil => simp [spots]
  | cons e rest ih => simp [spots, ih, Nat.add_assoc]

theorem spots_retire (o : Nat) (log : List Logged) (key : Str) :
    spots o (log.map (Logged.retire key)) =
      (spots o log).map fun s => (s.1, s.2.retire key) := by
  induction log generalizing o with
  | nil => rfl
  | cons e rest ih => simp [spots, ih, Logged.retire]

theorem spots_take (o n : Nat) (log : List Logged) :
    spots o (log.take n) = (spots o log).take n := by
  induction log generalizing o n with
  | nil => simp [spots]
  | cons e rest ih =>
      cases n with
      | zero => rfl
      | succ n => simp [spots, ih]

theorem le_of_mem_spots {o : Nat} {log : List Logged} {s : Nat × Logged} (h : s ∈ spots o log) :
    o ≤ s.1 := by
  have hPlaced := List.mem_map_of_mem (f := fun s : Nat × Logged => (s.1, s.2.record)) h
  rw [spots_map_place] at hPlaced
  exact (placed_bounds hPlaced).1

/-- A record is determined by its offset. -/
theorem spots_unique {o : Nat} {log : List Logged} {s s' : Nat × Logged} (hs : s ∈ spots o log)
    (hs' : s' ∈ spots o log) (h : s.1 = s'.1) : s = s' := by
  have hHeader : headerLen = 21 := rfl
  induction log generalizing o with
  | nil => cases hs
  | cons e rest ih =>
      have hLength := e.record.bytes_length
      rcases List.mem_cons.mp hs with rfl | hs <;> rcases List.mem_cons.mp hs' with rfl | hs'
      · rfl
      · have hBehind := le_of_mem_spots hs'
        dsimp only at h
        omega
      · have hBehind := le_of_mem_spots hs
        dsimp only at h
        omega
      · exact ih hs hs'

theorem spots_nodup (o : Nat) (log : List Logged) : (spots o log).Nodup := by
  have hHeader : headerLen = 21 := rfl
  induction log generalizing o with
  | nil => exact List.nodup_nil
  | cons e rest ih =>
      have hLength := e.record.bytes_length
      refine List.nodup_cons.mpr ⟨fun hMem => ?_, ih _⟩
      have hBehind := le_of_mem_spots hMem
      dsimp only at hBehind
      omega

/-! ## The index over a log -/

/-- The entry of a record at its place. -/
def spotEntry (s : Nat × Logged) : IndexEntry :=
  ⟨s.1, UInt32.ofNat s.2.record.val.length, s.2.record.expireAtMs⟩

/-- A current record of `k` has this entry. -/
def Lists (log : List Logged) (k : Str) (ent : IndexEntry) : Prop :=
  ∃ s ∈ spots 0 log, s.2.current = true ∧ s.2.record.key = k ∧ spotEntry s = ent

theorem lists_retire {log : List Logged} {key k : Str} {ent : IndexEntry} :
    Lists (log.map (Logged.retire key)) k ent ↔ k ≠ key ∧ Lists log k ent := by
  rw [Lists, spots_retire]
  constructor
  · rintro ⟨_, hRetired, hCurrent, rfl, rfl⟩
    obtain ⟨s, hs, rfl⟩ := List.mem_map.mp hRetired
    simp only [Logged.retire, Bool.and_eq_true, decide_eq_true_eq] at hCurrent
    exact ⟨hCurrent.2, s, hs, hCurrent.1, rfl, rfl⟩
  · rintro ⟨hKey, s, hs, hCurrent, rfl, rfl⟩
    exact ⟨_, List.mem_map_of_mem hs, by simp [Logged.retire, hCurrent, hKey], rfl, rfl⟩

theorem lists_concat {log : List Logged} {r : LogRecord} {k : Str} {ent : IndexEntry} :
    Lists (log ++ [⟨r, true⟩]) k ent ↔ Lists log k ent ∨ r.key = k ∧
      spotEntry ((logBytes (log.map Logged.record)).length, ⟨r, true⟩) = ent := by
  rw [Lists, spots_append, Nat.zero_add]
  constructor
  · rintro ⟨s, hs, hCurrent, hKey, hEntry⟩
    rcases List.mem_append.mp hs with hOld | hNew
    · exact .inl ⟨s, hOld, hCurrent, hKey, hEntry⟩
    · obtain rfl := List.mem_singleton.mp hNew
      exact .inr ⟨hKey, hEntry⟩
  · rintro (⟨s, hs, hRest⟩ | ⟨hKey, hEntry⟩)
    · exact ⟨s, List.mem_append_left _ hs, hRest⟩
    · exact ⟨_, List.mem_append_right _ (List.mem_singleton_self _), rfl, hKey, hEntry⟩

/-- The log holds these records, and the index lists the current ones. -/
structure Inner.Logs (inner : Inner) (held : List Logged) : Prop where
  log : inner.log = logBytes (held.map Logged.record)
  fits : ∀ r ∈ held.map Logged.record, r.Fits
  size : inner.size = inner.log.length
  index : ∀ k ent, inner.index.get k = some ent ↔ Lists held k ent

theorem map_record_retire (log : List Logged) (key : Str) :
    (log.map (Logged.retire key)).map Logged.record = log.map Logged.record := by
  rw [List.map_map]
  rfl

namespace Inner.Logs

variable {inner : Inner} {log : List Logged}

theorem put (h : inner.Logs log) {p : Put} (hFits : 0 < p.ttlSecs → p.record.Fits) :
    (inner.step (.put p)).Logs (logOp log (.put p)) := by
  by_cases hTtl : p.ttlSecs ≤ 0
  · rwa [logOp, if_pos hTtl, Inner.step, Inner.put, if_pos hTtl]
  · rw [logOp, if_neg hTtl, Inner.step, Inner.put, if_neg hTtl]
    have hRecords : (log.map (Logged.retire p.key) ++ [(⟨p.record, true⟩ : Logged)]).map Logged.record =
        log.map Logged.record ++ [p.record] := by
      rw [List.map_append, map_record_retire]
      rfl
    have hSize : (logBytes (log.map Logged.record)).length = inner.size := by rw [h.size, h.log]
    refine ⟨?_, fun r hr => ?_, by simp [h.size], fun k ent => ?_⟩
    · rw [hRecords, logBytes_append, ← h.log]
      simp [Put.record]
    · rw [hRecords] at hr
      rcases List.mem_append.mp hr with hOld | hNew
      · exact h.fits r hOld
      · rw [List.mem_singleton.mp hNew]
        exact hFits (Int64.not_le.mp hTtl)
    · rw [lists_concat, lists_retire, map_record_retire, hSize, HashMap.get_insert]
      split_ifs with hKey
      · subst hKey
        rw [Option.some.injEq]
        exact ⟨fun hNew => .inr ⟨rfl, hNew⟩, fun hOr => (hOr.resolve_left fun hOld => hOld.1 rfl).2⟩
      · rw [h.index]
        exact ⟨fun hOld => .inl ⟨hKey, hOld⟩,
          fun hOr => (hOr.resolve_right fun hNew => hKey hNew.1.symm).2⟩

theorem delete (h : inner.Logs log) (key : Str) :
    (inner.delete key).Logs (logOp log (.delete key)) := by
  have hLog : (inner.delete key).log = inner.log ∧ (inner.delete key).size = inner.size := by
    rw [Inner.delete]
    split <;> exact ⟨rfl, rfl⟩
  rw [logOp]
  refine ⟨by rw [map_record_retire, hLog.1, h.log], by rw [map_record_retire]; exact h.fits,
    by rw [hLog.1, hLog.2, h.size], fun k ent => ?_⟩
  rw [lists_retire, ← h.index, Inner.delete]
  cases hOld : inner.index.get key with
  | none =>
      refine ⟨fun hGet => ⟨fun hKey => ?_, hGet⟩, And.right⟩
      rw [hKey, hOld] at hGet
      cases hGet
  | some old =>
      dsimp only
      rw [HashMap.get_erase]
      split_ifs with hKey
      · exact ⟨fun hNone => (by cases hNone), fun hBoth => absurd hKey hBoth.1⟩
      · exact ⟨fun hGet => ⟨hKey, hGet⟩, And.right⟩

/-- The offset of a record is live just when the record is current and has not expired. -/
theorem contains_liveOffsets (h : inner.Logs log) (now : Int64) {s : Nat × Logged}
    (hs : s ∈ spots 0 log) :
    (inner.liveOffsets now).contains s.1 =
      (s.2.current && !expired s.2.record.expireAtMs now) := by
  rw [Bool.eq_iff_iff, List.contains_iff_mem, Inner.mem_liveOffsets, Bool.and_eq_true,
    Bool.not_eq_true']
  constructor
  · rintro ⟨k, ent, hGet, hLive, hOffset⟩
    obtain ⟨s', hs', hCurrent, -, rfl⟩ := (h.index k ent).mp hGet
    obtain rfl := spots_unique hs' hs hOffset
    exact ⟨hCurrent, hLive⟩
  · rintro ⟨hCurrent, hLive⟩
    exact ⟨_, _, (h.index _ _).mpr ⟨s, hs, hCurrent, rfl, rfl⟩, hLive, rfl⟩

/-- No key has two current records. -/
theorem nodup_keys (h : inner.Logs log) :
    ((log.filter Logged.current).map fun e => e.record.key).Nodup := by
  have hSpots : ((spots 0 log).filter fun s => s.2.current).map Prod.snd =
      log.filter Logged.current := by
    conv_rhs => rw [← spots_map_snd 0 log, List.filter_map]
    rfl
  rw [← hSpots, List.map_map]
  refine List.Nodup.map_on (fun s hs s' hs' hKey => ?_) ((spots_nodup 0 log).filter _)
  obtain ⟨hMem, hCurrent⟩ := List.mem_filter.mp hs
  obtain ⟨hMem', hCurrent'⟩ := List.mem_filter.mp hs'
  have hGet := (h.index s.2.record.key _).mpr ⟨s, hMem, hCurrent, rfl, rfl⟩
  have hGet' := (h.index s.2.record.key _).mpr ⟨s', hMem', hCurrent', hKey.symm, rfl⟩
  rw [hGet] at hGet'
  exact spots_unique hMem hMem' (congrArg IndexEntry.offset (Option.some.inj hGet'))

end Inner.Logs

theorem readable_spots (log : List Logged) :
    readable bufReader (log.map Logged.record) =
      (spots 0 (front log)).map fun s => (s.1, s.2.record) := by
  rw [front, spots_take, List.map_take, spots_map_place]
  exact List.prefix_iff_eq_take.mp (readable_isPrefix bufReader _)

/-- What the copy takes of a log. -/
theorem Inner.Logs.liveOf_eq {inner : Inner} {log : List Logged} (h : inner.Logs log) (now : Int64) :
    liveOf (inner.liveOffsets now) (readable bufReader (log.map Logged.record)) =
      (logOp log (.compact now)).map Logged.record := by
  have hFront : spots 0 (front log) ⊆ spots 0 log := by
    rw [front, spots_take]
    exact List.take_subset _ _
  rw [readable_spots, liveOf, List.filter_map, List.map_map, logOp]
  conv_rhs => rw [← spots_map_snd 0 (front log), List.filter_map, List.map_map]
  congr 1
  exact List.filter_congr fun s hs => h.contains_liveOffsets now (hFront hs)

/-- Over records of different keys an index lists them all. -/
theorem indexOf_eq_some_iff {log : List Logged} (hCurrent : ∀ e ∈ log, e.current = true)
    (hNodup : (log.map fun e => e.record.key).Nodup) {k : Str} {ent : IndexEntry} :
    indexOf (placed 0 (log.map Logged.record)) k = some ent ↔ Lists log k ent := by
  have hMem (s : Nat × Logged) (hs : s ∈ spots 0 log) : s.2 ∈ log := by
    have hSnd := List.mem_map_of_mem (f := Prod.snd) hs
    rwa [spots_map_snd] at hSnd
  have hKeys : (((spots 0 log).map fun s => (s.2.record.key, s)).map Prod.fst).Nodup := by
    rw [List.map_map]
    conv at hNodup => rw [← spots_map_snd 0 log, List.map_map]
    exact hNodup
  rw [indexOf, ← spots_map_place, List.map_map]
  change (lastWrite ((spots 0 log).map fun s => (s.2.record.key, (s.1, s.2.record))) k).map _ = _ ↔ _
  rw [lastWrite_map (fun s : Nat × Logged => s.2.record.key) (fun s => (s.1, s.2.record)),
    Option.map_map, Option.map_eq_some_iff]
  constructor
  · rintro ⟨s, hLast, rfl⟩
    obtain ⟨s', hs, hEq⟩ := List.mem_map.mp (mem_of_lastWrite hLast)
    cases hEq
    exact ⟨s, hs, hCurrent _ (hMem s hs), rfl, rfl⟩
  · rintro ⟨s, hs, -, rfl, rfl⟩
    exact ⟨s, lastWrite_of_nodup hKeys (List.mem_map_of_mem (f := fun s => (s.2.record.key, s)) hs), rfl⟩

theorem Inner.Logs.compact {inner : Inner} {log : List Logged} (h : inner.Logs log) (now : Int64) :
    (inner.step (.compact now)).Logs (logOp log (.compact now)) := by
  have hKept := (inner.follows_snapshot bufReader now).copyAll h.fits
    (by rw [List.drop_zero, List.append_nil, h.log]) recordStarts_nil
    (inner.kept_snapshot bufReader now) (h.log ▸ length_le_logBytes _)
  rw [← readable, List.nil_append] at hKept
  have hSame : (inner.snapshot bufReader now).liveOffsets = inner.liveOffsets now := rfl
  rw [hSame, h.liveOf_eq now] at hKept
  refine ⟨hKept.tmp, hKept.fits, hKept.offset, fun k ent => ?_⟩
  have hSub : (logOp log (.compact now)).Sublist (log.filter Logged.current) := by
    have hBoth : logOp log (.compact now) = ((front log).filter Logged.current).filter fun e =>
        !expired e.record.expireAtMs now := by
      rw [logOp, List.filter_filter]
      exact List.filter_congr fun e _ => Bool.and_comm ..
    rw [hBoth]
    exact List.filter_sublist.trans ((List.take_sublist _ _).filter _)
  rw [← indexOf_eq_some_iff (fun e he => (List.mem_filter.mp (hSub.subset he)).2)
    (h.nodup_keys.sublist (hSub.map _))]
  exact iff_of_eq (congrArg (· = some ent) (hKept.index k))

/-! ## Runs -/

/-- A store opened on an empty directory, after some operations. -/
def runOps (ops : List Op) : Inner := (Inner.openStore bufReader none).run ops

/-- Every record that the operations store fits its header. -/
def StoresFit (ops : List Op) : Prop := ∀ p, .put p ∈ ops → 0 < p.ttlSecs → p.record.Fits

/-- The log and the index after some operations. -/
theorem logs_runOps {ops : List Op} (hFits : StoresFit ops) :
    (runOps ops).Logs (loggedBy ops) := by
  have hRun (inner : Inner) (log : List Logged) (h : inner.Logs log) :
      (inner.run ops).Logs (ops.foldl logOp log) := by
    induction ops generalizing inner log with
    | nil => exact h
    | cons op rest ih =>
        refine ih (fun p hp => hFits p (List.mem_cons_of_mem op hp)) _ _ ?_
        cases op with
        | put p => exact h.put (hFits p List.mem_cons_self)
        | delete key => exact h.delete key
        | compact now => exact h.compact now
  refine hRun _ [] ⟨rfl, by simp, rfl, fun k ent => ?_⟩
  simp [Inner.openStore, Lists, spots]

/-- The key that an operation is about; a compaction is about none. -/
def Op.key? : Op → Option Str
  | .put p => some p.key
  | .delete key => some key
  | .compact _ => none

/-- The last operation on `k` is a delete. -/
def LastIsDelete (ops : List Op) (k : Str) : Prop :=
  lastWrite (ops.filterMap fun op => op.key?.map fun key => (key, op)) k = some (.delete k)

/-- A reopened store has no value for a key exactly when the last record of the key that
the operations have left, and that a reopen reads, has expired. -/
theorem reopen_get_eq_none_iff {ops : List Op} (hFits : StoresFit ops) (now : Int64) (k : Str) :
    (runOps ops).reopen.get now k = none ↔
      ∀ r, lastLogged ops k = some r → expired r.expireAtMs now = true := by
  have hLogs := logs_runOps hFits
  have hWhole : (runOps ops).Whole ((loggedBy ops).map Logged.record) := ⟨hLogs.log, hLogs.fits⟩
  have hContents : contentsOf ((readable bufReader ((loggedBy ops).map Logged.record)).map Prod.snd) k =
      (lastLogged ops k).map LogRecord.entry := by
    rw [readable_map_snd, ← List.map_take, ← front, contentsOf, lastWrite_map, lastLogged,
      List.map_map]
    rfl
  rw [Inner.reopen, hWhole.reopen_get bufReader, Contents.get, hContents]
  cases lastLogged ops k with
  | none => simp
  | some r =>
      simp only [Option.map_some, LogRecord.entry, Option.some.injEq, forall_eq']
      cases expired r.expireAtMs now <;> simp

/-- Deleted keys stay away over a close and a reopen exactly when, of each of them, the
last record that the operations have left and that the reopen reads has expired. -/
theorem reopen_deleted_iff {ops : List Op} (hFits : StoresFit ops) (now : Int64) :
    (∀ k, LastIsDelete ops k → (runOps ops).reopen.get now k = none) ↔
      ∀ k r, LastIsDelete ops k → lastLogged ops k = some r → expired r.expireAtMs now = true := by
  simp only [reopen_get_eq_none_iff hFits]
  exact ⟨fun h k r hDelete => h k hDelete r, fun h k hDelete r => h k r hDelete⟩

/-- A deleted key, one that is kept, and a compaction behind the delete. -/
def compactedDelete : List Op :=
  [.put ⟨0, ['a'], [1], 60⟩, .put ⟨100, ['b'], [2], 60⟩, .delete ['a'], .compact 500]

theorem reopen_compactedDelete :
    LastIsDelete compactedDelete ['a'] ∧ (runOps compactedDelete).reopen.get 1000 ['a'] = none := by
  have hFits : StoresFit compactedDelete := by
    intro p hp _
    simp only [compactedDelete, List.mem_cons, Op.put.injEq, List.not_mem_nil, or_false,
      reduceCtorEq] at hp
    rcases hp with rfl | rfl <;> exact ⟨by decide, by decide⟩
  refine ⟨rfl, (reopen_deleted_iff hFits 1000).mpr (fun k r hDelete hLast => ?_) ['a'] rfl⟩
  have hKeys : (front (loggedBy compactedDelete)).map (fun e => (e.record.key, e.record)) =
      [(['b'], ⟨['b'], [2], 60100⟩)] := by
    decide +kernel
  obtain ⟨op, -, hOp⟩ := List.mem_filterMap.mp (mem_of_lastWrite hDelete)
  rw [lastLogged, hKeys] at hLast
  obtain ⟨rfl, rfl⟩ := Prod.mk.inj (List.mem_singleton.mp (mem_of_lastWrite hLast))
  simp [LastIsDelete, compactedDelete, Op.key?, lastWrite] at hDelete

/-- A key that is put and deleted, and no compaction behind the delete. -/
def deletedPut : List Op := [.put ⟨0, ['a'], [1], 60⟩, .delete ['a']]

/-- The record of the deleted key is still in the log, which has none for the delete. The
replay lists it again. -/
theorem reopen_deletedPut :
    ¬∀ k, LastIsDelete deletedPut k → (runOps deletedPut).reopen.get 1000 k = none := by
  intro hAll
  have hNone := hAll ['a'] rfl
  have hSome : (runOps deletedPut).reopen.get 1000 ['a'] = some [1] := by decide +kernel
  rw [hSome] at hNone
  cases hNone

/-! ## Compactions behind a delete -/

theorem loggedBy_concat (ops : List Op) (op : Op) : loggedBy (ops ++ [op]) = logOp (loggedBy ops) op := by
  rw [loggedBy, List.foldl_append]
  rfl

/-- What an operation leaves in the log was there before, or it is what it put. -/
theorem mem_logOp {log : List Logged} {op : Op} {e : Logged} (h : e ∈ logOp log op) :
    (∃ old ∈ log, old.record = e.record ∧ (e.current = true → old.current = true)) ∨
      ∃ p, op = .put p ∧ e.record = p.record := by
  have hRetired (key : Str) (hMem : e ∈ log.map (Logged.retire key)) :
      ∃ old ∈ log, old.record = e.record ∧ (e.current = true → old.current = true) := by
    obtain ⟨old, hOld, rfl⟩ := List.mem_map.mp hMem
    exact ⟨old, hOld, rfl, fun hCurrent => (Bool.and_eq_true_iff.mp hCurrent).1⟩
  cases op with
  | put p =>
      rw [logOp] at h
      split_ifs at h
      · exact .inl ⟨e, h, rfl, id⟩
      · rcases List.mem_append.mp h with hOld | hNew
        · exact .inl (hRetired p.key hOld)
        · exact .inr ⟨p, rfl, by rw [List.mem_singleton.mp hNew]⟩
  | delete key => exact .inl (hRetired key h)
  | compact now =>
      exact .inl ⟨e, (List.take_subset _ _) (List.mem_filter.mp h).1, rfl, id⟩

/-- No record of a key is current whose last operation was a delete. -/
theorem not_current_of_deleted {ops : List Op} {k : Str} (hDelete : LastIsDelete ops k) :
    ∀ e ∈ loggedBy ops, e.record.key = k → e.current = false := by
  induction ops using List.reverseRecOn with
  | nil => cases hDelete
  | append_singleton ops op ih =>
      intro e he hKey
      rw [loggedBy_concat] at he
      rw [LastIsDelete, List.filterMap_append, lastWrite_append, Option.or_eq_some_iff] at hDelete
      rcases hDelete with hThis | ⟨hOther, hBefore⟩
      · have hOp : op = .delete k := by
          obtain ⟨op', hOp', hMap⟩ := List.mem_filterMap.mp (mem_of_lastWrite hThis)
          obtain rfl := List.mem_singleton.mp hOp'
          obtain ⟨key, -, hPair⟩ := Option.map_eq_some_iff.mp hMap
          exact (Prod.mk.inj hPair).2
        subst hOp
        obtain ⟨old, -, rfl⟩ := List.mem_map.mp he
        simpa [Logged.retire] using fun _ => hKey
      · rcases mem_logOp he with ⟨old, hOld, hSame, hCurrent⟩ | ⟨p, rfl, hRecord⟩
        · have hNot := ih hBefore old hOld (hSame ▸ hKey)
          by_contra hTrue
          rw [hCurrent (by simpa using hTrue)] at hNot
          cases hNot
        · rw [hRecord] at hKey
          exact absurd hKey (lastWrite_eq_none_iff.mp hOther (p.key, .put p) (by simp [Op.key?]))

/-- A compaction behind the delete takes every record of the key out of the log: it does
not come back as long as it is not put again. -/
theorem reopen_get_of_compacted {before after : List Op} {t now : Int64} {k : Str}
    (hFits : StoresFit (before ++ .compact t :: after))
    (hDelete : LastIsDelete before k) (hAfter : ∀ p, .put p ∈ after → p.key ≠ k) :
    (runOps (before ++ .compact t :: after)).reopen.get now k = none := by
  have hGone : ∀ e ∈ loggedBy (before ++ .compact t :: after), e.record.key ≠ k := by
    induction after using List.reverseRecOn with
    | nil =>
        intro e he hKey
        rw [loggedBy_concat] at he
        obtain ⟨hFront, hLive⟩ := List.mem_filter.mp he
        have hNot := not_current_of_deleted hDelete e ((List.take_subset _ _) hFront) hKey
        rw [hNot] at hLive
        cases hLive
    | append_singleton after op ih =>
        have hBefore := ih (fun p hp => hFits p (by
          simp only [List.mem_append, List.mem_cons] at hp ⊢
          tauto)) fun p hp => hAfter p (List.mem_append_left _ hp)
        intro e he
        rw [← List.cons_append, ← List.append_assoc, loggedBy_concat] at he
        rcases mem_logOp he with ⟨old, hOld, hSame, -⟩ | ⟨p, rfl, hRecord⟩
        · rw [← hSame]
          exact hBefore old hOld
        · rw [hRecord]
          exact hAfter p (by simp)
  refine (reopen_get_eq_none_iff hFits now k).mpr fun r hLast => ?_
  obtain ⟨e, he, hEq⟩ := List.mem_map.mp (mem_of_lastWrite hLast)
  exact absurd (Prod.mk.inj hEq).1 (hGone e ((List.take_subset _ _) he))

end Dnsd.Cache
