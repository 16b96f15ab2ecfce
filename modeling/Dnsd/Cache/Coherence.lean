import Dnsd.Base.Parties
import Dnsd.Base.Runs
import Dnsd.Cache.Tiers

/-! Concurrent calls of the tiered cache, one tier at a time: what a lookup may
return that begins when a put or a deletion of its key has returned. -/

namespace Dnsd.Cache.Coherence

open Bytes L1

/-- What is asked of the cache for one key. -/
inductive Op where
  | get
  | put (raw : Bytes) (ttlSecs : Int64)
  | del
  deriving DecidableEq

/-- The next tier of a call, or the next promotion of a lookup. -/
inductive Stage where
  | l1
  | l2
  | l3
  | promoteL2 (v : Bytes)
  | promoteL1 (v : Bytes)
  | returned (found : Option Bytes)
  deriving DecidableEq

/-- A call with the steps at which it began and returned. -/
structure Call where
  key : Str
  op : Op
  stage : Stage := .l1
  began : Nat
  ended : Option Nat := none
  deriving DecidableEq

/-- The cache, the number of steps so far, and all calls so far. -/
structure World where
  cache : TieredCache
  time : Nat := 0
  calls : List Call := []

/-- A call begins, a call takes its next step, and the writer thread takes a
command; clocks may show anything. -/
inductive Action where
  | begin (key : Str) (op : Op)
  | advance (i ms : Nat)
  | writeL3 (ms : Nat)

/-- One step of a lookup, `TieredCache::get` in pieces. -/
def lookup (cache : TieredCache) (ms : Nat) (key : Str) : Stage → Option (TieredCache × Stage)
  | .l1 =>
      match cache.l1.get (nowSecs ms) key with
      | (some v, l1) => some ({ cache with l1 }, .returned (some v))
      | (none, l1) => some ({ cache with l1 }, .l2)
  | .l2 =>
      match cache.l2.get (nowMs ms) key with
      | some v => some (cache, .promoteL1 v)
      | none => some (cache, .l3)
  | .l3 =>
      match cache.getL3 ms true key with
      | some v => some (cache, .promoteL2 v)
      | none => some (cache, .returned none)
  | .promoteL2 v => some ({ cache with l2 := cache.l2.put (nowMs ms) key v 60 }, .promoteL1 v)
  | .promoteL1 v =>
      some ({ cache with l1 := cache.l1.put (nowSecs ms) key v 60 }, .returned (some v))
  | .returned _ => none

/-- One step of `TieredCache::put`, from one tier to the next. -/
def store (cache : TieredCache) (ms : Nat) (key : Str) (raw : Bytes) (ttlSecs : Int64) :
    Stage → Option (TieredCache × Stage)
  | .l1 =>
      if ttlSecs ≤ 0 then some (cache, .returned none)
      else some ({ cache with l1 := cache.l1.put (nowSecs ms) key raw ttlSecs }, .l2)
  | .l2 => some ({ cache with l2 := cache.l2.put (nowMs ms) key raw ttlSecs }, .l3)
  | .l3 =>
      some ({ cache with
        l3 := cache.l3.map fun l3 => { l3 with queue := l3.queue ++ [⟨key, raw, ttlSecs⟩] } },
        .returned none)
  | .promoteL2 _ | .promoteL1 _ | .returned _ => none

/-- One step of `TieredCache::del`, from one tier to the next. -/
def remove (cache : TieredCache) (key : Str) : Stage → Option (TieredCache × Stage)
  | .l1 => some ({ cache with l1 := cache.l1.del key }, .l2)
  | .l2 => some ({ cache with l2 := cache.l2.delete key }, .l3)
  | .l3 =>
      some ({ cache with l3 := cache.l3.map fun l3 => { l3 with redis := l3.redis.del key } },
        .returned none)
  | .promoteL2 _ | .promoteL1 _ | .returned _ => none

/-- The tier that a call comes to next, with what it makes of the cache. The time is read
anew for each tier. -/
def stepOf (cache : TieredCache) (ms : Nat) (c : Call) : Option (TieredCache × Stage) :=
  match c.op with
  | .get => lookup cache ms c.key c.stage
  | .put raw ttlSecs => store cache ms c.key raw ttlSecs c.stage
  | .del => remove cache c.key c.stage

/-- A call in its next stage, with the time noted if it has returned. -/
def Call.at (c : Call) (stage : Stage) (time : Nat) : Call :=
  { c with
    stage
    ended := match stage with
      | .returned _ => some time
      | _ => none }

namespace World

/-- One call goes on to its next tier, and the clock of the steps with it. -/
def move (w : World) (i : Nat) (c : Call) (cache : TieredCache) (stage : Stage) : World :=
  ⟨cache, w.time + 1, w.calls.set i (c.at stage w.time)⟩

/-- A call begins, one that is under way goes through one more tier, or the writer thread
takes a command off the queue of the third level. -/
def step (w : World) : Action → Option World
  | .begin key op => some ⟨w.cache, w.time + 1, w.calls ++ [{ key, op, began := w.time }]⟩
  | .advance i ms =>
      match w.calls[i]? with
      | some c => (stepOf w.cache ms c).map fun (cache, stage) => w.move i c cache stage
      | none => none
  | .writeL3 ms => (w.cache.writeL3 ms true).map fun (_, cache) => ⟨cache, w.time + 1, w.calls⟩

/-- A process starts: nothing in memory, the log that it finds, and the keys of
Redis if that connects. -/
def start (l1MaxEntries : Nat) (l1TtlSecs : Int64) (disk : Option Bytes) (redis : Option Redis) :
    World where
  cache :=
    { l1 := L1Cache.new l1MaxEntries l1TtlSecs
      l2 := Inner.openStore bufReader disk
      l3 := redis.map fun keys => ⟨keys, []⟩ }

end World

/-- What an earlier process may leave behind: a log of whole records with or without
a torn tail, and values in Redis that fit the log. -/
structure Inherited (disk : Option Bytes) (redis : Option Redis) : Prop where
  log : ∀ file ∈ disk, ∃ recs tail, (∀ r ∈ recs, LogRecord.Fits r) ∧ recordStarts tail = false ∧
    file = logBytes recs ++ tail
  values : ∀ keys ∈ redis, ∀ k e, HashMap.get keys k = some e → e.val.length < 2 ^ 32

/-! ## Overlaps -/

/-- A put or a deletion between its first step and its last. -/
def Call.Halfway (c : Call) : Prop := c.op ≠ .get ∧ (c.stage = .l2 ∨ c.stage = .l3)

/-- A lookup with a value that it has yet to promote. -/
def Call.Promoting (c : Call) : Prop :=
  match c.stage with
  | .promoteL2 _ | .promoteL1 _ => True
  | _ => False

instance (c : Call) : Decidable c.Halfway := inferInstanceAs (Decidable (_ ∧ _))

instance (c : Call) : Decidable c.Promoting := by
  unfold Call.Promoting
  split <;> infer_instance

namespace World

/-- No call on the key has gone through some tiers and not through others. -/
def Idle (w : World) (key : Str) : Prop := ∀ c ∈ w.calls, c.key = key → ¬c.Halfway

/-- No lookup of the key is about to write a value back into a tier above. -/
def NoPromotion (w : World) (key : Str) : Prop := ∀ c ∈ w.calls, c.key = key → ¬c.Promoting

/-- No `SET` of the key waits for the writer thread. -/
def Drained (w : World) (key : Str) : Prop := ∀ l3 ∈ w.cache.l3, ∀ cmd ∈ l3.queue, cmd.key ≠ key

instance (w : World) (key : Str) : Decidable (w.Idle key) :=
  inferInstanceAs (Decidable (∀ c ∈ w.calls, c.key = key → ¬c.Halfway))

instance (w : World) (key : Str) : Decidable (w.NoPromotion key) :=
  inferInstanceAs (Decidable (∀ c ∈ w.calls, c.key = key → ¬c.Promoting))

instance (w : World) (key : Str) : Decidable (w.Drained key) :=
  inferInstanceAs (Decidable (∀ l3 ∈ w.cache.l3, ∀ cmd ∈ l3.queue, cmd.key ≠ key))

/-- What a call with its next step must not overlap: a lookup that finds its key
below the first tier no put or deletion halfway, those when they begin with the
first tier no promotion, and neither what finds nor what deletes the key in Redis
a `SET` of it that is still to come. -/
def Apart (w : World) (ms : Nat) (c : Call) : Prop :=
  match c.op, c.stage with
  | .get, .l2 => (w.cache.l2.get (nowMs ms) c.key).isSome → w.Idle c.key
  | .get, .l3 => (w.cache.getL3 ms true c.key).isSome → w.Idle c.key ∧ w.Drained c.key
  | .put _ _, .l1 | .del, .l1 => w.NoPromotion c.key
  | .del, .l3 => w.Drained c.key
  | _, _ => True

instance (w : World) (ms : Nat) (c : Call) : Decidable (w.Apart ms c) := by
  unfold Apart
  split <;> infer_instance

/-- Keys and values fit the log, every put has a ttl, and calls keep apart. -/
def Regular (w : World) : Action → Prop
  | .begin key (.put raw ttlSecs) => key.len < 2 ^ 32 ∧ raw.length < 2 ^ 32 ∧ 0 < ttlSecs
  | .begin key _ => key.len < 2 ^ 32
  | .advance i ms => ∀ c ∈ w.calls[i]?, w.Apart ms c
  | .writeL3 _ => True

instance (w : World) (a : Action) : Decidable (w.Regular a) := by
  unfold Regular
  split <;> infer_instance

end World

/-! ## Fresh values -/

/-- Some put of the value had not returned when a call began. -/
def World.Fresh (w : World) (key : Str) (began : Nat) (v : Bytes) : Prop :=
  ∃ p ∈ w.calls, p.key = key ∧ (∃ ttlSecs, p.op = .put v ttlSecs) ∧ ∀ t ∈ p.ended, began ≤ t

namespace Call

/-- A put or a deletion that has done its step in the first tier. -/
def PastL1 (c : Call) : Prop := c.op ≠ .get ∧ c.stage ≠ .l1

/-- A write that is through with the second level. -/
def PastL2 (c : Call) : Prop := c.op ≠ .get ∧ c.stage ≠ .l1 ∧ c.stage ≠ .l2

/-- A write that is through with all levels. -/
def PastL3 (c : Call) : Prop := c.op ≠ .get ∧ ∃ found, c.stage = .returned found

theorem PastL2.pastL1 {c : Call} (h : c.PastL2) : c.PastL1 := ⟨h.1, h.2.1⟩

theorem PastL3.pastL2 {c : Call} (h : c.PastL3) : c.PastL2 := by
  obtain ⟨hOp, found, hStage⟩ := h
  exact ⟨hOp, by simp [hStage], by simp [hStage]⟩

end Call

/-- A value of a key that is fresh for all puts and deletions that are past a tier. -/
structure World.Keeps (w : World) (past : Call → Prop) (key : Str) (v : Bytes) : Prop where
  fits : v.length < 2 ^ 32
  fresh : ∀ c ∈ w.calls, c.key = key → past c → w.Fresh key c.began v

/-- A value that is kept against some calls is kept against fewer of them. -/
theorem World.Keeps.mono {w : World} {past past' : Call → Prop} {key : Str} {v : Bytes}
    (h : w.Keeps past key v) (hPast : ∀ c ∈ w.calls, c.key = key → past' c → past c) :
    w.Keeps past' key v :=
  ⟨h.fits, fun c hc hKey hPast' => h.fresh c hc hKey (hPast c hc hKey hPast')⟩

section Freshness

variable {w : World} {i : Nat} {c : Call} {cache : TieredCache} {stage : Stage} {key : Str}
  {v : Bytes} {past : Call → Prop}

theorem Call.ended_at {time t : Nat} (h : t ∈ (c.at stage time).ended) : t = time := by
  cases stage with
  | returned found => exact (Option.some.inj h).symm
  | _ => cases h

/-- A fresh value stays fresh when one more call takes a step: no call ends earlier than
now. -/
theorem World.Fresh.move {began : Nat} (h : w.Fresh key began v) (hBegan : began ≤ w.time)
    (hCall : w.calls[i]? = some c) : (w.move i c cache stage).Fresh key began v :=
  Parties.exists_set hCall h fun ⟨hKey, hOp, _⟩ =>
    ⟨hKey, hOp, fun _ ht => (Call.ended_at ht).symm ▸ hBegan⟩

/-- What a put is writing is fresh for its own key while the call is under way. -/
theorem fresh_own {began : Nat} {ttlSecs : Int64} (hBegan : began ≤ w.time)
    (hCall : w.calls[i]? = some c) (hOp : c.op = .put v ttlSecs) :
    (w.move i c cache stage).Fresh c.key began v := by
  refine ⟨c.at stage w.time, ?_, rfl, ⟨ttlSecs, hOp⟩, fun t ht => (Call.ended_at ht).symm ▸ hBegan⟩
  exact List.mem_of_getElem? (by rw [World.move, Parties.set_get hCall, if_pos rfl])

/-- A step that does not lead its call past the tier leaves alone what the tier keeps. -/
theorem World.Keeps.move (h : w.Keeps past key v) (hTimes : ∀ d ∈ w.calls, d.began ≤ w.time)
    (hCall : w.calls[i]? = some c)
    (hNew : c.key = key → past (c.at stage w.time) → past c) :
    (w.move i c cache stage).Keeps past key v := by
  refine ⟨h.fits, Parties.forall_set (fun d hd hKey hPast => ?_) ?_⟩
  · exact (h.fresh d hd hKey hPast).move (hTimes d hd) hCall
  · intro hKey hPast
    have hMem := List.mem_of_getElem? hCall
    exact (h.fresh c hMem hKey (hNew hKey hPast)).move (hTimes c hMem) hCall

/-- A put's own value is fresh for every call so far. -/
theorem keeps_own {ttlSecs : Int64} (hTimes : ∀ d ∈ w.calls, d.began ≤ w.time)
    (hCall : w.calls[i]? = some c) (hOp : c.op = .put v ttlSecs) (hFits : v.length < 2 ^ 32) :
    (w.move i c cache stage).Keeps past c.key v := by
  refine ⟨hFits, Parties.forall_set (fun d hd _ _ => ?_) fun _ _ => ?_⟩
  · exact fresh_own (hTimes d hd) hCall hOp
  · exact fresh_own (hTimes c (List.mem_of_getElem? hCall)) hCall hOp

/-- A call that begins now has ended nothing, so what was fresh before is fresh still. -/
theorem World.Fresh.begin {began : Nat} (h : w.Fresh key began v) (d : Call) :
    World.Fresh ⟨w.cache, w.time + 1, w.calls ++ [d]⟩ key began v := by
  obtain ⟨p, hp, hRest⟩ := h
  exact ⟨p, List.mem_append_left _ hp, hRest⟩

/-- A call that begins is past no tier. -/
theorem World.Keeps.begin (h : w.Keeps past key v) {d : Call} (hNew : ¬past d) :
    World.Keeps ⟨w.cache, w.time + 1, w.calls ++ [d]⟩ past key v := by
  refine ⟨h.fits, fun c hc hKey hPast => ?_⟩
  rcases List.mem_append.mp hc with hOld | hBegun
  · exact (h.fresh c hOld hKey hPast).begin d
  · rw [List.mem_singleton.mp hBegun] at hPast
    exact absurd hPast hNew

end Freshness

/-! ## The third tier -/

/-- The value of a key when the queue has been drained. -/
def settled (l3 : L3) (key : Str) : Option Bytes :=
  l3.queue.foldl (fun v cmd => if cmd.key = key then some cmd.raw else v)
    ((HashMap.get l3.redis key).map RedisEntry.val)

section Settled

variable {l3 : L3} {key k : Str}

/-- Where nothing is queued for a key, what settles is what the server holds already. -/
theorem settled_of_drained (l3 : L3) (h : ∀ cmd ∈ l3.queue, cmd.key ≠ key) :
    settled l3 key = (HashMap.get l3.redis key).map RedisEntry.val := by
  rw [settled]
  generalize (HashMap.get l3.redis key).map RedisEntry.val = v
  generalize l3.queue = queue at h
  induction queue with
  | nil => rfl
  | cons cmd rest ih =>
      rw [List.foldl_cons, if_neg (h cmd List.mem_cons_self)]
      exact ih fun other hOther => h other (List.mem_cons_of_mem _ hOther)

/-- A command that is queued last decides what settles for its key, and for no other. -/
theorem settled_push (cmd : SetCommand) :
    settled { l3 with queue := l3.queue ++ [cmd] } k =
      if cmd.key = k then some cmd.raw else settled l3 k := by
  rw [settled, List.foldl_append]
  rfl

/-- The writer thread changes nothing that was not going to change. -/
theorem settled_write {cmd : SetCommand} {rest : List SetCommand} (h : l3.queue = cmd :: rest)
    (ms : Nat) :
    settled ⟨l3.redis.set ms cmd.key cmd.raw cmd.ttlSecs, rest⟩ k = settled l3 k := by
  rw [settled, settled, h, List.foldl_cons]
  dsimp only
  congr 1
  rw [Redis.set, HashMap.get_insert]
  by_cases hKey : k = cmd.key
  · simp [hKey]
  · simp [hKey, Ne.symm hKey]

theorem settled_del (h : ∀ cmd ∈ l3.queue, cmd.key ≠ key) :
    settled { l3 with redis := l3.redis.del key } k = if k = key then none else settled l3 k := by
  by_cases hKey : k = key
  · subst hKey
    rw [if_pos rfl, settled_of_drained { l3 with redis := l3.redis.del k } h, Redis.del,
      HashMap.get_erase, if_pos rfl, Option.map_none]
  · rw [if_neg hKey, settled, settled]
    congr 2
    rw [Redis.del, HashMap.get_erase, if_neg hKey]

end Settled

/-! ## The invariant -/

/-- A value that is fresh for the puts and deletions that had returned when a call
began. -/
def World.FreshFor (w : World) (g : Call) (v : Bytes) : Prop :=
  ∀ c ∈ w.calls, c.key = g.key → c.op ≠ .get → ∀ t ∈ c.ended, t < g.began →
    w.Fresh g.key c.began v

/-- No lookup has returned anything else. -/
def World.Coherent (w : World) : Prop :=
  ∀ g ∈ w.calls, ∀ v, g.op = .get → g.stage = .returned (some v) → w.FreshFor g v

/-- What is known of a call on its way: when it began, that its record fits, and that a
value which it promotes is still one that the key may have. -/
structure CallOk (w : World) (c : Call) : Prop where
  began : c.began ≤ w.time
  key : c.key.len < 2 ^ 32
  raw : ∀ raw ttlSecs, c.op = .put raw ttlSecs → raw.length < 2 ^ 32 ∧ 0 < ttlSecs
  ended : ∀ t ∈ c.ended, ∃ found, c.stage = .returned found
  held : ∀ v, c.stage = .promoteL2 v ∨ c.stage = .promoteL1 v →
    c.op = .get ∧ w.Keeps Call.PastL1 c.key v

/-- What every step keeps: each tier holds, of a key, only values that a later write has
not come past in this tier. -/
structure Sound (w : World) : Prop where
  placed : w.cache.l1.Placed
  l1 : ∀ k e, w.cache.l1.Has k e → w.Keeps Call.PastL1 k e.raw
  l2 : ∃ m, w.cache.l2.Holds m ∧ ∀ k e, m k = some e → w.Keeps Call.PastL2 k e.val
  l3 : ∀ l3 ∈ w.cache.l3, ∀ k v, settled l3 k = some v → w.Keeps Call.PastL3 k v
  calls : ∀ c ∈ w.calls, CallOk w c
  coherent : w.Coherent

/-- The first world is sound, over whatever the disk and the server have been left with.
-/
theorem sound_start (l1MaxEntries : Nat) (l1TtlSecs : Int64) {disk : Option Bytes}
    {redis : Option Redis} (h : Inherited disk redis) :
    Sound (World.start l1MaxEntries l1TtlSecs disk redis) where
  placed := L1Cache.placed_new _ _
  l1 k e hHas := (L1Cache.not_has_new _ _ hHas).elim
  l2 := by
    have hKeeps (m : Contents)
        (hHolds : (World.start l1MaxEntries l1TtlSecs disk redis).cache.l2.Holds m) :
        ∀ k e, m k = some e →
          (World.start l1MaxEntries l1TtlSecs disk redis).Keeps Call.PastL2 k e.val :=
      fun k e hEntry => ⟨(hHolds.present k e hEntry).1.val, by simp [World.start]⟩
    cases disk with
    | none =>
        have hHolds := Inner.holds_empty bufReader
        exact ⟨_, hHolds, hKeeps _ hHolds⟩
    | some file =>
        obtain ⟨recs, tail, hFits, hTail, rfl⟩ := h.log file rfl
        have hHolds := Inner.holds_reopen bufReader hFits hTail
        exact ⟨_, hHolds, hKeeps _ hHolds⟩
  l3 l3 hL3 k v hSettled := by
    obtain ⟨keys, hRedis, rfl⟩ := Option.map_eq_some_iff.mp hL3
    obtain ⟨e, hEntry, rfl⟩ := Option.map_eq_some_iff.mp hSettled
    exact ⟨h.values keys hRedis k e hEntry, by simp [World.start]⟩
  calls := by simp [World.start]
  coherent := by simp [World.start, World.Coherent]

section Steps

variable {w : World} {i : Nat} {c : Call} {cache : TieredCache} {stage : Stage}

theorem Sound.times (h : Sound w) : ∀ d ∈ w.calls, d.began ≤ w.time := fun d hd => (h.calls d hd).began

/-- What is fresh for a get stays so when another call takes a step. -/
theorem World.FreshFor.move {g : Call} {v : Bytes} (h : w.FreshFor g v)
    (hTimes : ∀ d ∈ w.calls, d.began ≤ w.time) (hBegan : g.began ≤ w.time)
    (hCall : w.calls[i]? = some c) : (w.move i c cache stage).FreshFor g v := by
  refine Parties.forall_set (fun d hd hKey hOp t ht hLess => ?_) fun _ _ t ht hLess => ?_
  · exact (h d hd hKey hOp t ht hLess).move (hTimes d hd) hCall
  · have hNow := Call.ended_at ht
    omega

/-- A step of one call: what holds of the tiers behind it, of the value that the
call then has to promote, and of the one that it has returned. -/
theorem Sound.move (h : Sound w) (hCall : w.calls[i]? = some c) (hPlaced : cache.l1.Placed)
    (hL1 : ∀ k e, cache.l1.Has k e → (w.move i c cache stage).Keeps Call.PastL1 k e.raw)
    (hL2 : ∃ m, cache.l2.Holds m ∧
      ∀ k e, m k = some e → (w.move i c cache stage).Keeps Call.PastL2 k e.val)
    (hL3 : ∀ l3 ∈ cache.l3, ∀ k v, settled l3 k = some v →
      (w.move i c cache stage).Keeps Call.PastL3 k v)
    (hQuiet : (c.at stage w.time).PastL1 → c.PastL1 ∨ w.NoPromotion c.key)
    (hHeld : ∀ v, stage = .promoteL2 v ∨ stage = .promoteL1 v →
      c.op = .get ∧ w.Keeps Call.PastL1 c.key v)
    (hFound : ∀ v, c.op = .get → stage = .returned (some v) → w.Keeps Call.PastL3 c.key v) :
    Sound (w.move i c cache stage) := by
  have hMem := List.mem_of_getElem? hCall
  refine ⟨hPlaced, hL1, hL2, hL3, Parties.forall_set (fun d hd => ?_) ?_, ?_⟩
  · have hOk := h.calls d hd
    refine ⟨Nat.le_succ_of_le hOk.began, hOk.key, hOk.raw, hOk.ended, fun v hStage => ?_⟩
    obtain ⟨hOp, hKeeps⟩ := hOk.held v hStage
    refine ⟨hOp, hKeeps.move h.times hCall fun hKey hPast => ?_⟩
    rcases hQuiet hPast with hOld | hNone
    · exact hOld
    · refine absurd ?_ (hNone d hd hKey.symm)
      rw [Call.Promoting]
      rcases hStage with hStage | hStage <;> rw [hStage] <;> trivial
  · have hOk := h.calls c hMem
    refine ⟨Nat.le_succ_of_le hOk.began, hOk.key, hOk.raw, fun t ht => ?_, fun v hStage => ?_⟩
    · cases stage with
      | returned found => exact ⟨found, rfl⟩
      | _ => cases ht
    · obtain ⟨hOp, hKeeps⟩ := hHeld v hStage
      exact ⟨hOp, hKeeps.move h.times hCall fun _ hPast => absurd hOp hPast.1⟩
  · refine Parties.forall_set (fun g hg v hOp hStage => ?_) fun v hOp hStage => ?_
    · exact (h.coherent g hg v hOp hStage).move h.times (h.times g hg) hCall
    · refine World.FreshFor.move (g := c.at stage w.time) ?_ h.times (h.times c hMem) hCall
      intro d hd hKey hWrites t ht _
      exact (hFound v hOp hStage).fresh d hd hKey ⟨hWrites, (h.calls d hd).ended t ht⟩

/-! The tiers that a step leaves alone. -/

/-- A step that leads its call past no more of the first tier, and leaves its entries as
they are, keeps what is said of them. -/
theorem Sound.sameL1 (h : Sound w) (hCall : w.calls[i]? = some c)
    (hSame : (c.at stage w.time).PastL1 → c.PastL1) (k : Str) (e : L1.Entry)
    (hHas : w.cache.l1.Has k e) : (w.move i c cache stage).Keeps Call.PastL1 k e.raw :=
  (h.l1 k e hHas).move h.times hCall fun _ => hSame

/-- The same for the second tier. -/
theorem Sound.sameL2 (h : Sound w) (hCall : w.calls[i]? = some c)
    (hSame : (c.at stage w.time).PastL2 → c.PastL2) :
    ∃ m, w.cache.l2.Holds m ∧
      ∀ k e, m k = some e → (w.move i c cache stage).Keeps Call.PastL2 k e.val := by
  obtain ⟨m, hHolds, hEntries⟩ := h.l2
  exact ⟨m, hHolds, fun k e hEntry => (hEntries k e hEntry).move h.times hCall fun _ => hSame⟩

/-- The same for the third one and its queue. -/
theorem Sound.sameL3 (h : Sound w) (hCall : w.calls[i]? = some c)
    (hSame : (c.at stage w.time).PastL3 → c.PastL3) :
    ∀ l3 ∈ w.cache.l3, ∀ k v, settled l3 k = some v →
      (w.move i c cache stage).Keeps Call.PastL3 k v :=
  fun l3 hL3 k v hSettled => (h.l3 l3 hL3 k v hSettled).move h.times hCall fun _ => hSame

/-- Behind a put in the first tier the key has the new value, and what else is there
was there before. -/
theorem Sound.putL1 (h : Sound w) (hCall : w.calls[i]? = some c) {v : Bytes} {ttlSecs : Int64}
    (hTtl : 0 < ttlSecs) {now : Int64}
    (hNew : (w.move i c cache stage).Keeps Call.PastL1 c.key v) (k : Str) (e : L1.Entry)
    (hHas : (w.cache.l1.put now c.key v ttlSecs).Has k e) :
    (w.move i c cache stage).Keeps Call.PastL1 k e.raw := by
  by_cases hKey : c.key = k
  · subst hKey
    rwa [h.placed.has_put_self hTtl hHas]
  · rcases L1Cache.has_put hHas with hOld | ⟨_, hSame, _⟩
    · exact (h.l1 k e hOld).move h.times hCall fun hSame => absurd hSame hKey
    · exact absurd hSame.symm hKey

/-- A put into the second tier adds one entry, and the others are kept as before. -/
theorem Sound.putL2 (h : Sound w) (hCall : w.calls[i]? = some c) {v : Bytes} {ttlSecs : Int64}
    (hTtl : 0 < ttlSecs) {now : Int64} (hLength : v.length < 2 ^ 32)
    (hNew : (w.move i c cache stage).Keeps Call.PastL2 c.key v) :
    ∃ m, (w.cache.l2.put now c.key v ttlSecs).Holds m ∧
      ∀ k e, m k = some e → (w.move i c cache stage).Keeps Call.PastL2 k e.val := by
  obtain ⟨m, hHolds, hEntries⟩ := h.l2
  have hOk := h.calls c (List.mem_of_getElem? hCall)
  refine ⟨_, hHolds.put ⟨hOk.key, hLength⟩, fun k e hEntry => ?_⟩
  rw [Contents.put, if_neg (Int64.not_le.mpr hTtl)] at hEntry
  by_cases hKey : c.key = k
  · subst hKey
    rw [Function.update_self] at hEntry
    cases hEntry
    exact hNew
  · rw [Function.update_of_ne (Ne.symm hKey)] at hEntry
    exact (hEntries k e hEntry).move h.times hCall fun hSame => absurd hSame hKey

/-- With no put or deletion halfway, one that is past the first tier has returned. -/
theorem Sound.pastL3_of_idle (h : Sound w) {key : Str} (hIdle : w.Idle key) {d : Call}
    (hd : d ∈ w.calls) (hKey : d.key = key) (hPast : d.PastL1) : d.PastL3 := by
  have hNot := hIdle d hd hKey
  refine ⟨hPast.1, ?_⟩
  cases hStage : d.stage with
  | l1 => exact absurd hStage hPast.2
  | l2 => exact absurd ⟨hPast.1, Or.inl hStage⟩ hNot
  | l3 => exact absurd ⟨hPast.1, Or.inr hStage⟩ hNot
  | promoteL2 v => exact absurd ((h.calls d hd).held v (Or.inl hStage)).1 hPast.1
  | promoteL1 v => exact absurd ((h.calls d hd).held v (Or.inr hStage)).1 hPast.1
  | returned found => exact ⟨found, rfl⟩

/-- What a get finds in the second tier is a value that this tier keeps. -/
theorem Sound.foundL2 (h : Sound w) {ms : Nat} {key : Str} {v : Bytes}
    (hGet : w.cache.l2.get (nowMs ms) key = some v) : w.Keeps Call.PastL2 key v := by
  obtain ⟨m, hHolds, hEntries⟩ := h.l2
  rw [hHolds.get, Contents.get] at hGet
  cases hEntry : m key with
  | none =>
      rw [hEntry] at hGet
      cases hGet
  | some e =>
      rw [hEntry] at hGet
      dsimp only at hGet
      split_ifs at hGet
      cases hGet
      exact hEntries key e hEntry

/-- What a get finds in the third tier is kept there, once the queue has nothing left for
the key. -/
theorem Sound.foundL3 (h : Sound w) {ms : Nat} {key : Str} {v : Bytes} (hDrained : w.Drained key)
    (hGet : w.cache.getL3 ms true key = some v) : w.Keeps Call.PastL3 key v := by
  rw [TieredCache.getL3] at hGet
  split at hGet
  · cases hGet
  · rename_i l3 hL3
    rw [if_pos rfl, Redis.get] at hGet
    refine h.l3 l3 hL3 key v ?_
    rw [settled_of_drained l3 (hDrained l3 hL3)]
    split at hGet
    · cases hGet
    · rename_i e hEntry
      split_ifs at hGet
      rw [hEntry, Option.map_some, Option.some.inj hGet]

section Lookup

variable (hGet : c.op = .get)
include hGet

/-- A step of a lookup that makes no copy. -/
theorem Sound.look (h : Sound w) (hCall : w.calls[i]? = some c) {l1 : L1Cache} (hPlaced : l1.Placed)
    (hOld : ∀ k e, l1.Has k e → w.cache.l1.Has k e)
    (hHeld : ∀ v, stage = .promoteL2 v ∨ stage = .promoteL1 v → w.Keeps Call.PastL1 c.key v)
    (hFound : ∀ v, stage = .returned (some v) → w.Keeps Call.PastL3 c.key v) :
    Sound (w.move i c { w.cache with l1 } stage) :=
  h.move hCall hPlaced
    (fun k e hHas => h.sameL1 hCall (fun hPast => absurd hGet hPast.1) k e (hOld k e hHas))
    (h.sameL2 hCall fun hPast => absurd hGet hPast.1)
    (h.sameL3 hCall fun hPast => absurd hGet hPast.1) (fun hPast => absurd hGet hPast.1)
    (fun v hStage => ⟨hGet, hHeld v hStage⟩) fun v _ hStage => hFound v hStage

/-- A look into the first tier keeps the world sound, whether it finds the key or not. -/
theorem Sound.lookL1 (h : Sound w) (hCall : w.calls[i]? = some c) {ms : Nat}
    (hStep : lookup w.cache ms c.key .l1 = some (cache, stage)) :
    Sound (w.move i c cache stage) := by
  rw [lookup] at hStep
  cases hFirst : w.cache.l1.get (nowSecs ms) c.key with
  | mk found l1 =>
      have hL1 : (w.cache.l1.get (nowSecs ms) c.key).2 = l1 := congrArg Prod.snd hFirst
      have hPlaced : l1.Placed := hL1 ▸ h.placed.get
      have hOld (k : Str) (e : L1.Entry) (hHas : l1.Has k e) : w.cache.l1.Has k e :=
        L1Cache.has_get (hL1 ▸ hHas)
      rw [hFirst] at hStep
      cases found with
      | some v =>
          cases hStep
          obtain ⟨e, hHas, _, hRaw⟩ := L1Cache.get_eq_some (congrArg Prod.fst hFirst)
          refine h.look hGet hCall hPlaced hOld (by simp) fun v' hStage => ?_
          cases hStage
          rw [← hRaw]
          exact (h.l1 c.key e hHas).mono fun _ _ _ hPast => hPast.pastL2.pastL1
      | none =>
          cases hStep
          exact h.look hGet hCall hPlaced hOld (by simp) (by simp)

/-- A look into the second tier does so too. What it finds goes up into the first, and no
other call of the key may be under way then. -/
theorem Sound.lookL2 (h : Sound w) (hCall : w.calls[i]? = some c) {ms : Nat}
    (hApart : (w.cache.l2.get (nowMs ms) c.key).isSome → w.Idle c.key)
    (hStep : lookup w.cache ms c.key .l2 = some (cache, stage)) :
    Sound (w.move i c cache stage) := by
  rw [lookup] at hStep
  cases hSecond : w.cache.l2.get (nowMs ms) c.key with
  | some v =>
      rw [hSecond] at hStep hApart
      cases hStep
      refine h.look hGet hCall h.placed (fun _ _ => id) (fun v' hStage => ?_) (by simp)
      have hValue : v = v' := by simpa using hStage
      rw [← hValue]
      exact (h.foundL2 hSecond).mono fun d hd hKey hPast =>
        (h.pastL3_of_idle (hApart rfl) hd hKey hPast).pastL2
  | none =>
      rw [hSecond] at hStep
      cases hStep
      exact h.look hGet hCall h.placed (fun _ _ => id) (by simp) (by simp)

/-- And one into the third tier, where the queue must have nothing left for the key
either. -/
theorem Sound.lookL3 (h : Sound w) (hCall : w.calls[i]? = some c) {ms : Nat}
    (hApart : (w.cache.getL3 ms true c.key).isSome → w.Idle c.key ∧ w.Drained c.key)
    (hStep : lookup w.cache ms c.key .l3 = some (cache, stage)) :
    Sound (w.move i c cache stage) := by
  rw [lookup] at hStep
  cases hThird : w.cache.getL3 ms true c.key with
  | some v =>
      rw [hThird] at hStep hApart
      cases hStep
      obtain ⟨hIdle, hDrained⟩ := hApart rfl
      refine h.look hGet hCall h.placed (fun _ _ => id) (fun v' hStage => ?_) (by simp)
      have hValue : v = v' := by simpa using hStage
      rw [← hValue]
      exact (h.foundL3 hDrained hThird).mono fun d hd hKey hPast => h.pastL3_of_idle hIdle hd hKey hPast
  | none =>
      rw [hThird] at hStep
      cases hStep
      exact h.look hGet hCall h.placed (fun _ _ => id) (by simp) (by simp)

/-- A promotion copies a value that is fresh for all that is past the first tier. -/
theorem Sound.promote (h : Sound w) (hCall : w.calls[i]? = some c) {ms : Nat} {v : Bytes}
    (hPromotes : c.stage = .promoteL2 v ∨ c.stage = .promoteL1 v)
    (hStep : lookup w.cache ms c.key c.stage = some (cache, stage)) :
    Sound (w.move i c cache stage) := by
  obtain ⟨_, hKeeps⟩ := (h.calls c (List.mem_of_getElem? hCall)).held v hPromotes
  have hMoved : (w.move i c cache stage).Keeps Call.PastL1 c.key v :=
    hKeeps.move h.times hCall fun _ hPast => absurd hGet hPast.1
  have hMinute : (0 : Int64) < 60 := by decide
  rcases hPromotes with hStage | hStage
  · rw [hStage, lookup] at hStep
    cases hStep
    refine h.move hCall h.placed (h.sameL1 hCall fun hPast => absurd hGet hPast.1)
      (h.putL2 hCall hMinute hKeeps.fits
        (hMoved.mono fun _ _ _ hPast => hPast.pastL1))
      (h.sameL3 hCall fun hPast => absurd hGet hPast.1) (fun hPast => absurd hGet hPast.1)
      (fun v' hStage' => ⟨hGet, ?_⟩) (by simp)
    have hValue : v = v' := by simpa using hStage'
    exact hValue ▸ hKeeps
  · rw [hStage, lookup] at hStep
    cases hStep
    refine h.move hCall (h.placed.put v 60) (h.putL1 hCall hMinute hMoved)
      (h.sameL2 hCall fun hPast => absurd hGet hPast.1)
      (h.sameL3 hCall fun hPast => absurd hGet hPast.1) (fun hPast => absurd hGet hPast.1)
      (by simp) fun v' _ hStage' => ?_
    cases hStage'
    exact hKeeps.mono fun _ _ _ hPast => hPast.pastL2.pastL1

end Lookup

/-- Every step of a get keeps the world sound. -/
theorem Sound.lookup (h : Sound w) (hCall : w.calls[i]? = some c) (hGet : c.op = .get) {ms : Nat}
    (hApart : w.Apart ms c) (hStep : lookup w.cache ms c.key c.stage = some (cache, stage)) :
    Sound (w.move i c cache stage) := by
  rw [World.Apart, hGet] at hApart
  cases hStage : c.stage with
  | l1 => exact h.lookL1 hGet hCall (hStage ▸ hStep)
  | l2 =>
      rw [hStage] at hApart hStep
      exact h.lookL2 hGet hCall hApart hStep
  | l3 =>
      rw [hStage] at hApart hStep
      exact h.lookL3 hGet hCall hApart hStep
  | promoteL2 v => exact h.promote hGet hCall (Or.inl hStage) hStep
  | promoteL1 v => exact h.promote hGet hCall (Or.inr hStage) hStep
  | returned found =>
      rw [hStage] at hStep
      cases hStep

/-- Every step of a put does. -/
theorem Sound.store (h : Sound w) (hCall : w.calls[i]? = some c) {raw : Bytes} {ttlSecs : Int64}
    (hPut : c.op = .put raw ttlSecs) {ms : Nat} (hApart : w.Apart ms c)
    (hStep : store w.cache ms c.key raw ttlSecs c.stage = some (cache, stage)) :
    Sound (w.move i c cache stage) := by
  obtain ⟨hLength, hTtl⟩ := (h.calls c (List.mem_of_getElem? hCall)).raw raw ttlSecs hPut
  have hNotGet : c.op ≠ .get := by simp [hPut]
  cases hStage : c.stage with
  | l1 =>
      rw [World.Apart, hPut, hStage] at hApart
      rw [hStage, Coherence.store, if_neg (Int64.not_le.mpr hTtl)] at hStep
      cases hStep
      exact h.move hCall (h.placed.put raw ttlSecs)
        (h.putL1 hCall hTtl (keeps_own h.times hCall hPut hLength))
        (h.sameL2 hCall fun hPast => absurd rfl hPast.2.2)
        (h.sameL3 hCall fun hPast => by obtain ⟨_, _, hEnd⟩ := hPast; cases hEnd)
        (fun _ => Or.inr hApart) (by simp) fun v hOp => absurd hOp hNotGet
  | l2 =>
      rw [hStage, Coherence.store] at hStep
      cases hStep
      exact h.move hCall h.placed (h.sameL1 hCall fun _ => ⟨hNotGet, by simp [hStage]⟩)
        (h.putL2 hCall hTtl hLength (keeps_own h.times hCall hPut hLength))
        (h.sameL3 hCall fun hPast => by obtain ⟨_, _, hEnd⟩ := hPast; cases hEnd)
        (fun _ => Or.inl ⟨hNotGet, by simp [hStage]⟩) (by simp) fun v hOp => absurd hOp hNotGet
  | l3 =>
      rw [hStage, Coherence.store] at hStep
      cases hStep
      refine h.move hCall h.placed (h.sameL1 hCall fun _ => ⟨hNotGet, by simp [hStage]⟩)
        (h.sameL2 hCall fun _ => ⟨hNotGet, by simp [hStage], by simp [hStage]⟩)
        (fun l3 hL3 k v hSettled => ?_) (fun _ => Or.inl ⟨hNotGet, by simp [hStage]⟩) (by simp)
        fun v hOp => absurd hOp hNotGet
      obtain ⟨old, hOld, rfl⟩ := Option.map_eq_some_iff.mp hL3
      rw [settled_push] at hSettled
      split_ifs at hSettled with hKey
      · cases hSettled
        dsimp only at hKey
        exact hKey ▸ keeps_own h.times hCall hPut hLength
      · exact (h.l3 old hOld k v hSettled).move h.times hCall fun hSame => absurd hSame hKey
  | promoteL2 v | promoteL1 v | returned found =>
      rw [hStage] at hStep
      cases hStep

/-- Every step of a del does. -/
theorem Sound.remove (h : Sound w) (hCall : w.calls[i]? = some c) (hDel : c.op = .del) {ms : Nat}
    (hApart : w.Apart ms c) (hStep : remove w.cache c.key c.stage = some (cache, stage)) :
    Sound (w.move i c cache stage) := by
  have hNotGet : c.op ≠ .get := by simp [hDel]
  cases hStage : c.stage with
  | l1 =>
      rw [World.Apart, hDel, hStage] at hApart
      rw [hStage, Coherence.remove] at hStep
      cases hStep
      refine h.move hCall h.placed.del (fun k e hHas => ?_)
        (h.sameL2 hCall fun hPast => absurd rfl hPast.2.2)
        (h.sameL3 hCall fun hPast => by obtain ⟨_, _, hEnd⟩ := hPast; cases hEnd)
        (fun _ => Or.inr hApart) (by simp) fun v hOp => absurd hOp hNotGet
      refine (h.l1 k e (L1Cache.has_del hHas)).move h.times hCall fun hKey => ?_
      subst hKey
      exact absurd hHas (h.placed.not_has_del e)
  | l2 =>
      rw [hStage, Coherence.remove] at hStep
      cases hStep
      obtain ⟨m, hHolds, hEntries⟩ := h.l2
      refine h.move hCall h.placed (h.sameL1 hCall fun _ => ⟨hNotGet, by simp [hStage]⟩)
        ⟨_, hHolds.delete c.key, fun k e hEntry => ?_⟩
        (h.sameL3 hCall fun hPast => by obtain ⟨_, _, hEnd⟩ := hPast; cases hEnd)
        (fun _ => Or.inl ⟨hNotGet, by simp [hStage]⟩) (by simp) fun v hOp => absurd hOp hNotGet
      by_cases hKey : c.key = k
      · subst hKey
        simp [Contents.delete] at hEntry
      · rw [Contents.delete, Function.update_of_ne (Ne.symm hKey)] at hEntry
        exact (hEntries k e hEntry).move h.times hCall fun hSame => absurd hSame hKey
  | l3 =>
      rw [World.Apart, hDel, hStage] at hApart
      rw [hStage, Coherence.remove] at hStep
      cases hStep
      refine h.move hCall h.placed (h.sameL1 hCall fun _ => ⟨hNotGet, by simp [hStage]⟩)
        (h.sameL2 hCall fun _ => ⟨hNotGet, by simp [hStage], by simp [hStage]⟩)
        (fun l3 hL3 k v hSettled => ?_) (fun _ => Or.inl ⟨hNotGet, by simp [hStage]⟩) (by simp)
        fun v hOp => absurd hOp hNotGet
      obtain ⟨old, hOld, rfl⟩ := Option.map_eq_some_iff.mp hL3
      rw [settled_del (hApart old hOld)] at hSettled
      split_ifs at hSettled with hKey
      exact (h.l3 old hOld k v hSettled).move h.times hCall fun hSame => absurd hSame.symm hKey
  | promoteL2 v | promoteL1 v | returned found =>
      rw [hStage] at hStep
      cases hStep

/-- A call that comes in keeps the world sound. -/
theorem Sound.begin (h : Sound w) {key : Str} {op : Op} (hRegular : w.Regular (.begin key op)) :
    Sound ⟨w.cache, w.time + 1, w.calls ++ [{ key, op, began := w.time }]⟩ := by
  have hNew {past : Call → Prop} {k : Str} {v : Bytes} (hKeeps : w.Keeps past k v)
      (hPast : ∀ d, past d → d.stage ≠ .l1) :
      World.Keeps ⟨w.cache, w.time + 1, w.calls ++ [{ key, op, began := w.time }]⟩ past k v :=
    hKeeps.begin fun hBegun => hPast _ hBegun rfl
  obtain ⟨m, hHolds, hEntries⟩ := h.l2
  refine ⟨h.placed, fun k e hHas => hNew (h.l1 k e hHas) fun d hd => hd.2,
    ⟨m, hHolds, fun k e hEntry => hNew (hEntries k e hEntry) fun d hd => hd.2.1⟩,
    fun l3 hL3 k v hSettled => hNew (h.l3 l3 hL3 k v hSettled) fun d hd => hd.pastL2.2.1,
    fun d hd => ?_, fun g hg v hOp hStage d hd hKey hWrites t ht hLess => ?_⟩
  · rcases List.mem_append.mp hd with hOld | hBegun
    · have hOk := h.calls d hOld
      refine ⟨Nat.le_succ_of_le hOk.began, hOk.key, hOk.raw, hOk.ended, fun v hStage => ?_⟩
      obtain ⟨hOp, hKeeps⟩ := hOk.held v hStage
      exact ⟨hOp, hNew hKeeps fun d hd => hd.2⟩
    · rw [List.mem_singleton.mp hBegun]
      refine ⟨Nat.le_succ _, ?_, fun raw ttlSecs hOp => ?_, by simp, by simp⟩
      · cases op with
        | get | del => exact hRegular
        | put raw ttlSecs => exact hRegular.1
      · dsimp only at hOp
        subst hOp
        exact hRegular.2
  · rcases List.mem_append.mp hg with hOldG | hBegunG
    · rcases List.mem_append.mp hd with hOldD | hBegunD
      · exact (h.coherent g hOldG v hOp hStage d hOldD hKey hWrites t ht hLess).begin _
      · rw [List.mem_singleton.mp hBegunD] at ht
        cases ht
    · rw [List.mem_singleton.mp hBegunG] at hStage
      cases hStage

/-- Neither calls nor what the third tier is going to hold change. -/
theorem Sound.writeL3 (h : Sound w) {ms : Nat} {cmd : SetCommand}
    (hWrite : w.cache.writeL3 ms true = some (cmd, cache)) :
    Sound ⟨cache, w.time + 1, w.calls⟩ := by
  have hKept {past : Call → Prop} {k : Str} {v : Bytes} (hKeeps : w.Keeps past k v) (other : TieredCache) :
      World.Keeps ⟨other, w.time + 1, w.calls⟩ past k v := ⟨hKeeps.fits, hKeeps.fresh⟩
  rw [TieredCache.writeL3] at hWrite
  split at hWrite
  · cases hWrite
  · rename_i l3 hL3
    split at hWrite
    · cases hWrite
    · rename_i first rest hQueue
      cases hWrite
      obtain ⟨m, hHolds, hEntries⟩ := h.l2
      refine ⟨h.placed, fun k e hHas => hKept (h.l1 k e hHas) _,
        ⟨m, hHolds, fun k e hEntry => hKept (hEntries k e hEntry) _⟩,
        fun l3' hL3' k v hSettled => ?_, fun d hd => ?_, h.coherent⟩
      · cases hL3'
        rw [if_pos rfl, settled_write hQueue] at hSettled
        exact hKept (h.l3 l3 hL3 k v hSettled) _
      · have hOk := h.calls d hd
        refine ⟨Nat.le_succ_of_le hOk.began, hOk.key, hOk.raw, hOk.ended, fun v hStage => ?_⟩
        obtain ⟨hOp, hKeeps⟩ := hOk.held v hStage
        exact ⟨hOp, hKept hKeeps _⟩

/-- One step of any call or of the queue keeps the world sound, as long as the step is
regular. -/
theorem sound_step {w' : World} {a : Action} (h : Sound w) (hRegular : w.Regular a)
    (hStep : w.step a = some w') : Sound w' := by
  cases a with
  | begin key op =>
      cases hStep
      exact h.begin hRegular
  | advance i ms =>
      rw [World.step] at hStep
      split at hStep
      · rename_i c hCall
        have hApart := hRegular c hCall
        obtain ⟨⟨cache, stage⟩, hOf, rfl⟩ := Option.map_eq_some_iff.mp hStep
        rw [stepOf] at hOf
        split at hOf
        · rename_i hGet
          exact h.lookup hCall hGet hApart hOf
        · rename_i raw ttlSecs hPut
          exact h.store hCall hPut hApart hOf
        · rename_i hDel
          exact h.remove hCall hDel hApart hOf
      · cases hStep
  | writeL3 ms =>
      obtain ⟨⟨cmd, cache⟩, hWrite, rfl⟩ := Option.map_eq_some_iff.mp hStep
      exact h.writeL3 hWrite

end Steps

/-- In every regular run no lookup that begins when a put or a deletion of its key
has returned finds a value all of whose puts had returned before that one began. -/
theorem coherent_run {l1MaxEntries : Nat} {l1TtlSecs : Int64} {disk : Option Bytes}
    {redis : Option Redis} {actions : List Action} {w : World} (hInherited : Inherited disk redis)
    (hRegular : Runs.Meets World.step World.Regular
      (World.start l1MaxEntries l1TtlSecs disk redis) actions)
    (hRun : Runs.run World.step (World.start l1MaxEntries l1TtlSecs disk redis) actions = some w) :
    w.Coherent :=
  (hRegular.invariant (fun _ _ _ => sound_step) (sound_start _ _ hInherited) hRun).coherent

theorem inherited_nothing : Inherited none (some ∅) :=
  ⟨by simp, fun keys hKeys k e hEntry => by
    rw [← Option.some.inj hKeys, HashMap.get_empty] at hEntry
    cases hEntry⟩

/-- A put, a lookup that promotes from the second tier, another put, and a lookup. -/
def twoPuts : List Action :=
  [.begin ['a'] (.put [1] 60), .advance 0 0, .advance 0 0, .advance 0 0, .writeL3 0,
    .begin ['a'] .get, .advance 1 2000, .advance 1 2000, .advance 1 2000,
    .begin ['a'] (.put [2] 60), .advance 2 3000, .advance 2 3000, .advance 2 3000,
    .begin ['a'] .get, .advance 3 3000]

theorem twoPuts_run : (Runs.run World.step (World.start 0 1 none (some ∅)) twoPuts).map
    (fun w => w.calls.map Call.stage) =
      some [.returned none, .returned (some [1]), .returned none, .returned (some [2])] := by
  decide +kernel

/-- Two puts and two gets of one key, one after the other: the second get returns the
second value. -/
theorem coherent_twoPuts : ∃ w, Runs.run World.step (World.start 0 1 none (some ∅)) twoPuts = some w ∧
    w.calls.map Call.stage =
      [.returned none, .returned (some [1]), .returned none, .returned (some [2])] ∧
    w.Coherent := by
  obtain ⟨w, hRun, hStages⟩ := Option.map_eq_some_iff.mp twoPuts_run
  exact ⟨w, hRun, hStages, coherent_run inherited_nothing (by decide +kernel) hRun⟩

/-- A put, a deletion that overtakes its `SET`, and a lookup. -/
def lateSet : List Action :=
  [.begin ['a'] (.put [1] 60), .advance 0 0, .advance 0 0, .advance 0 0,
    .begin ['a'] .del, .advance 1 0, .advance 1 0, .advance 1 0, .writeL3 0,
    .begin ['a'] .get, .advance 2 0, .advance 2 0, .advance 2 0, .advance 2 0, .advance 2 0]

theorem lateSet_run : (Runs.run World.step (World.start 0 60 none (some ∅)) lateSet).map World.calls =
    some [⟨['a'], .put [1] 60, .returned none, 0, some 3⟩, ⟨['a'], .del, .returned none, 4, some 7⟩,
      ⟨['a'], .get, .returned (some [1]), 9, some 14⟩] := by
  decide +kernel

/-- A del overtakes a queued SET of its key, so that a later get returns the deleted
value. -/
theorem stale_lateSet : ¬∀ l1MaxEntries l1TtlSecs disk redis actions w, Inherited disk redis →
    Runs.run World.step (World.start l1MaxEntries l1TtlSecs disk redis) actions = some w →
      w.Coherent := by
  intro hAll
  obtain ⟨w, hRun, hCalls⟩ := Option.map_eq_some_iff.mp lateSet_run
  have hFresh := hAll 0 60 none (some ∅) lateSet w inherited_nothing hRun
    ⟨['a'], .get, .returned (some [1]), 9, some 14⟩
    (by simp [hCalls]) [1] rfl rfl ⟨['a'], .del, .returned none, 4, some 7⟩ (by simp [hCalls]) rfl
    (by decide) 7 rfl (by decide)
  obtain ⟨p, hp, _, ⟨ttlSecs, hOp⟩, hEnded⟩ := hFresh
  rw [hCalls] at hp
  simp only [List.mem_cons, List.not_mem_nil, or_false] at hp
  rcases hp with rfl | rfl | rfl
  · have hLate := hEnded 3 rfl
    dsimp only at hLate
    omega
  · cases hOp
  · cases hOp

end Dnsd.Cache.Coherence
