import Dnsd.Cache.L1
import Dnsd.Cache.L2

/-! The tiered cache: lookups fall through three levels and promote what they
find. An invariant over all copies of an entry is carried by every operation. -/

namespace Dnsd.Cache

open Bytes L1

/-! ## The clock -/

/-- `now_secs` of the first level at a time in milliseconds. -/
def nowSecs (ms : Nat) : Int64 := Int64.ofNat (ms / 1000)

/-- `now_ms` of the second level, a number of milliseconds as a signed one. -/
def nowMs (ms : Nat) : Int64 := Int64.ofNat ms

/-- Milliseconds since the epoch that fit an `i64`. -/
def clockLimit : Nat := 2 ^ 63

theorem nowSecs_toInt {ms : Nat} (h : ms < clockLimit) : (nowSecs ms).toInt = (ms / 1000 : Nat) := by
  have hLimit : clockLimit = 2 ^ 63 := rfl
  exact Int64.toInt_ofNat_of_lt (by omega)

theorem nowMs_toInt {ms : Nat} (h : ms < clockLimit) : (nowMs ms).toInt = ms :=
  Int64.toInt_ofNat_of_lt h

/-! ## The third level -/

/-- A value in Redis and the time at which the server drops it. -/
structure RedisEntry where
  val : Bytes
  expireAtMs : Nat
  deriving DecidableEq

/-- The keys of the server, each with its value and the time at which it goes. -/
abbrev Redis := HashMap Str RedisEntry

namespace Redis

/-- `GET key`: the value, unless its time is up. -/
def get (r : Redis) (ms : Nat) (key : Str) : Option Bytes :=
  match HashMap.get r key with
  | none => none
  | some e => if ms < e.expireAtMs then some e.val else none

/-- `SET key val EX ttl`: the key is gone `ttl` seconds later. -/
def set (r : Redis) (ms : Nat) (key : Str) (val : Bytes) (ttlSecs : Int64) : Redis :=
  r.insert key ⟨val, ms + ttlSecs.toInt.toNat * 1000⟩

/-- `DEL key`: the key is gone, whether it was there or not. -/
def del (r : Redis) (key : Str) : Redis := r.erase key

end Redis

/-- What the writer thread takes from its channel. -/
structure SetCommand where
  key : Str
  raw : Bytes
  ttlSecs : Int64
  deriving DecidableEq

/-- The server and the channel to the writer thread. -/
structure L3 where
  redis : Redis
  queue : List SetCommand

/-! ## The tiers -/

/-- The three levels; without a Redis there is no third one. -/
structure TieredCache where
  l1 : L1Cache
  l2 : Inner
  l3 : Option L3

namespace TieredCache

/-- `TieredCache::new` with an empty log and an empty or no Redis. -/
def new (l1MaxEntries : Nat) (l1TtlSecs : Int64) (redisConnects : Bool) : TieredCache where
  l1 := L1Cache.new l1MaxEntries l1TtlSecs
  l2 := Inner.openStore bufReader none
  l3 := if redisConnects then some ⟨∅, []⟩ else none

/-- The lookup in Redis; a command that fails counts as a miss. -/
def getL3 (c : TieredCache) (ms : Nat) (answers : Bool) (key : Str) : Option Bytes :=
  match c.l3 with
  | none => none
  | some l3 => if answers then l3.redis.get ms key else none

/-- Look up a key, promoting hits toward L1. -/
def get (c : TieredCache) (ms : Nat) (answers : Bool) (key : Str) : Option Bytes × TieredCache :=
  match c.l1.get (nowSecs ms) key with
  | (some v, l1) => (some v, { c with l1 := l1 })
  | (none, l1) =>
      match c.l2.get (nowMs ms) key with
      | some v => (some v, { c with l1 := l1.put (nowSecs ms) key v 60 })
      | none =>
          match c.getL3 ms answers key with
          | some v =>
              (some v, { c with
                l1 := l1.put (nowSecs ms) key v 60
                l2 := c.l2.put (nowMs ms) key v 60 })
          | none => (none, { c with l1 := l1 })

/-- The lookup finds its result below the first level, which then gets it too. -/
def promotes (c : TieredCache) (ms : Nat) (answers : Bool) (key : Str) : Bool :=
  (c.l1.get (nowSecs ms) key).1.isNone && (c.get ms answers key).1.isSome

/-- Store an entry in all tiers; the third one by way of the channel. -/
def put (c : TieredCache) (ms : Nat) (key : Str) (raw : Bytes) (ttlSecs : Int64) : TieredCache :=
  if ttlSecs ≤ 0 then c
  else
    { l1 := c.l1.put (nowSecs ms) key raw ttlSecs
      l2 := c.l2.put (nowMs ms) key raw ttlSecs
      l3 := c.l3.map fun l3 => { l3 with queue := l3.queue ++ [⟨key, raw, ttlSecs⟩] } }

/-- `TieredCache::del`: in the third level only if Redis answers; a command that waits in
its queue stays there. -/
def del (c : TieredCache) (answers : Bool) (key : Str) : TieredCache where
  l1 := c.l1.del key
  l2 := c.l2.delete key
  l3 := c.l3.map fun l3 => if answers then { l3 with redis := l3.redis.del key } else l3

/-- `TieredCache::purge_prefix`: the first level alone, whatever the two others hold. -/
def purgePrefix (c : TieredCache) (pre : Str) : Nat × TieredCache :=
  ((c.l1.purgePrefix pre).1, { c with l1 := (c.l1.purgePrefix pre).2 })

/-- The writer thread takes the next command; one that fails is dropped. -/
def writeL3 (c : TieredCache) (ms : Nat) (answers : Bool) : Option (SetCommand × TieredCache) :=
  match c.l3 with
  | none => none
  | some l3 =>
      match l3.queue with
      | [] => none
      | cmd :: rest =>
          let redis := if answers then l3.redis.set ms cmd.key cmd.raw cmd.ttlSecs else l3.redis
          some (cmd, { c with l3 := some ⟨redis, rest⟩ })

end TieredCache

/-! ## An invariant over all copies -/

/-- What holds of the copies in each place. -/
structure Terms where
  l1 : Str → L1.Entry → Prop
  l2 : Str → Entry → Prop
  queued : SetCommand → Prop
  redis : Str → RedisEntry → Prop

/-- Every copy of every entry is on its terms. -/
structure TieredCache.Meets (c : TieredCache) (terms : Terms) : Prop where
  l1 : ∀ k e, c.l1.Has k e → terms.l1 k e
  l2 : ∃ m, c.l2.Holds m ∧ ∀ k e, m k = some e → terms.l2 k e
  queued : ∀ l3, c.l3 = some l3 → ∀ cmd ∈ l3.queue, terms.queued cmd
  redis : ∀ l3, c.l3 = some l3 → ∀ k e, HashMap.get l3.redis k = some e → terms.redis k e

namespace TieredCache

variable {c : TieredCache} {terms : Terms} {ms : Nat} {key : Str}

theorem meets_new (l1MaxEntries : Nat) (l1TtlSecs : Int64) (redisConnects : Bool) (terms : Terms) :
    (new l1MaxEntries l1TtlSecs redisConnects).Meets terms := by
  refine ⟨fun k e hHas => (L1Cache.not_has_new _ _ hHas).elim,
    ⟨fun _ => none, Inner.holds_empty bufReader, fun k e hNone => by cases hNone⟩, ?_, ?_⟩
  · intro l3 hL3 cmd hCmd
    rw [new] at hL3
    split_ifs at hL3
    cases hL3
    cases hCmd
  · intro l3 hL3 k e hGet
    rw [new] at hL3
    split_ifs at hL3
    cases hL3
    cases hGet

theorem Meets.mono {terms' : Terms} (h : c.Meets terms) (hL1 : ∀ k e, terms.l1 k e → terms'.l1 k e)
    (hL2 : ∀ k e, terms.l2 k e → terms'.l2 k e) (hQueued : ∀ cmd, terms.queued cmd → terms'.queued cmd)
    (hRedis : ∀ k e, terms.redis k e → terms'.redis k e) : c.Meets terms' := by
  obtain ⟨m, hHolds, hEntries⟩ := h.l2
  exact ⟨fun k e hHas => hL1 k e (h.l1 k e hHas),
    ⟨m, hHolds, fun k e hEntry => hL2 k e (hEntries k e hEntry)⟩,
    fun l3 hL3 cmd hCmd => hQueued cmd (h.queued l3 hL3 cmd hCmd),
    fun l3 hL3 k e hGet => hRedis k e (h.redis l3 hL3 k e hGet)⟩

/-- What a put does to the second level. -/
theorem meets_putL2 {l2 : Inner} (h : ∃ m, l2.Holds m ∧ ∀ k e, m k = some e → terms.l2 k e)
    {raw : Bytes} {ttlSecs : Int64} (hKey : key.len < 2 ^ 32) (hRaw : raw.length < 2 ^ 32)
    (hNew : 0 < ttlSecs → terms.l2 key ⟨raw, nowMs ms + ttlSecs * 1000⟩) :
    ∃ m, (l2.put (nowMs ms) key raw ttlSecs).Holds m ∧ ∀ k e, m k = some e → terms.l2 k e := by
  obtain ⟨m, hHolds, hEntries⟩ := h
  refine ⟨m.put (nowMs ms) key raw ttlSecs, hHolds.put ⟨hKey, hRaw⟩, fun k e hEntry => ?_⟩
  rw [Contents.put] at hEntry
  split_ifs at hEntry with hTtl
  · exact hEntries k e hEntry
  · by_cases hSame : k = key
    · subst hSame
      rw [Function.update_self] at hEntry
      cases hEntry
      exact hNew (Int64.not_le.mp hTtl)
    · rw [Function.update_of_ne hSame] at hEntry
      exact hEntries k e hEntry

theorem Meets.put (h : c.Meets terms) {raw : Bytes} {ttlSecs : Int64}
    (hKey : key.len < 2 ^ 32) (hRaw : raw.length < 2 ^ 32)
    (hL1 : 0 < ttlSecs → terms.l1 key ⟨raw, nowSecs ms, min ttlSecs c.l1.maxTtlSecs⟩)
    (hL2 : 0 < ttlSecs → terms.l2 key ⟨raw, nowMs ms + ttlSecs * 1000⟩)
    (hQueued : 0 < ttlSecs → terms.queued ⟨key, raw, ttlSecs⟩) :
    (c.put ms key raw ttlSecs).Meets terms := by
  rw [TieredCache.put]
  split_ifs with hTtl
  · exact h
  · have hPositive := Int64.not_le.mp hTtl
    refine ⟨fun k e hHas => ?_, meets_putL2 h.l2 hKey hRaw hL2, fun l3 hL3 cmd hCmd => ?_,
      fun l3 hL3 k e hGet => ?_⟩
    · rcases L1Cache.has_put hHas with hOld | ⟨_, rfl, rfl⟩
      · exact h.l1 k e hOld
      · exact hL1 hPositive
    · obtain ⟨old, hOld, rfl⟩ := Option.map_eq_some_iff.mp hL3
      rcases List.mem_append.mp hCmd with hBefore | hNew
      · exact h.queued old hOld cmd hBefore
      · rw [List.mem_singleton.mp hNew]
        exact hQueued hPositive
    · obtain ⟨old, hOld, rfl⟩ := Option.map_eq_some_iff.mp hL3
      exact h.redis old hOld k e hGet

theorem Meets.del (h : c.Meets terms) (answers : Bool) (key : Str) :
    (c.del answers key).Meets terms := by
  obtain ⟨m, hHolds, hEntries⟩ := h.l2
  refine ⟨fun k e hHas => h.l1 k e (L1Cache.has_del hHas),
    ⟨m.delete key, hHolds.delete key, fun k e hEntry => ?_⟩, fun l3 hL3 cmd hCmd => ?_,
    fun l3 hL3 k e hGet => ?_⟩
  · by_cases hSame : k = key
    · subst hSame
      simp [Contents.delete] at hEntry
    · rw [Contents.delete, Function.update_of_ne hSame] at hEntry
      exact hEntries k e hEntry
  · obtain ⟨old, hOld, rfl⟩ := Option.map_eq_some_iff.mp hL3
    split_ifs at hCmd <;> exact h.queued old hOld cmd hCmd
  · obtain ⟨old, hOld, rfl⟩ := Option.map_eq_some_iff.mp hL3
    split_ifs at hGet
    · rw [Redis.del, HashMap.get_erase] at hGet
      split_ifs at hGet
      exact h.redis old hOld k e hGet
    · exact h.redis old hOld k e hGet

theorem Meets.purgePrefix (h : c.Meets terms) (pre : Str) : (c.purgePrefix pre).2.Meets terms :=
  ⟨fun k e hHas => h.l1 k e (L1Cache.has_purgePrefix hHas), h.l2, h.queued, h.redis⟩

theorem Meets.writeL3 (h : c.Meets terms) {answers : Bool} {cmd : SetCommand} {c' : TieredCache}
    (hWrite : c.writeL3 ms answers = some (cmd, c'))
    (hSet : answers = true → terms.queued cmd →
      terms.redis cmd.key ⟨cmd.raw, ms + cmd.ttlSecs.toInt.toNat * 1000⟩) :
    terms.queued cmd ∧ c'.Meets terms := by
  rw [TieredCache.writeL3] at hWrite
  cases hL3 : c.l3 with
  | none =>
      rw [hL3] at hWrite
      cases hWrite
  | some l3 =>
      rw [hL3] at hWrite
      dsimp only at hWrite
      cases hQueue : l3.queue with
      | nil =>
          rw [hQueue] at hWrite
          cases hWrite
      | cons first rest =>
          rw [hQueue] at hWrite
          cases hWrite
          have hFirst : terms.queued cmd := h.queued l3 hL3 cmd (hQueue ▸ List.mem_cons_self)
          refine ⟨hFirst, h.l1, h.l2, fun l3' hL3' other hOther => ?_, fun l3' hL3' k e hGet => ?_⟩
          · cases hL3'
            exact h.queued l3 hL3 other (hQueue ▸ List.mem_cons_of_mem cmd hOther)
          · cases hL3'
            dsimp only at hGet
            split_ifs at hGet with hAnswers
            · rw [Redis.set, HashMap.get_insert] at hGet
              split_ifs at hGet with hSame
              · cases hGet
                exact hSame ▸ hSet hAnswers hFirst
              · exact h.redis l3 hL3 k e hGet
            · exact h.redis l3 hL3 k e hGet

/-- A lookup serves a copy that is still live in its level. -/
inductive Serves (c : TieredCache) (terms : Terms) (ms : Nat) (key : Str) (raw : Bytes) : Prop where
  | l1 (e : L1.Entry) (hTerms : terms.l1 key e)
      (hFresh : e.fresh c.l1.maxTtlSecs (nowSecs ms) = true) (hRaw : e.raw = raw)
  | l2 (e : Entry) (hTerms : terms.l2 key e) (hLive : expired e.expireAtMs (nowMs ms) = false)
      (hRaw : e.val = raw)
  | l3 (e : RedisEntry) (hTerms : terms.redis key e) (hLive : ms < e.expireAtMs)
      (hRaw : e.val = raw)

theorem Meets.getL2 (h : c.Meets terms) {v : Bytes} (hGet : c.l2.get (nowMs ms) key = some v) :
    ∃ e, terms.l2 key e ∧ expired e.expireAtMs (nowMs ms) = false ∧ e.val = v := by
  obtain ⟨m, hHolds, hEntries⟩ := h.l2
  rw [hHolds.get, Contents.get] at hGet
  cases hEntry : m key with
  | none =>
      rw [hEntry] at hGet
      cases hGet
  | some e =>
      rw [hEntry] at hGet
      dsimp only at hGet
      split_ifs at hGet with hExpired
      cases hGet
      exact ⟨e, hEntries key e hEntry, by simpa using hExpired, rfl⟩

theorem Meets.getL3 (h : c.Meets terms) {answers : Bool} {v : Bytes}
    (hGet : c.getL3 ms answers key = some v) :
    ∃ e, terms.redis key e ∧ ms < e.expireAtMs ∧ e.val = v := by
  rw [TieredCache.getL3] at hGet
  cases hL3 : c.l3 with
  | none =>
      rw [hL3] at hGet
      cases hGet
  | some l3 =>
      rw [hL3] at hGet
      dsimp only at hGet
      split_ifs at hGet
      rw [Redis.get] at hGet
      cases hEntry : HashMap.get l3.redis key with
      | none =>
          rw [hEntry] at hGet
          cases hGet
      | some e =>
          rw [hEntry] at hGet
          dsimp only at hGet
          split_ifs at hGet with hLive
          cases hGet
          exact ⟨e, h.redis l3 hL3 key e hEntry, hLive, rfl⟩

theorem Meets.serves (h : c.Meets terms) {answers : Bool} {raw : Bytes}
    (hGet : (c.get ms answers key).1 = some raw) : c.Serves terms ms key raw := by
  rw [TieredCache.get] at hGet
  split at hGet
  · rename_i v l1 hFirst
    cases hGet
    obtain ⟨e, hHas, hFresh, hRaw⟩ := L1Cache.get_eq_some (congrArg Prod.fst hFirst)
    exact .l1 e (h.l1 key e hHas) hFresh hRaw
  · split at hGet
    · rename_i v hSecond
      cases hGet
      obtain ⟨e, hTerms, hLive, hVal⟩ := h.getL2 hSecond
      exact .l2 e hTerms hLive hVal
    · split at hGet
      · rename_i v hThird
        cases hGet
        obtain ⟨e, hTerms, hLive, hVal⟩ := h.getL3 hThird
        exact .l3 e hTerms hLive hVal
      · cases hGet

/-- A lookup keeps an invariant if the copies it makes in promoting are on the
terms of their new level. -/
theorem Meets.get {terms' : Terms} (h : c.Meets terms) (hNext : c.Meets terms') (answers : Bool)
    (hKey : key.len < 2 ^ 32)
    (hFromL2 : ∀ e, terms.l2 key e → expired e.expireAtMs (nowMs ms) = false →
      terms'.l1 key ⟨e.val, nowSecs ms, min 60 c.l1.maxTtlSecs⟩)
    (hFromL3 : ∀ e, terms.redis key e → ms < e.expireAtMs → e.val.length < 2 ^ 32 ∧
      terms'.l1 key ⟨e.val, nowSecs ms, min 60 c.l1.maxTtlSecs⟩ ∧
      terms'.l2 key ⟨e.val, nowMs ms + 60 * 1000⟩) :
    (c.get ms answers key).2.Meets terms' := by
  have hOld {v : Option Bytes} {l1 : L1Cache} (hFirst : c.l1.get (nowSecs ms) key = (v, l1))
      (k : Str) (e : L1.Entry) (hHas : l1.Has k e) : terms'.l1 k e := by
    have hSnd : (c.l1.get (nowSecs ms) key).2 = l1 := congrArg Prod.snd hFirst
    exact hNext.l1 k e (L1Cache.has_get (hSnd ▸ hHas))
  have hNew {v : Option Bytes} {l1 : L1Cache} (hFirst : c.l1.get (nowSecs ms) key = (v, l1))
      {raw : Bytes} (hTerms : terms'.l1 key ⟨raw, nowSecs ms, min 60 c.l1.maxTtlSecs⟩)
      (k : Str) (e : L1.Entry) (hHas : (l1.put (nowSecs ms) key raw 60).Has k e) :
      terms'.l1 k e := by
    have hSnd : (c.l1.get (nowSecs ms) key).2 = l1 := congrArg Prod.snd hFirst
    have hSame : l1.maxTtlSecs = c.l1.maxTtlSecs := by rw [← hSnd, L1Cache.get_maxTtlSecs]
    rcases L1Cache.has_put hHas with hBefore | ⟨_, rfl, rfl⟩
    · exact hOld hFirst k e hBefore
    · rwa [hSame]
  rw [TieredCache.get]
  split
  · rename_i v l1 hFirst
    exact ⟨hOld hFirst, hNext.l2, hNext.queued, hNext.redis⟩
  · rename_i l1 hFirst
    split
    · rename_i v hSecond
      obtain ⟨e, hTerms, hLive, rfl⟩ := h.getL2 hSecond
      exact ⟨hNew hFirst (hFromL2 e hTerms hLive), hNext.l2, hNext.queued, hNext.redis⟩
    · split
      · rename_i v hThird
        obtain ⟨e, hTerms, hLive, rfl⟩ := h.getL3 hThird
        obtain ⟨hLength, hTermsL1, hTermsL2⟩ := hFromL3 e hTerms hLive
        exact ⟨hNew hFirst hTermsL1, meets_putL2 hNext.l2 hKey hLength fun _ => hTermsL2,
          hNext.queued, hNext.redis⟩
      · exact ⟨hOld hFirst, hNext.l2, hNext.queued, hNext.redis⟩

/-- A lookup that promotes nothing makes no copy. -/
theorem Meets.get_of_not_promotes (h : c.Meets terms) {answers : Bool}
    (hNot : c.promotes ms answers key = false) : (c.get ms answers key).2.Meets terms := by
  have hSecond : (c.get ms answers key).2 = { c with l1 := (c.l1.get (nowSecs ms) key).2 } := by
    rw [promotes, TieredCache.get] at hNot
    rw [TieredCache.get]
    split at hNot
    · rename_i v l1 hFirst
      rw [hFirst]
    · rename_i l1 hFirst
      split at hNot
      · simp [hFirst] at hNot
      · split at hNot
        · simp [hFirst] at hNot
        · rw [hFirst]
  rw [hSecond]
  exact ⟨fun k e hHas => h.l1 k e (L1Cache.has_get hHas), h.l2, h.queued, h.redis⟩

/-- The bound on the first level's ttls never changes. -/
@[simp] theorem get_maxTtlSecs (c : TieredCache) (ms : Nat) (answers : Bool) (key : Str) :
    (c.get ms answers key).2.l1.maxTtlSecs = c.l1.maxTtlSecs := by
  have hFirst := L1Cache.get_maxTtlSecs c.l1 (nowSecs ms) key
  rw [TieredCache.get]
  cases hL1 : c.l1.get (nowSecs ms) key with
  | mk found l1 =>
      rw [hL1] at hFirst
      cases found with
      | some v => exact hFirst
      | none =>
          dsimp only
          split
          · rw [L1Cache.put_maxTtlSecs]
            exact hFirst
          · split
            · rw [L1Cache.put_maxTtlSecs]
              exact hFirst
            · exact hFirst

@[simp] theorem put_maxTtlSecs (c : TieredCache) (ms : Nat) (key : Str) (raw : Bytes)
    (ttlSecs : Int64) : (c.put ms key raw ttlSecs).l1.maxTtlSecs = c.l1.maxTtlSecs := by
  rw [TieredCache.put]
  split_ifs
  · rfl
  · rw [L1Cache.put_maxTtlSecs]

theorem writeL3_l1 {answers : Bool} {cmd : SetCommand} {c' : TieredCache}
    (hWrite : c.writeL3 ms answers = some (cmd, c')) : c'.l1 = c.l1 := by
  rw [writeL3] at hWrite
  split at hWrite
  · cases hWrite
  · split at hWrite
    · cases hWrite
    · cases hWrite
      rfl

end TieredCache

end Dnsd.Cache
