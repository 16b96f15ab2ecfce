import Dnsd.Base.Runs
import Dnsd.Cache.Tiers

/-! How long an entry may be served: each copy carries a deadline of its own,
and a promotion makes a copy whose deadline is a minute away. A copy goes back
to its put by at most two promotions. -/

namespace Dnsd.Cache.Tiered

open Bytes L1

/-! ## Runs -/

/-- What is done to the cache, with the clock: calls, answers of Redis or none, the writer
thread, and time that passes. -/
inductive Action where
  | advance (ms : Nat)
  | put (key : Str) (raw : Bytes) (ttlSecs : Int64)
  | get (answers : Bool) (key : Str)
  | del (answers : Bool) (key : Str)
  | purgePrefix (pre : Str)
  | writeL3 (answers : Bool)

/-- What a run has done: a put that stored its bytes, a `SET` in Redis, and a
lookup that promoted what it found. -/
inductive Event where
  | stored (ms : Nat) (key : Str) (raw : Bytes) (ttlSecs : Int64)
  | written (ms : Nat) (key : Str) (raw : Bytes) (ttlSecs : Int64)
  | promoted (ms : Nat) (key : Str)
  deriving DecidableEq

/-- The cache, the clock and the events so far, latest first. -/
structure World where
  cache : TieredCache
  ms : Nat
  history : List Event

/-- A cache with an empty log at some time, and nothing has happened. -/
def World.init (l1MaxEntries : Nat) (l1TtlSecs : Int64) (redisConnects : Bool) (ms : Nat) : World :=
  ⟨TieredCache.new l1MaxEntries l1TtlSecs redisConnects, ms, []⟩

/-- One step. The clock does not run backwards and stays within an `i64`. -/
def World.step (w : World) : Action → Option World
  | .advance ms => if w.ms ≤ ms ∧ ms < clockLimit then some { w with ms := ms } else none
  | .put key raw ttlSecs =>
      some { w with
        cache := w.cache.put w.ms key raw ttlSecs
        history := if ttlSecs ≤ 0 then w.history else .stored w.ms key raw ttlSecs :: w.history }
  | .get answers key =>
      some { w with
        cache := (w.cache.get w.ms answers key).2
        history := if w.cache.promotes w.ms answers key then .promoted w.ms key :: w.history
          else w.history }
  | .del answers key => some { w with cache := w.cache.del answers key }
  | .purgePrefix pre => some { w with cache := (w.cache.purgePrefix pre).2 }
  | .writeL3 answers =>
      (w.cache.writeL3 w.ms answers).map fun (cmd, cache) =>
        { w with
          cache := cache
          history := if answers then .written w.ms cmd.key cmd.raw cmd.ttlSecs :: w.history
            else w.history }

/-- Keys and values shorter than the length fields of the log. -/
def Action.Fits : Action → Prop
  | .put key raw _ => key.len < 2 ^ 32 ∧ raw.length < 2 ^ 32
  | .get _ key => key.len < 2 ^ 32
  | _ => True

/-- What a run leads to from an empty cache. -/
def Reachable (w : World) : Prop :=
  ∃ l1MaxEntries l1TtlSecs redisConnects ms actions, ms < clockLimit ∧
    (∀ a ∈ actions, a.Fits) ∧
    Runs.run World.step (World.init l1MaxEntries l1TtlSecs redisConnects ms) actions = some w

/-! ## Deadlines -/

/-- The promotions of a key from a time on. -/
def promotions (history : List Event) (key : Str) (since : Nat) : Nat :=
  history.countP fun e =>
    match e with
    | .promoted ms k => k = key ∧ since ≤ ms
    | _ => false

/-- A deadline that a put or `SET` at one of the given times and ttls accounts
for, with a minute for each of so many promotions since. -/
def Due (origin : Nat → Int64 → Prop) (history : List Event) (key : Str) (steps : Nat)
    (deadline : Int) : Prop :=
  ∃ t ttlSecs, origin t ttlSecs ∧
    deadline ≤ t + 1000 * ttlSecs.toInt + 60000 * (min (promotions history key t) steps : Nat)

/-- The put of these bytes under the key. -/
def ByPut (history : List Event) (key : Str) (raw : Bytes) (t : Nat) (ttlSecs : Int64) : Prop :=
  .stored t key raw ttlSecs ∈ history

/-- The `SET` that the writer thread made for an earlier such put. -/
def BySet (history : List Event) (key : Str) (raw : Bytes) (t : Nat) (ttlSecs : Int64) : Prop :=
  .written t key raw ttlSecs ∈ history ∧ ∃ t₀ ≤ t, .stored t₀ key raw ttlSecs ∈ history

theorem Due.mono {origin origin' : Nat → Int64 → Prop} {history : List Event} {key : Str}
    {steps : Nat} {deadline : Int} (h : Due origin history key steps deadline) (e : Event)
    (hOrigin : ∀ t ttlSecs, origin t ttlSecs → origin' t ttlSecs) :
    Due origin' (e :: history) key steps deadline := by
  obtain ⟨t, ttlSecs, hBegin, hDeadline⟩ := h
  have hMore : promotions history key t ≤ promotions (e :: history) key t :=
    (List.sublist_cons_self e history).countP_le
  exact ⟨t, ttlSecs, hOrigin t ttlSecs hBegin, by omega⟩

theorem Due.more {origin : Nat → Int64 → Prop} {history : List Event} {key : Str} {steps : Nat}
    {deadline : Int} (h : Due origin history key steps deadline) :
    Due origin history key (steps + 1) deadline := by
  obtain ⟨t, ttlSecs, hBegin, hDeadline⟩ := h
  exact ⟨t, ttlSecs, hBegin, by omega⟩

/-- A promotion before the deadline gives the copy a minute from now. -/
theorem Due.promote {origin origin' : Nat → Int64 → Prop} {history : List Event} {key : Str}
    {steps : Nat} {deadline : Int} (h : Due origin history key steps deadline) {ms : Nat}
    (hBefore : (ms : Int) < deadline) (hSince : ∀ t ttlSecs, origin t ttlSecs → t ≤ ms)
    (hOrigin : ∀ t ttlSecs, origin t ttlSecs → origin' t ttlSecs) :
    Due origin' (.promoted ms key :: history) key (steps + 1) (ms + 60000) := by
  obtain ⟨t, ttlSecs, hBegin, hDeadline⟩ := h
  have hOne : promotions (.promoted ms key :: history) key t = promotions history key t + 1 := by
    rw [promotions, List.countP_cons_of_pos (by simpa using hSince t ttlSecs hBegin)]
    rfl
  exact ⟨t, ttlSecs, hOrigin t ttlSecs hBegin, by omega⟩

/-- A copy that can be told to be live only before the deadline. -/
def Lasts (live : Nat → Bool) (deadline : Int) : Prop :=
  ∀ ms < clockLimit, live ms = true → (ms : Int) < deadline

/-- An entry of the first level runs out no later than its put says: the seconds
are rounded down at both ends. -/
theorem lasts_l1 {t : Nat} (hClock : t < clockLimit) (raw : Bytes) (ttlSecs maxTtlSecs : Int64) :
    Lasts (fun ms => (L1.Entry.mk raw (nowSecs t) (min ttlSecs maxTtlSecs)).fresh maxTtlSecs
      (nowSecs ms)) (t + 1000 * ttlSecs.toInt) := by
  intro ms hNow hFresh
  have hLimit : clockLimit = 2 ^ 63 := rfl
  simp only [L1.Entry.fresh, decide_eq_true_eq] at hFresh
  have hCapped : min ttlSecs maxTtlSecs ≤ ttlSecs := by
    have hMin : min ttlSecs maxTtlSecs = if ttlSecs ≤ maxTtlSecs then ttlSecs else maxTtlSecs := rfl
    rw [hMin]
    split_ifs with hLe
    · exact Int64.le_refl _
    · exact Int64.le_of_lt (Int64.not_le.mp hLe)
  have hTtl : nowSecs ms - nowSecs t < ttlSecs := Int64.lt_of_lt_of_le hFresh.1 hCapped
  rw [Int64.lt_iff_toInt_lt, Int64.toInt_sub, nowSecs_toInt hNow, nowSecs_toInt hClock,
    Int.bmod_eq_of_le (by omega) (by omega)] at hTtl
  omega

/-- So does a record of the second level. Where the sum overflows, the stored
time is before the clock or, at zero, the true time is beyond it. -/
theorem lasts_l2 {t : Nat} (hClock : t < clockLimit) (ttlSecs : Int64) (hTtl : 0 < ttlSecs) :
    Lasts (fun ms => !expired (nowMs t + ttlSecs * 1000) (nowMs ms))
      (t + 1000 * ttlSecs.toInt) := by
  intro ms hNow hLive
  have hLimit : clockLimit = 2 ^ 63 := rfl
  have hPositive : 0 < ttlSecs.toInt := by simpa [Int64.lt_iff_toInt_lt] using hTtl
  have hWrapped : (nowMs t + ttlSecs * 1000).toInt =
      Int.bmod (t + 1000 * ttlSecs.toInt) (2 ^ 64) := by
    rw [Int64.toInt_add, Int64.toInt_mul, nowMs_toInt hClock, Int.add_bmod_bmod, Int.mul_comm]
    rfl
  rw [Int.bmod_def] at hWrapped
  simp only [expired, Bool.not_eq_true', decide_eq_false_iff_not, not_and, Int64.not_le] at hLive
  by_cases hZero : nowMs t + ttlSecs * 1000 = 0
  · rw [hZero] at hWrapped
    have hNone : (0 : Int64).toInt = 0 := rfl
    omega
  · have hBefore := Int64.lt_iff_toInt_lt.mp (hLive hZero)
    rw [nowMs_toInt hNow] at hBefore
    omega

/-! ## The invariant -/

/-- Each copy has a deadline that its own expiry keeps and that goes back to a
put: by no promotion or by one at most when it came through the second level,
and by one more when it came through the third one. -/
def terms (history : List Event) (maxTtlSecs : Int64) : Terms where
  l1 key e := ∃ deadline, Lasts (fun ms => e.fresh maxTtlSecs (nowSecs ms)) deadline ∧
    (Due (ByPut history key e.raw) history key 1 deadline ∨
      Due (BySet history key e.raw) history key 2 deadline)
  l2 key e := ∃ deadline, Lasts (fun ms => !expired e.expireAtMs (nowMs ms)) deadline ∧
    (Due (ByPut history key e.val) history key 0 deadline ∨
      Due (BySet history key e.val) history key 1 deadline)
  queued cmd := cmd.raw.length < 2 ^ 32 ∧ 0 < cmd.ttlSecs ∧
    ∃ t, ByPut history cmd.key cmd.raw t cmd.ttlSecs
  redis key e := e.val.length < 2 ^ 32 ∧ Due (BySet history key e.val) history key 0 e.expireAtMs

/-- When it happened, in milliseconds. -/
def Event.ms : Event → Nat
  | .stored ms _ _ _ | .written ms _ _ _ | .promoted ms _ => ms

/-- What every step keeps: each copy in a tier has its origin in the history, within the
terms of that tier. -/
structure World.Sound (w : World) : Prop where
  clock : w.ms < clockLimit
  past : ∀ e ∈ w.history, e.ms ≤ w.ms
  copies : w.cache.Meets (terms w.history w.cache.l1.maxTtlSecs)

theorem World.sound_init (l1MaxEntries : Nat) (l1TtlSecs : Int64) (redisConnects : Bool) {ms : Nat}
    (hClock : ms < clockLimit) : (World.init l1MaxEntries l1TtlSecs redisConnects ms).Sound :=
  ⟨hClock, by simp [World.init], TieredCache.meets_new _ _ _ _⟩

theorem bySet_mono {history : List Event} {key : Str} {raw : Bytes} (e : Event) (t : Nat)
    (ttlSecs : Int64) (h : BySet history key raw t ttlSecs) :
    BySet (e :: history) key raw t ttlSecs := by
  obtain ⟨hWritten, t₀, hBefore, hStored⟩ := h
  exact ⟨List.mem_cons_of_mem e hWritten, t₀, hBefore, List.mem_cons_of_mem e hStored⟩

/-- An event more takes nothing from the copies there are. -/
theorem meets_event {c : TieredCache} {history : List Event} {maxTtlSecs : Int64}
    (h : c.Meets (terms history maxTtlSecs)) (e : Event) :
    c.Meets (terms (e :: history) maxTtlSecs) := by
  have hPut (key : Str) (raw : Bytes) (steps : Nat) (deadline : Int)
      (hDue : Due (ByPut history key raw) history key steps deadline) :
      Due (ByPut (e :: history) key raw) (e :: history) key steps deadline :=
    hDue.mono e fun _ _ hStored => List.mem_cons_of_mem e hStored
  have hSet (key : Str) (raw : Bytes) (steps : Nat) (deadline : Int)
      (hDue : Due (BySet history key raw) history key steps deadline) :
      Due (BySet (e :: history) key raw) (e :: history) key steps deadline :=
    hDue.mono e (bySet_mono e)
  refine h.mono ?_ ?_ ?_ ?_
  · rintro key copy ⟨deadline, hLasts, hDue⟩
    exact ⟨deadline, hLasts, hDue.imp (hPut _ _ _ _) (hSet _ _ _ _)⟩
  · rintro key copy ⟨deadline, hLasts, hDue⟩
    exact ⟨deadline, hLasts, hDue.imp (hPut _ _ _ _) (hSet _ _ _ _)⟩
  · rintro cmd ⟨hLength, hTtl, t, hStored⟩
    exact ⟨hLength, hTtl, t, List.mem_cons_of_mem e hStored⟩
  · rintro key copy ⟨hLength, hDue⟩
    exact ⟨hLength, hSet _ _ _ _ hDue⟩

section Steps

variable {w : World}

theorem World.Sound.put (h : w.Sound) {key : Str} {raw : Bytes} (ttlSecs : Int64)
    (hKey : key.len < 2 ^ 32) (hRaw : raw.length < 2 ^ 32) (hTtl : ¬ttlSecs ≤ 0) :
    (w.cache.put w.ms key raw ttlSecs).Meets
      (terms (.stored w.ms key raw ttlSecs :: w.history) w.cache.l1.maxTtlSecs) := by
  have hPositive := Int64.not_le.mp hTtl
  have hDue (steps : Nat) : Due (ByPut (.stored w.ms key raw ttlSecs :: w.history) key raw)
      (.stored w.ms key raw ttlSecs :: w.history) key steps (w.ms + 1000 * ttlSecs.toInt) :=
    ⟨w.ms, ttlSecs, List.mem_cons_self, by omega⟩
  refine (meets_event h.copies _).put hKey hRaw (fun _ => ?_) (fun _ => ?_) fun _ => ?_
  · exact ⟨_, lasts_l1 h.clock raw ttlSecs w.cache.l1.maxTtlSecs, Or.inl (hDue 1)⟩
  · exact ⟨_, lasts_l2 h.clock ttlSecs hPositive, Or.inl (hDue 0)⟩
  · exact ⟨hRaw, hPositive, w.ms, List.mem_cons_self⟩

/-- The copy that a promotion makes a minute long. -/
theorem World.Sound.promoted (h : w.Sound) {key : Str} {raw : Bytes} {steps : Nat} {deadline : Int}
    (hBefore : (w.ms : Int) < deadline) :
    (Due (ByPut w.history key raw) w.history key steps deadline →
      Due (ByPut (.promoted w.ms key :: w.history) key raw) (.promoted w.ms key :: w.history) key
        (steps + 1) (w.ms + 60000)) ∧
    (Due (BySet w.history key raw) w.history key steps deadline →
      Due (BySet (.promoted w.ms key :: w.history) key raw) (.promoted w.ms key :: w.history) key
        (steps + 1) (w.ms + 60000)) := by
  refine ⟨fun hDue => hDue.promote hBefore (fun t ttlSecs hStored => h.past _ hStored)
    fun _ _ hStored => List.mem_cons_of_mem _ hStored, fun hDue => hDue.promote hBefore
    (fun t ttlSecs hBySet => h.past _ hBySet.1) (bySet_mono _)⟩

theorem World.Sound.get (h : w.Sound) (answers : Bool) {key : Str} (hKey : key.len < 2 ^ 32)
    {w' : World} (hStep : w.step (.get answers key) = some w') : w'.Sound := by
  cases hStep
  cases hPromotes : w.cache.promotes w.ms answers key with
  | false =>
      refine ⟨h.clock, h.past, ?_⟩
      simpa using h.copies.get_of_not_promotes hPromotes
  | true =>
      refine ⟨h.clock, fun e he => ?_, ?_⟩
      · rcases List.mem_cons.mp he with rfl | hOld
        · exact Nat.le_refl _
        · exact h.past e hOld
      · have hMinute (raw : Bytes) := lasts_l1 h.clock raw 60 w.cache.l1.maxTtlSecs
        have hMinuteL2 := lasts_l2 h.clock 60 (by decide)
        dsimp only
        rw [TieredCache.get_maxTtlSecs]
        refine h.copies.get (meets_event h.copies _) answers hKey ?_ ?_
        · rintro e ⟨deadline, hLasts, hDue⟩ hLive
          have hBefore := hLasts w.ms h.clock (by simpa using hLive)
          exact ⟨_, hMinute e.val, hDue.imp (h.promoted hBefore).1 (h.promoted hBefore).2⟩
        · rintro e ⟨hLength, hDue⟩ hLive
          have hAgain := (h.promoted (by exact_mod_cast hLive)).2 hDue
          exact ⟨hLength, ⟨_, hMinute e.val, Or.inr hAgain.more⟩, ⟨_, hMinuteL2, Or.inr hAgain⟩⟩

/-- Every step keeps the invariant. -/
theorem World.Sound.step {w' : World} {a : Action} (h : w.Sound) (hFits : a.Fits)
    (hStep : w.step a = some w') : w'.Sound := by
  cases a with
  | advance ms =>
      rw [World.step] at hStep
      split_ifs at hStep with hForward
      cases hStep
      exact ⟨hForward.2, fun e he => (h.past e he).trans hForward.1, h.copies⟩
  | put key raw ttlSecs =>
      cases hStep
      by_cases hTtl : ttlSecs ≤ 0
      · simp only [TieredCache.put, if_pos hTtl]
        exact ⟨h.clock, h.past, h.copies⟩
      · simp only [if_neg hTtl]
        refine ⟨h.clock, fun e he => ?_, ?_⟩
        · rcases List.mem_cons.mp he with rfl | hOld
          · exact Nat.le_refl _
          · exact h.past e hOld
        · dsimp only
          rw [TieredCache.put_maxTtlSecs]
          exact h.put ttlSecs hFits.1 hFits.2 hTtl
  | get answers key => exact h.get answers hFits hStep
  | del answers key =>
      cases hStep
      exact ⟨h.clock, h.past, h.copies.del answers key⟩
  | purgePrefix pre =>
      cases hStep
      exact ⟨h.clock, h.past, h.copies.purgePrefix pre⟩
  | writeL3 answers =>
      obtain ⟨⟨cmd, cache⟩, hWrite, rfl⟩ := Option.map_eq_some_iff.mp hStep
      have hSame := TieredCache.writeL3_l1 hWrite
      cases answers with
      | false =>
          have hMeets := (h.copies.writeL3 hWrite (fun hAnswers => by cases hAnswers)).2
          rw [← hSame] at hMeets
          exact ⟨h.clock, h.past, hMeets⟩
      | true =>
          refine ⟨h.clock, fun e he => ?_, ?_⟩
          · rcases List.mem_cons.mp he with rfl | hOld
            · exact Nat.le_refl _
            · exact h.past e hOld
          · have hMeets := meets_event h.copies (.written w.ms cmd.key cmd.raw cmd.ttlSecs)
            rw [← hSame] at hMeets
            refine (hMeets.writeL3 hWrite fun _ hQueued => ?_).2
            obtain ⟨hLength, hTtl, t, hStored⟩ := hQueued
            have hPositive : 0 < cmd.ttlSecs.toInt := by simpa [Int64.lt_iff_toInt_lt] using hTtl
            have hPast : t ≤ w.ms := by
              rcases List.mem_cons.mp hStored with hNew | hOld
              · cases hNew
              · exact h.past _ hOld
            exact ⟨hLength, w.ms, cmd.ttlSecs, ⟨List.mem_cons_self, t, hPast, hStored⟩, by
              dsimp only
              omega⟩

end Steps

theorem Reachable.sound {w : World} (h : Reachable w) : w.Sound := by
  obtain ⟨l1MaxEntries, l1TtlSecs, redisConnects, ms, actions, hClock, hFits, hRun⟩ := h
  exact Runs.run_invariant (fun _ _ _ hSound hAction hStep => hSound.step hAction hStep)
    (World.sound_init l1MaxEntries l1TtlSecs redisConnects hClock) hFits hRun

/-! ## No answer more than a promotion or two too old -/

/-- The ttl is not over, counted from a time and with a minute more for each
promotion since, for at most so many of them. -/
def Within (history : List Event) (key : Str) (steps t : Nat) (ttlSecs : Int64) (now : Nat) :
    Prop :=
  (now : Int) < t + 1000 * ttlSecs.toInt + 60000 * (min (promotions history key t) steps : Nat)

theorem Due.within {origin : Nat → Int64 → Prop} {history : List Event} {key : Str}
    {steps more : Nat} {deadline : Int} (h : Due origin history key steps deadline)
    (hSteps : steps ≤ more) {now : Nat} (hBefore : (now : Int) < deadline) :
    ∃ t ttlSecs, origin t ttlSecs ∧ Within history key more t ttlSecs now := by
  obtain ⟨t, ttlSecs, hBegin, hDeadline⟩ := h
  refine ⟨t, ttlSecs, hBegin, ?_⟩
  rw [Within]
  omega

/-- Served bytes were put under the key, and either the put is younger than its
ttl, with a minute more if the key was promoted since, or the writer thread has
made its `SET` in Redis, and that is younger than the ttl, with a minute more
for each of at most two promotions since. -/
theorem get_fresh {w : World} (hReach : Reachable w) {answers : Bool} {key : Str} {raw : Bytes}
    (hGet : (w.cache.get w.ms answers key).1 = some raw) :
    ∃ t₀ ttlSecs, .stored t₀ key raw ttlSecs ∈ w.history ∧ t₀ ≤ w.ms ∧
      (Within w.history key 1 t₀ ttlSecs w.ms ∨
        ∃ t₁, t₀ ≤ t₁ ∧ .written t₁ key raw ttlSecs ∈ w.history ∧
          Within w.history key 2 t₁ ttlSecs w.ms) := by
  have hSound := hReach.sound
  have hPut {steps : Nat} {deadline : Int} (hSteps : steps ≤ 1) (hBefore : (w.ms : Int) < deadline)
      (hDue : Due (ByPut w.history key raw) w.history key steps deadline) :
      ∃ t₀ ttlSecs, .stored t₀ key raw ttlSecs ∈ w.history ∧ t₀ ≤ w.ms ∧
        Within w.history key 1 t₀ ttlSecs w.ms := by
    obtain ⟨t, ttlSecs, hStored, hWithin⟩ := hDue.within hSteps hBefore
    exact ⟨t, ttlSecs, hStored, hSound.past _ hStored, hWithin⟩
  have hSet {steps : Nat} {deadline : Int} (hSteps : steps ≤ 2) (hBefore : (w.ms : Int) < deadline)
      (hDue : Due (BySet w.history key raw) w.history key steps deadline) :
      ∃ t₀ ttlSecs, .stored t₀ key raw ttlSecs ∈ w.history ∧ t₀ ≤ w.ms ∧
        ∃ t₁, t₀ ≤ t₁ ∧ .written t₁ key raw ttlSecs ∈ w.history ∧
          Within w.history key 2 t₁ ttlSecs w.ms := by
    obtain ⟨t, ttlSecs, ⟨hWritten, t₀, hBegin, hStored⟩, hWithin⟩ := hDue.within hSteps hBefore
    exact ⟨t₀, ttlSecs, hStored, hSound.past _ hStored, t, hBegin, hWritten, hWithin⟩
  cases hSound.copies.serves hGet with
  | l1 e hTerms hFresh hRaw =>
      subst hRaw
      obtain ⟨deadline, hLasts, hDue⟩ := hTerms
      have hBefore := hLasts w.ms hSound.clock hFresh
      rcases hDue with hDue | hDue
      · obtain ⟨t₀, ttlSecs, hStored, hPast, hWithin⟩ := hPut (Nat.le_refl _) hBefore hDue
        exact ⟨t₀, ttlSecs, hStored, hPast, Or.inl hWithin⟩
      · obtain ⟨t₀, ttlSecs, hStored, hPast, hWithin⟩ := hSet (Nat.le_refl _) hBefore hDue
        exact ⟨t₀, ttlSecs, hStored, hPast, Or.inr hWithin⟩
  | l2 e hTerms hLive hRaw =>
      subst hRaw
      obtain ⟨deadline, hLasts, hDue⟩ := hTerms
      have hBefore := hLasts w.ms hSound.clock (by simpa using hLive)
      rcases hDue with hDue | hDue
      · obtain ⟨t₀, ttlSecs, hStored, hPast, hWithin⟩ := hPut (by omega) hBefore hDue
        exact ⟨t₀, ttlSecs, hStored, hPast, Or.inl hWithin⟩
      · obtain ⟨t₀, ttlSecs, hStored, hPast, hWithin⟩ := hSet (by omega) hBefore hDue
        exact ⟨t₀, ttlSecs, hStored, hPast, Or.inr hWithin⟩
  | l3 e hTerms hLive hRaw =>
      subst hRaw
      obtain ⟨_, hDue⟩ := hTerms
      obtain ⟨t₀, ttlSecs, hStored, hPast, hWithin⟩ := hSet (by omega) (by exact_mod_cast hLive) hDue
      exact ⟨t₀, ttlSecs, hStored, hPast, Or.inr hWithin⟩

/-- A put at 900 ms with a ttl of one second, and a lookup at 1000 ms. The first
level, which counts whole seconds, has dropped its copy by then, and the one of
the second level is promoted for a minute. -/
def promotedRun : List Action :=
  [.put ['k'] [1] 1, .advance 1000, .get true ['k'], .advance 60000]

/-- A value of one second that a lookup at the last moment has promoted, one minute later.
-/
def promotedWorld : World where
  cache := ((TieredCache.new 0 60 false).put 900 ['k'] [1] 1 |>.get 1000 true ['k']).2
  ms := 60000
  history := [.promoted 1000 ['k'], .stored 900 ['k'] [1] 1]

theorem promotedWorld_reachable : Reachable promotedWorld := by
  refine ⟨0, 60, false, 900, promotedRun, by decide, fun a ha => ?_, ?_⟩
  · simp only [promotedRun, List.mem_cons, List.not_mem_nil, or_false] at ha
    rcases ha with rfl | rfl | rfl | rfl
    · exact ⟨by decide, by decide⟩
    · trivial
    · exact (by decide : Str.len ['k'] < 2 ^ 32)
    · trivial
  · rfl

theorem get_promotedWorld : (promotedWorld.cache.get 60000 true ['k']).1 = some [1] := by
  decide +kernel

/-- The promoted value is within its bound: the second that it was put for, and the minute
of its promotion. -/
theorem get_fresh_promotedWorld :
    ∃ t₀ ttlSecs, .stored t₀ ['k'] [1] ttlSecs ∈ promotedWorld.history ∧ t₀ ≤ promotedWorld.ms ∧
      (Within promotedWorld.history ['k'] 1 t₀ ttlSecs promotedWorld.ms ∨
        ∃ t₁, t₀ ≤ t₁ ∧ .written t₁ ['k'] [1] ttlSecs ∈ promotedWorld.history ∧
          Within promotedWorld.history ['k'] 2 t₁ ttlSecs promotedWorld.ms) :=
  get_fresh promotedWorld_reachable get_promotedWorld

/-- The lookup at 1000 ms takes the value up with a minute of its own. The bytes are
served almost a minute after they ran out at 1900 ms. -/
theorem get_stale_promotedWorld :
    ¬∀ w, Reachable w → ∀ answers key raw, (w.cache.get w.ms answers key).1 = some raw →
      ∃ (t₀ : Nat) (ttlSecs : Int64), .stored t₀ key raw ttlSecs ∈ w.history ∧
        (w.ms : Int) < t₀ + 1000 * ttlSecs.toInt + 1000 := by
  intro hAll
  obtain ⟨t₀, ttlSecs, hStored, hFresh⟩ :=
    hAll promotedWorld promotedWorld_reachable true ['k'] [1] get_promotedWorld
  simp only [promotedWorld, List.mem_cons, List.not_mem_nil, or_false, reduceCtorEq, false_or] at hStored
  cases hStored
  exact absurd hFresh (by decide)

end Dnsd.Cache.Tiered
