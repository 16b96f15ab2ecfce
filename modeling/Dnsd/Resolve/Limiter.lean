import Mathlib.Data.Rat.Floor
import Mathlib.Tactic.NormNum
import Dnsd.Base.TokenBucket
import Dnsd.Rust.HashMap
import Dnsd.Rust.Net

/-! The rate limiter of the pipeline, over exact time and exact tokens. -/

namespace Dnsd.Resolve

/-- A reading of the monotonic clock, in seconds. -/
abbrev Instant := ℚ

/-- `Instant::duration_since`, in seconds. It is zero for a later instant, as the library
says. -/
def Instant.durationSince (now earlier : Instant) : ℚ := max (now - earlier) 0

/-- The rate, and for each client the tokens that its last call has left and when that
was. -/
structure Limiter where
  qps : ℚ
  buckets : HashMap IpAddr (ℚ × Instant)

namespace Limiter

/-- A call of `allow` with the readings of the clock it takes: one for each
bucket if it cleans up, and `now`. -/
structure Call where
  ip : IpAddr
  reading : IpAddr → Instant
  now : Instant

/-- `Limiter::new`: a rate of zero counts as one. -/
def new (qps : UInt32) : Limiter := ⟨max qps.toNat 1, ∅⟩

/-- The buckets that the cleanup keeps: of more than 65536, those that were used within
five minutes. -/
def cleanup (buckets : HashMap IpAddr (ℚ × Instant)) (call : Call) :
    HashMap IpAddr (ℚ × Instant) :=
  if buckets.len > 65536 then
    buckets.retain fun ip e => Nat.floor ((call.reading ip).durationSince e.2) < 300
  else
    buckets

/-- `Limiter::allow`: a call that finds less than one token is refused and takes none. -/
def allow (l : Limiter) (call : Call) : Limiter × Bool :=
  if l.qps ≤ 0 then
    (l, true)
  else
    let b := cleanup l.buckets call
    let e := (b.get call.ip).getD (l.qps, call.now)
    let elapsed := call.now.durationSince e.2
    let tokens := min (e.1 + elapsed * l.qps) l.qps
    if tokens < 1 then
      ({ l with buckets := b.insert call.ip (tokens, call.now) }, false)
    else
      ({ l with buckets := b.insert call.ip (tokens - 1, call.now) }, true)

/-- The decisions on calls made one after another. -/
def decisions : Limiter → List Call → List (Call × Bool)
  | _, [] => []
  | l, call :: rest => (call, (l.allow call).2) :: decisions (l.allow call).1 rest

/-- The clock does not run backwards: each call takes its readings after those
of the call before it, and `now` last. -/
def Timely : Instant → List Call → Prop
  | _, [] => True
  | clock, call :: rest =>
      (∀ ip, clock ≤ call.reading ip ∧ call.reading ip ≤ call.now) ∧ Timely call.now rest

/-- The times at which an address calls, in the order of the calls. -/
def callsOf (ip : IpAddr) (calls : List Call) : List Instant :=
  (calls.filter fun call => call.ip = ip).map Call.now

/-- What an address is told, and when, without the calls of the others. -/
def answersTo (ip : IpAddr) (decided : List (Call × Bool)) : List (Instant × Bool) :=
  (decided.filter fun d => d.1.ip = ip).map fun d => (d.1.now, d.2)

/-- The bucket of an address in the map, if there is one. -/
def bucketOf (buckets : HashMap IpAddr (ℚ × Instant)) (ip : IpAddr) :
    Option (TokenBucket.Bucket ℚ) :=
  (buckets.get ip).map fun e => ⟨e.1, e.2⟩

open TokenBucket

/-- At time `now` the map serves an address as a bucket of its own would. -/
structure Stands (qps : ℚ) (buckets : HashMap IpAddr (ℚ × Instant)) (ip : IpAddr)
    (own : Option (Bucket ℚ)) (now : Instant) : Prop where
  kept : Sound (bucketOf buckets ip) now
  alone : Sound own now
  level : ∀ later, now ≤ later →
    levelOf qps qps (bucketOf buckets ip) later = levelOf qps qps own later

theorem Stands.mono {qps : ℚ} {buckets : HashMap IpAddr (ℚ × Instant)} {ip : IpAddr}
    {own : Option (Bucket ℚ)} {now later : Instant} (h : Stands qps buckets ip own now)
    (hLater : now ≤ later) : Stands qps buckets ip own later :=
  ⟨h.kept.mono hLater, h.alone.mono hLater, fun t ht => h.level t (hLater.trans ht)⟩

theorem bucketOf_cleanup (buckets : HashMap IpAddr (ℚ × Instant)) (call : Call) (ip : IpAddr) :
    bucketOf (cleanup buckets call) ip = bucketOf buckets ip ∨
      bucketOf (cleanup buckets call) ip = none ∧
        ∃ used, bucketOf buckets ip = some used ∧ used.last + 300 ≤ call.reading ip := by
  rw [cleanup]
  split_ifs with hFull
  · rw [bucketOf, bucketOf, HashMap.get_retain]
    cases hGet : buckets.get ip with
    | none => exact .inl rfl
    | some e =>
        rw [Option.filter_some]
        split_ifs with hKeep
        · exact .inl rfl
        · refine .inr ⟨rfl, _, rfl, ?_⟩
          have hIdle : 300 ≤ Nat.floor ((call.reading ip).durationSince e.2) := by
            simpa using hKeep
          have hDuration := (Nat.le_floor_iff' (by decide)).mp hIdle
          rw [Instant.durationSince, le_max_iff] at hDuration
          norm_num at hDuration
          show e.2 + 300 ≤ call.reading ip
          linarith
  · exact .inl rfl

theorem Stands.of_bucketOf {qps : ℚ} {buckets : HashMap IpAddr (ℚ × Instant)} {ip : IpAddr}
    {own : Option (Bucket ℚ)} {now : Instant} (h : bucketOf buckets ip = own)
    (hSound : Sound own now) : Stands qps buckets ip own now :=
  ⟨h ▸ hSound, hSound, fun _ _ => by rw [h]⟩

/-- Dropping an idle bucket cannot be observed: it would be full again. -/
theorem Stands.cleanup {qps : ℚ} {buckets : HashMap IpAddr (ℚ × Instant)} {ip : IpAddr}
    {own : Option (Bucket ℚ)} {call : Call} (hQps : 0 ≤ qps)
    (h : Stands qps buckets ip own call.now) (hReading : call.reading ip ≤ call.now) :
    Stands qps (Limiter.cleanup buckets call) ip own call.now := by
  rcases bucketOf_cleanup buckets call ip with hKept | ⟨hNone, used, hUsed, hIdle⟩
  · exact ⟨hKept ▸ h.kept, h.alone, fun later hLater => hKept ▸ h.level later hLater⟩
  · refine ⟨?_, h.alone, ?_⟩
    · intro other hOther
      rw [hNone] at hOther
      cases hOther
    · intro later hLater
      have hTokens := (h.kept used hUsed).1
      have hFill : qps ≤ 300 * qps := by linarith
      have hPast : used.last + 300 ≤ later := (hIdle.trans hReading).trans hLater
      rw [hNone, ← levelOf_of_idle hQps hTokens hFill hPast, ← hUsed]
      exact h.level later hLater

/-- The stored entry after a call, and its decision, are those of a bucket with
the level that the map gives the caller. -/
theorem allow_eq {l : Limiter} (hQps : 0 < l.qps) {call : Call}
    (hKept : Sound (bucketOf (Limiter.cleanup l.buckets call) call.ip) call.now) :
    l.allow call =
      let level := levelOf l.qps l.qps (bucketOf (Limiter.cleanup l.buckets call) call.ip) call.now
      let called := spend level call.now
      ({ l with buckets :=
          (Limiter.cleanup l.buckets call).insert call.ip (called.1.tokens, call.now) },
        called.2) := by
  rw [allow, if_neg hQps.not_ge]
  have hLevel : levelOf l.qps l.qps (bucketOf (Limiter.cleanup l.buckets call) call.ip) call.now =
      let e := ((Limiter.cleanup l.buckets call).get call.ip).getD (l.qps, call.now)
      min (e.1 + call.now.durationSince e.2 * l.qps) l.qps := by
    cases hGet : (Limiter.cleanup l.buckets call).get call.ip with
    | none => simp [bucketOf, hGet, levelOf, Instant.durationSince]
    | some e =>
        have hLast : e.2 ≤ call.now := (hKept ⟨e.1, e.2⟩ (by simp [bucketOf, hGet])).2
        simp [bucketOf, hGet, levelOf, Bucket.level, Instant.durationSince, hLast]
  simp only [hLevel, spend]
  split_ifs <;> rfl

@[simp] theorem bucketOf_insert_self (buckets : HashMap IpAddr (ℚ × Instant)) (ip : IpAddr)
    (e : ℚ × Instant) : bucketOf (buckets.insert ip e) ip = some ⟨e.1, e.2⟩ := by
  rw [bucketOf, HashMap.get_insert_self]
  rfl

@[simp] theorem bucketOf_insert_ne (buckets : HashMap IpAddr (ℚ × Instant)) {ip other : IpAddr}
    (e : ℚ × Instant) (h : ip ≠ other) :
    bucketOf (buckets.insert other e) ip = bucketOf buckets ip := by
  rw [bucketOf, HashMap.get_insert_ne buckets e h, bucketOf]

@[simp] theorem allow_qps (l : Limiter) (call : Call) : (l.allow call).1.qps = l.qps := by
  rw [allow]
  split_ifs with hOff
  · rfl
  · dsimp only
    split_ifs <;> rfl

/-- A call of another address leaves an address as it stands. -/
theorem Stands.allow_other {l : Limiter} (hQps : 0 < l.qps) {call : Call} {ip : IpAddr}
    {own : Option (Bucket ℚ)} (h : Stands l.qps l.buckets ip own call.now)
    (hReading : call.reading ip ≤ call.now) (hOther : ip ≠ call.ip) :
    Stands l.qps (l.allow call).1.buckets ip own call.now := by
  have hCleaned := h.cleanup hQps.le hReading
  have hSame : bucketOf (l.allow call).1.buckets ip =
      bucketOf (Limiter.cleanup l.buckets call) ip := by
    rw [allow, if_neg hQps.not_ge]
    dsimp only
    split_ifs <;> exact bucketOf_insert_ne _ _ hOther
  exact ⟨hSame ▸ hCleaned.kept, hCleaned.alone, fun later hLater => hSame ▸ hCleaned.level later hLater⟩

/-- A call of the address itself is decided as by a bucket of its own. -/
theorem Stands.allow_self {l : Limiter} (hQps : 0 < l.qps) {call : Call} {own : Option (Bucket ℚ)}
    (h : Stands l.qps l.buckets call.ip own call.now) (hReading : call.reading call.ip ≤ call.now) :
    let called := spend (levelOf l.qps l.qps own call.now) call.now
    (l.allow call).2 = called.2 ∧
      Stands l.qps (l.allow call).1.buckets call.ip (some called.1) call.now := by
  have hCleaned := h.cleanup hQps.le hReading
  have hLevel := hCleaned.level call.now (le_refl _)
  have hAlone := hCleaned.alone.spend hQps.le hQps.le
  rw [allow_eq hQps hCleaned.kept, hLevel]
  refine ⟨rfl, ?_⟩
  dsimp only
  generalize hCalled : spend (levelOf l.qps l.qps own call.now) call.now = called at hAlone
  have hLast : called.1.last = call.now := by rw [← hCalled, spend_last]
  have hBucket : bucketOf ((Limiter.cleanup l.buckets call).insert call.ip
      (called.1.tokens, call.now)) call.ip = some called.1 := by
    rw [bucketOf_insert_self, ← hLast]
  exact .of_bucketOf hBucket hAlone

/-- Over a whole run an address is answered as by a bucket of its own. -/
theorem Stands.answersTo_decisions {l : Limiter} (hQps : 0 < l.qps) {ip : IpAddr}
    {own : Option (Bucket ℚ)} {clock : Instant} (h : Stands l.qps l.buckets ip own clock)
    {calls : List Call} (hTimely : Timely clock calls) :
    answersTo ip (l.decisions calls) = answers l.qps l.qps own (callsOf ip calls) := by
  induction calls generalizing l own clock with
  | nil => rfl
  | cons call rest ih =>
      obtain ⟨hReadings, hRest⟩ := hTimely
      have hClock : clock ≤ call.now := (hReadings ip).1.trans (hReadings ip).2
      have hNow := h.mono hClock
      have hQps' : 0 < (l.allow call).1.qps := by rwa [allow_qps]
      rw [decisions]
      by_cases hOwn : call.ip = ip
      · subst hOwn
        obtain ⟨hDecision, hLater⟩ := hNow.allow_self hQps (hReadings call.ip).2
        rw [← allow_qps l call] at hLater
        have hTail := ih hQps' hLater hRest
        rw [allow_qps] at hTail
        rw [answersTo] at hTail ⊢
        simp [callsOf, answers, hDecision, hTail]
      · have hLater := hNow.allow_other hQps (hReadings ip).2 (Ne.symm hOwn)
        rw [← allow_qps l call] at hLater
        have hTail := ih hQps' hLater hRest
        rw [allow_qps] at hTail
        rw [answersTo] at hTail ⊢
        simp [callsOf, hOwn, hTail]

theorem Timely.forward {clock : Instant} {calls : List Call} (h : Timely clock calls)
    (ip : IpAddr) : Forward clock (callsOf ip calls) := by
  induction calls generalizing clock with
  | nil => trivial
  | cons call rest ih =>
      obtain ⟨hReadings, hRest⟩ := h
      have hClock : clock ≤ call.now := (hReadings ip).1.trans (hReadings ip).2
      have hTail := ih hRest
      rw [callsOf] at hTail ⊢
      rw [List.filter_cons]
      split_ifs with hOwn
      · exact ⟨hClock, hTail⟩
      · exact hTail.mono hClock

theorem one_le_new (qps : UInt32) : 1 ≤ (new qps).qps := le_max_right _ _

/-- From the start on, an address is answered as by a full bucket of its own. -/
theorem answersTo_new (qps : UInt32) (ip : IpAddr) {clock : Instant} {calls : List Call}
    (hTimely : Timely clock calls) :
    answersTo ip ((new qps).decisions calls) =
      answers (new qps).qps (new qps).qps none (callsOf ip calls) := by
  have hStart : Stands (new qps).qps (new qps).buckets ip none clock :=
    .of_bucketOf rfl fun _ h => nomatch h
  exact hStart.answersTo_decisions (zero_lt_one.trans_le (one_le_new qps)) hTimely

/-- The calls of an address that are allowed in a window of time. -/
def allowedIn (ip : IpAddr) (start stop : Instant) (decided : List (Call × Bool)) :
    List (Call × Bool) :=
  decided.filter fun d => d.1.ip = ip ∧ d.2 ∧ start ≤ d.1.now ∧ d.1.now ≤ stop

theorem allowedIn_length (ip : IpAddr) (start stop : Instant) (decided : List (Call × Bool)) :
    (allowedIn ip start stop decided).length =
      (TokenBucket.allowedIn start stop (answersTo ip decided)).length := by
  rw [allowedIn, TokenBucket.allowedIn, answersTo, List.filter_map, List.length_map,
    List.filter_filter]
  congr 2
  funext d
  simp [Bool.and_comm]

/-- Two consecutive calls of an address are consecutive among its answers. -/
theorem answersTo_split {ip : IpAddr} {before between after : List (Call × Bool)}
    {first second : Call × Bool} (hFirst : first.1.ip = ip) (hSecond : second.1.ip = ip)
    (hBetween : ∀ d ∈ between, d.1.ip ≠ ip) :
    answersTo ip (before ++ first :: between ++ second :: after) =
      answersTo ip before ++ (first.1.now, first.2) :: (second.1.now, second.2) ::
        answersTo ip after := by
  have hNone : between.filter (fun d => decide (d.1.ip = ip)) = [] :=
    List.filter_eq_nil_iff.mpr fun d hd => by simp [hBetween d hd]
  simp [answersTo, hFirst, hSecond, hNone]

/-- The law of the limiter: in a window of length `span` an address is allowed
at most `qps + qps * span` calls, a call that comes `1 / qps` after the one
before it is allowed, and what an address is told is a function of the times of
its own calls. -/
theorem decisions_law (qps : UInt32) (ip : IpAddr) {clock : Instant} {calls : List Call}
    (hTimely : Timely clock calls) :
    let limiter := new qps
    let decided := limiter.decisions calls
    (∀ start span, 0 ≤ span →
      ((allowedIn ip start (start + span) decided).length : ℚ) ≤
        limiter.qps + limiter.qps * span) ∧
    (∀ before first between second after,
      decided = before ++ first :: between ++ second :: after →
      first.1.ip = ip → second.1.ip = ip → (∀ d ∈ between, d.1.ip ≠ ip) →
      first.1.now + 1 / limiter.qps ≤ second.1.now → second.2 = true) ∧
    (∀ clock' calls', Timely clock' calls' → callsOf ip calls' = callsOf ip calls →
      answersTo ip (limiter.decisions calls') = answersTo ip decided) := by
  dsimp only
  have hOne := one_le_new qps
  have hPositive : 0 < (new qps).qps := zero_lt_one.trans_le hOne
  have hStart : Sound (none : Option (Bucket ℚ)) clock := fun _ h => nomatch h
  have hAnswers := answersTo_new qps ip hTimely
  refine ⟨?_, ?_, ?_⟩
  · intro start span hSpan
    have hStop : start ≤ start + span := le_add_of_nonneg_right hSpan
    have hWindow := allowedIn_le hPositive.le hPositive.le hStart hStop (hTimely.forward ip)
    rw [allowedIn_length, hAnswers]
    refine hWindow.trans_eq ?_
    ring
  · intro before first between second after hDecided hFirst hSecond hBetween hWait
    rw [hDecided, answersTo_split hFirst hSecond hBetween] at hAnswers
    exact allowed_of_wait hOne hPositive hStart (hTimely.forward ip) hAnswers.symm hWait
  · intro clock' calls' hTimely' hSame
    rw [answersTo_new qps ip hTimely', hAnswers, hSame]

/-- A client calls twice in a second with another in between: it is within its bound, its
second call is allowed, and the other one changes nothing of what it is told. -/
theorem decisions_law_two_clients :
    let client : IpAddr := .v4 ⟨1, 2, 3, 4⟩
    let call (ip : IpAddr) (now : Instant) : Call := ⟨ip, fun _ => now, now⟩
    let mixed := [call client 0, call (.v4 .localhost) (1 / 4), call client (1 / 2)]
    let decided := (new 2).decisions mixed
    ((allowedIn client 0 (0 + 1) decided).length : ℚ) ≤ (new 2).qps + (new 2).qps * 1 ∧
    (decided.map Prod.snd)[2]? = some true ∧
    answersTo client ((new 2).decisions [call client 0, call client (1 / 2)]) =
      answersTo client decided := by
  intro client call mixed decided
  have hMixed : Timely 0 mixed := by simp [mixed, call, Timely]; norm_num
  have hOwn : Timely 0 [call client 0, call client (1 / 2)] := by simp [call, Timely]
  have hOther : Ipv4Addr.localhost ≠ ⟨1, 2, 3, 4⟩ := by decide
  have hQps : (new 2).qps = 2 := by
    have hTwo : (2 : UInt32).toNat = 2 := rfl
    norm_num [new, hTwo]
  have hLater : (0 : Instant) + 1 / (new 2).qps ≤ 1 / 2 := by rw [hQps]; norm_num
  obtain ⟨hWindow, hWait, hAlone⟩ := decisions_law 2 client hMixed
  refine ⟨hWindow 0 1 zero_le_one, ?_, hAlone 0 _ hOwn ?_⟩
  · refine congrArg some (hWait [] _ [_] _ [] rfl rfl rfl ?_ hLater)
    simp [call, client, hOther]
  · simp [callsOf, mixed, call, client, hOther]

end Limiter

end Dnsd.Resolve
