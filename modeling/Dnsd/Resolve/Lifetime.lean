import Dnsd.Resolve.Pipeline

/-! The lifetime of a cached response. It is a minimum over records where there are
answers, and the bound of negative answers where there are none; the response code
takes part only where neither section decides. -/

namespace Dnsd.Resolve

open Proto Cache

/-! ## Lifetimes -/

/-- The minimum field of a record, if it is of a SOA. -/
def soaMinimum (r : Record) : Option UInt32 :=
  match r.data with
  | .soa _ _ _ _ _ _ minimum => some minimum
  | _ => none

/-- The first SOA record of the authority section, with its minimum field. -/
def soaOf (msg : Message) : Option (Record × UInt32) :=
  msg.authority.findSome? fun r => (soaMinimum r).map fun minimum => (r, minimum)

/-- What the lifetime of a response is to respect. -/
structure Lifetime (msg : Message) (cfg : Config) (t : Int64) : Prop where
  rcode : msg.header.rcode = rcodeNoerror ∨ msg.header.rcode = rcodeNxdomain
  answer : ∀ r ∈ msg.answers, t.toInt ≤ r.ttl.toNat
  positive : msg.answers ≠ [] → t.toInt ≤ cfg.cacheMaxTtlSecs.toNat
  negative : msg.answers = [] → ∀ soa minimum, soaOf msg = some (soa, minimum) →
    t.toInt ≤ soa.ttl.toNat ∧ t.toInt ≤ minimum.toNat ∧ t.toInt ≤ cfg.negCacheTtlSecs.toNat

theorem toInt_min (a b : Int64) : (min a b).toInt = min a.toInt b.toInt := by
  rw [show min a b = if a ≤ b then a else b from rfl]
  split_ifs with h
  · exact (Int.min_eq_left (Int64.le_iff_toInt_le.mp h)).symm
  · have hLess := Int64.lt_iff_toInt_lt.mp (Int64.not_le.mp h)
    omega

/-- Seconds from half the range on are negative as `i64`. -/
theorem toInt_secs (n : UInt64) :
    (secs n).toInt = if n.toNat < 2 ^ 63 then (n.toNat : Int) else n.toNat - 2 ^ 64 := by
  have hBits : (secs n).toInt = n.toBitVec.toInt := rfl
  have hNat : n.toBitVec.toNat = n.toNat := rfl
  rw [hBits, BitVec.toInt_eq_toNat_cond, hNat]
  split_ifs <;> omega

theorem pos_iff_toInt (t : Int64) : 0 < t ↔ 0 < t.toInt := Int64.lt_iff_toInt_lt

/-- The lifetime of a response with answers. -/
theorem msgTtl_answers {msg : Message} (cfg : Config) (h : msg.answers ≠ []) :
    ∃ r ∈ msg.answers, (∀ r' ∈ msg.answers, r.ttl ≤ r'.ttl) ∧
      (msgTtl msg cfg).toInt = min r.ttl.toNat cfg.cacheMaxTtlSecs.toUInt32.toNat := by
  obtain ⟨first, rest, hAnswers⟩ := List.exists_cons_of_ne_nil h
  have hFold : (first.ttl :: rest.map Record.ttl).min? =
      some ((rest.map Record.ttl).foldl min first.ttl) := List.min?_cons'
  obtain ⟨hMem, hLeast⟩ := List.min?_eq_some_iff.mp hFold
  rw [← List.map_cons] at hMem hLeast
  obtain ⟨r, hr, hTtl⟩ := List.mem_map.mp hMem
  rw [hAnswers]
  refine ⟨r, hr, fun r' hr' => hTtl ▸ hLeast r'.ttl (List.mem_map_of_mem hr'), ?_⟩
  have hMin : (min r.ttl cfg.cacheMaxTtlSecs.toUInt32).toNat =
      min r.ttl.toNat cfg.cacheMaxTtlSecs.toUInt32.toNat := by
    rw [show min r.ttl cfg.cacheMaxTtlSecs.toUInt32 =
      if r.ttl ≤ cfg.cacheMaxTtlSecs.toUInt32 then r.ttl else cfg.cacheMaxTtlSecs.toUInt32 from rfl]
    split_ifs with hLe
    · exact (Nat.min_eq_left (UInt32.le_iff_toNat_le.mp hLe)).symm
    · have hLess := UInt32.lt_iff_toNat_lt.mp (UInt32.not_le.mp hLe)
      omega
  have hBound := r.ttl.toNat_lt
  rw [msgTtl, hAnswers, List.map_cons]
  dsimp only
  rw [← hTtl, Int64.toInt_ofNat_of_lt (by omega), hMin]

/-- The lifetime of a negative response, by the minimum field of its SOA record. -/
def negativeTtl (msg : Message) (cfg : Config) : Option UInt32 → Int64
  | some minimum => min (Int64.ofNat minimum.toNat) (secs cfg.negCacheTtlSecs)
  | none => if msg.header.rcode = rcodeNxdomain then secs cfg.negCacheTtlSecs else 0

theorem msgTtl_negative {msg : Message} (cfg : Config) (h : msg.answers = []) :
    msgTtl msg cfg = negativeTtl msg cfg ((soaOf msg).map Prod.snd) := by
  have hMinimum : (soaOf msg).map Prod.snd = msg.authority.findSome? soaMinimum := by
    rw [soaOf, List.map_findSome?]
    congr
    funext r
    cases hr : soaMinimum r <;> simp [hr]
  have hMsg : msgTtl msg cfg = negativeTtl msg cfg (msg.authority.findSome? soaMinimum) := by
    rw [msgTtl, h]
    rfl
  rw [hMsg, hMinimum]

/-- That of one with an SOA record. -/
theorem msgTtl_soa {msg : Message} (cfg : Config) {soa : Record} {minimum : UInt32}
    (h : msg.answers = []) (hSoa : soaOf msg = some (soa, minimum)) :
    (msgTtl msg cfg).toInt = min (minimum.toNat : Int) (secs cfg.negCacheTtlSecs).toInt := by
  have hBound := minimum.toNat_lt
  rw [msgTtl_negative cfg h, hSoa, Option.map_some]
  dsimp only
  rw [negativeTtl, toInt_min, Int64.toInt_ofNat_of_lt (by omega)]

/-! ## Storing -/

/-- What a call leaves in the cache: what was there, or what a lookup makes of that,
or the reply under the lifetime of the message that it relays, if that is positive. -/
inductive Stores (s : Settings) (resolver : Resolver) (net : Network) (nesting : Nat)
    (cache : TieredCache) (env : CacheEnv) (call : Call) (p : Processed) : Prop where
  | untouched (hCache : p.cache = cache)
  | read (l : Lookup) (hCache : p.cache = (cache.get env.getMs env.redisAnswers l.key).2)
  | stored (l : Lookup) (bytes : Bytes) (asked : Nat)
      (hPublish : resolver.publish net nesting l.asked 0 = some (.ok (.ok bytes), asked))
      (hPositive : 0 < msgTtl (relayedFrom l bytes) s.cfg)
      (hCache : p.cache = (cache.get env.getMs env.redisAnswers l.key).2.put env.putMs l.key p.reply
        (msgTtl (relayedFrom l bytes) s.cfg))

theorem settle_store {cfg : Config} {l : Lookup} {outcome : Except String Bytes} {info : RespMeta}
    {r : Settled} {t : Int64} (h : settle cfg l outcome info = .ok r) (hStore : r.store = some t) :
    ∃ bytes, outcome = .ok bytes ∧ 0 < t ∧ t = msgTtl (relayedFrom l bytes) cfg := by
  cases outcome with
  | error e =>
      obtain ⟨out, -, hOut⟩ := Exec.bind_eq_ok_iff.mp h
      cases hOut
      cases hStore
  | ok bytes =>
      refine ⟨bytes, rfl, ?_⟩
      rw [settle] at h
      rw [relayedFrom]
      cases hParse : Message.parse bytes with
      | panicked =>
          rw [hParse] at h
          cases h
      | ok m | err e =>
          rw [hParse] at h
          dsimp only [Exec.ok_bind] at h
          obtain ⟨out, -, hOut⟩ := Exec.bind_eq_ok_iff.mp h
          cases hOut
          dsimp only at hStore
          split_ifs at hStore with hPositive
          cases hStore
          exact ⟨hPositive, rfl⟩

theorem process_stores {s : Settings} {resolver : Resolver} {net : Network} {nesting : Nat}
    {cache : TieredCache} {env : CacheEnv} {call : Call} {p : Processed}
    (h : process s resolver net nesting cache env call = some (.ok p)) :
    Stores s resolver net nesting cache env call p := by
  have hWritten (resp : Message) (info : RespMeta)
      (h : some (encodeOr resp [] >>= fun out => .ok ⟨out, info, cache⟩) = some (Exec.ok p)) :
      Stores s resolver net nesting cache env call p := by
    obtain ⟨out, -, hOut⟩ := Exec.bind_eq_ok_iff.mp (Option.some.inj h)
    cases hOut
    exact .untouched rfl
  rw [process] at h
  split at h
  · cases h
  · cases h
  · cases h
    exact .untouched rfl
  · exact hWritten _ _ h
  · exact hWritten _ _ h
  · exact hWritten _ _ h
  · rename_i l info hJudge
    split at h
    · rename_i hit cache' hGet
      obtain ⟨⟨reply, info'⟩, -, hOut⟩ := Exec.bind_eq_ok_iff.mp (Option.some.inj h)
      cases hOut
      exact .read l (congrArg Prod.snd hGet).symm
    · rename_i cache' hGet
      split at h
      · cases h
      · rename_i outcome asked hPublish
        obtain ⟨outcome, rfl, hRun⟩ := Exec.bind_eq_ok_iff.mp (Option.some.inj h)
        obtain ⟨r, hSettle, hOut⟩ := Exec.bind_eq_ok_iff.mp hRun
        cases hOut
        cases hStore : r.store with
        | none => exact .read l (by rw [hGet])
        | some t =>
            obtain ⟨bytes, rfl, hPositive, rfl⟩ := settle_store hSettle hStore
            exact .stored l bytes asked hPublish hPositive (by rw [hGet])

/-! ## Exact lifetimes -/

/-- A positive lifetime is one that the response allows, and nothing is stored
without one. -/
def LifetimeLaw (msg : Message) (cfg : Config) : Prop :=
  (0 < msgTtl msg cfg → Lifetime msg cfg (msgTtl msg cfg)) ∧
    ∀ s resolver net nesting cache env call p, s.cfg = cfg →
      process s resolver net nesting cache env call = some (.ok p) →
      Stores s resolver net nesting cache env call p

/-- A response with answers is no error, or is not cached: an answer has ttl 0, or
the bound is 0 as `u32`. One without answers that has an SOA record is no error and
has a bound below the ttl of that record, or is not cached: its minimum is 0, or the
bound is not positive as `i64`. -/
structure Allowed (msg : Message) (cfg : Config) : Prop where
  positive : msg.answers ≠ [] →
    (msg.header.rcode = rcodeNoerror ∨ msg.header.rcode = rcodeNxdomain) ∨
      (∃ r ∈ msg.answers, r.ttl = 0) ∨ cfg.cacheMaxTtlSecs.toUInt32 = 0
  negative : msg.answers = [] → ∀ soa minimum, soaOf msg = some (soa, minimum) →
    ((msg.header.rcode = rcodeNoerror ∨ msg.header.rcode = rcodeNxdomain) ∧
      (minimum ≤ soa.ttl ∨ cfg.negCacheTtlSecs.toNat ≤ soa.ttl.toNat)) ∨
      minimum = 0 ∨ cfg.negCacheTtlSecs = 0 ∨ 2 ^ 63 ≤ cfg.negCacheTtlSecs.toNat

theorem Allowed.of_lifetime {msg : Message} {cfg : Config}
    (h : 0 < msgTtl msg cfg → Lifetime msg cfg (msgTtl msg cfg)) : Allowed msg cfg where
  positive hAnswers := by
    obtain ⟨r, hr, -, hTtl⟩ := msgTtl_answers cfg hAnswers
    by_cases hZero : r.ttl = 0
    · exact Or.inr (Or.inl ⟨r, hr, hZero⟩)
    by_cases hBound : cfg.cacheMaxTtlSecs.toUInt32 = 0
    · exact Or.inr (Or.inr hBound)
    · rw [← UInt32.toNat_inj, UInt32.toNat_zero] at hZero hBound
      exact Or.inl (h ((pos_iff_toInt _).mpr (by omega))).rcode
  negative hAnswers soa minimum hSoa := by
    have hTtl := msgTtl_soa cfg hAnswers hSoa
    rw [toInt_secs] at hTtl
    by_cases hZero : minimum = 0
    · exact Or.inr (Or.inl hZero)
    by_cases hBound : cfg.negCacheTtlSecs = 0
    · exact Or.inr (Or.inr (Or.inl hBound))
    by_cases hRange : 2 ^ 63 ≤ cfg.negCacheTtlSecs.toNat
    · exact Or.inr (Or.inr (Or.inr hRange))
    · rw [if_pos (by omega)] at hTtl
      rw [← UInt32.toNat_inj, UInt32.toNat_zero] at hZero
      rw [← UInt64.toNat_inj, UInt64.toNat_zero] at hBound
      have hLifetime := h ((pos_iff_toInt _).mpr (by omega))
      have hOwn := (hLifetime.negative hAnswers soa minimum hSoa).1
      refine Or.inl ⟨hLifetime.rcode, ?_⟩
      rw [UInt32.le_iff_toNat_le]
      omega

theorem Allowed.lifetime {msg : Message} {cfg : Config} (h : Allowed msg cfg)
    (hPositive : 0 < msgTtl msg cfg) : Lifetime msg cfg (msgTtl msg cfg) := by
  rw [pos_iff_toInt] at hPositive
  by_cases hAnswers : msg.answers = []
  · cases hSoa : soaOf msg with
    | none =>
        rw [msgTtl_negative cfg hAnswers, hSoa, Option.map_none, negativeTtl] at hPositive
        have hRcode : msg.header.rcode = rcodeNxdomain := by
          by_contra hOther
          rw [if_neg hOther] at hPositive
          exact absurd hPositive (by decide)
        exact ⟨Or.inr hRcode, by simp [hAnswers], fun hSome => absurd hAnswers hSome,
          fun _ soa minimum hSome => by simp [hSoa] at hSome⟩
    | some found =>
        obtain ⟨soa, minimum⟩ := found
        have hTtl := msgTtl_soa cfg hAnswers hSoa
        rw [toInt_secs] at hTtl
        have hNeg : cfg.negCacheTtlSecs.toNat < 2 ^ 63 := by
          by_contra hRange
          have hMax := cfg.negCacheTtlSecs.toNat_lt
          rw [if_neg hRange] at hTtl
          omega
        rw [if_pos hNeg] at hTtl
        obtain ⟨hRcode, hOwn⟩ | rfl | hZero | hRange := h.negative hAnswers soa minimum hSoa
        · refine ⟨hRcode, by simp [hAnswers], fun hSome => absurd hAnswers hSome,
            fun _ soa' minimum' hSome => ?_⟩
          rw [hSoa] at hSome
          cases hSome
          rw [UInt32.le_iff_toNat_le] at hOwn
          omega
        · rw [UInt32.toNat_zero] at hTtl
          omega
        · rw [hZero, UInt64.toNat_zero] at hTtl
          omega
        · omega
  · obtain ⟨r, hr, hLeast, hTtl⟩ := msgTtl_answers cfg hAnswers
    have hNarrow : cfg.cacheMaxTtlSecs.toUInt32.toNat ≤ cfg.cacheMaxTtlSecs.toNat := by
      rw [UInt64.toNat_toUInt32]
      exact Nat.mod_le _ _
    have hAnswer : ∀ r' ∈ msg.answers, (msgTtl msg cfg).toInt ≤ r'.ttl.toNat := by
      intro r' hr'
      have hLe := UInt32.le_iff_toNat_le.mp (hLeast r' hr')
      omega
    refine ⟨?_, hAnswer, fun _ => by omega, fun hNone => absurd hNone hAnswers⟩
    obtain hRcode | ⟨r', hr', hZero⟩ | hZero := h.positive hAnswers
    · exact hRcode
    · have hLe := hAnswer r' hr'
      rw [hZero, UInt32.toNat_zero] at hLe
      omega
    · rw [hZero, UInt32.toNat_zero] at hTtl
      omega

/-- The law of lifetimes holds exactly where `Allowed` does: of an error nothing is kept,
and of a response without answers nothing beyond the ttl of its SOA record. -/
theorem lifetimeLaw_iff (msg : Message) (cfg : Config) : LifetimeLaw msg cfg ↔ Allowed msg cfg := by
  constructor
  · exact fun h => .of_lifetime h.1
  · exact fun h => ⟨h.lifetime, fun _ _ _ _ _ _ _ _ _ hProcess => process_stores hProcess⟩

/-- An answer with an address that comes with the code SERVFAIL. -/
def failedAnswer : Message where
  header := { qr := true, rcode := rcodeServfail }
  answers := [⟨"a.".toList, typeA, classIn, 300, .a Ipv4Addr.localhost⟩]

/-- The code of the response is SERVFAIL, and it is kept for as long as its answer allows.
-/
theorem not_lifetimeLaw_failedAnswer : ¬∀ msg cfg, LifetimeLaw msg cfg := by
  intro h
  have hRcode := ((h failedAnswer plainSettings.cfg).1 (by decide)).rcode
  exact absurd hRcode (by decide)

end Dnsd.Resolve
