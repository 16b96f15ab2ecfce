import Dnsd.Cache.Tiers
import Dnsd.Proto.Layout
import Dnsd.Resolve.Block
import Dnsd.Resolve.Custom
import Dnsd.Resolve.Dualstack
import Dnsd.Resolve.Recurse

/-! The request pipeline: what `process` does with a query before the cache, at
the cache, and behind it with the outcome of the resolver. -/

namespace Dnsd.Resolve

open Proto Cache

/-- `RespMeta`: what the log is told of a call, filled in as the call goes on. -/
structure RespMeta where
  rcode : String := "SERVFAIL"
  cacheHit : Bool := false
  upstream : String := ""
  rttMs : Int64 := 0
  blocked : Bool := false
  qname : Str := []
  qtype : String := ""
  ecs : Str := []

/-- The block list and the zones, each as its read of the lock finds it. -/
structure Policy where
  block : BlockList := BlockList.empty
  zones : ZoneIndex := ZoneIndex.empty

/-- `Pipeline::reload`: both lists are built anew from the rows that were read. -/
def Policy.reload (zones : List Zone) (records : List ZoneRecord) (blocked : List BlockedDomain) :
    Policy where
  block := BlockList.new blocked
  zones := ZoneIndex.new zones records

/-- A call of `handle`, with the decision of the rate limiter and the answers of
the service that maps addresses. -/
structure Call where
  raw : Bytes
  clientIp : IpAddr
  allowed : Bool
  mapViaApi : Str → Ipv6Addr → Option Ipv4Addr

/-- The parts of the pipeline that a call reads and does not change. -/
structure Settings where
  cfg : Config
  policy : Policy
  dualstack : Dualstack

/-- Nothing is blocked and no zone is served. -/
def plainSettings : Settings := ⟨{}, {}, {}⟩

/-- A query that gets as far as the cache. -/
structure Lookup where
  id : UInt16
  q : Question
  ecs : Option EcsInfo

/-- Where the steps in front of the cache lead: to no reply, to a reply that
repeats all questions, to one of the policy, or on to the cache. -/
inductive Verdict where
  | silent
  | echo (resp : Message)
  | blocked (resp : Message)
  | zone (resp : Message)
  | lookup (l : Lookup)

/-- `cache_key`: name and type in one text, with the network of the option if there is
one. -/
def cacheKey (qname : Str) (qtype : UInt16) (ecs : Str) : Str := keyText qname qtype ecs

/-- The key under which the lookup is cached and its resolution shared. -/
def Lookup.key (l : Lookup) : Str := cacheKey l.q.name l.q.qtype (tokenOf l.ecs)

/-- What the resolver is asked for the lookup. -/
def Lookup.asked (l : Lookup) : Asked := ⟨l.q.name, l.q.qtype, l.ecs⟩

/-! ## In front of the cache -/

/-- The raw query is parsed once more for its questions. -/
def refuse (raw : Bytes) (info : RespMeta) : Result (Verdict × RespMeta) :=
  match Message.parse raw with
  | .ok m =>
      .ok (.echo { header := { id := m.header.id, qr := true, rcode := rcodeRefused }
                   questions := m.questions }, { info with rcode := "REFUSED" })
  | .err _ => .ok (.silent, { info with rcode := "FORMERR" })
  | .panicked => .panicked

/-- `badvers`: the code of the reply is 16, but no OPT record carries its upper bits. -/
def badvers (req : Message) (info : RespMeta) : Verdict × RespMeta :=
  (.echo { header := { id := req.header.id, qr := true, rcode := 16 }, questions := req.questions },
    { info with rcode := "BADVERS" })

/-- The reply of `encode_rcode`: the question with a code and nothing else. -/
def rcodeReply (req : Message) (rcode : UInt8) : Message where
  header := { id := req.header.id, qr := true, rd := req.header.rd, ra := true, rcode := rcode }
  questions := req.questions

/-- The query has an OPT record of another version than 0. -/
def otherVersion (req : Message) : Bool :=
  match req.edns with
  | some ⟨_, _, _, _, .opt _ _ version _ _⟩ => version ≠ 0
  | _ => false

/-- The option of the query, or one derived for an internal IPv6 client. -/
def clientEcs (s : Settings) (call : Call) (req : Message) : Option EcsInfo :=
  match req.ecs with
  | some e => some (e.clampScope s.cfg.ecsScopeMax)
  | none =>
      if s.cfg.dualstackEnabled then
        match call.clientIp with
        | .v6 v6 => s.dualstack.deriveEcs s.cfg call.mapViaApi v6
        | .v4 _ => none
      else none

/-- What is asked before the resolver: the block list, which answers by itself, then the
zones, and last the cache. -/
def applyPolicy (s : Settings) (call : Call) (req : Message) (q : Question) (info : RespMeta) :
    Verdict × RespMeta :=
  let ecs := clientEcs s call req
  let info := { info with ecs := tokenOf ecs }
  match s.policy.block.modeFor q.name with
  | some mode =>
      let resp := BlockList.respond q call.clientIp mode
      (.blocked { resp with header := { resp.header with id := req.header.id } },
        { info with
          blocked := true
          rcode := "NOERROR"
          upstream := if mode = .loopback then "block-loopback" else "block-random" })
  | none =>
      match s.policy.zones.respond q with
      | some resp =>
          (.zone { resp with header := { resp.header with id := req.header.id } },
            { info with rcode := rcodeToString resp.header.rcode, upstream := "zone" })
      | none => (.lookup ⟨req.header.id, q, ecs⟩, info)

/-- The steps of `process` in front of the cache. -/
def judge (s : Settings) (call : Call) : Result (Verdict × RespMeta) :=
  match Message.parse call.raw with
  | .panicked => .panicked
  | .err _ => refuse call.raw {}
  | .ok req =>
      if req.header.qr then .ok (.silent, {})
      else
        match req.question with
        | none => refuse call.raw {}
        | some q =>
            let info : RespMeta :=
              { qname := canonicalName q.name, qtype := typeToString q.qtype }
            if 253 < q.name.len then refuse call.raw info
            else if otherVersion req then .ok (badvers req info)
            else if !call.allowed then
              .ok (.echo (rcodeReply req rcodeRefused), { info with rcode := "REFUSED" })
            else .ok (applyPolicy s call req q info)

/-- The query is neither refused nor answered by the policy. -/
structure Passes (s : Settings) (call : Call) (req : Message) (q : Question) : Prop where
  name : q.name.len ≤ 253
  version : otherVersion req = false
  allowed : call.allowed = true
  block : s.policy.block.modeFor q.name = none
  zone : s.policy.zones.respond q = none

/-- What a verdict is, and what it is made of. -/
inductive Judged (s : Settings) (call : Call) : Verdict → Prop where
  | silent : Judged s call .silent
  | echo (req : Message) (header : Header) (hParse : Message.parse call.raw = .ok req)
      (hId : header.id = req.header.id) (hQr : header.qr = true) :
      Judged s call (.echo { header := header, questions := req.questions })
  | blocked (req : Message) (q : Question) (mode : BlockMode)
      (hParse : Message.parse call.raw = .ok req) (hQuestion : req.question = some q) :
      Judged s call (.blocked { BlockList.respond q call.clientIp mode with
        header := { (BlockList.respond q call.clientIp mode).header with id := req.header.id } })
  | zone (req : Message) (q : Question) (resp : Message)
      (hParse : Message.parse call.raw = .ok req) (hQuestion : req.question = some q)
      (hZone : s.policy.zones.respond q = some resp) :
      Judged s call (.zone { resp with header := { resp.header with id := req.header.id } })
  | lookup (req : Message) (q : Question) (hParse : Message.parse call.raw = .ok req)
      (hQuestion : req.question = some q) (hPasses : Passes s call req q) :
      Judged s call (.lookup ⟨req.header.id, q, clientEcs s call req⟩)

section Judge

variable {s : Settings} {call : Call} {v : Verdict} {info info' : RespMeta}

theorem refuse_judged (h : refuse call.raw info = .ok (v, info')) : Judged s call v := by
  rw [refuse] at h
  split at h
  · rename_i m hParse
    cases h
    exact .echo m _ hParse rfl rfl
  · cases h
    exact .silent
  · cases h

theorem applyPolicy_judged {req : Message} {q : Question}
    (hParse : Message.parse call.raw = .ok req) (hQuestion : req.question = some q)
    (hName : q.name.len ≤ 253) (hVersion : otherVersion req = false)
    (hAllowed : call.allowed = true) (h : applyPolicy s call req q info = (v, info')) :
    Judged s call v := by
  rw [applyPolicy] at h
  dsimp only at h
  split at h
  · rename_i mode _
    cases h
    exact .blocked req q mode hParse hQuestion
  · rename_i hBlock
    split at h
    · rename_i resp hZone
      cases h
      exact .zone req q resp hParse hQuestion hZone
    · rename_i hZone
      cases h
      exact .lookup req q hParse hQuestion ⟨hName, hVersion, hAllowed, hBlock, hZone⟩

theorem judge_judged (h : judge s call = .ok (v, info)) : Judged s call v := by
  rw [judge] at h
  split at h
  · cases h
  · exact refuse_judged h
  · rename_i req hParse
    split at h
    · cases h
      exact .silent
    · split at h
      · exact refuse_judged h
      · rename_i q hQuestion
        dsimp only at h
        split at h
        · exact refuse_judged h
        · rename_i hLong
          split at h
          · cases h
            exact .echo req _ hParse rfl rfl
          · rename_i hVersion
            split at h
            · cases h
              exact .echo req _ hParse rfl rfl
            · rename_i hAllowed
              exact applyPolicy_judged hParse hQuestion (Nat.not_lt.mp hLong) (by simpa using hVersion)
                (by simpa using hAllowed) (Exec.ok.inj h)

end Judge

/-! ## At the cache -/

/-- `Message::encode` with other bytes in the place of an error. -/
def encodeOr (m : Message) (other : Bytes) : Result Bytes :=
  match m.encode with
  | .ok b => .ok b
  | .err _ => .ok other
  | .panicked => .panicked

/-- The reply to a cache hit: the stored bytes under the identifier of the query. They are
parsed for the log alone. -/
def replyFromCache (l : Lookup) (hit : Bytes) (info : RespMeta) : Result (Bytes × RespMeta) :=
  let bytes := patchId hit l.id
  let info := { info with cacheHit := true, upstream := "cache" }
  match Message.parse bytes with
  | .ok m => .ok (bytes, { info with rcode := rcodeToString m.header.rcode })
  | .err _ => .ok (bytes, { info with rcode := "NOERROR" })
  | .panicked => .panicked

/-! ## Behind the cache -/

/-- `as i64` of a number of seconds, which is negative from 2^63 on. -/
def secs (n : UInt64) : Int64 := n.toInt64

/-- `msg_ttl`: the least lifetime of the answers, or that of the denial where there are
none. Zero means that nothing is stored. -/
def msgTtl (msg : Message) (cfg : Config) : Int64 :=
  match msg.answers.map Record.ttl with
  | ttl :: rest => Int64.ofNat (min (rest.foldl min ttl) cfg.cacheMaxTtlSecs.toUInt32).toNat
  | [] =>
      match msg.authority.findSome? fun r =>
        match r.data with
        | .soa _ _ _ _ _ _ minimum => some minimum
        | _ => none
      with
      | some minimum => min (Int64.ofNat minimum.toNat) (secs cfg.negCacheTtlSecs)
      | none => if msg.header.rcode = rcodeNxdomain then secs cfg.negCacheTtlSecs else 0

/-- The reply and, with a positive ttl, the bytes for the cache. -/
structure Settled where
  reply : Bytes
  store : Option Int64
  info : RespMeta

/-- The message that is relayed for a resolution. -/
def relayed (l : Lookup) (msg : Message) : Message :=
  let msg := match l.ecs with
    | some e => echoEcs msg e
    | none => msg
  { msg with header := { msg.header with id := l.id, ra := true } }

/-- The reply for a lookup that has failed. -/
def servfail (l : Lookup) : Message where
  header := { id := l.id, qr := true, rd := true, ra := true, rcode := rcodeServfail }
  questions := [l.q]

/-- What becomes of a resolution. Bytes that no message can be made of are relayed as an
empty one, or as they are. -/
def settle (cfg : Config) (l : Lookup) (outcome : Except String Bytes) (info : RespMeta) :
    Result Settled :=
  match outcome with
  | .ok bytes => do
      let parsed ← match Message.parse bytes with
        | .ok m => .ok m
        | .err _ => .ok {}
        | .panicked => .panicked
      let msg := relayed l parsed
      let ttl := msgTtl msg cfg
      let out ← encodeOr msg bytes
      .ok ⟨out, if 0 < ttl then some ttl else none,
        { info with rcode := rcodeToString msg.header.rcode, upstream := "recursive" }⟩
  | .error _ => do
      let out ← encodeOr (servfail l) []
      .ok ⟨out, none, { info with rcode := "SERVFAIL" }⟩

/-! ## A whole call -/

/-- The times of the two accesses to the cache, and whether Redis answers. -/
structure CacheEnv where
  getMs : Nat
  putMs : Nat
  redisAnswers : Bool

/-- What a call returns: the reply, its log entry and the cache behind it. -/
structure Processed where
  reply : Bytes
  info : RespMeta
  cache : TieredCache

/-- `process` for a call that is alone in the pipeline. The resolver is asked
from question number 0 on. -/
def process (s : Settings) (resolver : Resolver) (net : Network) (nesting : Nat)
    (cache : TieredCache) (env : CacheEnv) (call : Call) : Option (Result Processed) :=
  match judge s call with
  | .panicked => some .panicked
  | .err e => some (.err e)
  | .ok (.silent, info) => some (.ok ⟨[], info, cache⟩)
  | .ok (.echo resp, info) | .ok (.blocked resp, info) | .ok (.zone resp, info) =>
      some (encodeOr resp [] >>= fun out => .ok ⟨out, info, cache⟩)
  | .ok (.lookup l, info) =>
      match cache.get env.getMs env.redisAnswers l.key with
      | (some hit, cache) =>
          some (replyFromCache l hit info >>= fun r => .ok ⟨r.1, r.2, cache⟩)
      | (none, cache) =>
          match resolver.publish net nesting l.asked 0 with
          | none => none
          | some (outcome, _) => some do
              let outcome ← outcome
              let r ← settle s.cfg l outcome info
              .ok ⟨r.reply, r.info, match r.store with
                | some ttl => cache.put env.putMs l.key r.reply ttl
                | none => cache⟩

theorem replyFromCache_eq_ok {l : Lookup} {hit reply : Bytes} {info info' : RespMeta}
    (h : replyFromCache l hit info = .ok (reply, info')) :
    reply = patchId hit l.id ∧ Message.parse reply ≠ .panicked ∧
      ∀ m, Message.parse reply = .ok m → info'.rcode = rcodeToString m.header.rcode := by
  rw [replyFromCache] at h
  dsimp only at h
  cases hParse : Message.parse (patchId hit l.id) with
  | panicked =>
      rw [hParse] at h
      cases h
  | ok m =>
      rw [hParse] at h
      cases h
      refine ⟨rfl, by simp [hParse], fun m' hm' => ?_⟩
      rw [hParse] at hm'
      cases hm'
      rfl
  | err e =>
      rw [hParse] at h
      cases h
      refine ⟨rfl, by simp [hParse], fun m' hm' => ?_⟩
      rw [hParse] at hm'
      cases hm'

/-- The message that is relayed for the bytes of a resolution. -/
def relayedFrom (l : Lookup) (bytes : Bytes) : Message :=
  relayed l (match Message.parse bytes with
    | .ok m => m
    | _ => {})

/-- What is relayed and logged for the bytes of a resolution. -/
theorem settle_eq_ok {cfg : Config} {l : Lookup} {bytes : Bytes} {info : RespMeta} {r : Settled}
    (h : settle cfg l (.ok bytes) info = .ok r) :
    Message.parse bytes ≠ .panicked ∧ encodeOr (relayedFrom l bytes) bytes = .ok r.reply ∧
      r.info = { info with
        rcode := rcodeToString (relayedFrom l bytes).header.rcode
        upstream := "recursive" } := by
  rw [settle] at h
  rw [relayedFrom]
  cases hParse : Message.parse bytes with
  | panicked =>
      rw [hParse] at h
      cases h
  | ok m | err e =>
      rw [hParse] at h
      dsimp only [Exec.ok_bind] at h
      obtain ⟨out, hOut, h⟩ := Exec.bind_eq_ok_iff.mp h
      cases h
      exact ⟨by simp, hOut, rfl⟩

theorem settle_error_eq_ok {cfg : Config} {l : Lookup} {e : String} {info : RespMeta} {r : Settled}
    (h : settle cfg l (.error e) info = .ok r) :
    encodeOr (servfail l) [] = .ok r.reply ∧ r.info = { info with rcode := "SERVFAIL" } := by
  obtain ⟨out, hOut, h⟩ := Exec.bind_eq_ok_iff.mp h
  cases h
  exact ⟨hOut, rfl⟩

/-- How a call that returns comes to its reply and its log entry. -/
inductive Handled (s : Settings) (resolver : Resolver) (net : Network) (nesting : Nat)
    (cache : TieredCache) (env : CacheEnv) (call : Call) : Bytes → RespMeta → Prop where
  | silent {info : RespMeta} (hJudge : judge s call = .ok (.silent, info)) :
      Handled s resolver net nesting cache env call [] info
  | written {v : Verdict} {resp : Message} {info : RespMeta} {reply : Bytes}
      (hJudge : judge s call = .ok (v, info))
      (hVerdict : v = .echo resp ∨ v = .blocked resp ∨ v = .zone resp)
      (hEncode : encodeOr resp [] = .ok reply) :
      Handled s resolver net nesting cache env call reply info
  | hit {l : Lookup} {info info' : RespMeta} {hit reply : Bytes}
      (hJudge : judge s call = .ok (.lookup l, info))
      (hGet : (cache.get env.getMs env.redisAnswers l.key).1 = some hit)
      (hReply : replyFromCache l hit info = .ok (reply, info')) :
      Handled s resolver net nesting cache env call reply info'
  | settled {l : Lookup} {info : RespMeta} {outcome : Except String Bytes} {asked : Nat}
      {r : Settled} (hJudge : judge s call = .ok (.lookup l, info))
      (hGet : (cache.get env.getMs env.redisAnswers l.key).1 = none)
      (hPublish : resolver.publish net nesting l.asked 0 = some (.ok outcome, asked))
      (hSettle : settle s.cfg l outcome info = .ok r) :
      Handled s resolver net nesting cache env call r.reply r.info

section Process

variable {s : Settings} {resolver : Resolver} {net : Network} {nesting : Nat} {cache : TieredCache}
  {env : CacheEnv} {call : Call}

theorem process_handled {p : Processed}
    (h : process s resolver net nesting cache env call = some (.ok p)) :
    Handled s resolver net nesting cache env call p.reply p.info := by
  have hWritten (v : Verdict) (resp : Message) (info : RespMeta) (hJudge : judge s call = .ok (v, info))
      (hVerdict : v = .echo resp ∨ v = .blocked resp ∨ v = .zone resp)
      (h : some (encodeOr resp [] >>= fun out => .ok ⟨out, info, cache⟩) = some (Exec.ok p)) :
      Handled s resolver net nesting cache env call p.reply p.info := by
    obtain ⟨out, hEncode, hOut⟩ := Exec.bind_eq_ok_iff.mp (Option.some.inj h)
    cases hOut
    exact .written hJudge hVerdict hEncode
  rw [process] at h
  split at h
  · cases h
  · cases h
  · rename_i hJudge
    cases h
    exact .silent hJudge
  · rename_i resp info hJudge
    exact hWritten _ resp info hJudge (.inl rfl) h
  · rename_i resp info hJudge
    exact hWritten _ resp info hJudge (.inr (.inl rfl)) h
  · rename_i resp info hJudge
    exact hWritten _ resp info hJudge (.inr (.inr rfl)) h
  · rename_i l info hJudge
    split at h
    · rename_i hit cache' hGet
      obtain ⟨⟨reply, info'⟩, hReply, hOut⟩ := Exec.bind_eq_ok_iff.mp (Option.some.inj h)
      cases hOut
      exact .hit hJudge (congrArg Prod.fst hGet) hReply
    · rename_i cache' hGet
      split at h
      · cases h
      · rename_i outcome asked hPublish
        have h := Option.some.inj h
        cases outcome with
        | ok outcome =>
            rw [Exec.ok_bind] at h
            obtain ⟨r, hSettle, hOut⟩ := Exec.bind_eq_ok_iff.mp h
            cases hOut
            exact .settled hJudge (congrArg Prod.fst hGet) hPublish hSettle
        | err e => cases h
        | panicked => cases h

end Process

/-- A row of the query log: when and from whom the call came, what was asked, and how it
was answered. -/
structure QueryLogRow where
  tsMs : Int64
  clientIp : Str
  ecs : Str
  qname : Str
  qtype : String
  rcode : String
  cacheHit : Bool
  upstream : String
  rttMs : Int64
  blocked : Bool
  via : String

/-- The row for a call, with what is known of it at its end. -/
def logRow (clientIp : IpAddr) (via : String) (tsMs : Int64) (info : RespMeta) : QueryLogRow where
  tsMs := tsMs
  clientIp := clientIp.text
  ecs := info.ecs
  qname := info.qname
  qtype := info.qtype
  rcode := info.rcode
  cacheHit := info.cacheHit
  upstream := info.upstream
  rttMs := info.rttMs
  blocked := info.blocked
  via := via

/-- `handle`: the reply, and the row that is enqueued for the query log. -/
def handle (s : Settings) (resolver : Resolver) (net : Network) (nesting : Nat)
    (cache : TieredCache) (env : CacheEnv) (call : Call) (via : String) (tsMs rttMs : Int64) :
    Option (Result (Processed × QueryLogRow)) :=
  (process s resolver net nesting cache env call).map fun outcome => do
    let p ← outcome
    let info := { p.info with rttMs := rttMs }
    .ok ({ p with info := info }, logRow call.clientIp via tsMs info)

theorem handle_handled {s : Settings} {resolver : Resolver} {net : Network} {nesting : Nat}
    {cache : TieredCache} {env : CacheEnv} {call : Call} {via : String} {tsMs rttMs : Int64}
    {p : Processed} {row : QueryLogRow}
    (h : handle s resolver net nesting cache env call via tsMs rttMs = some (.ok (p, row))) :
    ∃ info, Handled s resolver net nesting cache env call p.reply info ∧
      row = logRow call.clientIp via tsMs { info with rttMs := rttMs } := by
  obtain ⟨outcome, hProcess, h⟩ := Option.map_eq_some_iff.mp h
  obtain ⟨before, rfl, h⟩ := Exec.bind_eq_ok_iff.mp h
  cases h
  exact ⟨before.info, process_handled hProcess, rfl⟩

/-- What the listeners share: the settings, the resolver and the cache. -/
structure Pipeline where
  settings : Settings
  resolver : Resolver
  cache : TieredCache

/-- What is decided outside the pipeline while it handles a call. -/
structure Surroundings where
  allowed : Bool
  mapViaApi : Str → Ipv6Addr → Option Ipv4Addr
  net : Network
  nesting : Nat
  env : CacheEnv
  tsMs : Int64
  rttMs : Int64

/-- A call of `handle` by a listener: the pipeline behind it and the reply. -/
def Pipeline.handle (p : Pipeline) (raw : Bytes) (clientIp : IpAddr) (via : String)
    (u : Surroundings) : Option (Result (Pipeline × Bytes)) :=
  (Resolve.handle p.settings p.resolver u.net u.nesting p.cache u.env
    ⟨raw, clientIp, u.allowed, u.mapViaApi⟩ via u.tsMs u.rttMs).map fun outcome => do
      let (processed, _) ← outcome
      .ok ({ p with cache := processed.cache }, processed.reply)

/-- The reply to a listener is one of a call. -/
theorem Pipeline.handle_handled {p p' : Pipeline} {raw reply : Bytes} {clientIp : IpAddr}
    {via : String} {u : Surroundings} (h : p.handle raw clientIp via u = some (.ok (p', reply))) :
    ∃ info, Handled p.settings p.resolver u.net u.nesting p.cache u.env
      ⟨raw, clientIp, u.allowed, u.mapViaApi⟩ reply info := by
  obtain ⟨outcome, hHandle, h⟩ := Option.map_eq_some_iff.mp h
  obtain ⟨⟨processed, row⟩, rfl, h⟩ := Exec.bind_eq_ok_iff.mp h
  cases h
  obtain ⟨info, hHandled, -⟩ := Resolve.handle_handled hHandle
  exact ⟨info, hHandled⟩

end Dnsd.Resolve
