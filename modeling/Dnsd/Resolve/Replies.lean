import Dnsd.Base.Runs
import Dnsd.Resolve.CacheKey
import Dnsd.Resolve.Relay

/-! Concurrent calls of `handle` on one pipeline. A call is cut at its accesses to
the cache, and the resolution that it waits for may be that of another call with
the same key. Every reply matches its query while names are legible, questions
are of class IN and what the servers send can be written and read back. -/

namespace Dnsd.Resolve

open Proto Cache Exec

/-! ## Calls in flight -/

/-- A call that has missed the cache and waits for the resolver. -/
structure Pending where
  settings : Settings
  raw : Bytes
  lookup : Lookup
  info : RespMeta

/-- The cache, the clock, the waiting calls, and the replies with their queries. -/
structure World where
  cache : TieredCache
  ms : Nat
  pending : List Pending := []
  replies : List (Bytes × Bytes) := []

/-- A call begins, with the settings that it finds; the resolution that a call
waits for ends, led by a question with the same key; time passes; the writer
thread of the third level takes a command. -/
inductive Action where
  | call (s : Settings) (call : Call) (redisAnswers : Bool)
  | resolved (i : Nat) (leader : Asked) (resolver : Resolver) (net : Network) (nesting n : Nat)
  | advance (ms : Nat)
  | writeL3 (answers : Bool)

namespace World

/-- A cache and a time, and no call so far. -/
def init (cache : TieredCache) (ms : Nat) : World := { cache := cache, ms := ms }

/-- The reply of a call that ends; one that unwinds gives none. -/
def reply (w : World) (raw : Bytes) (out : Result Bytes) : World :=
  match out with
  | .ok bytes => { w with replies := (raw, bytes) :: w.replies }
  | _ => w

/-- A call of `handle` up to its reply, or up to the resolution that it waits for. -/
def call (w : World) (s : Settings) (c : Call) (redisAnswers : Bool) : World :=
  match judge s c with
  | .ok (.silent, _) => w.reply c.raw (.ok [])
  | .ok (.echo resp, _) | .ok (.blocked resp, _) | .ok (.zone resp, _) =>
      w.reply c.raw (encodeOr resp [])
  | .ok (.lookup l, info) =>
      match w.cache.get w.ms redisAnswers l.key with
      | (some hit, cache) =>
          { w with cache := cache }.reply c.raw
            (replyFromCache l hit info >>= fun r => .ok r.1)
      | (none, cache) =>
          { w with cache := cache, pending := w.pending ++ [⟨s, c.raw, l, info⟩] }
  | _ => w

/-- The call ends with what the leader has published. -/
def settle (w : World) (p : Pending) (outcome : Result (Except String Bytes)) : World :=
  match outcome >>= fun o => Resolve.settle p.settings.cfg p.lookup o p.info with
  | .ok r =>
      let cache := match r.store with
        | some ttl => w.cache.put w.ms p.lookup.key r.reply ttl
        | none => w.cache
      { w with cache := cache }.reply p.raw (.ok r.reply)
  | _ => w

/-- A call comes in, a resolution is published to one that waits for it, or something
happens to the cache or the clock. -/
def step (w : World) : Action → Option World
  | .call s c redisAnswers => some (w.call s c redisAnswers)
  | .resolved i leader resolver net nesting n =>
      match w.pending[i]? with
      | none => none
      | some p =>
          if leader.key = p.lookup.asked.key then
            (resolver.publish net nesting leader n).map fun outcome =>
              { w with pending := w.pending.eraseIdx i }.settle p outcome.1
          else none
  | .advance ms => if w.ms ≤ ms then some { w with ms := ms } else none
  | .writeL3 answers => (w.cache.writeL3 w.ms answers).map fun r => { w with cache := r.2 }

end World

/-- A call that is alone is a run of one step, or of one step, a passage of time
and the end of a resolution that the call leads itself. -/
theorem process_runs {s : Settings} {resolver : Resolver} {net : Network} {nesting : Nat}
    {cache : TieredCache} {env : CacheEnv} {c : Call} {r : Processed}
    (h : process s resolver net nesting cache env c = some (.ok r)) (hTime : env.getMs ≤ env.putMs) :
    ∃ actions ms, Runs.run World.step (World.init cache env.getMs) actions =
      some { cache := r.cache, ms := ms, replies := [(c.raw, r.reply)] } := by
  have hOne {w : World} (hCall : (World.init cache env.getMs).call s c env.redisAnswers = w) :
      Runs.run World.step (World.init cache env.getMs) [.call s c env.redisAnswers] = some w := by
    rw [Runs.run_cons, World.step, hCall]
    rfl
  have hReply {resp : Message} {info : RespMeta}
      (hEncode : (encodeOr resp [] >>= fun out => .ok ⟨out, info, cache⟩ : Result Processed) = .ok r) :
      (World.init cache env.getMs).reply c.raw (encodeOr resp []) =
        { cache := r.cache, ms := env.getMs, replies := [(c.raw, r.reply)] } := by
    obtain ⟨out, hOut, hProcessed⟩ := bind_eq_ok_iff.mp hEncode
    cases hProcessed
    rw [hOut]
    rfl
  rw [process] at h
  cases hJudge : judge s c with
  | panicked => simp [hJudge] at h
  | err e => simp [hJudge] at h
  | ok verdict =>
      obtain ⟨verdict, info⟩ := verdict
      rw [hJudge] at h
      cases verdict with
      | silent =>
          cases h
          exact ⟨_, _, hOne (by rw [World.call, hJudge]; rfl)⟩
      | echo resp =>
          exact ⟨_, _, hOne (by rw [World.call, hJudge]; exact hReply (Option.some.inj h))⟩
      | blocked resp =>
          exact ⟨_, _, hOne (by rw [World.call, hJudge]; exact hReply (Option.some.inj h))⟩
      | zone resp =>
          exact ⟨_, _, hOne (by rw [World.call, hJudge]; exact hReply (Option.some.inj h))⟩
      | lookup l =>
          dsimp only at h
          cases hGet : cache.get env.getMs env.redisAnswers l.key with
          | mk found next =>
              rw [hGet] at h
              cases found with
              | some hit =>
                  obtain ⟨out, hOut, hProcessed⟩ := bind_eq_ok_iff.mp (Option.some.inj h)
                  cases hProcessed
                  refine ⟨_, env.getMs, hOne ?_⟩
                  simp only [World.call, hJudge, World.init, hGet, hOut]
                  rfl
              | none =>
                  dsimp only at h
                  split at h
                  · cases h
                  · rename_i outcome n hPublish
                    obtain ⟨o, hOutcome, h⟩ := bind_eq_ok_iff.mp (Option.some.inj h)
                    obtain ⟨settled, hSettle, hProcessed⟩ := bind_eq_ok_iff.mp h
                    cases hProcessed
                    refine ⟨[.call s c env.redisAnswers, .advance env.putMs,
                      .resolved 0 l.asked resolver net nesting 0], env.putMs, ?_⟩
                    subst hOutcome
                    simp only [Runs.run_cons, World.step, World.call, hJudge, World.init, hGet,
                      Option.bind_some, hTime, if_true, List.nil_append, List.getElem?_cons_zero,
                      hPublish, Option.map_some, World.settle, ok_bind, hSettle]
                    rfl

/-! ## Matching replies -/

/-- Names that differ in the case of ASCII letters alone. -/
def SameName (a b : Str) : Prop := a.map Char.toLower = b.map Char.toLower

/-- If the raw bytes are a query with a question, a reply that is not empty is a
response with its identifier and its first question. -/
def Matches (raw reply : Bytes) : Prop :=
  ∀ req q, Message.parse raw = .ok req → req.header.qr = false → req.question = some q →
    reply ≠ [] → ∃ m q', Message.parse reply = .ok m ∧ m.header.qr = true ∧
      m.header.id = req.header.id ∧ m.question = some q' ∧ SameName q'.name q.name ∧
      q'.qtype = q.qtype ∧ q'.qclass = q.qclass

/-- The canonical form of a name is legible, and it is the name in lower case. -/
def Readable (name : Str) : Prop :=
  LegibleName (canonicalName name) ∧ SameName (canonicalName name) name

theorem matches_of_parse {raw reply : Bytes} {req m : Message} {q : Question}
    (hRaw : Message.parse raw = .ok req) (hSome : req.question = some q) (hName : Readable q.name)
    (hReply : Message.parse reply = .ok m) (hQr : m.header.qr = true)
    (hId : m.header.id = req.header.id) (hQuestion : m.question = some q.canonical) :
    Matches raw reply := by
  intro req' q' hRaw' _ hSome' _
  rw [hRaw] at hRaw'
  cases hRaw'
  rw [hSome] at hSome'
  cases hSome'
  exact ⟨m, _, hReply, hQr, hId, hQuestion, hName.2, rfl, rfl⟩

theorem matches_nil (raw : Bytes) : Matches raw [] := fun _ _ _ _ _ hNil => absurd rfl hNil

/-! ## What the cache keeps -/

/-- Bytes under a key are a written response to the question of the key. -/
def Kept (key : Str) (raw : Bytes) : Prop :=
  ∃ (asked : Asked) (m : Message), key = asked.key ∧ m.Codable LegibleName ∧
    m.header.qr = true ∧ m.question = some ⟨canonicalName asked.qname, asked.qtype, classIn⟩ ∧
    m.encode = .ok raw ∧ raw.length < 2 ^ 32

/-- The same holds of the copies in each place. -/
def keptTerms : Terms where
  l1 k e := Kept k e.raw
  l2 k e := Kept k e.val
  queued cmd := Kept cmd.key cmd.raw
  redis k e := Kept k e.val

theorem key_len (asked : Asked) (hName : Readable asked.qname) (hLen : asked.qname.len ≤ 253) :
    asked.key.len < 2 ^ 32 := by
  have hToken : (tokenOf asked.ecs).length ≤ 86 := by
    cases asked.ecs with
    | none => simp [tokenOf]
    | some e =>
        simp only [tokenOf, Option.map_some, Option.getD_some, EcsInfo.cacheToken]
        split
        · rename_i ip _
          have hText := ip.text_length
          have hPrefix := Str.decimal_length_le (k := 3) (by decide)
            (Nat.lt_trans e.sourcePrefix.toNat_lt (by decide))
          rw [List.length_append, List.length_cons]
          omega
        · simp
  have hType := Str.decimal_length_le (k := 5) (by decide)
    (Nat.lt_trans asked.qtype.toNat_lt (by decide : (65536 : Nat) < 10 ^ 5))
  have hSame : (canonicalName asked.qname).length = asked.qname.length := by
    have hMap := congrArg List.length hName.2
    rwa [List.length_map, List.length_map] at hMap
  have hFront := Str.len_le (canonicalName asked.qname)
  have hChars := Str.length_le_len asked.qname
  have hTail := Str.len_le ('|' :: Str.decimal asked.qtype.toNat)
  have hEnd := Str.len_le ('|' :: tokenOf asked.ecs)
  rw [Asked.key, keyText, Str.len_append, Str.len_append]
  rw [List.length_cons] at hTail hEnd
  omega

/-- A lookup finds bytes that answer its question, with any identifier. -/
theorem Kept.reply {l : Lookup} {raw : Bytes} (h : Kept l.key raw) (hClass : l.q.qclass = classIn) :
    ∃ m, Message.parse (patchId raw l.id) = .ok m ∧ m.header.qr = true ∧ m.header.id = l.id ∧
      m.question = some l.q.canonical := by
  obtain ⟨asked, m, hKey, hCodable, hQr, hQuestion, hEncode, _⟩ := h
  obtain ⟨hNames, hTypes, _⟩ := keyText_inj tokenOf_chars tokenOf_chars
    (show keyText l.q.name l.q.qtype (tokenOf l.ecs) =
      keyText asked.qname asked.qtype (tokenOf asked.ecs) from hKey)
  have hOther : (m.withId l.id).Codable LegibleName := hCodable.withHeader _
  obtain ⟨b, hWritten, hParse⟩ := parse_encode hOther
  rw [encode_withId hEncode] at hWritten
  cases hWritten
  obtain ⟨hId, hQr', hQuestions⟩ := readBack_fields (m.withId l.id)
  refine ⟨_, hParse, hQr'.trans hQr, hId, ?_⟩
  rw [Message.question, ← readBack, hQuestions]
  change m.question = some l.q.canonical
  rw [hQuestion, ← hNames, ← hTypes, ← hClass]
  rfl

/-! ## The invariant -/

/-- A waiting call has a readable name and the class IN, and is that of its query. -/
structure Pending.Fits (p : Pending) : Prop where
  name : Readable p.lookup.q.name
  length : p.lookup.q.name.len ≤ 253
  qclass : p.lookup.q.qclass = classIn
  query : ∃ req, Message.parse p.raw = .ok req ∧ req.question = some p.lookup.q ∧
    p.lookup.id = req.header.id

/-- What every step keeps: the cached bytes can be given to every query of their key, and
each reply so far matches its query. -/
structure World.Sound (w : World) : Prop where
  copies : w.cache.Meets keptTerms
  pending : ∀ p ∈ w.pending, p.Fits
  replies : ∀ p ∈ w.replies, Matches p.1 p.2

/-- The names of the query are readable, and an answer of the zones can be written
and read back; a query that goes on to the cache is of class IN. -/
structure Call.Fits (s : Settings) (c : Call) (req : Message) : Prop where
  names : ∀ q ∈ req.questions, Readable q.name
  zone : ∀ q resp, req.question = some q → s.policy.zones.respond q = some resp →
    resp.canonical.Codable LegibleName
  qclass : ∀ q, req.question = some q → Passes s c req q → q.qclass = classIn

/-- The queries fit, and what the servers send can be written and read back. -/
def Action.Fits : Action → Prop
  | .call s c _ => ∀ req, Message.parse c.raw = .ok req → c.Fits s req
  | .resolved _ _ _ net _ _ => net.Legible
  | .advance _ | .writeL3 _ => True

/-- The servers echo what they are sent: the identifier and the question of their
responses are those of the query. -/
def Action.Echoes : Action → Prop
  | .resolved _ _ _ net _ _ => net.Echoes
  | _ => True

section Steps

variable {w : World}

theorem World.Sound.reply (h : w.Sound) {raw : Bytes} {out : Result Bytes}
    (hMatches : ∀ bytes, out = .ok bytes → Matches raw bytes) : (w.reply raw out).Sound := by
  cases out with
  | err e => exact h
  | panicked => exact h
  | ok bytes =>
      refine ⟨h.copies, h.pending, fun p hp => ?_⟩
      rcases List.mem_cons.mp hp with rfl | hOld
      · exact hMatches bytes rfl
      · exact h.replies p hOld

/-- A message that can be written and read back, with the query's identifier and
question, is a matching reply. -/
theorem matches_of_codable {raw : Bytes} {req resp : Message} {q : Question}
    (hRaw : Message.parse raw = .ok req) (hSome : req.question = some q) (hName : Readable q.name)
    (hCodable : resp.canonical.Codable LegibleName) (hQr : resp.header.qr = true)
    (hId : resp.header.id = req.header.id) (hQuestion : resp.question = some q)
    {other out : Bytes} (h : encodeOr resp other = .ok out) : Matches raw out := by
  obtain ⟨b, hEncode, hParse⟩ := parse_encode hCodable
  rw [encodeOr, ← encode_canonical hCodable, hEncode] at h
  cases h
  obtain ⟨hId', hQr', hQuestions⟩ := readBack_fields resp.canonical
  refine matches_of_parse hRaw hSome hName hParse (hQr'.trans hQr) (hId'.trans hId) ?_
  rw [Message.question, ← readBack, hQuestions, Message.canonical, List.head?_map]
  change resp.question.map Question.canonical = _
  rw [hQuestion, Option.map_some]

/-- What the steps in front of the cache reply matches the query. -/
theorem judged_matches {s : Settings} {c : Call} {v : Verdict} (hJudged : Judged s c v)
    (hFits : ∀ req, Message.parse c.raw = .ok req → c.Fits s req) {resp : Message}
    (hResp : v = .echo resp ∨ v = .blocked resp ∨ v = .zone resp) {out : Bytes}
    (h : encodeOr resp [] = .ok out) : Matches c.raw out := by
  have hName {req : Message} {q : Question} (hParse : Message.parse c.raw = .ok req)
      (hQuestion : req.question = some q) : Readable q.name :=
    (hFits req hParse).names q (List.mem_of_mem_head? hQuestion)
  cases hJudged with
  | silent => simp at hResp
  | lookup => simp at hResp
  | echo req header hParse hId hQr =>
      obtain rfl : { header := header, questions := req.questions } = resp := by simpa using hResp
      have hCount : req.questions.length < 65536 := (parse_counts hParse).1
      have hCodable : ({ header := header, questions := req.questions } : Message).canonical.Codable
          LegibleName := by
        refine ⟨fun q hq => ?_, by simp [Message.canonical], by simpa [Message.canonical],
          by simp [Message.canonical], by simp [Message.canonical], by simp [Message.canonical]⟩
        obtain ⟨q', hq', rfl⟩ := List.mem_map.mp hq
        exact ((hFits req hParse).names q' hq').1
      intro req' q hParse' hQuery hSome
      rw [hParse] at hParse'
      cases hParse'
      exact matches_of_codable hParse hSome (hName hParse hSome) hCodable hQr hId hSome h req q hParse
        hQuery hSome
  | blocked req q mode hParse hQuestion =>
      obtain rfl := by simpa using hResp
      have hCodable : ((BlockList.respond q c.clientIp mode).withId req.header.id).canonical.Codable
          LegibleName :=
        (BlockList.respond_codable (hName hParse hQuestion).1 c.clientIp mode).withHeader _
      exact matches_of_codable hParse hQuestion (hName hParse hQuestion) hCodable rfl rfl rfl h
  | zone req q resp' hParse hQuestion hZone =>
      obtain rfl := by simpa using hResp
      have hCodable : (resp'.withId req.header.id).canonical.Codable LegibleName :=
        ((hFits req hParse).zone q resp' hQuestion hZone).withHeader _
      obtain ⟨answers, rcode, rfl⟩ := ZoneIndex.respond_eq_some hZone
      exact matches_of_codable hParse hQuestion (hName hParse hQuestion) hCodable rfl rfl rfl h

/-- Promoting copies keeps what they are. -/
theorem get_kept (h : w.cache.Meets keptTerms) {key : Str} (hKey : key.len < 2 ^ 32)
    (answers : Bool) : (w.cache.get w.ms answers key).2.Meets keptTerms ∧
      ∀ raw, (w.cache.get w.ms answers key).1 = some raw → Kept key raw := by
  constructor
  · refine h.get h answers hKey (fun e hTerms _ => hTerms) fun e hTerms _ => ?_
    obtain ⟨_, _, _, _, _, _, _, hLength⟩ := id hTerms
    exact ⟨hLength, hTerms, hTerms⟩
  · intro raw hGet
    cases h.serves hGet with
    | l1 e hTerms _ hRaw => exact hRaw ▸ hTerms
    | l2 e hTerms _ hRaw => exact hRaw ▸ hTerms
    | l3 e hTerms _ hRaw => exact hRaw ▸ hTerms

theorem World.Sound.call (h : w.Sound) {s : Settings} {c : Call} {redisAnswers : Bool}
    (hFits : ∀ req, Message.parse c.raw = .ok req → c.Fits s req) :
    (w.call s c redisAnswers).Sound := by
  rw [World.call]
  cases hJudge : judge s c with
  | panicked => exact h
  | err e => exact h
  | ok verdict =>
      obtain ⟨v, info⟩ := verdict
      have hJudged := judge_judged hJudge
      cases v with
      | silent =>
          refine h.reply fun bytes hBytes => ?_
          cases hBytes
          exact matches_nil _
      | echo resp =>
          exact h.reply fun bytes hBytes =>
            judged_matches hJudged hFits (Or.inl rfl) hBytes
      | blocked resp =>
          exact h.reply fun bytes hBytes =>
            judged_matches hJudged hFits (Or.inr (Or.inl rfl)) hBytes
      | zone resp =>
          exact h.reply fun bytes hBytes =>
            judged_matches hJudged hFits (Or.inr (Or.inr rfl)) hBytes
      | lookup l =>
          cases hJudged with
          | lookup req q hParse hQuestion hPasses =>
              have hName := (hFits req hParse).names q (List.mem_of_mem_head? hQuestion)
              have hLength := hPasses.name
              have hClass := (hFits req hParse).qclass q hQuestion hPasses
              obtain ⟨hMeets, hServes⟩ := get_kept h.copies
                (key_len ⟨q.name, q.qtype, clientEcs s c req⟩ hName hLength) redisAnswers
              change (w.cache.get w.ms redisAnswers
                (Lookup.key ⟨req.header.id, q, clientEcs s c req⟩)).2.Meets keptTerms at hMeets
              dsimp only
              cases hGet : w.cache.get w.ms redisAnswers
                  (Lookup.key ⟨req.header.id, q, clientEcs s c req⟩) with
              | mk found cache =>
                  rw [hGet] at hMeets
                  cases found with
                  | some hit =>
                      have hNext : ({ w with cache := cache } : World).Sound :=
                        ⟨hMeets, h.pending, h.replies⟩
                      refine hNext.reply fun bytes hBytes => ?_
                      obtain ⟨r, hReply, hPair⟩ := bind_eq_ok_iff.mp hBytes
                      cases hPair
                      have hKept := hServes hit (congrArg Prod.fst hGet)
                      obtain ⟨m, hRead, hQr, hId, hSame⟩ :=
                        Kept.reply (l := ⟨req.header.id, q, clientEcs s c req⟩) hKept hClass
                      have hSent : r.1 = patchId hit req.header.id := by
                        rw [replyFromCache] at hReply
                        dsimp only at hReply
                        split at hReply <;> cases hReply <;> rfl
                      rw [hSent]
                      exact matches_of_parse hParse hQuestion hName hRead hQr hId hSame
                  | none =>
                      refine ⟨hMeets, fun p hp => ?_, h.replies⟩
                      rcases List.mem_append.mp hp with hOld | hNew
                      · exact h.pending p hOld
                      · rw [List.mem_singleton.mp hNew]
                        exact ⟨hName, hLength, hClass, req, hParse, hQuestion, rfl⟩

/-- What a resolution publishes is the encoding of its message, or a text. -/
theorem publish_eq_some {net : Network} {resolver : Resolver} {nesting n n' : Nat} {asked : Asked}
    {bytes : Bytes} (h : resolver.publish net nesting asked n = some (.ok (.ok bytes), n')) :
    ∃ m n'', resolver.doResolve net nesting asked n = some (.ok m, n'') ∧ m.encode = .ok bytes := by
  obtain ⟨r, n₁, hInner, hEnd⟩ := Asking.bind_eq_ok.mp h
  cases r with
  | error e => cases hEnd
  | ok sent =>
      cases hEnd
      obtain ⟨m, n₂, hMessage, hEncode⟩ := Asking.bind_eq_ok.mp (Asking.attempt_eq_ok.mp hInner)
      refine ⟨m, n₂, hMessage, ?_⟩
      cases hResult : m.encode with
      | ok b =>
          simp only [Asking.lift, hResult, Option.some.injEq, Prod.mk.injEq, Exec.ok.injEq] at hEncode
          rw [hEncode.1]
      | err e => simp [Asking.lift, hResult] at hEncode
      | panicked => simp [Asking.lift, hResult] at hEncode

theorem servfail_codable {l : Lookup} (hName : Readable l.q.name) :
    (servfail l).canonical.Codable LegibleName := by
  refine ⟨fun q hq => ?_, by simp [servfail, Message.canonical],
    by simp [servfail, Message.canonical], by simp [servfail, Message.canonical],
    by simp [servfail, Message.canonical], by simp [servfail, Message.canonical]⟩
  rw [List.mem_singleton.mp hq]
  exact hName.1

/-- What is relayed of a reply to the question of a lookup is one as well. -/
theorem relayed_reply {m : Message} {l : Lookup} (hName : Readable l.q.name)
    (hQr : m.header.qr = true) (hAsked : m.question = some l.q.canonical) :
    (relayed l (readBack m.canonical)).header.id = l.id ∧
      (relayed l (readBack m.canonical)).header.qr = true ∧
      (relayed l (readBack m.canonical)).question = some l.q.canonical := by
  obtain ⟨hHeader, hQuestions, _⟩ := relayed_fields l (readBack m.canonical)
  obtain ⟨_, hQr', hQuestions'⟩ := readBack_fields m.canonical
  refine ⟨by rw [hHeader], by rw [hHeader]; exact hQr'.trans hQr, ?_⟩
  rw [Message.question, hQuestions, hQuestions', Message.canonical, List.head?_map]
  change m.question.map Question.canonical = _
  rw [hAsked, Option.map_some, Question.canonical, Question.canonical, legible_canonical hName.1]

/-- The settled reply is kept in the cache for its lifetime, if it has one. -/
theorem World.Sound.store (h : w.Sound) {key : Str} {raw : Bytes} (hKey : key.len < 2 ^ 32)
    (hRaw : raw.length < 2 ^ 32) (hKept : Kept key raw) (lifetime : Option Int64) :
    World.Sound { w with cache := match lifetime with
      | some ttl => w.cache.put w.ms key raw ttl
      | none => w.cache } := by
  refine ⟨?_, h.pending, h.replies⟩
  cases lifetime with
  | some ttl => exact h.copies.put hKey hRaw (fun _ => hKept) (fun _ => hKept) (fun _ => hKept)
  | none => exact h.copies

theorem World.Sound.settle (h : w.Sound) {p : Pending} (hPending : p.Fits)
    {outcome : Result (Except String Bytes)}
    (hOutcome : ∀ bytes, outcome = .ok (.ok bytes) → ∃ m, Received m ∧
      m.canonical.Codable LegibleName ∧ m.header.qr = true ∧
      m.question = some p.lookup.q.canonical ∧ m.encode = .ok bytes) :
    (w.settle p outcome).Sound := by
  obtain ⟨req, hParse, hQuestion, hId⟩ := hPending.query
  rw [World.settle]
  cases hSettle : outcome >>= fun o => Resolve.settle p.settings.cfg p.lookup o p.info with
  | err e => exact h
  | panicked => exact h
  | ok r =>
      obtain ⟨o, hPublished, hSettled⟩ := bind_eq_ok_iff.mp hSettle
      cases o with
      | error e =>
          obtain ⟨out, hEncode, hEnd⟩ := bind_eq_ok_iff.mp hSettled
          cases hEnd
          refine h.reply fun bytes hBytes => ?_
          cases hBytes
          exact matches_of_codable hParse hQuestion hPending.name (servfail_codable hPending.name)
            rfl hId rfl hEncode
      | ok bytes =>
          obtain ⟨m, hReceived, hCodable, hQr, hAsked, hWritten⟩ := hOutcome bytes hPublished
          obtain ⟨b, hAgain, hBack⟩ := parse_encode hCodable
          rw [encode_canonical hCodable, hWritten] at hAgain
          cases hAgain
          change Message.parse bytes = .ok (readBack m.canonical) at hBack
          simp only [Resolve.settle, hBack, ok_bind] at hSettled
          obtain ⟨out, hOut, hEnd⟩ := bind_eq_ok_iff.mp hSettled
          cases hEnd
          obtain ⟨sent, hSent, hSize⟩ := hReceived.relayed_encode hCodable p.lookup
          have hRelayed := relayed_codable (readBack_codable hCodable) (hReceived.hasRoom hCodable)
            p.lookup
          obtain ⟨hSameId, hResponse, hSame⟩ := relayed_reply hPending.name hQr hAsked
          rw [encodeOr, hSent] at hOut
          cases hOut
          have hKept : Kept p.lookup.key out := by
            refine ⟨p.lookup.asked, _, rfl, hRelayed, hResponse, ?_, hSent, hSize⟩
            rw [hSame, Question.canonical, hPending.qclass]
            rfl
          have hNext := h.store (key_len p.lookup.asked hPending.name hPending.length) hSize hKept
            (if 0 < msgTtl (relayed p.lookup (readBack m.canonical)) p.settings.cfg then
              some (msgTtl (relayed p.lookup (readBack m.canonical)) p.settings.cfg) else none)
          refine hNext.reply fun bytes hBytes => ?_
          cases hBytes
          obtain ⟨b, hAgain, hRead⟩ := parse_encode hRelayed
          rw [hSent] at hAgain
          cases hAgain
          obtain ⟨hId', hQr', hQuestions'⟩ :=
            readBack_fields (relayed p.lookup (readBack m.canonical))
          exact matches_of_parse hParse hQuestion hPending.name hRead (hQr'.trans hResponse)
            ((hId'.trans hSameId).trans hId) ((congrArg List.head? hQuestions').trans hSame)

theorem World.Sound.step (h : w.Sound) {a : Action} (hEchoes : a.Echoes) (hFits : a.Fits)
    {w' : World} (hStep : w.step a = some w') : w'.Sound := by
  cases a with
  | call s c redisAnswers =>
      cases hStep
      exact h.call hFits
  | advance ms =>
      rw [World.step] at hStep
      split_ifs at hStep
      cases hStep
      exact ⟨h.copies, h.pending, h.replies⟩
  | writeL3 answers =>
      obtain ⟨⟨cmd, cache⟩, hWrite, hNext⟩ := Option.map_eq_some_iff.mp hStep
      cases hNext
      exact ⟨(h.copies.writeL3 hWrite fun _ hKept => hKept).2, h.pending, h.replies⟩
  | resolved i leader resolver net nesting n =>
      rw [World.step] at hStep
      split at hStep
      · cases hStep
      · rename_i p hGet
        split_ifs at hStep with hKey
        obtain ⟨⟨outcome, n'⟩, hPublish, hNext⟩ := Option.map_eq_some_iff.mp hStep
        cases hNext
        have hPending := h.pending p (List.mem_of_getElem? hGet)
        obtain ⟨hNames, hTypes, _⟩ := keyText_inj tokenOf_chars tokenOf_chars
          (show keyText leader.qname leader.qtype (tokenOf leader.ecs) =
            keyText p.lookup.q.name p.lookup.q.qtype (tokenOf p.lookup.ecs) from hKey)
        have hRest : ({ w with pending := w.pending.eraseIdx i } : World).Sound :=
          ⟨h.copies, fun p' hp' => h.pending p' (List.mem_of_mem_eraseIdx hp'), h.replies⟩
        refine hRest.settle hPending fun bytes hBytes => ?_
        dsimp only at hBytes
        subst hBytes
        obtain ⟨m, n'', hResolve, hEncode⟩ := publish_eq_some hPublish
        obtain ⟨hReceived, hQr, hQuestion⟩ :=
          doResolve_question hEchoes hResolve (hNames ▸ hPending.name.1)
        refine ⟨m, hReceived, doResolve_codable hFits hResolve, hQr, ?_, hEncode⟩
        rw [hQuestion, hNames, hTypes, Question.canonical, hPending.qclass]

end Steps

/-- In every run from an empty cache with echoing servers, in which the queries
and what the servers send are as required, every reply matches its query. -/
theorem replies_match {l1MaxEntries : Nat} {l1TtlSecs : Int64} {redisConnects : Bool} {ms : Nat}
    {actions : List Action} {w : World} (hEchoes : ∀ a ∈ actions, a.Echoes)
    (hFits : ∀ a ∈ actions, a.Fits)
    (hRun : Runs.run World.step
      (World.init (TieredCache.new l1MaxEntries l1TtlSecs redisConnects) ms) actions = some w) :
    ∀ p ∈ w.replies, Matches p.1 p.2 := by
  have hStart : (World.init (TieredCache.new l1MaxEntries l1TtlSecs redisConnects) ms).Sound :=
    ⟨TieredCache.meets_new _ _ _ _, by simp [World.init], by simp [World.init]⟩
  have hActions : ∀ a ∈ actions, a.Echoes ∧ a.Fits := fun a ha => ⟨hEchoes a ha, hFits a ha⟩
  have hSound : w.Sound := by
    refine Runs.run_invariant (fun w a w' hSound hAction hStep => ?_) hStart hActions hRun
    exact hSound.step hAction.1 hAction.2 hStep
  exact hSound.replies

/-- The query of the resolver for the addresses of "a.". -/
def sentQuery : Bytes :=
  [29, 94, 1, 0, 0, 1, 0, 0, 0, 0, 0, 1, 1, 97, 0, 0, 1, 0, 1, 0, 0, 41, 4, 208, 0, 0, 0, 0, 0, 0]

/-- The response with 192.0.2.1. -/
def sentReply : Bytes :=
  [29, 94, 128, 128, 0, 1, 0, 1, 0, 0, 0, 0, 1, 97, 0, 0, 1, 0, 1, 192, 12, 0, 1, 0, 1, 0, 0, 0,
    60, 0, 4, 192, 0, 2, 1]

/-- The response of the server, parsed. -/
def sentMessage : Message where
  header := { id := queryId, qr := true, ra := true }
  questions := [⟨['a', '.'], typeA, classIn⟩]
  answers := [⟨['a', '.'], typeA, classIn, 60, .a ⟨192, 0, 2, 1⟩⟩]

/-- A network that knows this one response. -/
def oneAnswer : Network where
  expired _ := false
  udp _ _ sent := if sent = sentQuery then .ok sentReply else .err (.io "timed out")
  tcp _ _ _ := .err (.io "timed out")

theorem oneAnswer_sends {reply : Bytes → Message → Prop} (h : reply sentQuery sentMessage) :
    oneAnswer.Sends reply := by
  constructor
  · intro n server sent datagram m hSent hParse
    simp only [oneAnswer] at hSent
    split_ifs at hSent with hQuery
    cases hSent
    have hMessage : Message.parse (sentReply.take udpBuffer) = .ok sentMessage := rfl
    rw [hMessage] at hParse
    cases hParse
    rwa [hQuery]
  · intro n server sent stream resp m hSent
    cases hSent

theorem legibleName_a : LegibleName ['a', '.'] :=
  (hostName_nameText [['a']] (by decide) (by decide)).legible

theorem sentMessage_codable : sentMessage.canonical.Codable LegibleName := by
  refine ⟨fun q hq => ?_, fun r hr => ?_, by decide, by decide, by decide, by decide⟩
  · rw [List.mem_singleton.mp hq]
    exact legibleName_a
  · rw [List.mem_singleton.mp hr]
    exact a_codable legibleName_a ..

/-- A resolver with one turn and one root server. -/
def oneServer : Resolver := ⟨1, [⟨.v4 Ipv4Addr.localhost, 53⟩]⟩

/-- A query for the addresses of "a." in the given class. -/
def classQuery (id qclass : UInt8) : Bytes :=
  [0, id, 1, 0, 0, 1, 0, 0, 0, 0, 0, 0, 1, 97, 0, 0, 1, 0, qclass]

/-- A query, its resolution, and the same query again. -/
def oneRun (qclass : UInt8) : List Action :=
  [.call plainSettings (plainCall (classQuery 1 qclass)) false,
    .resolved 0 ⟨['a', '.'], typeA, none⟩ oneServer oneAnswer 1 0,
    .call plainSettings (plainCall (classQuery 2 qclass)) false]

/-- A call of the class and its resolution, from an empty cache. -/
def oneWorld (qclass : UInt8) : Option World :=
  Runs.run World.step (World.init (TieredCache.new 10 60 false) 0) (oneRun qclass)

theorem oneRun_echoes (qclass : UInt8) : ∀ a ∈ oneRun qclass, a.Echoes := by
  intro a ha
  simp only [oneRun, List.mem_cons, List.not_mem_nil, or_false] at ha
  rcases ha with rfl | rfl | rfl
  · trivial
  · exact oneAnswer_sends ⟨_, rfl, rfl, rfl⟩
  · trivial

theorem oneWorld_replies (qclass : UInt8) (hClass : qclass = 1 ∨ qclass = 3) :
    (oneWorld qclass).map World.replies =
      some [(classQuery 2 qclass, patchId sentReply 2), (classQuery 1 qclass, patchId sentReply 1)] := by
  rcases hClass with rfl | rfl
  · decide +kernel
  · decide +kernel

theorem oneRun_fits : ∀ a ∈ oneRun 1, a.Fits := by
  have hCall (id : UInt8) (redisAnswers : Bool) :
      (Action.call plainSettings (plainCall (classQuery id 1)) redisAnswers).Fits := by
    intro req hParse
    have hRead : Message.parse (classQuery id 1) = .ok
        { header := { id := UInt16.fromBeBytes [0, id], rd := true }
          questions := [⟨['a', '.'], typeA, classIn⟩] } := rfl
    change Message.parse (classQuery id 1) = .ok req at hParse
    rw [hRead] at hParse
    cases hParse
    refine ⟨fun q hq => ?_, fun q resp hQuestion hZone => ?_, fun q hQuestion _ => ?_⟩
    · rw [List.mem_singleton.mp hq]
      exact ⟨legibleName_a, rfl⟩
    · cases hQuestion
      cases hZone
    · cases hQuestion
      rfl
  intro a ha
  simp only [oneRun, List.mem_cons, List.not_mem_nil, or_false] at ha
  rcases ha with rfl | rfl | rfl
  · exact hCall 1 false
  · exact oneAnswer_sends sentMessage_codable
  · exact hCall 2 false

theorem replies_match_oneRun :
    ∃ w, oneWorld 1 = some w ∧ w.replies.length = 2 ∧ ∀ p ∈ w.replies, Matches p.1 p.2 := by
  obtain ⟨w, hRun, hReplies⟩ := Option.map_eq_some_iff.mp (oneWorld_replies 1 (Or.inl rfl))
  exact ⟨w, hRun, by rw [hReplies]; rfl, replies_match (oneRun_echoes 1) oneRun_fits hRun⟩

/-- A query of class CH is answered with a record of class IN, as the resolver has asked
for it: the class of the question is not looked at. -/
theorem replies_mismatch_oneRun :
    ¬∀ (l1MaxEntries : Nat) (l1TtlSecs : Int64) (redisConnects : Bool) (ms : Nat)
      (actions : List Action) (w : World), (∀ a ∈ actions, a.Echoes) →
      Runs.run World.step (World.init (TieredCache.new l1MaxEntries l1TtlSecs redisConnects) ms)
        actions = some w →
      ∀ p ∈ w.replies, Matches p.1 p.2 := by
  intro hAll
  obtain ⟨w, hRun, hReplies⟩ := Option.map_eq_some_iff.mp (oneWorld_replies 3 (Or.inr rfl))
  have hMatches := hAll 10 60 false 0 (oneRun 3) w (oneRun_echoes 3) hRun
    (classQuery 1 3, patchId sentReply 1) (by rw [hReplies]; simp)
  obtain ⟨m, q, hParse, _, _, hQuestion, _, _, hClass⟩ :=
    hMatches _ _ rfl rfl rfl (by decide)
  have hRead : Message.parse (patchId sentReply 1) = .ok (sentMessage.withId 1) := rfl
  rw [hRead] at hParse
  cases hParse
  cases hQuestion
  exact absurd hClass (by decide)

end Dnsd.Resolve
