import Dnsd.Resolve.Hierarchy
import Dnsd.Resolve.Replies

/-! Concurrent calls of `handle` where the resolver asks the servers of a tree of zones.
Every reply is one of the policy in front of the cache, a failure, or what the tree holds
for the question: neither the cache nor a shared resolution makes it into another. -/

namespace Dnsd.Resolve

open Proto Cache Exec

/-! ## The content of a message -/

/-- The message says what the other one does. Its identifier, the flag RA and its
additional records are its own. -/
structure Conveys (t m : Message) : Prop where
  header : m.header.onWire = { t.header.onWire with id := m.header.id, ra := true }
  questions : m.questions = t.questions
  answers : m.answers = t.answers
  authority : m.authority = t.authority

/-- No OPT record stands outside the additional section. -/
def NoOpt (m : Message) : Prop := ∀ r ∈ m.answers ++ m.authority, r.rtype ≠ typeOpt

theorem onWire_onWire (header : Header) : header.onWire.onWire = header.onWire := by
  simp only [Header.onWire, UInt8.and_assoc]
  rfl

/-- The extended bits are not among the four that a header has. -/
theorem fold_low (rcode extRcode : UInt8) : (rcode ||| extRcode <<< 4) &&& 0xF = rcode &&& 0xF := by
  have hHigh : (extRcode <<< 4).toNat &&& 15 = 0 := by
    have hMask : (extRcode <<< 4).toNat &&& 15 = (extRcode <<< 4).toNat % 16 :=
      Nat.and_two_pow_sub_one_eq_mod _ 4
    have hShift : (extRcode <<< 4).toNat = extRcode.toNat * 16 % 256 := by
      rw [UInt8.toNat_shiftLeft, Nat.shiftLeft_eq]
      rfl
    omega
  apply UInt8.toNat_inj.mp
  rw [UInt8.toNat_and, UInt8.toNat_and, UInt8.toNat_or, Nat.and_or_distrib_right]
  exact (congrArg _ hHigh).trans (Nat.or_zero _)

theorem readBack_onWire (m : Message) : (readBack m).header.onWire = m.header.onWire := by
  have hFold (m : Message) : (foldExtRcode m).header.onWire = m.header.onWire := by
    rw [foldExtRcode]
    split
    · split
      · rw [Header.onWire, fold_low]
        rfl
      · rfl
    · rfl
  rw [readBack, hFold, Message.onWire]
  exact onWire_onWire m.header

/-- Answers and authority arrive as they are written. -/
theorem readBack_records {m : Message} (hCodable : m.Codable LegibleName) (hNoOpt : NoOpt m) :
    (readBack m).answers = m.answers ∧ (readBack m).authority = m.authority := by
  have hPlain (r : Record) (hr : r ∈ m.answers ++ m.authority) : r.onWire = r :=
    (hCodable.records r (List.mem_append_left _ hr)).onWire_of_ne (hNoOpt r hr)
  obtain ⟨rcode, hFold⟩ := foldExtRcode_eq_withRcode m.onWire
  rw [readBack, hFold]
  constructor
  · exact (List.map_congr_left fun r hr => hPlain r (List.mem_append_left _ hr)).trans
      (List.map_id m.answers)
  · exact (List.map_congr_left fun r hr => hPlain r (List.mem_append_right _ hr)).trans
      (List.map_id m.authority)

/-- As it is read back, a relayed message says the same. -/
theorem Conveys.readBack {t m : Message} (h : Conveys t m) (hCodable : m.Codable LegibleName)
    (hNoOpt : NoOpt t) : Conveys t (readBack m) := by
  have hOwn : NoOpt m := by
    rw [NoOpt, h.answers, h.authority]
    exact hNoOpt
  obtain ⟨hAnswers, hAuthority⟩ := readBack_records hCodable hOwn
  obtain ⟨hId, _, hQuestions⟩ := readBack_fields m
  refine ⟨?_, hQuestions.trans h.questions, hAnswers.trans h.answers, hAuthority.trans h.authority⟩
  rw [readBack_onWire, hId]
  exact h.header

theorem Conveys.withId {t m : Message} (h : Conveys t m) (id : UInt16) : Conveys t (m.withId id) := by
  refine ⟨?_, h.questions, h.answers, h.authority⟩
  change { m.header.onWire with id := id } = _
  rw [h.header]
  rfl

/-- What is relayed of a message that was written and read back says the same. -/
theorem conveys_relayed {t : Message} (hCodable : t.Codable LegibleName) (hNoOpt : NoOpt t)
    (l : Lookup) : Conveys t (relayed l (readBack t)) := by
  obtain ⟨hHeader, hQuestions, hAnswers, hAuthority, _⟩ := relayed_fields l (readBack t)
  obtain ⟨hAnswers', hAuthority'⟩ := readBack_records hCodable hNoOpt
  refine ⟨?_, hQuestions.trans (readBack_fields t).2.2, hAnswers.trans hAnswers',
    hAuthority.trans hAuthority'⟩
  rw [hHeader]
  change { (readBack t).header.onWire with id := l.id, ra := true } = _
  rw [readBack_onWire]

/-! ## Explained replies -/

namespace Hierarchy

variable {Zone : Type} (h : Hierarchy Zone)

/-- What the tree holds can be written and read back, and questions with one key have
one answer. -/
structure Proper : Prop where
  codable : ∀ asked, (h.truth asked).canonical.Codable LegibleName
  question : ∀ asked, (h.truth asked).questions ≠ []
  noOpt : ∀ asked, NoOpt (h.truth asked).canonical
  keyed : ∀ {a b : Asked}, a.key = b.key → h.truth a.canonical = h.truth b.canonical

/-- The reply of a lookup is a message with its identifier that says what the tree holds. -/
def Tells (l : Lookup) (reply : Bytes) : Prop :=
  ∃ m, Message.parse reply = .ok m ∧ m.header.id = l.id ∧
    Conveys (h.truth l.asked.canonical).canonical m

/-- How the call comes to its reply: it is silenced, answered by the policy or with a
failure, or with what the tree holds for the question. -/
inductive Explained (s : Settings) (c : Call) (reply : Bytes) : Prop where
  | silent (info : RespMeta) (hJudge : judge s c = .ok (.silent, info)) (hNil : reply = [])
  | policy (v : Verdict) (resp : Message) (info : RespMeta) (hJudge : judge s c = .ok (v, info))
      (hVerdict : v = .echo resp ∨ v = .blocked resp ∨ v = .zone resp)
      (hEncode : encodeOr resp [] = .ok reply)
  | failed (l : Lookup) (info : RespMeta) (hJudge : judge s c = .ok (.lookup l, info))
      (hEncode : encodeOr (servfail l) [] = .ok reply)
  | told (l : Lookup) (info : RespMeta) (hJudge : judge s c = .ok (.lookup l, info))
      (hTells : h.Tells l reply)

/-- A step whose servers do not lie: each sends what the zone that it serves responds. -/
def Upright : Action → Prop
  | .resolved _ _ resolver net _ _ => h.Faithful net resolver
  | _ => True

/-- Bytes under a key say what the tree holds for the questions of the key. -/
def Held (key : Str) (raw : Bytes) : Prop :=
  ∃ (asked : Asked) (m : Message), key = asked.key ∧ m.Codable LegibleName ∧
    Conveys (h.truth asked.canonical).canonical m ∧ m.encode = .ok raw ∧ raw.length < 2 ^ 32

/-- The same of the copies in each place. -/
def heldTerms : Terms where
  l1 k e := h.Held k e.raw
  l2 k e := h.Held k e.val
  queued cmd := h.Held cmd.key cmd.raw
  redis k e := h.Held k e.val

/-- The call of a lookup is among the actions. -/
def Called (actions : List Action) (raw : Bytes) (l : Lookup) : Prop :=
  ∃ s c redisAnswers info, Action.call s c redisAnswers ∈ actions ∧ c.raw = raw ∧
    judge s c = .ok (.lookup l, info)

/-- Copies and replies are those of the tree, and waiting calls have been made. -/
structure Grounded (actions : List Action) (w : World) : Prop where
  copies : w.cache.Meets h.heldTerms
  pending : ∀ p ∈ w.pending, Called actions p.raw p.lookup
  replies : ∀ p ∈ w.replies, ∃ s c redisAnswers, Action.call s c redisAnswers ∈ actions ∧
    c.raw = p.1 ∧ h.Explained s c p.2

/-- The key of a name that passes the check of its length is short. -/
theorem key_small {l : Lookup} (hName : l.q.name.len ≤ 253) : l.key.len < 2 ^ 32 := by
  have hToken := tokenOf_length l.ecs
  have hType := Str.decimal_length_le (k := 5) (by decide)
    (Nat.lt_trans l.q.qtype.toNat_lt (by decide : (65536 : Nat) < 10 ^ 5))
  have hCanonical := canonicalName_length l.q.name
  have hChars := Str.length_le_len l.q.name
  have hBytes := Str.len_le l.key
  have hLength : l.key.length = (canonicalName l.q.name).length +
      ((Str.decimal l.q.qtype.toNat).length + 1) + ((tokenOf l.ecs).length + 1) := by
    change (keyText l.q.name l.q.qtype (tokenOf l.ecs)).length = _
    rw [keyText, List.length_append, List.length_append, List.length_cons, List.length_cons]
  omega

theorem lookup_name {s : Settings} {c : Call} {l : Lookup} {info : RespMeta}
    (hJudge : judge s c = .ok (.lookup l, info)) : l.q.name.len ≤ 253 := by
  cases judge_judged hJudge with
  | lookup req q hParse hQuestion hPasses => exact hPasses.name

variable {h} {actions : List Action} {w : World}

/-- A lookup that finds the bytes of its key gets what the tree holds. -/
theorem Held.tells (hProper : h.Proper) {l : Lookup} {raw : Bytes} (hHeld : h.Held l.key raw) :
    h.Tells l (patchId raw l.id) := by
  obtain ⟨asked, m, hKey, hCodable, hConveys, hEncode, _⟩ := hHeld
  have hSame : h.truth l.asked.canonical = h.truth asked.canonical := hProper.keyed hKey
  obtain ⟨b, hWritten, hParse⟩ := parse_encode (m := m.withId l.id) (hCodable.withHeader _)
  rw [encode_withId hEncode] at hWritten
  cases hWritten
  refine ⟨readBack (m.withId l.id), hParse, (readBack_fields _).1, ?_⟩
  rw [hSame]
  exact (hConveys.withId l.id).readBack (hCodable.withHeader _) (hProper.noOpt _)

theorem Grounded.reply (hGrounded : h.Grounded actions w) {raw : Bytes} {out : Result Bytes}
    (hExplained : ∀ bytes, out = .ok bytes → ∃ s c redisAnswers,
      Action.call s c redisAnswers ∈ actions ∧ c.raw = raw ∧ h.Explained s c bytes) :
    h.Grounded actions (w.reply raw out) := by
  cases out with
  | err e => exact hGrounded
  | panicked => exact hGrounded
  | ok bytes =>
      refine ⟨hGrounded.copies, hGrounded.pending, fun p hp => ?_⟩
      rcases List.mem_cons.mp hp with rfl | hOld
      · exact hExplained bytes rfl
      · exact hGrounded.replies p hOld

theorem Grounded.cached (hGrounded : h.Grounded actions w) {cache : TieredCache}
    (hCopies : cache.Meets h.heldTerms) : h.Grounded actions { w with cache := cache } :=
  ⟨hCopies, hGrounded.pending, hGrounded.replies⟩

/-- Promoting copies keeps what they hold. -/
theorem get_held (hCopies : w.cache.Meets h.heldTerms) {key : Str} (hKey : key.len < 2 ^ 32)
    (answers : Bool) : (w.cache.get w.ms answers key).2.Meets h.heldTerms ∧
      ∀ raw, (w.cache.get w.ms answers key).1 = some raw → h.Held key raw := by
  constructor
  · refine hCopies.get hCopies answers hKey (fun e hTerms _ => hTerms) fun e hTerms _ => ?_
    obtain ⟨_, _, _, _, _, _, hLength⟩ := id hTerms
    exact ⟨hLength, hTerms, hTerms⟩
  · intro raw hGet
    cases hCopies.serves hGet with
    | l1 e hTerms _ hRaw => exact hRaw ▸ hTerms
    | l2 e hTerms _ hRaw => exact hRaw ▸ hTerms
    | l3 e hTerms _ hRaw => exact hRaw ▸ hTerms

theorem Grounded.call (hProper : h.Proper) (hGrounded : h.Grounded actions w) {s : Settings} {c : Call}
    {redisAnswers : Bool} (hMem : Action.call s c redisAnswers ∈ actions) :
    h.Grounded actions (w.call s c redisAnswers) := by
  have hPolicy {v : Verdict} {resp : Message} {info : RespMeta} (hJudge : judge s c = .ok (v, info))
      (hVerdict : v = .echo resp ∨ v = .blocked resp ∨ v = .zone resp) :
      h.Grounded actions (w.reply c.raw (encodeOr resp [])) :=
    hGrounded.reply fun bytes hBytes =>
      ⟨s, c, redisAnswers, hMem, rfl, .policy v resp info hJudge hVerdict hBytes⟩
  rw [World.call]
  cases hJudge : judge s c with
  | panicked => exact hGrounded
  | err e => exact hGrounded
  | ok verdict =>
      obtain ⟨v, info⟩ := verdict
      cases v with
      | silent =>
          refine hGrounded.reply fun bytes hBytes => ?_
          cases hBytes
          exact ⟨s, c, redisAnswers, hMem, rfl, .silent info hJudge rfl⟩
      | echo resp => exact hPolicy hJudge (Or.inl rfl)
      | blocked resp => exact hPolicy hJudge (Or.inr (Or.inl rfl))
      | zone resp => exact hPolicy hJudge (Or.inr (Or.inr rfl))
      | lookup l =>
          obtain ⟨hMeets, hServes⟩ :=
            get_held hGrounded.copies (key_small (lookup_name hJudge)) redisAnswers
          dsimp only
          cases hGet : w.cache.get w.ms redisAnswers l.key with
          | mk found cache =>
              rw [hGet] at hMeets hServes
              cases found with
              | some hit =>
                  refine (hGrounded.cached hMeets).reply fun bytes hBytes => ?_
                  obtain ⟨⟨sent, info'⟩, hReply, hPair⟩ := bind_eq_ok_iff.mp hBytes
                  cases hPair
                  obtain ⟨rfl, -⟩ := replyFromCache_eq_ok hReply
                  exact ⟨s, c, redisAnswers, hMem, rfl,
                    .told l info hJudge ((hServes hit rfl).tells hProper)⟩
              | none =>
                  refine ⟨hMeets, fun p hp => ?_, hGrounded.replies⟩
                  rcases List.mem_append.mp hp with hOld | hNew
                  · exact hGrounded.pending p hOld
                  · rw [List.mem_singleton.mp hNew]
                    exact ⟨s, c, redisAnswers, info, hMem, rfl, hJudge⟩

/-- What is published is the written message of the tree, or a text. -/
theorem published_truth (hProper : h.Proper) {net : Network} {resolver : Resolver}
    (hFaithful : h.Faithful net resolver) {nesting n n' : Nat} {leader : Asked} {bytes : Bytes}
    (hPublish : resolver.publish net nesting leader n = some (.ok (.ok bytes), n')) :
    Received (h.truth leader.canonical) ∧ (h.truth leader.canonical).encode = .ok bytes := by
  obtain ⟨m, n'', hResolve, hEncode⟩ := publish_eq_some hPublish
  have hAny : net.Sends fun _ _ => True :=
    ⟨fun _ _ _ _ _ _ _ => trivial, fun _ _ _ _ _ _ _ _ _ => trivial⟩
  obtain ⟨_, hBuf, _⟩ := doResolve_ensures hAny resolver nesting leader n m n'' hResolve
  have hTruth : m = h.truth leader.canonical := by
    rw [doResolve_eq] at hResolve
    exact iterative_truth hFaithful nesting leader.canonical n m n'' hResolve
  subst hTruth
  exact ⟨⟨hBuf, hProper.question _⟩, hEncode⟩

/-- What is relayed of the truth for one question of the key can be kept under the key. -/
theorem held_relayed (hProper : h.Proper) {leader : Asked} {l : Lookup}
    (hKey : leader.key = l.asked.key) (hReceived : Received (h.truth leader.canonical)) :
    ∃ sent, (relayed l (readBack (h.truth leader.canonical).canonical)).encode = .ok sent ∧
      h.Held l.key sent ∧ patchId sent l.id = sent := by
  have hCodable := hProper.codable leader.canonical
  have hSame : h.truth leader.canonical = h.truth l.asked.canonical := hProper.keyed hKey
  obtain ⟨sent, hSent, hSize⟩ := hReceived.relayed_encode hCodable l
  have hRelayed := relayed_codable (readBack_codable hCodable) (hReceived.hasRoom hCodable) l
  have hConveys := conveys_relayed hCodable (hProper.noOpt leader.canonical) l
  refine ⟨sent, hSent, ⟨l.asked, _, rfl, hRelayed, ?_, hSent, hSize⟩, ?_⟩
  · rw [← hSame]
    exact hConveys
  · have hOwn : (relayed l (readBack (h.truth leader.canonical).canonical)).withId l.id =
        relayed l (readBack (h.truth leader.canonical).canonical) := rfl
    have hPatched := encode_withId hSent l.id
    rw [hOwn, hSent] at hPatched
    exact (Exec.ok.inj hPatched).symm

theorem Grounded.settle (hProper : h.Proper) (hGrounded : h.Grounded actions w) {p : Pending}
    (hCalled : Called actions p.raw p.lookup) {leader : Asked} (hKey : leader.key = p.lookup.asked.key)
    {outcome : Result (Except String Bytes)}
    (hOutcome : ∀ bytes, outcome = .ok (.ok bytes) →
      Received (h.truth leader.canonical) ∧ (h.truth leader.canonical).encode = .ok bytes) :
    h.Grounded actions (w.settle p outcome) := by
  obtain ⟨s, c, redisAnswers, info, hMem, hRaw, hJudge⟩ := hCalled
  rw [World.settle]
  cases hSettle : outcome >>= fun o => Resolve.settle p.settings.cfg p.lookup o p.info with
  | err e => exact hGrounded
  | panicked => exact hGrounded
  | ok r =>
      obtain ⟨o, hPublished, hSettled⟩ := bind_eq_ok_iff.mp hSettle
      cases o with
      | error e =>
          obtain ⟨out, hEncode, hEnd⟩ := bind_eq_ok_iff.mp hSettled
          cases hEnd
          refine hGrounded.reply fun bytes hBytes => ?_
          cases hBytes
          exact ⟨s, c, redisAnswers, hMem, hRaw, .failed p.lookup info hJudge hEncode⟩
      | ok bytes =>
          obtain ⟨hReceived, hWritten⟩ := hOutcome bytes hPublished
          obtain ⟨sent, hSent, hHeld, hOwn⟩ := held_relayed hProper hKey hReceived
          have hCodable := hProper.codable leader.canonical
          obtain ⟨b, hAgain, hBack⟩ := parse_encode hCodable
          rw [encode_canonical hCodable, hWritten] at hAgain
          cases hAgain
          change Message.parse bytes = .ok (readBack (h.truth leader.canonical).canonical) at hBack
          have hReply : r.reply = sent := by
            have hOut := (settle_eq_ok hSettled).2.1
            rw [relayedFrom, hBack] at hOut
            dsimp only at hOut
            rw [encodeOr, hSent] at hOut
            exact (Exec.ok.inj hOut).symm
          refine (hGrounded.cached ?_).reply fun bytes hBytes => ?_
          · rw [hReply]
            obtain ⟨_, _, _, _, _, _, hSize⟩ := id hHeld
            cases r.store with
            | none => exact hGrounded.copies
            | some ttl =>
                exact hGrounded.copies.put (key_small (lookup_name hJudge)) hSize (fun _ => hHeld)
                  (fun _ => hHeld) (fun _ => hHeld)
          · cases hBytes
            refine ⟨s, c, redisAnswers, hMem, hRaw, .told p.lookup info hJudge ?_⟩
            rw [hReply, ← hOwn]
            exact hHeld.tells hProper

theorem Grounded.step (hProper : h.Proper) (hGrounded : h.Grounded actions w) {a : Action}
    (hMem : a ∈ actions) (hUpright : h.Upright a) {w' : World} (hStep : w.step a = some w') :
    h.Grounded actions w' := by
  cases a with
  | call s c redisAnswers =>
      cases hStep
      exact hGrounded.call hProper hMem
  | advance ms =>
      rw [World.step] at hStep
      split_ifs at hStep
      cases hStep
      exact ⟨hGrounded.copies, hGrounded.pending, hGrounded.replies⟩
  | writeL3 answers =>
      obtain ⟨⟨cmd, cache⟩, hWrite, hNext⟩ := Option.map_eq_some_iff.mp hStep
      cases hNext
      exact ⟨(hGrounded.copies.writeL3 hWrite fun _ hHeld => hHeld).2, hGrounded.pending,
        hGrounded.replies⟩
  | resolved i leader resolver net nesting n =>
      rw [World.step] at hStep
      split at hStep
      · cases hStep
      · rename_i p hGet
        split_ifs at hStep with hKey
        obtain ⟨⟨outcome, n'⟩, hPublish, hNext⟩ := Option.map_eq_some_iff.mp hStep
        cases hNext
        have hRest : h.Grounded actions { w with pending := w.pending.eraseIdx i } :=
          ⟨hGrounded.copies, fun p' hp' => hGrounded.pending p' (List.mem_of_mem_eraseIdx hp'),
            hGrounded.replies⟩
        refine hRest.settle hProper (hGrounded.pending p (List.mem_of_getElem? hGet)) hKey
          fun bytes hBytes => ?_
        dsimp only at hBytes
        subst hBytes
        exact published_truth hProper hUpright hPublish

/-- In every run from an empty cache whose servers do not lie, every reply is explained:
what a lookup is told is what the tree holds for its question. -/
theorem replies_explained (hProper : h.Proper) {l1MaxEntries : Nat} {l1TtlSecs : Int64}
    {redisConnects : Bool} {ms : Nat} (hUpright : ∀ a ∈ actions, h.Upright a)
    (hRun : Runs.run World.step
      (World.init (TieredCache.new l1MaxEntries l1TtlSecs redisConnects) ms) actions = some w) :
    ∀ p ∈ w.replies, ∃ s c redisAnswers, Action.call s c redisAnswers ∈ actions ∧ c.raw = p.1 ∧
      h.Explained s c p.2 := by
  have hStart : h.Grounded actions
      (World.init (TieredCache.new l1MaxEntries l1TtlSecs redisConnects) ms) :=
    ⟨TieredCache.meets_new _ _ _ _, by simp [World.init], by simp [World.init]⟩
  have hActions : ∀ a ∈ actions, a ∈ actions ∧ h.Upright a := fun a ha => ⟨ha, hUpright a ha⟩
  have hGrounded : h.Grounded actions w := by
    refine Runs.run_invariant (fun w a w' hGrounded hAction hStep => ?_) hStart hActions hRun
    exact hGrounded.step hProper hAction.1 hAction.2 hStep
  exact hGrounded.replies

end Hierarchy

/-! ### Two zones -/

/-- The root delegates all there is to the zone "a.". -/
def twoZones : Hierarchy Bool where
  next z _ := if z then some false else none
  height z := if z then 1 else 0
  next_height := by
    intro z _ z' hNext
    cases z with
    | true =>
        cases hNext
        decide
    | false => cases hNext
  root := true
  response z _ := if z then glueMessage ['a', '.'] else ownMessage
  ending_iff := by
    intro z _
    cases z <;> decide

/-- The server of the lower zone. -/
def ownServer : SocketAddr := ⟨.v4 ⟨192, 0, 2, 66⟩, 53⟩

/-- Each of the two servers sends always the same. -/
def twoReplies (server : SocketAddr) : Option Bytes :=
  if server = rootServer then some (glueReply 97)
  else if server = ownServer then some ownReply
  else none

/-- The network with the two servers. -/
def twoServers : Network := onlyUdp fun server _ => twoReplies server

/-- A server that always sends the same message delivers nothing else. -/
theorem delivers_same {server : SocketAddr} {reply : Bytes} {m m' : Message} {query : Message}
    {n n' : Nat} (hReply : twoReplies server = some reply)
    (hParse : Message.parse (reply.take udpBuffer) = .ok m)
    (h : Delivers twoServers server query n m' n') : m' = m := by
  obtain ⟨sent, datagram, -, hDatagram, hRead⟩ := delivers_onlyUdp h
  rw [hReply] at hDatagram
  cases hDatagram
  exact Exec.ok.inj (hRead.symm.trans hParse)

theorem faithful_twoServers : twoZones.Faithful twoServers treeResolver where
  roots server hServer := by
    rw [List.mem_singleton.mp hServer]
    intro asked n m n' _ hDelivers _
    exact ⟨true, .here true, delivers_same (m := glueMessage ['a', '.']) rfl rfl hDelivers⟩
  servers := by
    intro asked z z' hRefers ns hNs server hServer
    obtain ⟨-, hNext⟩ := hRefers
    cases z with
    | false => cases hNext
    | true =>
        cases hNext
        obtain rfl : ns = ['a', '.'] := List.mem_singleton.mp hNs
        obtain rfl : server = ownServer := List.mem_singleton.mp hServer
        intro asked n m n' _ hDelivers _
        exact ⟨false, .here false, delivers_same rfl parse_ownReply hDelivers⟩

theorem truth_twoZones (asked : Asked) : twoZones.truth asked = ownMessage := by
  have hBottom : twoZones.bottom true asked = false :=
    (twoZones.bottom_of_some rfl).trans (twoZones.bottom_of_none rfl)
  change twoZones.response (twoZones.bottom true asked) asked = ownMessage
  rw [hBottom]
  rfl

theorem proper_twoZones : twoZones.Proper where
  codable asked := by
    rw [truth_twoZones]
    refine ⟨fun q hq => ?_, fun r hr => ?_, by decide, by decide, by decide, by decide⟩
    · rw [List.mem_singleton.mp hq]
      exact legibleName_a
    · rw [List.mem_singleton.mp hr]
      exact a_codable legibleName_a ..
  question asked := by
    rw [truth_twoZones]
    exact List.cons_ne_nil _ _
  noOpt asked := by
    rw [truth_twoZones]
    intro r hr
    rw [List.mem_singleton.mp hr]
    decide
  keyed _ := by rw [truth_twoZones, truth_twoZones]

/-- A query, its resolution down the two zones, and the same query again. -/
def treeRun : List Action :=
  [.call plainSettings (plainCall (classQuery 1 1)) false,
    .resolved 0 askedA treeResolver twoServers 1 0,
    .call plainSettings (plainCall (classQuery 2 1)) false]

/-- What the run comes to, from an empty cache. -/
def treeWorld : Option World :=
  Runs.run World.step (World.init (TieredCache.new 10 60 false) 0) treeRun

theorem treeWorld_replies : treeWorld.map World.replies =
    some [(classQuery 2 1, patchId sentReply 2), (classQuery 1 1, patchId sentReply 1)] := by
  decide +kernel

theorem treeRun_upright : ∀ a ∈ treeRun, twoZones.Upright a := by
  intro a ha
  simp only [treeRun, List.mem_cons, List.not_mem_nil, or_false] at ha
  rcases ha with rfl | rfl | rfl
  · trivial
  · exact faithful_twoServers
  · trivial

theorem replies_explained_treeRun : ∃ w, treeWorld = some w ∧ w.replies.length = 2 ∧
    ∀ p ∈ w.replies, ∃ s c redisAnswers, Action.call s c redisAnswers ∈ treeRun ∧ c.raw = p.1 ∧
      twoZones.Explained s c p.2 := by
  obtain ⟨w, hRun, hReplies⟩ := Option.map_eq_some_iff.mp treeWorld_replies
  exact ⟨w, hRun, by rw [hReplies]; rfl, Hierarchy.replies_explained proper_twoZones treeRun_upright hRun⟩

end Dnsd.Resolve
