import Dnsd.Proto.Alignment
import Dnsd.Resolve.Relay
import Dnsd.Resolve.Replies

/-! What the query log says of a reply: every exit of the pipeline sets a text of its
own, and the reply has four bits of the code and those of its first OPT record. -/

namespace Dnsd.Resolve

open Proto Cache

/-- The name of a code that is read from a reply. -/
def rcodeName (rcode : UInt8) : String := if rcode = 16 then "BADVERS" else rcodeToString rcode

theorem rcodeToString_eq_rcodeName_iff {rcode : UInt8} :
    rcodeToString rcode = rcodeName rcode ↔ rcode ≠ 16 := by
  rw [rcodeName]
  split_ifs with hBadvers
  · rw [hBadvers]
    decide
  · exact iff_of_true rfl hBadvers

/-- The text for the code sixteen is not the name of any code. -/
theorem rcodeToString_ne_sixteen {rcode rcode' : UInt8} (h : rcodeToString rcode = rcodeName rcode') :
    rcode ≠ 16 := by
  rintro rfl
  have hAll : ∀ k : Fin 256, rcodeToString 16 ≠ rcodeName (UInt8.ofNat k.val) := by
    decide +kernel
  have hNe := hAll ⟨rcode'.toNat, rcode'.toNat_lt⟩
  rw [UInt8.ofNat_toNat] at hNe
  exact hNe h

/-! ## In front of the cache -/

/-- The call has a query of another version of EDNS, which nothing is wrong with before
its version is looked at. -/
def Call.OtherVersion (call : Call) : Prop :=
  ∃ req q, Message.parse call.raw = .ok req ∧ req.header.qr = false ∧ req.question = some q ∧
    q.name.len ≤ 253 ∧ otherVersion req = true

/-- A written reply and its log entry: they name one code, but for the reply to a query of
another version. -/
inductive Logged (call : Call) (resp : Message) (info : RespMeta) : Prop where
  | badvers (hVersion : call.OtherVersion) (hRcode : resp.header.rcode = 16)
      (hLog : info.rcode = "BADVERS")
  | plain (hVersion : ¬call.OtherVersion) (hRcode : resp.header.rcode < 16)
      (hLog : info.rcode = rcodeToString resp.header.rcode)

/-- What the log entry has of a verdict, whose reply has no additional section. -/
def Verdict.Logs (call : Call) (info : RespMeta) : Verdict → Prop
  | .silent => True
  | .echo resp | .blocked resp | .zone resp => resp.additional = [] ∧ Logged call resp info
  | .lookup _ => ¬call.OtherVersion

section Judge

variable {s : Settings} {call : Call} {v : Verdict} {info info' : RespMeta}

theorem refused_fits : rcodeRefused < 16 := by decide

theorem noerror_fits : rcodeNoerror < 16 := by decide

theorem nxdomain_fits : rcodeNxdomain < 16 := by decide

theorem refuse_logs (hVersion : ¬call.OtherVersion) (h : refuse call.raw info = .ok (v, info')) :
    v.Logs call info' := by
  rw [refuse] at h
  split at h
  · cases h
    exact ⟨rfl, .plain hVersion refused_fits rfl⟩
  · cases h
    trivial
  · cases h

theorem applyPolicy_logs {req : Message} {q : Question} (hVersion : ¬call.OtherVersion)
    (h : applyPolicy s call req q info = (v, info')) : v.Logs call info' := by
  rw [applyPolicy] at h
  dsimp only at h
  split at h
  · cases h
    exact ⟨rfl, .plain hVersion noerror_fits rfl⟩
  · split at h
    · rename_i resp hZone
      cases h
      have hRcode : resp.header.rcode < 16 := by
        rcases ZoneIndex.respond_rcode hZone with hRcode | hRcode
        · exact hRcode ▸ noerror_fits
        · exact hRcode ▸ nxdomain_fits
      obtain ⟨answers, rcode, rfl⟩ := ZoneIndex.respond_eq_some hZone
      exact ⟨rfl, .plain hVersion hRcode rfl⟩
    · cases h
      exact hVersion

theorem judge_logs (h : judge s call = .ok (v, info)) : v.Logs call info := by
  rw [judge] at h
  split at h
  · cases h
  · rename_i e hParse
    refine refuse_logs ?_ h
    rintro ⟨req, q, hReq, -⟩
    rw [hParse] at hReq
    cases hReq
  · rename_i req hParse
    have hSame {req' : Message} (hReq : Message.parse call.raw = .ok req') : req' = req :=
      Exec.ok.inj (hReq.symm.trans hParse)
    split at h
    · cases h
      trivial
    · rename_i hQr
      split at h
      · rename_i hQuestion
        refine refuse_logs ?_ h
        rintro ⟨req', q, hReq, -, hq, -⟩
        rw [hSame hReq, hQuestion] at hq
        cases hq
      · rename_i q hQuestion
        dsimp only at h
        split at h
        · rename_i hLong
          refine refuse_logs ?_ h
          rintro ⟨req', q', hReq, -, hq, hShort, -⟩
          rw [hSame hReq, hQuestion] at hq
          cases hq
          omega
        · rename_i hLong
          split at h
          · rename_i hVersion
            cases h
            exact ⟨rfl, .badvers ⟨req, q, hParse, by simpa using hQr, hQuestion, Nat.not_lt.mp hLong,
              hVersion⟩ rfl rfl⟩
          · rename_i hVersion
            have hNot : ¬call.OtherVersion := by
              rintro ⟨req', q', hReq, -, -, -, hOther⟩
              rw [hSame hReq] at hOther
              exact hVersion hOther
            split at h
            · cases h
              exact ⟨rfl, .plain hNot refused_fits rfl⟩
            · exact applyPolicy_logs hNot (Exec.ok.inj h)

end Judge

/-! ## Behind the cache -/

/-- Adding the option to an OPT record leaves the type and the code of it. -/
theorem echoInto_bits {ecs : EcsInfo} {records records' : List Record} {m m' : Message}
    (h : echoInto ecs records = some records') (hOld : m.additional = records)
    (hNew : m'.additional = records') :
    m'.extRcodeBits = m.extRcodeBits ∧ ((∀ r ∈ records, r.rtype = typeOpt → r.data.kind = .opt) →
      ∀ r ∈ records', r.rtype = typeOpt → r.data.kind = .opt) := by
  rw [Message.extRcodeBits, Message.extRcodeBits, Message.edns, Message.edns, hOld, hNew]
  clear hOld hNew
  induction records generalizing records' with
  | nil => cases h
  | cons r rest ih =>
      rw [echoInto] at h
      split_ifs at h with hType
      · obtain ⟨name, rtype, rclass, ttl, d⟩ := r
        cases d with
        | opt udpSize extRcode version flags options =>
            cases h
            rw [List.find?_cons_of_pos (by simpa using hType),
              List.find?_cons_of_pos (by simpa using hType)]
            refine ⟨rfl, fun hKinds => List.forall_mem_cons.mpr ⟨fun _ => rfl, ?_⟩⟩
            exact fun r hr => hKinds r (List.mem_cons_of_mem _ hr)
        | _ =>
            cases h
            exact ⟨rfl, id⟩
      · obtain ⟨tail, hTail, rfl⟩ := Option.map_eq_some_iff.mp h
        obtain ⟨hBits, hKinds⟩ := ih hTail
        rw [List.find?_cons_of_neg (by simpa using hType), List.find?_cons_of_neg (by simpa using hType)]
        refine ⟨hBits, fun hAll => List.forall_mem_cons.mpr ⟨fun h => absurd h hType, ?_⟩⟩
        exact hKinds fun r hr => hAll r (List.mem_cons_of_mem _ hr)

theorem echoInto_eq_none {ecs : EcsInfo} {records : List Record} (h : echoInto ecs records = none) :
    ∀ r ∈ records, r.rtype ≠ typeOpt := by
  induction records with
  | nil => simp
  | cons r rest ih =>
      rw [echoInto] at h
      split_ifs at h with hType
      · split at h <;> cases h
      · exact List.forall_mem_cons.mpr ⟨hType, ih (Option.map_eq_none_iff.mp h)⟩

/-- The message with the option has the code of the one without. -/
theorem echoEcs_received {m : Message} (h : m.Received) (ecs : EcsInfo) : (echoEcs m ecs).Received := by
  have hFront (r : Record) (hr : r ∈ m.answers ++ m.authority) := h.opt r (List.mem_append_left _ hr)
  have hBack (r : Record) (hr : r ∈ m.additional) := h.opt r (List.mem_append_right _ hr)
  rw [echoEcs]
  split
  · rename_i additional hEcho
    have hAdded : ({ m with additional := additional } : Message).additional = additional := rfl
    obtain ⟨hBits, hKinds⟩ := echoInto_bits hEcho rfl hAdded
    refine ⟨h.questionCount, h.answerCount, h.authorityCount, fun r hr => ?_, by rw [hBits]; exact h.rcode⟩
    rcases List.mem_append.mp hr with hr | hr
    · exact hFront r hr
    · exact hKinds hBack r hr
  · rename_i hEcho
    have hNone := echoInto_eq_none hEcho
    have hBits : (addEdns m 1232 (some ecs)).extRcodeBits = m.extRcodeBits := by
      have hOld : m.additional.find? (fun r => r.rtype == typeOpt) = none :=
        List.find?_eq_none.mpr fun r hr => by simpa using hNone r hr
      rw [Message.extRcodeBits, Message.extRcodeBits, Message.edns, Message.edns, hOld, addEdns,
        List.find?_append, hOld]
      rfl
    refine ⟨h.questionCount, h.answerCount, h.authorityCount, fun r hr => ?_, by rw [hBits]; exact h.rcode⟩
    rcases List.mem_append.mp hr with hr | hr
    · exact hFront r hr
    · rcases List.mem_append.mp hr with hr | hr
      · exact hBack r hr
      · rw [List.mem_singleton.mp hr]
        exact fun _ => rfl

theorem relayed_received {m : Message} (h : m.Received) (l : Lookup) : (relayed l m).Received := by
  obtain ⟨id, q, ecs⟩ := l
  cases ecs with
  | none => exact ⟨h.questionCount, h.answerCount, h.authorityCount, h.opt, h.rcode⟩
  | some e =>
      have hEcho := echoEcs_received h e
      exact ⟨hEcho.questionCount, hEcho.answerCount, hEcho.authorityCount, hEcho.opt, hEcho.rcode⟩

/-- What is relayed for the bytes of a resolution has their code, and none if they are
not a message. -/
theorem relayedFrom_rcode (l : Lookup) (bytes : Bytes) :
    (relayedFrom l bytes).Received ∧
      ((∃ m, Message.parse bytes = .ok m ∧ (relayedFrom l bytes).header.rcode = m.header.rcode) ∨
        (∀ m, Message.parse bytes ≠ .ok m) ∧ (relayedFrom l bytes).header.rcode = rcodeNoerror) := by
  have hEmpty : ({} : Message).Received :=
    ⟨by decide, by decide, by decide, by simp, by decide⟩
  rw [relayedFrom]
  cases hParse : Message.parse bytes with
  | ok m =>
      refine ⟨relayed_received (parse_received hParse) l, Or.inl ⟨m, rfl, ?_⟩⟩
      rw [(relayed_fields l m).1]
  | err e | panicked =>
      refine ⟨relayed_received hEmpty l, Or.inr ⟨by simp, ?_⟩⟩
      rw [(relayed_fields l {}).1]
      rfl

/-! ## A whole call -/

section Call

variable (s : Settings) (resolver : Resolver) (net : Network) (nesting : Nat) (cache : TieredCache)
  (env : CacheEnv) (call : Call)

/-- The lookup of the call is answered from the cache. -/
def Hits (l : Lookup) (hit : Bytes) : Prop :=
  (∃ info, judge s call = .ok (.lookup l, info)) ∧
    (cache.get env.getMs env.redisAnswers l.key).1 = some hit

/-- The lookup of the call goes to the resolver, which returns the bytes. -/
def Resolves (l : Lookup) (bytes : Bytes) : Prop :=
  (∃ info, judge s call = .ok (.lookup l, info)) ∧
    (cache.get env.getMs env.redisAnswers l.key).1 = none ∧
    ∃ asked, resolver.publish net nesting l.asked 0 = some (.ok (.ok bytes), asked)

/-- The message that the call passes on: what is in the cache, under the identifier of
the query, or else what the resolver returns. -/
def PassesOn (m : Message) : Prop :=
  (∃ l hit, Hits s cache env call l hit ∧ Message.parse (patchId hit l.id) = .ok m) ∨
    ∃ l bytes, Resolves s resolver net nesting cache env call l bytes ∧ Message.parse bytes = .ok m

/-- A reader can follow what is written for a resolution, as far as it matters. A message
that cannot be written is replaced by the bytes that it comes from. -/
def Followed : Prop :=
  ∀ l bytes, Resolves s resolver net nesting cache env call l bytes →
    (∀ written, (relayedFrom l bytes).encode ≠ .ok written) ∨
      (relayedFrom l bytes).additional = [] ∨ (relayedFrom l bytes).Aligned

end Call

section Handle

variable {s : Settings} {resolver : Resolver} {net : Network} {nesting : Nat} {cache : TieredCache}
  {env : CacheEnv} {call : Call}

theorem encodeOr_eq_ok {m : Message} {other reply : Bytes} (h : encodeOr m other = .ok reply) :
    m.encode = .ok reply ∨ reply = other := by
  rw [encodeOr] at h
  split at h
  · rename_i hEncode
    exact Or.inl (hEncode.trans h)
  · exact Or.inr (Exec.ok.inj h).symm
  · cases h

/-- A reply without an additional section has the four bits of the code. -/
theorem rcode_of_written {resp m : Message} {reply : Bytes} (hEncode : encodeOr resp [] = .ok reply)
    (hReply : Message.parse reply = .ok m) (hAdditional : resp.additional = []) :
    m.header.rcode = resp.header.rcode &&& 0xF := by
  rcases encodeOr_eq_ok hEncode with hEncode | rfl
  · rw [rcode_of_parse hEncode hReply, extRcodeBits_of_empty hEncode hReply hAdditional, UInt8.or_zero]
  · rw [parse_of_short (by decide)] at hReply
    cases hReply

theorem and_mask_of_lt {rcode : UInt8} (h : rcode < 16) : rcode &&& 0xF = rcode := by
  apply UInt8.toNat_inj.mp
  rw [UInt8.toNat_and]
  exact Nat.and_two_pow_sub_one_of_lt_two_pow (n := 4) (UInt8.lt_iff_toNat_lt.mp h)

theorem logged_of_written {resp m : Message} {info : RespMeta} {reply : Bytes}
    (hLogged : Logged call resp info) (hAdditional : resp.additional = [])
    (hEncode : encodeOr resp [] = .ok reply) (hReply : Message.parse reply = .ok m) :
    info.rcode = rcodeName m.header.rcode ↔ ¬call.OtherVersion := by
  rw [rcode_of_written hEncode hReply hAdditional]
  cases hLogged with
  | badvers hVersion hRcode hLog =>
      rw [hRcode, hLog]
      exact iff_of_false (by decide) (not_not.mpr hVersion)
  | plain hVersion hRcode hLog =>
      rw [and_mask_of_lt hRcode, hLog, rcodeToString_eq_rcodeName_iff]
      exact iff_of_true (fun h => absurd hRcode (by rw [h]; decide)) hVersion

/-- What is logged for a resolution is the code of the bytes that come from it. -/
theorem rcode_of_settled {l : Lookup} {bytes reply : Bytes} {m : Message}
    (hFollowed : (∀ written, (relayedFrom l bytes).encode ≠ .ok written) ∨
      (relayedFrom l bytes).additional = [] ∨ (relayedFrom l bytes).Aligned)
    (hEncode : encodeOr (relayedFrom l bytes) bytes = .ok reply)
    (hReply : Message.parse reply = .ok m) :
    (relayedFrom l bytes).header.rcode = m.header.rcode := by
  obtain ⟨hReceived, hRcode⟩ := relayedFrom_rcode l bytes
  rcases encodeOr_eq_ok hEncode with hEncode | rfl
  · have hAligned := hFollowed.resolve_left fun hUnwritten => hUnwritten reply hEncode
    exact (rcode_of_aligned hReceived hAligned hEncode hReply).symm
  · rcases hRcode with ⟨m', hParse, hSame⟩ | ⟨hNone, -⟩
    · rw [hSame, Exec.ok.inj (hParse.symm.trans hReply)]
    · exact absurd hReply (hNone m)

/-! What is passed on, by the exit of the call. -/

theorem not_passesOn {v : Verdict} {info : RespMeta} (hJudge : judge s call = .ok (v, info))
    (hVerdict : ∀ l, v ≠ .lookup l) {m : Message} :
    ¬PassesOn s resolver net nesting cache env call m := by
  have hOther (l : Lookup) (info' : RespMeta) (h : judge s call = .ok (.lookup l, info')) : False := by
    cases hJudge.symm.trans h
    exact hVerdict l rfl
  rintro (⟨l, _, ⟨⟨info', h⟩, -⟩, -⟩ | ⟨l, _, ⟨⟨info', h⟩, -⟩, -⟩)
  · exact hOther l info' h
  · exact hOther l info' h

theorem passesOn_hit {l : Lookup} {info : RespMeta} {hit : Bytes}
    (hJudge : judge s call = .ok (.lookup l, info))
    (hGet : (cache.get env.getMs env.redisAnswers l.key).1 = some hit) {m : Message} :
    PassesOn s resolver net nesting cache env call m ↔ Message.parse (patchId hit l.id) = .ok m := by
  constructor
  · rintro (⟨l', _, ⟨⟨_, hSame⟩, hHit⟩, hParse⟩ | ⟨l', _, ⟨⟨_, hSame⟩, hNone, -⟩, -⟩)
    · cases hJudge.symm.trans hSame
      cases hGet.symm.trans hHit
      exact hParse
    · cases hJudge.symm.trans hSame
      cases hGet.symm.trans hNone
  · exact fun hParse => Or.inl ⟨l, hit, ⟨⟨info, hJudge⟩, hGet⟩, hParse⟩

theorem passesOn_resolved {l : Lookup} {info : RespMeta} {outcome : Except String Bytes} {asked : Nat}
    (hJudge : judge s call = .ok (.lookup l, info))
    (hGet : (cache.get env.getMs env.redisAnswers l.key).1 = none)
    (hPublish : resolver.publish net nesting l.asked 0 = some (.ok outcome, asked)) {m : Message} :
    PassesOn s resolver net nesting cache env call m ↔
      ∃ bytes, outcome = .ok bytes ∧ Message.parse bytes = .ok m := by
  constructor
  · rintro (⟨l', _, ⟨⟨_, hSame⟩, hHit⟩, -⟩ | ⟨l', bytes, ⟨⟨_, hSame⟩, -, _, hAgain⟩, hParse⟩)
    · cases hJudge.symm.trans hSame
      cases hGet.symm.trans hHit
    · cases hJudge.symm.trans hSame
      cases hPublish.symm.trans hAgain
      exact ⟨bytes, rfl, hParse⟩
  · rintro ⟨bytes, rfl, hParse⟩
    exact Or.inr ⟨l, bytes, ⟨⟨info, hJudge⟩, hGet, asked, hPublish⟩, hParse⟩

/-- The code of what is relayed for some bytes is sixteen exactly if theirs is. -/
theorem relayedFrom_ne_sixteen {l : Lookup} {bytes : Bytes} :
    (relayedFrom l bytes).header.rcode ≠ 16 ↔
      ∀ m, Message.parse bytes = .ok m → m.header.rcode ≠ 16 := by
  rcases (relayedFrom_rcode l bytes).2 with ⟨m, hParse, hSame⟩ | ⟨hNone, hZero⟩
  · rw [hSame]
    constructor
    · intro h m' hAgain
      rwa [← Exec.ok.inj (hParse.symm.trans hAgain)]
    · exact fun h => h m hParse
  · rw [hZero]
    exact iff_of_true (by decide) fun m h => absurd h (hNone m)

/-- The log entry of a call names the code of its reply only if the query is not one
of another version and what is passed on has not the code of that, which is enough
where a reader can follow what is relayed. -/
theorem logged_iff {via : String} {tsMs rttMs : Int64} {p : Processed} {row : QueryLogRow}
    {m : Message}
    (hHandle : handle s resolver net nesting cache env call via tsMs rttMs = some (.ok (p, row)))
    (hReply : Message.parse p.reply = .ok m) :
    (row.rcode = rcodeName m.header.rcode → ¬call.OtherVersion ∧
        ∀ m', PassesOn s resolver net nesting cache env call m' → m'.header.rcode ≠ 16) ∧
      ((¬call.OtherVersion ∧
          ∀ m', PassesOn s resolver net nesting cache env call m' → m'.header.rcode ≠ 16) →
        Followed s resolver net nesting cache env call → row.rcode = rcodeName m.header.rcode) := by
  obtain ⟨info, hHandled, rfl⟩ := handle_handled hHandle
  change (info.rcode = _ → _) ∧ (_ → _ → info.rcode = _)
  generalize p.reply = reply at hHandled hReply
  have hBoth {named kept followed : Prop} (h : named ↔ kept) :
      (named → kept) ∧ (kept → followed → named) := ⟨h.mp, fun hKept _ => h.mpr hKept⟩
  cases hHandled with
  | silent hJudge =>
      rw [parse_of_short (by decide)] at hReply
      cases hReply
  | @written v resp _ _ hJudge hVerdict hEncode =>
      have hLogs := judge_logs hJudge
      obtain ⟨hAdditional, hLogged⟩ : resp.additional = [] ∧ Logged call resp info := by
        rcases hVerdict with rfl | rfl | rfl <;> exact hLogs
      have hNoLookup : ∀ l, v ≠ .lookup l := by
        rcases hVerdict with rfl | rfl | rfl <;> simp
      refine hBoth ?_
      rw [logged_of_written hLogged hAdditional hEncode hReply]
      exact (and_iff_left fun m' h => absurd h (not_passesOn hJudge hNoLookup)).symm
  | @hit l _ _ hit _ hJudge hGet hServe =>
      have hNot : ¬call.OtherVersion := judge_logs hJudge
      obtain ⟨rfl, -, hLog⟩ := replyFromCache_eq_ok hServe
      refine hBoth ?_
      rw [hLog m hReply, rcodeToString_eq_rcodeName_iff, and_iff_right hNot]
      simp only [passesOn_hit hJudge hGet, hReply, Exec.ok.injEq, forall_eq']
  | @settled l _ outcome asked r hJudge hGet hPublish hSettle =>
      have hNot : ¬call.OtherVersion := judge_logs hJudge
      rw [and_iff_right hNot]
      simp only [passesOn_resolved hJudge hGet hPublish]
      cases outcome with
      | ok bytes =>
          obtain ⟨-, hEncode, hInfo⟩ := settle_eq_ok hSettle
          rw [hInfo]
          simp only [Except.ok.injEq, exists_eq_left']
          rw [← relayedFrom_ne_sixteen (l := l)]
          refine ⟨rcodeToString_ne_sixteen, fun hOther hFollowed => ?_⟩
          have hFollow := hFollowed l bytes ⟨⟨_, hJudge⟩, hGet, asked, hPublish⟩
          rw [← rcode_of_settled hFollow hEncode hReply]
          exact rcodeToString_eq_rcodeName_iff.mpr hOther
      | error e =>
          obtain ⟨hEncode, hInfo⟩ := settle_error_eq_ok hSettle
          have hName : "SERVFAIL" = rcodeName (rcodeServfail &&& 0xF) := by decide
          rw [hInfo, rcode_of_written hEncode hReply rfl]
          refine hBoth (iff_of_true hName ?_)
          rintro m' ⟨bytes, hBytes, -⟩
          cases hBytes

end Handle

/-- The reply of a call and the code in its log entry. -/
def Seen (outcome : Option (Result (Processed × QueryLogRow))) (reply : Bytes) (rcode : String) :
    Prop :=
  (outcome.map fun
    | .ok (p, row) => some (p.reply, row.rcode)
    | _ => none) = some (some (reply, rcode))

theorem Seen.call {outcome : Option (Result (Processed × QueryLogRow))} {reply : Bytes}
    {rcode : String} (h : Seen outcome reply rcode) :
    ∃ p row, outcome = some (.ok (p, row)) ∧ p.reply = reply ∧ row.rcode = rcode := by
  obtain ⟨outcome, rfl, hSeen⟩ := Option.map_eq_some_iff.mp h
  match outcome, hSeen with
  | .ok (p, row), hSeen =>
      cases hSeen
      exact ⟨p, row, rfl, rfl, rfl⟩

/-- A call on an empty cache, with one server that knows the addresses of "a.". -/
def firstCall (raw : Bytes) : Option (Result (Processed × QueryLogRow)) :=
  handle plainSettings oneServer oneAnswer 1 (TieredCache.new 10 60 false) ⟨0, 0, false⟩
    (plainCall raw) "udp" 0 0

theorem firstCall_classQuery : Seen (firstCall (classQuery 1 1)) (patchId sentReply 1) "NOERROR" := by
  unfold Seen
  decide +kernel

/-- The response has no OPT record, and none is added without an option in the query. -/
theorem followed_classQuery :
    Followed plainSettings oneServer oneAnswer 1 (TieredCache.new 10 60 false) ⟨0, 0, false⟩
      (plainCall (classQuery 1 1)) := by
  rintro l bytes ⟨⟨info, hJudge⟩, -, asked, hPublish⟩
  have hLookup : judge plainSettings (plainCall (classQuery 1 1)) =
      .ok (.lookup ⟨1, ⟨['a', '.'], typeA, classIn⟩, none⟩, { qname := ['a', '.'], qtype := "A" }) :=
    rfl
  rw [hLookup] at hJudge
  cases hJudge
  have hBytes : oneServer.publish oneAnswer 1 ⟨['a', '.'], typeA, none⟩ 0 =
      some (.ok (.ok sentReply), 3) := by decide +kernel
  cases hBytes.symm.trans hPublish
  exact Or.inr (Or.inl rfl)

/-- A plain query: the log names the code of the reply, and nothing with the code of
another version is passed on. -/
theorem logged_classQuery :
    "NOERROR" = rcodeName 0 ↔ ¬(plainCall (classQuery 1 1)).OtherVersion ∧
      ∀ m', PassesOn plainSettings oneServer oneAnswer 1 (TieredCache.new 10 60 false) ⟨0, 0, false⟩
        (plainCall (classQuery 1 1)) m' → m'.header.rcode ≠ 16 := by
  obtain ⟨p, row, hHandle, hReply, hRow⟩ := firstCall_classQuery.call
  have hRead : Message.parse p.reply = .ok (sentMessage.withId 1) := by
    rw [hReply]
    rfl
  obtain ⟨hOnly, hEnough⟩ := logged_iff hHandle hRead
  rw [hRow] at hOnly hEnough
  exact ⟨hOnly, fun hKept => hEnough hKept followed_classQuery⟩

/-- A query for the addresses of "k.z." whose OPT record has the version one. -/
def newerQuery : Bytes :=
  [0, 7, 1, 0, 0, 1, 0, 0, 0, 0, 0, 1] ++ [1, 107, 1, 122, 0, 0, 1, 0, 1] ++
    [0, 0, 41, 16, 0, 0, 1, 0, 0, 0, 0]

/-- The reply to it: the code is cut to its low four bits, which are those of NOERROR. -/
def newerReply : Bytes :=
  [0, 7, 128, 0, 0, 1, 0, 0, 0, 0, 0, 0] ++ [1, 107, 1, 122, 0, 0, 1, 0, 1]

/-- The log says BADVERS, and the reply has four bits of the code and no OPT record for
the others, so that it reads as NOERROR. -/
theorem logged_newerQuery :
    ¬∀ s resolver net nesting cache env call via tsMs rttMs p row m,
      handle s resolver net nesting cache env call via tsMs rttMs = some (.ok (p, row)) →
      Message.parse p.reply = .ok m → row.rcode = rcodeName m.header.rcode := by
  intro hAll
  have hSeen : Seen (firstCall newerQuery) newerReply "BADVERS" := by
    unfold Seen
    decide +kernel
  obtain ⟨p, row, hHandle, hReply, hRow⟩ := hSeen.call
  have hRead : Message.parse p.reply = .ok
      { header := { id := 7, qr := true }, questions := [⟨"k.z.".toList, typeA, classIn⟩] } := by
    rw [hReply]
    rfl
  have hLogged := hAll _ _ _ _ _ _ _ _ _ _ _ _ _ hHandle hRead
  rw [hRow] at hLogged
  exact absurd hLogged (by decide)

end Dnsd.Resolve
