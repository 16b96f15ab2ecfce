import Mathlib.Algebra.Order.BigOperators.Group.List
import Dnsd.Proto.Layout
import Dnsd.Proto.ParseSizes
import Dnsd.Resolve.Chasing
import Dnsd.Resolve.Pipeline

/-! From the query of the resolver to the message that is relayed: a server that
echoes gives a message with the question of the query, and relaying a message
that can be written and read back leaves it so. -/

namespace Dnsd.Resolve

open Proto Exec Asking

/-! ## OPT records -/

theorem legibleName_root : LegibleName ['.'] :=
  ⟨[], ⟨by simp, by simp, by simp⟩, rfl⟩

theorem encodeOption_length (o : OptOption) : (encodeOption o).length = o.data.length + 4 := by
  simp [encodeOption]
  omega

theorem flatMap_encodeOption_length (options : List OptOption) :
    (options.flatMap encodeOption).length = (options.map fun o => o.data.length + 4).sum := by
  rw [List.length_flatMap, List.map_congr_left fun o _ => encodeOption_length o]

/-- An option takes at most twenty octets. -/
theorem encodeEcs_length (e : EcsInfo) : e.encode.length ≤ 20 := by
  rw [EcsInfo.encode]
  cases e.address with
  | none => simp
  | some ip =>
      cases ip with
      | v4 ip => simp
      | v6 ip => simp [ip.octets_length]

/-- An OPT record is written and read back if its options fit their fields. -/
theorem opt_codable {name : Str} (hName : LegibleName name) (rclass : UInt16) (ttl : UInt32)
    (udpSize : UInt16) (extRcode version : UInt8) (flags : UInt16) {options : List OptOption}
    (hLength : (options.map fun o => o.data.length + 4).sum < 65536) :
    (⟨name, typeOpt, rclass, ttl, .opt udpSize extRcode version flags options⟩ :
      Record).Codable LegibleName := by
  refine ⟨hName, rfl, fun o ho => ?_, id, fun e he => ?_⟩
  · have hMem : o.data.length + 4 ∈ options.map fun o => o.data.length + 4 :=
      List.mem_map_of_mem ho
    have hSingle := List.single_le_sum (fun _ _ => Nat.zero_le _) _ hMem
    omega
  · rw [rdataBytes, if_pos rfl] at he
    cases he
    rwa [flatMap_encodeOption_length]

/-- The options of an OPT record that is written and read back. -/
theorem Codable.options {r : Record} (h : r.Codable LegibleName) {udpSize : UInt16}
    {extRcode version : UInt8} {flags : UInt16} {options : List OptOption}
    (hData : r.data = .opt udpSize extRcode version flags options) :
    r.rtype = typeOpt ∧ (options.map fun o => o.data.length + 4).sum < 65536 := by
  have hKind := h.kind
  rw [hData] at hKind
  have hType := rdataKind_eq_opt_iff.mp hKind.symm
  refine ⟨hType, ?_⟩
  have hLength := h.length (options.flatMap encodeOption) (by
    rw [rdataBytes, if_pos hType, encodeOptRdata, hData])
  rwa [flatMap_encodeOption_length] at hLength

/-- As it is read back, a record can be written and read back again. -/
theorem onWire_codable {r : Record} (h : r.Codable LegibleName) :
    r.onWire.Codable LegibleName ∧ (recoverOpt r.onWire).Codable LegibleName := by
  by_cases hOpt : r.rtype = typeOpt
  · have hKind := h.kind
    rw [hOpt, rdataKind_eq_opt_iff.mpr rfl] at hKind
    cases hData : r.data with
    | opt udpSize extRcode version flags options =>
        have hLength := (Codable.options h hData).2
        have hWire : r.onWire = ⟨r.name, typeOpt, udpSize, packOptTtl extRcode version flags,
            .opt 0 0 0 0 options⟩ := by
          rw [Record.onWire, hData, hOpt]
        rw [hWire]
        exact ⟨opt_codable h.name _ _ _ _ _ _ hLength, opt_codable h.name _ _ _ _ _ _ hLength⟩
    | _ => simp [hData, RData.kind] at hKind
  · rw [h.onWire_of_ne hOpt]
    refine ⟨h, ?_⟩
    rw [recoverOpt, if_neg hOpt]
    exact h

/-- The message that a written message is read back as. -/
def readBack (m : Message) : Message := foldExtRcode m.onWire

/-- What is read back from the cache can be written again. -/
theorem readBack_codable {m : Message} (h : m.Codable LegibleName) :
    (readBack m).Codable LegibleName := by
  obtain ⟨rcode, hFold⟩ := foldExtRcode_eq_withRcode m.onWire
  rw [readBack, hFold]
  refine ⟨h.questions, fun r hr => ?_, h.questionCount, ?_, ?_, ?_⟩
  · simp only [Message.onWire, List.mem_append, List.mem_map] at hr
    rcases hr with (⟨r, hr, rfl⟩ | ⟨r, hr, rfl⟩) | ⟨r, hr, rfl⟩
    · exact (onWire_codable (h.records r (by simp [hr]))).1
    · exact (onWire_codable (h.records r (by simp [hr]))).1
    · exact (onWire_codable (h.records r (by simp [hr]))).2
  · simpa [Message.onWire] using h.answerCount
  · simpa [Message.onWire] using h.authorityCount
  · simpa [Message.onWire] using h.additionalCount

/-- An OPT record keeps its options on the wire. -/
theorem recoverOpt_onWire_options {r : Record} (h : r.Codable LegibleName)
    {udpSize : UInt16} {extRcode version : UInt8} {flags : UInt16} {options : List OptOption}
    (hData : (recoverOpt r.onWire).data = .opt udpSize extRcode version flags options) :
    ∃ udpSize extRcode version flags, r.data = .opt udpSize extRcode version flags options := by
  by_cases hOpt : r.rtype = typeOpt
  · have hKind := h.kind
    rw [hOpt, rdataKind_eq_opt_iff.mpr rfl] at hKind
    cases hOld : r.data with
    | opt udpSize' extRcode' version' flags' options' =>
        rw [Record.onWire, hOld, recoverOpt, if_pos hOpt] at hData
        cases hData
        exact ⟨_, _, _, _, rfl⟩
    | _ => simp [hOld, RData.kind] at hKind
  · rw [h.onWire_of_ne hOpt, recoverOpt, if_neg hOpt] at hData
    exact ⟨_, _, _, _, hData⟩

/-! ## The echoed option -/

/-- An ECS option and its header are at most so long. -/
def echoRoom : Nat := 24

/-- With the option of the client echoed into it, a section can still be written. -/
theorem echoInto_codable {ecs : EcsInfo} {records records' : List Record}
    (hRecords : ∀ r ∈ records, r.Codable LegibleName)
    (hRoom : ∀ r ∈ records, ∀ udpSize extRcode version flags options,
      r.data = .opt udpSize extRcode version flags options →
        (options.map fun o => o.data.length + 4).sum + echoRoom < 65536)
    (h : echoInto ecs records = some records') :
    (∀ r ∈ records', r.Codable LegibleName) ∧ records'.length = records.length := by
  induction records generalizing records' with
  | nil => cases h
  | cons r rest ih =>
      have hFirst := hRecords r List.mem_cons_self
      have hRest : ∀ r ∈ rest, r.Codable LegibleName :=
        fun r' hr' => hRecords r' (List.mem_cons_of_mem r hr')
      rw [echoInto] at h
      split_ifs at h with hType
      · split at h
        · rename_i udpSize extRcode version flags options hData
          cases h
          refine ⟨fun r' hr' => ?_, rfl⟩
          rcases List.mem_cons.mp hr' with rfl | hr'
          · rw [hType]
            refine opt_codable hFirst.name _ _ _ _ _ _ ?_
            have hLength := (Codable.options hFirst hData).2
            have hSum := hRoom r List.mem_cons_self _ _ _ _ _ hData
            have hEcs := encodeEcs_length ecs
            rw [echoOptions]
            split_ifs
            · exact hLength
            · rw [List.map_append, List.sum_append]
              simp only [echoRoom, List.map_cons, List.map_nil, List.sum_cons, List.sum_nil] at hSum ⊢
              omega
          · exact hRest r' hr'
        · cases h
          exact ⟨hRecords, rfl⟩
      · obtain ⟨tail, hTail, rfl⟩ := Option.map_eq_some_iff.mp h
        obtain ⟨hCodable, hLength⟩ := ih hRest
          (fun r' hr' => hRoom r' (List.mem_cons_of_mem r hr')) hTail
        refine ⟨fun r' hr' => ?_, by simp [hLength]⟩
        rcases List.mem_cons.mp hr' with rfl | hr'
        · exact hFirst
        · exact hCodable r' hr'

/-- A message with room for an option: one more record fits, and each OPT record
can take the option. -/
structure HasRoom (m : Message) : Prop where
  count : m.additional.length + 1 < 65536
  options : ∀ r ∈ m.additional, ∀ udpSize extRcode version flags options,
    r.data = .opt udpSize extRcode version flags options →
      (options.map fun o => o.data.length + 4).sum + echoRoom < 65536

/-- So can a message with an OPT record added. -/
theorem addEdns_codable {m : Message} (h : m.Codable LegibleName)
    (hRoom : m.additional.length + 1 < 65536) (udpSize : UInt16) (ecs : Option EcsInfo) :
    (addEdns m udpSize ecs).Codable LegibleName := by
  have hOpt (options : List OptOption)
      (hSum : (options.map fun o => o.data.length + 4).sum < 65536) :
      (⟨['.'], typeOpt, udpSize, 0, .opt udpSize 0 0 0 options⟩ : Record).Codable LegibleName :=
    opt_codable legibleName_root _ _ _ _ _ _ hSum
  refine ⟨h.questions, fun r hr => ?_, h.questionCount, h.answerCount, h.authorityCount, ?_⟩
  · simp only [addEdns, ← List.append_assoc] at hr
    rcases List.mem_append.mp hr with hOld | hNew
    · exact h.records r hOld
    · rw [List.mem_singleton.mp hNew]
      cases ecs with
      | none => exact hOpt [] (by decide)
      | some e =>
          have hEcs := encodeEcs_length e
          refine hOpt [⟨ednsOptEcs, e.encode⟩] ?_
          simp only [List.map_cons, List.map_nil, List.sum_cons, List.sum_nil]
          omega
  · simpa [addEdns] using hRoom

/-- So can one into which the option is echoed, if it has room. -/
theorem echoEcs_codable {m : Message} (h : m.Codable LegibleName) (hRoom : HasRoom m)
    (ecs : EcsInfo) : (echoEcs m ecs).Codable LegibleName := by
  rw [echoEcs]
  split
  · rename_i additional hEcho
    obtain ⟨hCodable, hLength⟩ := echoInto_codable
      (fun r hr => h.records r (List.mem_append_right _ hr)) hRoom.options hEcho
    refine ⟨h.questions, fun r hr => ?_, h.questionCount, h.answerCount, h.authorityCount, ?_⟩
    · rcases List.mem_append.mp hr with hOld | hNew
      · exact h.records r (List.mem_append_left _ hOld)
      · exact hCodable r hNew
    · have hCount := hRoom.count
      dsimp only
      omega
  · exact addEdns_codable h hRoom.count 1232 (some ecs)

/-! ## The relayed message -/

/-- So can the message that is relayed to the client. -/
theorem relayed_codable {m : Message} (h : m.Codable LegibleName) (hRoom : HasRoom m) (l : Lookup) :
    (relayed l m).Codable LegibleName := by
  rw [relayed]
  cases l.ecs with
  | none => exact h.withHeader _
  | some e => exact (echoEcs_codable h hRoom e).withHeader _

theorem echoInto_length {ecs : EcsInfo} {records records' : List Record}
    (h : echoInto ecs records = some records') : records'.length = records.length := by
  induction records generalizing records' with
  | nil => cases h
  | cons r rest ih =>
      rw [echoInto] at h
      split_ifs at h
      · split at h <;> cases h <;> rfl
      · obtain ⟨tail, hTail, rfl⟩ := Option.map_eq_some_iff.mp h
        simp [ih hTail]

/-- Relaying changes the identifier, the flag RA and the additional section. -/
theorem relayed_fields (l : Lookup) (m : Message) :
    (relayed l m).header = { m.header with id := l.id, ra := true } ∧
      (relayed l m).questions = m.questions ∧ (relayed l m).answers = m.answers ∧
      (relayed l m).authority = m.authority ∧
      (relayed l m).additional.length ≤ m.additional.length + 1 := by
  rw [relayed]
  cases l.ecs with
  | none => exact ⟨rfl, rfl, rfl, rfl, Nat.le_succ _⟩
  | some e =>
      dsimp only
      rw [echoEcs]
      split
      · rename_i additional hEcho
        exact ⟨rfl, rfl, rfl, rfl, by rw [echoInto_length hEcho]; exact Nat.le_succ _⟩
      · exact ⟨rfl, rfl, rfl, rfl, by simp [addEdns]⟩

/-- What is read back has the header bits and the questions of what was written. -/
theorem readBack_fields (m : Message) :
    (readBack m).header.id = m.header.id ∧ (readBack m).header.qr = m.header.qr ∧
      (readBack m).questions = m.questions := by
  obtain ⟨rcode, hFold⟩ := foldExtRcode_eq_withRcode m.onWire
  rw [readBack, hFold]
  exact ⟨rfl, rfl, rfl⟩

theorem readBack_lengths (m : Message) :
    (readBack m).answers.length = m.answers.length ∧
      (readBack m).authority.length = m.authority.length ∧
      (readBack m).additional.length = m.additional.length := by
  obtain ⟨rcode, hFold⟩ := foldExtRcode_eq_withRcode m.onWire
  rw [readBack, hFold]
  simp [Message.onWire]

/-- A message with a question that came in a buffer of at most 65535 bytes. -/
structure Received (m : Message) : Prop where
  buf : ∃ buf : Bytes, buf.length < 65536 ∧ Message.parse buf = .ok m
  question : m.questions ≠ []

/-- A message that came in a buffer of at most 65535 bytes has room for the option. -/
theorem Received.hasRoom {m : Message} (hReceived : Received m)
    (h : m.canonical.Codable LegibleName) : HasRoom (readBack m.canonical) := by
  obtain ⟨buf, hSize, hParse⟩ := hReceived.buf
  obtain ⟨hCount, hOptions⟩ := parse_sizes hParse
  have hQuestions := List.length_pos_iff.mpr hReceived.question
  have hAdditional : (readBack m.canonical).additional.length = m.additional.length := by
    rw [(readBack_lengths m.canonical).2.2, Message.canonical, List.length_map]
  refine ⟨by omega, fun r hr udpSize extRcode version flags options hData => ?_⟩
  obtain ⟨rcode, hFold⟩ := foldExtRcode_eq_withRcode m.canonical.onWire
  rw [readBack, hFold] at hr
  obtain ⟨record', hRecord', rfl⟩ := List.mem_map.mp hr
  have hCodable := h.records record' (List.mem_append_right _ hRecord')
  obtain ⟨record, hRecord, rfl⟩ := List.mem_map.mp hRecord'
  obtain ⟨_, _, _, _, hOld⟩ := recoverOpt_onWire_options hCodable hData
  obtain ⟨_, _, _, _, options', hOld', hSum⟩ :=
    hOptions record hRecord (Codable.options hCodable hOld).1
  rw [RData.canonical_eq_opt_iff.mp hOld] at hOld'
  cases hOld'
  rw [echoRoom]
  omega

/-- The bytes of a relayed message can be written and are far below 4 GiB. -/
theorem Received.relayed_encode {m : Message} (hReceived : Received m)
    (h : m.canonical.Codable LegibleName) (l : Lookup) :
    ∃ b, (relayed l (readBack m.canonical)).encode = .ok b ∧ b.length < 2 ^ 32 := by
  have hRelayed := relayed_codable (readBack_codable h) (hReceived.hasRoom h) l
  obtain ⟨b, hEncode, _⟩ := parse_encode hRelayed
  refine ⟨b, hEncode, ?_⟩
  obtain ⟨buf, hSize, hParse⟩ := hReceived.buf
  obtain ⟨hCount, _⟩ := parse_sizes hParse
  obtain ⟨_, hQuestions, hAnswers, hAuthority, hAdditional⟩ :=
    relayed_fields l (readBack m.canonical)
  obtain ⟨hAnswers', hAuthority', hAdditional'⟩ := readBack_lengths m.canonical
  have hLength := encode_length hRelayed hEncode
  have hQuestionRoom : questionRoom = 16262 := by decide
  have hRecordRoom : recordRoom = 81803 := by decide
  rw [hQuestions, hAnswers, hAuthority, (readBack_fields m.canonical).2.2, hAnswers', hAuthority',
    hQuestionRoom, hRecordRoom] at hLength
  rw [hAdditional'] at hAdditional
  simp only [Message.canonical, List.length_map] at hLength hAdditional
  omega

/-! ## What the servers send -/

/-- Each message that a server sends is as required of a reply to those bytes. -/
structure Network.Sends (net : Network) (reply : Bytes → Message → Prop) : Prop where
  udp : ∀ n server sent datagram m, net.udp n server sent = .ok datagram →
    Message.parse (datagram.take udpBuffer) = .ok m → reply sent m
  tcp : ∀ n server sent stream resp m, net.tcp n server (frame sent) = .ok stream →
    readFrame stream = .ok resp → Message.parse resp = .ok m → reply sent m

/-- The reply has the identifier and the first question of what was sent. -/
def EchoOf (sent : Bytes) (m : Message) : Prop :=
  ∃ q, Message.parse sent = .ok q ∧ m.header.id = q.header.id ∧ m.question = q.question

/-- Every server echoes the identifier and the question that it is sent. -/
def Network.Echoes (net : Network) : Prop := net.Sends EchoOf

/-- What a server sends can be written and read back. -/
def Network.Legible (net : Network) : Prop :=
  net.Sends fun _ m => m.canonical.Codable LegibleName

/-- A message received in answer to a query. -/
def Answers (reply : Bytes → Message → Prop) (query m : Message) : Prop :=
  (∃ buf : Bytes, buf.length < 65536 ∧ Message.parse buf = .ok m) ∧
    ∃ sent, query.encode = .ok sent ∧ reply sent m

theorem readFrame_length {stream resp : Bytes} (h : readFrame stream = .ok resp) :
    resp.length < 65536 := by
  unfold readFrame at h
  split at h
  · dsimp only at h
    split at h
    · cases h
    · rename_i b0 b1 rest _
      cases h
      have hLimit := (UInt16.fromBeBytes [b0, b1]).toNat_lt
      rw [List.length_take]
      omega
  · cases h

section Ensures

variable {net : Network} {reply : Bytes → Message → Prop} (hSends : net.Sends reply)

include hSends

/-- A reply over TCP answers its query, as some server has sent it. -/
theorem exchangeTcp_ensures (server : SocketAddr) (query : Message) :
    Ensures (exchangeTcp net server query) (Answers reply query) := by
  refine (ensures_lift (fun sent => query.encode = .ok sent) fun _ h => h).bind
    fun sent hSent => ?_
  refine (ensures_ask (fun stream => ∃ n, net.tcp n server (frame sent) = .ok stream)
    fun n _ h => ⟨n, h⟩).bind fun stream hStream => ?_
  obtain ⟨n, hStream⟩ := hStream
  refine (ensures_lift (fun resp => readFrame stream = .ok resp) fun _ h => h).bind
    fun resp hResp => ?_
  exact ensures_lift _ fun m hParse => ⟨⟨resp, readFrame_length hResp, hParse⟩, sent, hSent,
    hSends.tcp n server sent stream resp m hStream hResp hParse⟩

/-- So does the reply of an exchange, over TCP or not. -/
theorem exchange_ensures (server : SocketAddr) (query : Message) :
    Ensures (exchange net server query) (Answers reply query) := by
  refine (ensures_lift (fun sent => query.encode = .ok sent) fun _ h => h).bind
    fun sent hSent => ?_
  refine (ensures_ask (fun datagram => ∃ n, net.udp n server sent = .ok datagram)
    fun n _ h => ⟨n, h⟩).bind fun datagram hDatagram => ?_
  obtain ⟨n, hDatagram⟩ := hDatagram
  refine (ensures_lift (fun m => Message.parse (datagram.take udpBuffer) = .ok m)
    fun _ h => h).bind fun m hParse => ?_
  split
  · exact exchangeTcp_ensures hSends server query
  · refine ensures_pure ⟨⟨datagram.take udpBuffer, ?_, hParse⟩, sent, hSent,
      hSends.udp n server sent datagram m hDatagram hParse⟩
    have hBuffer : udpBuffer = 4096 := rfl
    rw [List.length_take]
    omega

/-- So does what the servers of a zone respond, one after the other. -/
theorem queryServersFrom_ensures (query : Message) (qname : Str) (servers : List SocketAddr)
    (lastErr : String) :
    Ensures (queryServersFrom net query qname servers lastErr)
      fun m => m.header.qr = true ∧ Answers reply query m := by
  induction servers generalizing lastErr with
  | nil => exact ensures_err _
  | cons server rest ih =>
      refine (ensures_true _).bind fun up _ => ?_
      split
      · exact ensures_err _
      · refine (exchange_ensures hSends server query).attempt.bind fun r hResp => ?_
        split
        · rename_i resp
          split
          · rename_i hQr
            exact ensures_pure ⟨hQr, hResp resp rfl⟩
          · exact ih _
        · exact ih _

/-- A response of the resolver answers the query for the asked name and type. -/
def Responds (reply : Bytes → Message → Prop) (asked : Asked) (m : Message) : Prop :=
  m.header.qr = true ∧ Answers reply (buildQuery asked.qname asked.qtype queryId asked.ecs) m

/-- So does what a walk ends with. -/
theorem walk_ensures (r : Resolver) (nested : Asked → Asks Message) (asked : Asked) (left : Nat)
    (servers : List SocketAddr) : Ensures (r.walk net nested asked left servers) (Responds reply asked) := by
  induction left generalizing servers with
  | zero => exact ensures_err _
  | succ left ih =>
      rw [Resolver.walk_succ]
      refine (ensures_true _).bind fun up _ => ?_
      split
      · exact ensures_err _
      · refine (queryServersFrom_ensures hSends _ _ _ _).bind fun resp hResp => ?_
        split
        · exact ensures_pure hResp
        · refine (ensures_true _).bind fun next _ => ?_
          split
          · exact ensures_err _
          · exact ih next

/-- And what a walk from the roots does. -/
theorem iterative_ensures (r : Resolver) (nesting : Nat) (asked : Asked) :
    Ensures (r.iterative net nesting asked) (Responds reply asked) := by
  cases nesting with
  | zero => exact ensures_cutOff
  | succ nesting => exact walk_ensures hSends r _ asked _ _

/-- And what a resolution does, of its last question. -/
theorem doResolve_ensures (r : Resolver) (nesting : Nat) (asked : Asked) :
    Ensures (r.doResolve net nesting asked) (Responds reply asked.canonical) := by
  rw [doResolve_eq]
  exact iterative_ensures hSends r nesting asked.canonical

end Ensures

/-- The query for a legible name is read back with that name. -/
theorem buildQuery_readBack {name : Str} (hName : LegibleName name) (qtype : UInt16)
    (ecs : Option EcsInfo) {sent : Bytes} {q : Message}
    (hEncode : (buildQuery name qtype queryId ecs).encode = .ok sent)
    (hParse : Message.parse sent = .ok q) : q.question = some ⟨name, qtype, classIn⟩ := by
  have hCodable : (buildQuery name qtype queryId ecs).Codable LegibleName := by
    refine addEdns_codable ⟨fun q hq => ?_, by simp, by simp, by simp, by simp, by simp⟩ (by simp) ..
    rw [List.mem_singleton.mp hq]
    obtain ⟨labels, hLabels, rfl⟩ := hName
    rw [hLabels.canonicalName_nameText]
    exact ⟨labels, hLabels, rfl⟩
  obtain ⟨b, hAgain, hBack⟩ := parse_encode hCodable
  rw [hEncode] at hAgain
  cases hAgain
  rw [hParse] at hBack
  cases hBack
  obtain ⟨labels, hLabels, rfl⟩ := hName
  rw [Message.question, ← readBack, (readBack_fields _).2.2]
  change some (Question.mk (canonicalName (nameText labels)) qtype classIn) = _
  rw [hLabels.canonicalName_nameText]

/-- The message of a resolution came from the network with the asked question. -/
theorem doResolve_question {net : Network} (hEchoes : net.Echoes) {r : Resolver} {nesting : Nat}
    {asked : Asked} {n n' : Nat} {m : Message}
    (h : r.doResolve net nesting asked n = some (.ok m, n'))
    (hName : LegibleName (canonicalName asked.qname)) :
    Received m ∧ m.header.qr = true ∧
      m.question = some ⟨canonicalName asked.qname, asked.qtype, classIn⟩ := by
  obtain ⟨hQr, hBuf, sent, hSent, q, hParse, _, hQuestion⟩ :=
    doResolve_ensures hEchoes r nesting asked n m n' h
  have hSame := hQuestion.trans (buildQuery_readBack hName asked.qtype asked.ecs hSent hParse)
  refine ⟨⟨hBuf, fun hNil => ?_⟩, hQr, hSame⟩
  rw [Message.question, hNil] at hSame
  cases hSame

/-- If what servers send can be written, so can what a resolution ends with. -/
theorem doResolve_codable {net : Network} (hLegible : net.Legible) {r : Resolver} {nesting : Nat}
    {asked : Asked} {n n' : Nat} {m : Message}
    (h : r.doResolve net nesting asked n = some (.ok m, n')) :
    m.canonical.Codable LegibleName := by
  obtain ⟨_, _, _, _, hCodable⟩ := doResolve_ensures hLegible r nesting asked n m n' h
  exact hCodable

end Dnsd.Resolve
