import Dnsd.Resolve.Recurse

/-! Which messages the failover loop accepts: the first one with the flag QR,
whatever its identifier and its question are. -/

namespace Dnsd.Resolve

open Proto Exec Asking

/-- The message that one exchange takes from the network, and the question
numbers in front of it and behind it. -/
inductive Delivers (net : Network) (server : SocketAddr) (query : Message) :
    Nat → Message → Nat → Prop where
  | udp (n : Nat) (sent datagram : Bytes) (m : Message) (hSent : query.encode = .ok sent)
      (hDatagram : net.udp n server sent = .ok datagram)
      (hParse : Message.parse (datagram.take udpBuffer) = .ok m) (hWhole : m.header.tc = false) :
      Delivers net server query n m (n + 1)
  | tcp (n : Nat) (sent datagram stream resp : Bytes) (cut m : Message)
      (hSent : query.encode = .ok sent) (hDatagram : net.udp n server sent = .ok datagram)
      (hCut : Message.parse (datagram.take udpBuffer) = .ok cut) (hTc : cut.header.tc = true)
      (hStream : net.tcp (n + 1) server (frame sent) = .ok stream)
      (hFrame : readFrame stream = .ok resp) (hParse : Message.parse resp = .ok m) :
      Delivers net server query n m (n + 2)

section Exchange

variable {net : Network} {server : SocketAddr} {query m : Message} {n n' : Nat}

theorem exchangeTcp_eq_ok :
    exchangeTcp net server query n = some (.ok m, n') ↔
      ∃ sent stream resp, query.encode = .ok sent ∧ net.tcp n server (frame sent) = .ok stream ∧
        readFrame stream = .ok resp ∧ Message.parse resp = .ok m ∧ n' = n + 1 := by
  constructor
  · intro hRun
    obtain ⟨sent, n₁, hSent, hRun⟩ := bind_eq_ok.mp hRun
    obtain ⟨stream, n₂, hStream, hRun⟩ := bind_eq_ok.mp hRun
    obtain ⟨resp, n₃, hFrame, hParse⟩ := bind_eq_ok.mp hRun
    simp only [lift, ask, Option.some.injEq, Prod.mk.injEq] at hSent hStream hFrame hParse
    obtain ⟨hSent, rfl⟩ := hSent
    obtain ⟨hStream, rfl⟩ := hStream
    obtain ⟨hFrame, rfl⟩ := hFrame
    obtain ⟨hParse, rfl⟩ := hParse
    exact ⟨sent, stream, resp, hSent, hStream, hFrame, hParse, rfl⟩
  · rintro ⟨sent, stream, resp, hSent, hStream, hFrame, hParse, rfl⟩
    refine bind_eq_ok.mpr ⟨sent, n, by rw [lift, hSent], ?_⟩
    refine bind_eq_ok.mpr ⟨stream, n + 1, by rw [ask, hStream], ?_⟩
    refine bind_eq_ok.mpr ⟨resp, n + 1, by rw [lift, hFrame], ?_⟩
    rw [lift, hParse]

theorem exchange_eq_ok :
    exchange net server query n = some (.ok m, n') ↔ Delivers net server query n m n' := by
  constructor
  · intro hRun
    obtain ⟨sent, n₁, hSent, hRun⟩ := bind_eq_ok.mp hRun
    obtain ⟨datagram, n₂, hDatagram, hRun⟩ := bind_eq_ok.mp hRun
    obtain ⟨first, n₃, hFirst, hRun⟩ := bind_eq_ok.mp hRun
    simp only [lift, ask, Option.some.injEq, Prod.mk.injEq] at hSent hDatagram hFirst
    obtain ⟨hSent, rfl⟩ := hSent
    obtain ⟨hDatagram, rfl⟩ := hDatagram
    obtain ⟨hFirst, rfl⟩ := hFirst
    split at hRun
    · rename_i hTc
      obtain ⟨sent', stream, resp, hSent', hStream, hFrame, hParse, rfl⟩ := exchangeTcp_eq_ok.mp hRun
      rw [hSent] at hSent'
      cases hSent'
      exact .tcp n sent datagram stream resp first m hSent hDatagram hFirst hTc hStream hFrame hParse
    · rename_i hTc
      cases hRun
      exact .udp n sent datagram m hSent hDatagram hFirst (by simpa using hTc)
  · intro hDelivers
    cases hDelivers with
    | udp sent datagram _ hSent hDatagram hParse hWhole =>
        refine bind_eq_ok.mpr ⟨sent, n, by rw [lift, hSent], ?_⟩
        refine bind_eq_ok.mpr ⟨datagram, n + 1, by rw [ask, hDatagram], ?_⟩
        refine bind_eq_ok.mpr ⟨m, n + 1, by rw [lift, hParse], ?_⟩
        rw [hWhole]
        rfl
    | tcp sent datagram stream resp cut _ hSent hDatagram hCut hTc hStream hFrame hParse =>
        refine bind_eq_ok.mpr ⟨sent, n, by rw [lift, hSent], ?_⟩
        refine bind_eq_ok.mpr ⟨datagram, n + 1, by rw [ask, hDatagram], ?_⟩
        refine bind_eq_ok.mpr ⟨cut, n + 1, by rw [lift, hCut], ?_⟩
        rw [hTc]
        exact exchangeTcp_eq_ok.mpr ⟨sent, stream, resp, hSent, hStream, hFrame, hParse, rfl⟩

end Exchange

/-- The reply of a server that the next one is asked after. -/
def Refused (reply : Except Error Message) : Prop :=
  ∀ m, reply = .ok m → m.header.qr = false

section Failover

variable {net : Network} {query : Message} {qname : Str} {server : SocketAddr}
  {rest : List SocketAddr} {lastErr : String} {m : Message} {n n' : Nat}

/-- One turn of the loop, before the deadline. -/
theorem queryServersFrom_reply (hTime : net.expired n = false) {reply : Except Error Message}
    (hReply : attempt (exchange net server query) (n + 1) = some (.ok reply, n')) :
    queryServersFrom net query qname (server :: rest) lastErr n =
      (match reply with
        | .ok resp =>
            if resp.header.qr then pure resp
            else queryServersFrom net query qname rest "non-response"
        | .error e => queryServersFrom net query qname rest e.text : Asks Message) n' := by
  rw [queryServersFrom, bind_of_ok (timeIsUp_eq net n), hTime, if_neg Bool.false_ne_true,
    bind_of_ok hReply]
  cases reply <;> rfl

/-- A refused reply leaves the other servers. -/
theorem queryServersFrom_refused (hTime : net.expired n = false) {reply : Except Error Message}
    (hReply : attempt (exchange net server query) (n + 1) = some (.ok reply, n'))
    (hRefused : Refused reply) (lastErr : String) :
    ∃ last, queryServersFrom net query qname (server :: rest) lastErr n =
      queryServersFrom net query qname rest last n' := by
  rw [queryServersFrom_reply hTime hReply]
  cases reply with
  | error e => exact ⟨_, rfl⟩
  | ok m =>
      dsimp only
      rw [if_neg (by simp [hRefused m rfl])]
      exact ⟨_, rfl⟩

/-- A failure in front of the deadline comes after a refused reply. -/
theorem queryServersFrom_eq_err (hTime : net.expired n = false) {e : Error}
    (h : queryServersFrom net query qname (server :: rest) lastErr n = some (.err e, n')) :
    ∃ reply n₁ last, attempt (exchange net server query) (n + 1) = some (.ok reply, n₁) ∧
      Refused reply ∧ queryServersFrom net query qname rest last n₁ = some (.err e, n') := by
  have hExchange : ∃ reply n₁, attempt (exchange net server query) (n + 1) =
      some (.ok reply, n₁) := by
    rw [queryServersFrom, bind_of_ok (timeIsUp_eq net n), hTime, if_neg Bool.false_ne_true] at h
    obtain ⟨reply, n₁, hReply, -⟩ := (bind_eq_err.mp h).resolve_left attempt_ne_err
    exact ⟨reply, n₁, hReply⟩
  obtain ⟨reply, n₁, hReply⟩ := hExchange
  have hRefused : Refused reply := by
    rintro m rfl
    by_contra hResponse
    rw [queryServersFrom_reply hTime hReply] at h
    dsimp only at h
    rw [if_pos (by simpa using hResponse)] at h
    cases h
  obtain ⟨last, hRest⟩ := queryServersFrom_refused hTime hReply hRefused lastErr
  exact ⟨reply, n₁, last, hReply, hRefused, hRest.symm.trans h⟩

/-- One turn of the loop, before the deadline, with a message. -/
theorem queryServersFrom_delivers (hTime : net.expired n = false)
    (hDelivers : Delivers net server query (n + 1) m n') :
    queryServersFrom net query qname (server :: rest) lastErr n =
      if m.header.qr then some (.ok m, n')
      else queryServersFrom net query qname rest "non-response" n' := by
  rw [queryServersFrom_reply hTime (attempt_eq_ok.mpr (exchange_eq_ok.mpr hDelivers))]
  dsimp only
  split <;> rfl

/-- A message that the loop returns is one with the flag QR that a server has
delivered before the deadline. -/
theorem queryServersFrom_eq_ok {servers : List SocketAddr}
    (h : queryServersFrom net query qname servers lastErr n = some (.ok m, n')) :
    ∃ server n, net.expired n = false ∧ Delivers net server query (n + 1) m n' ∧
      m.header.qr = true := by
  induction servers generalizing lastErr n with
  | nil => cases h
  | cons server rest ih =>
      rw [queryServersFrom] at h
      obtain ⟨up, n₁, hTime, h⟩ := bind_eq_ok.mp h
      simp only [timeIsUp, ask, Option.some.injEq, Prod.mk.injEq, ok.injEq] at hTime
      obtain ⟨hTime, rfl⟩ := hTime
      split at h
      · cases h
      · rename_i hUp
        obtain ⟨r, n₂, hExchange, h⟩ := bind_eq_ok.mp h
        split at h
        · rename_i resp
          split at h
          · rename_i hQr
            cases h
            refine ⟨server, n, by simpa [hTime] using hUp, ?_, hQr⟩
            exact exchange_eq_ok.mp (attempt_eq_ok.mp hExchange)
          · exact ih h
        · exact ih h

end Failover

/-- The response to the query: its identifier, and its question section. -/
structure OwnReply (query resp : Message) : Prop where
  qr : resp.header.qr = true
  id : resp.header.id = query.header.id
  questions : resp.questions = query.questions

/-- With this network, whatever is returned for the question is the response to
its query, and a message that is not leads on to the next server. -/
structure AcceptsOwn (net : Network) (qname : Str) (qtype : UInt16) (ecs : Option EcsInfo) :
    Prop where
  returned : ∀ servers n resp n', queryServers net servers qname qtype ecs n = some (.ok resp, n') →
    OwnReply (buildQuery qname qtype queryId ecs) resp
  moves : ∀ server rest lastErr n m n', net.expired n = false →
    Delivers net server (buildQuery qname qtype queryId ecs) (n + 1) m n' →
    ¬OwnReply (buildQuery qname qtype queryId ecs) m →
    ∃ err, queryServersFrom net (buildQuery qname qtype queryId ecs) qname (server :: rest) lastErr n =
      queryServersFrom net (buildQuery qname qtype queryId ecs) qname rest err n'

/-- This holds of a network if and only if no server delivers, before the
deadline, a response with another identifier or another question. -/
theorem acceptsOwn_iff (net : Network) (qname : Str) (qtype : UInt16) (ecs : Option EcsInfo) :
    AcceptsOwn net qname qtype ecs ↔
      ∀ server n m n', net.expired n = false →
        Delivers net server (buildQuery qname qtype queryId ecs) (n + 1) m n' →
        m.header.qr = true →
        m.header.id = queryId ∧ m.questions = [⟨canonicalName qname, qtype, classIn⟩] := by
  constructor
  · intro hAccepts server n m n' hTime hDelivers hQr
    have hRun : queryServers net [server] qname qtype ecs n = some (.ok m, n') := by
      rw [queryServers, queryServersFrom_delivers hTime hDelivers, if_pos hQr]
    have hOwn := hAccepts.returned [server] n m n' hRun
    exact ⟨hOwn.id, hOwn.questions⟩
  · intro hNone
    refine ⟨fun servers n resp n' hRun => ?_,
      fun server rest lastErr n m n' hTime hDelivers hOther => ?_⟩
    · obtain ⟨server, n₁, hTime, hDelivers, hQr⟩ := queryServersFrom_eq_ok hRun
      obtain ⟨hId, hQuestions⟩ := hNone server n₁ resp n' hTime hDelivers hQr
      exact ⟨hQr, hId, hQuestions⟩
    · have hQr : m.header.qr = false := by
        cases hFlag : m.header.qr with
        | false => rfl
        | true =>
            obtain ⟨hId, hQuestions⟩ := hNone server n m n' hTime hDelivers hFlag
            exact absurd ⟨hFlag, hId, hQuestions⟩ hOther
      exact ⟨_, by rw [queryServersFrom_delivers hTime hDelivers, hQr]; rfl⟩

/-- A response without a question, with the identifier 1. -/
def strayReply : Bytes := [0, 1, 128, 0, 0, 0, 0, 0, 0, 0, 0, 0]

/-- Every server sends the stray response to every query. -/
def strayNetwork : Network where
  expired _ := false
  udp _ _ _ := .ok strayReply
  tcp _ _ _ := .err (.io "timed out")

/-- The response to no query, with an identifier and a question of its own, is returned as
the one to the query for "a.". -/
theorem accepts_strayReply : ¬∀ net qname qtype ecs, AcceptsOwn net qname qtype ecs := by
  intro hAll
  have hRun : queryServers strayNetwork [⟨.v4 Ipv4Addr.localhost, 53⟩] ['a', '.'] typeA none 0 =
      some (.ok { header := { id := 1, qr := true } }, 2) := rfl
  have hOwn := (hAll strayNetwork ['a', '.'] typeA none).returned _ _ _ _ hRun
  exact absurd hOwn.id (by decide)

end Dnsd.Resolve
