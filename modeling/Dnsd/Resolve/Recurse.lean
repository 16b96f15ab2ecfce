import Dnsd.Base.Asking
import Dnsd.Config
import Dnsd.Proto.Ecs
import Dnsd.Proto.Encode
import Dnsd.Proto.Parse
import Dnsd.Rust.NetParse

/-! The iterative resolver: from the roots down to the servers of a name. The
network and the clock answer each question that the resolver asks them. -/

namespace Dnsd.Resolve

open Proto Asking

/-- What the outside does at each question: whether the deadline is over, and
what comes back from a server for the bytes sent to it. A stream is what can be
read from the connection before it ends or fails. -/
structure Network where
  expired : Nat → Bool
  udp : Nat → SocketAddr → Bytes → Exec Error Bytes
  tcp : Nat → SocketAddr → Bytes → Exec Error Bytes

/-- A computation of the resolver, which asks the clock and the network. -/
abbrev Asks (α : Type) := Asking Error α

/-- The error of the resolver with this text. -/
def resolverError {α : Type} (msg : String) : Asks α := lift (.err (.resolver msg))

/-! ## One exchange -/

/-- The receive buffer of `exchange`; a longer datagram is cut. -/
def udpBuffer : Nat := 4096

/-- The message of a stream: its length in two bytes, then its bytes. -/
def readFrame (stream : Bytes) : Result Bytes :=
  match stream with
  | b0 :: b1 :: rest =>
      let respLen := (UInt16.fromBeBytes [b0, b1]).toNat
      if rest.length < respLen then .err (.io "failed to fill whole buffer")
      else .ok (rest.take respLen)
  | _ => .err (.io "failed to fill whole buffer")

/-- A message behind its length; `as u16` keeps the low bits of the length. -/
def frame (bytes : Bytes) : Bytes := (UInt16.ofNat bytes.length).toBeBytes ++ bytes

variable (net : Network)

/-- `exchange_tcp`: one query and one reply, each behind its length. -/
def exchangeTcp (server : SocketAddr) (query : Message) : Asks Message := do
  let bytes ← lift query.encode
  let stream ← ask fun n => net.tcp n server (frame bytes)
  let resp ← lift (readFrame stream)
  lift (Message.parse resp)

/-- UDP first, TCP when the reply is truncated. -/
def exchange (server : SocketAddr) (query : Message) : Asks Message := do
  let bytes ← lift query.encode
  let datagram ← ask fun n => net.udp n server bytes
  let msg ← lift (Message.parse (datagram.take udpBuffer))
  if msg.header.tc then exchangeTcp net server query else pure msg

/-- Whether the time is up, at this look at the clock. -/
def timeIsUp : Asks Bool := ask fun n => .ok (net.expired n)

/-- The first response of the servers, which are asked in turn. -/
def queryServersFrom (query : Message) (qname : Str) : List SocketAddr → String → Asks Message
  | [], lastErr => resolverError (String.ofList qname ++ " unreachable: " ++ lastErr)
  | server :: rest, lastErr => do
      if ← timeIsUp net then
        resolverError (String.ofList qname ++ " unreachable: " ++ lastErr)
      else
        match ← attempt (exchange net server query) with
        | .ok resp =>
            if resp.header.qr then pure resp
            else queryServersFrom query qname rest "non-response"
        | .error e => queryServersFrom query qname rest e.text

/-- The identifier of every query to a server: it is always the same. -/
def queryId : UInt16 := 0x1d5e

/-- `query_servers`: one server after the other, until one responds. -/
def queryServers (servers : List SocketAddr) (qname : Str) (qtype : UInt16)
    (ecs : Option EcsInfo) : Asks Message :=
  queryServersFrom net (buildQuery qname qtype queryId ecs) qname servers "no nameservers"

/-! ## Referrals -/

/-- The servers that a referral lists, and the addresses that come with it. -/
structure Referral where
  nsNames : List Str
  glue : HashMap Str SocketAddr

/-- The last address record of a name is its glue. -/
def extractReferral (resp : Message) : Referral where
  nsNames := resp.authority.filterMap fun r =>
    if r.rtype = typeNs then
      match r.data with
      | .name n => some n
      | _ => none
    else none
  glue := resp.additional.foldl (fun glue r =>
    match r.data with
    | .a ip => glue.insert r.name ⟨.v4 ip, 53⟩
    | .aaaa ip => glue.insert r.name ⟨.v6 ip, 53⟩
    | _ => glue) ∅

/-- `a_records`, from the answer and the additional section alike. -/
def aRecords (resp : Message) : List SocketAddr :=
  (resp.answers ++ resp.additional).filterMap fun r =>
    match r.data with
    | .a ip => if r.rtype = typeA then some ⟨.v4 ip, 53⟩ else none
    | _ => none

/-- `aaaa_records`, from the answer and the additional section alike. -/
def aaaaRecords (resp : Message) : List SocketAddr :=
  (resp.answers ++ resp.additional).filterMap fun r =>
    match r.data with
    | .aaaa ip => if r.rtype = typeAaaa then some ⟨.v6 ip, 53⟩ else none
    | _ => none

/-! ## Recursion -/

/-- The depth that bounds turns and aliases, and the addresses of the root servers. -/
structure Resolver where
  maxDepth : Nat
  roots : List SocketAddr

/-- `ROOT_HINTS`, the IPv4 addresses of the thirteen root servers. -/
def rootHints : List String :=
  ["198.41.0.4:53", "170.247.170.2:53", "192.33.4.12:53", "199.7.91.13:53", "192.203.230.10:53",
    "192.5.5.241:53", "192.112.36.4:53", "198.97.190.53:53", "192.36.148.17:53",
    "192.58.128.30:53", "193.0.14.129:53", "199.7.83.42:53", "202.12.27.33:53"]

/-- A question to the resolver: name, type, and the network that it is asked for. -/
structure Asked where
  qname : Str
  qtype : UInt16
  ecs : Option EcsInfo
  deriving DecidableEq

/-- The three fields that both keys are made of. -/
def keyText (qname : Str) (qtype : UInt16) (ecs : Str) : Str :=
  canonicalName qname ++ '|' :: Str.decimal qtype.toNat ++ '|' :: ecs

/-- `cache_token` of an option, and the empty text where there is none. -/
def tokenOf (ecs : Option EcsInfo) : Str := (ecs.map EcsInfo.cacheToken).getD []

/-- The key that concurrent questions share one resolution by. -/
def Asked.key (asked : Asked) : Str := keyText asked.qname asked.qtype (tokenOf asked.ecs)

namespace Resolver

/-- `Resolver::new`, with the built-in root servers where none of the configured ones can
be parsed. -/
def new (cfg : Config) : Resolver where
  maxDepth := cfg.recurseMaxDepth.toNat
  roots :=
    let parsed := cfg.rootHints.filterMap SocketAddr.parse
    if parsed = [] then rootHints.filterMap fun s => SocketAddr.parse s.toList else parsed

/-- The addresses of the servers of a referral; `iterative` finds those without
glue, of type A or else AAAA. -/
def nameservers (iterative : Asked → Asks Message) (glue : HashMap Str SocketAddr) :
    List Str → Asks (List SocketAddr)
  | [] => pure []
  | ns :: rest => do
      let found ← match glue.get ns with
        | some addr => pure [addr]
        | none => do
            let a ← match ← attempt (iterative ⟨ns, typeA, none⟩) with
              | .ok sub => pure (aRecords sub)
              | .error _ => pure []
            if a ≠ [] then pure a
            else
              match ← attempt (iterative ⟨ns, typeAaaa, none⟩) with
              | .ok sub => pure (aaaaRecords sub)
              | .error _ => pure []
      let next ← nameservers iterative glue rest
      pure (found ++ next)

/-- The loop of `iterative`, with so many turns left. -/
def walk (r : Resolver) (iterative : Asked → Asks Message) (asked : Asked) :
    Nat → List SocketAddr → Asks Message
  | 0, _ => resolverError ("max recursion depth exceeded for " ++ String.ofList asked.qname)
  | left + 1, servers => do
      if ← timeIsUp net then resolverError "recursion deadline exceeded"
      else
        let resp ← queryServers net servers asked.qname asked.qtype asked.ecs
        if resp.answers ≠ [] ∨ resp.header.rcode = rcodeNxdomain then pure resp
        else if resp.header.rcode ≠ 0 then pure resp
        else
          let referral := extractReferral resp
          if referral.nsNames = [] then pure resp
          else
            let next ← nameservers iterative referral.glue referral.nsNames
            if next = [] then
              resolverError ("no reachable nameservers for " ++ String.ofList asked.qname ++
                " (depth " ++ toString (r.maxDepth - (left + 1)) ++ ")")
            else walk r iterative asked left next

/-- Walk from the roots. A name server without glue starts a walk of its own,
which is nested in this one; more than so many levels are cut off. -/
def iterative (r : Resolver) : Nat → Asked → Asks Message
  | 0, _ => cutOff
  | nesting + 1, asked => walk net r (iterative r nesting) asked r.maxDepth r.roots

/-- One turn of the loop of `do_resolve`; `follow` is the next one, for the
target of a CNAME record. -/
def chaseTurn (r : Resolver) (nesting : Nat) (follow : Str → Asks Message) (asked : Asked) :
    Asks Message := do
  let resp ← r.iterative net nesting asked
  if resp.header.rcode ≠ 0 ∨ resp.answers ≠ [] then pure resp
  else if resp.answers = [] then pure resp
  else
    match resp.answers.reverse.find? fun r => r.rtype = typeCname with
    | some ⟨_, _, _, _, .name target⟩ => follow target
    | _ => pure resp

/-- The loop, with room for so many more names in the chain. -/
def chase (r : Resolver) (nesting : Nat) : Nat → Asked → Asks Message
  | 0, asked => r.chaseTurn net nesting (fun _ => resolverError "CNAME chain too long") asked
  | left + 1, asked => r.chaseTurn net nesting
      (fun target => r.chase nesting left { asked with qname := target }) asked

/-- `Resolver::do_resolve`: aliases are followed, each by a walk from the roots. -/
def doResolve (r : Resolver) (nesting : Nat) (asked : Asked) : Asks Message :=
  r.chase net nesting r.maxDepth { asked with qname := canonicalName asked.qname }

/-- What the leader of a resolution publishes, an error as its text. -/
def publish (r : Resolver) (nesting : Nat) (asked : Asked) : Asks (Except String Bytes) := do
  match ← attempt (r.doResolve net nesting asked >>= fun m => lift m.encode) with
  | .ok bytes => pure (.ok bytes)
  | .error e => pure (.error e.text)

end Resolver

/-! ## Turns -/

variable {net : Network}

theorem timeIsUp_eq (net : Network) (n : Nat) :
    timeIsUp net n = some (.ok (net.expired n), n + 1) := rfl

/-- A response that a walk ends with: it has records or an error, or it names no
servers to go on with. -/
def Ending (resp : Message) : Prop :=
  resp.answers ≠ [] ∨ resp.header.rcode ≠ rcodeNoerror ∨ (extractReferral resp).nsNames = []

instance (resp : Message) : Decidable (Ending resp) := inferInstanceAs (Decidable (_ ∨ _))

namespace Resolver

/-- The three tests of a response are one. -/
theorem walk_succ (r : Resolver) (nested : Asked → Asks Message) (asked : Asked) (left : Nat)
    (servers : List SocketAddr) :
    r.walk net nested asked (left + 1) servers = (do
      if ← timeIsUp net then resolverError "recursion deadline exceeded"
      else
        let resp ← queryServers net servers asked.qname asked.qtype asked.ecs
        if Ending resp then pure resp
        else
          let next ← nameservers nested (extractReferral resp).glue (extractReferral resp).nsNames
          if next = [] then
            resolverError ("no reachable nameservers for " ++ String.ofList asked.qname ++
              " (depth " ++ toString (r.maxDepth - (left + 1)) ++ ")")
          else r.walk net nested asked left next) := by
  rw [walk]
  refine bind_congr fun up => ?_
  split
  · rfl
  · refine bind_congr fun resp => ?_
    have hNx : resp.header.rcode = rcodeNxdomain → resp.header.rcode ≠ rcodeNoerror := by
      intro hRcode
      rw [hRcode]
      decide
    by_cases hFinal : resp.answers ≠ [] ∨ resp.header.rcode = rcodeNxdomain
    · have hEnding : Ending resp := hFinal.imp_right fun hRcode => Or.inl (hNx hRcode)
      rw [if_pos hFinal, if_pos hEnding]
    · rw [if_neg hFinal]
      by_cases hError : resp.header.rcode ≠ 0
      · have hEnding : Ending resp := Or.inr (Or.inl hError)
        rw [if_pos hError, if_pos hEnding]
      · rw [if_neg hError]
        have hEnding : Ending resp ↔ (extractReferral resp).nsNames = [] :=
          ⟨fun h => (h.resolve_left fun hAnswers => hFinal (Or.inl hAnswers)).resolve_left hError,
            fun hNone => Or.inr (Or.inr hNone)⟩
        simp only [hEnding]

/-- A turn behind its response. -/
theorem walk_of_response {r : Resolver} {nested : Asked → Asks Message} (asked : Asked)
    {servers : List SocketAddr} {n n' : Nat} {resp : Message} (hTime : net.expired n = false)
    (hResponse : queryServers net servers asked.qname asked.qtype asked.ecs (n + 1) =
      some (.ok resp, n')) (left : Nat) :
    r.walk net nested asked (left + 1) servers n =
      (if Ending resp then pure resp
        else do
          let next ← nameservers nested (extractReferral resp).glue (extractReferral resp).nsNames
          if next = [] then
            resolverError ("no reachable nameservers for " ++ String.ofList asked.qname ++
              " (depth " ++ toString (r.maxDepth - (left + 1)) ++ ")")
          else r.walk net nested asked left next : Asks Message) n' := by
  rw [walk_succ, bind_of_ok (timeIsUp_eq net n), hTime, if_neg Bool.false_ne_true,
    bind_of_ok hResponse]

end Resolver

end Dnsd.Resolve
