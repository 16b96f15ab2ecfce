import Dnsd.Base.Runs
import Dnsd.Proto.EncodeSafety
import Dnsd.Proto.Headers
import Dnsd.Resolve.Pipeline

/-! The UDP listener: one turn of a worker, and two servers that take each other
for their client. -/

namespace Dnsd.Server

open Proto Resolve Cache

/-- `recv_from`, with a buffer of 4096 bytes: what is behind them is lost. -/
def received (datagram : Bytes) : Bytes := datagram.take 4096

/-- One turn of a worker, with what it sends back; a worker that unwinds sends
nothing. The turn does not end if `handle` does not return. -/
def serveUdp (p : Pipeline) (client : IpAddr) (datagram : Bytes) (u : Surroundings) :
    Option (Pipeline × Option Bytes) :=
  match p.handle (received datagram) client "udp" u with
  | some (.ok (p, reply)) => some (p, some reply)
  | some _ => some (p, none)
  | none => none

/-- The bytes are a message whose qr bit is clear. -/
def IsQuery (raw : Bytes) : Prop := ∃ m, Message.parse raw = .ok m ∧ m.header.qr = false

section Turn

variable {p : Pipeline} {client : IpAddr} {datagram : Bytes} {u : Surroundings}

theorem judge_overrun {s : Settings} {call : Call} (h : MessageOverrun call.raw) :
    judge s call = .panicked := by
  rw [judge, (parse_eq_panicked_iff _).mpr h]

theorem judge_not_query (s : Settings) {call : Call} (hQuery : ¬IsQuery call.raw)
    (h : ¬MessageOverrun call.raw) : ∃ info, judge s call = .ok (.silent, info) := by
  rw [judge]
  cases hParse : Message.parse call.raw with
  | panicked => exact absurd ((parse_eq_panicked_iff _).mp hParse) h
  | err e =>
      dsimp only
      rw [refuse, hParse]
      exact ⟨_, rfl⟩
  | ok m =>
      have hQr : m.header.qr = true := by
        by_contra hClear
        exact hQuery ⟨m, hParse, by simpa using hClear⟩
      dsimp only
      rw [if_pos hQr]
      exact ⟨_, rfl⟩

theorem serveUdp_overrun (h : MessageOverrun (received datagram)) :
    serveUdp p client datagram u = some (p, none) := by
  rw [serveUdp, Pipeline.handle, Resolve.handle, process, judge_overrun h]
  rfl

/-- What is no query is answered by an empty datagram. -/
theorem serveUdp_not_query (hQuery : ¬IsQuery (received datagram))
    (h : ¬MessageOverrun (received datagram)) :
    serveUdp p client datagram u = some (p, some []) := by
  let call : Call := ⟨received datagram, client, u.allowed, u.mapViaApi⟩
  obtain ⟨info, hJudge⟩ : ∃ info, judge p.settings call = .ok (.silent, info) :=
    judge_not_query p.settings hQuery h
  rw [serveUdp, Pipeline.handle, Resolve.handle, process, hJudge]
  rfl

/-- The message has questions only, as that of a refusal has. -/
structure Bare (m : Message) : Prop where
  answers : m.answers = []
  authority : m.authority = []
  additional : m.additional = []

theorem judge_refused (s : Settings) {call : Call} (hAllowed : call.allowed = false)
    (h : ¬MessageOverrun call.raw) : (∃ info, judge s call = .ok (.silent, info)) ∨
      ∃ resp info, judge s call = .ok (.echo resp, info) ∧ Bare resp := by
  have hRefuse (m : Message) (info : RespMeta) (hParse : Message.parse call.raw = .ok m) :
      ∃ resp info', refuse call.raw info = .ok (.echo resp, info') ∧ Bare resp := by
    rw [refuse, hParse]
    exact ⟨_, _, rfl, rfl, rfl, rfl⟩
  by_cases hQuery : IsQuery call.raw
  · obtain ⟨req, hParse, hQr⟩ := hQuery
    right
    rw [judge, hParse]
    dsimp only
    rw [if_neg (by simp [hQr])]
    split
    · exact hRefuse req _ hParse
    · split_ifs
      · exact hRefuse req _ hParse
      · exact ⟨_, _, rfl, rfl, rfl, rfl⟩
      · exact ⟨_, _, rfl, rfl, rfl, rfl⟩
      · rename_i hLimit
        simp [hAllowed] at hLimit
  · exact Or.inl (judge_not_query s hQuery h)

theorem not_overrun_nil : ¬MessageOverrun (received []) := fun h => absurd h.1 (by decide)

theorem encodeOr_bare {resp : Message} (h : Bare resp) :
    ∃ reply, encodeOr resp [] = .ok reply ∧ ¬MessageOverrun (received reply) := by
  rw [encodeOr]
  cases hEncode : resp.encode with
  | ok b =>
      have hHeader : headerBytes resp <+: received b := by
        refine List.prefix_of_prefix_length_le (encode_header hEncode) (List.take_prefix _ _) ?_
        have hLength := (encode_header hEncode).length_le
        rw [headerBytes_length] at hLength ⊢
        rw [received, List.length_take]
        omega
      exact ⟨b, rfl, not_overrun_of_header hHeader h.answers h.authority h.additional⟩
  | err e => exact ⟨[], rfl, not_overrun_nil⟩
  | panicked => exact absurd hEncode (encode_ne_panicked resp)

/-- To what the limiter holds back a server replies too, with bytes that a server
can read. -/
theorem serveUdp_refused (hAllowed : u.allowed = false) (h : ¬MessageOverrun (received datagram)) :
    ∃ reply, serveUdp p client datagram u = some (p, some reply) ∧
      ¬MessageOverrun (received reply) := by
  rw [serveUdp, Pipeline.handle, Resolve.handle, process]
  let call : Call := ⟨received datagram, client, u.allowed, u.mapViaApi⟩
  have hAllowed' : call.allowed = false := hAllowed
  rcases judge_refused p.settings hAllowed' h with ⟨info, hJudge⟩ | ⟨resp, info, hJudge, hBare⟩
  · rw [hJudge]
    exact ⟨[], rfl, not_overrun_nil⟩
  · obtain ⟨reply, hEncode, hReadable⟩ := encodeOr_bare hBare
    rw [hJudge]
    dsimp only
    rw [hEncode]
    exact ⟨reply, rfl, hReadable⟩

end Turn

/-! ## Two servers -/

/-- One of two servers. -/
inductive Side where
  | left
  | right
  deriving DecidableEq

/-- The other one. -/
def Side.other : Side → Side
  | .left => .right
  | .right => .left

/-- A server that answers with the pipeline, at its address. -/
structure Node where
  pipeline : Pipeline
  ip : IpAddr

/-- Two servers, the datagram that is on its way to one of them under the address
of the other, and the number of replies so far. -/
structure Link where
  nodes : Side → Node
  flying : Option (Side × Bytes)
  replies : Nat := 0

/-- `lose`: the datagram does not arrive. `deliver`: it does, and the surroundings are
those of the turn. -/
inductive Link.Action where
  | deliver (u : Surroundings)
  | lose

namespace Link

/-- The datagram on its way is lost, or the server that gets it sends back what the
pipeline makes of it. -/
def step (link : Link) : Action → Option Link
  | .lose => link.flying.map fun _ => { link with flying := none }
  | .deliver u =>
      match link.flying with
      | none => none
      | some (side, datagram) =>
          let node := link.nodes side
          match serveUdp node.pipeline (link.nodes side.other).ip datagram u with
          | none => none
          | some (p, sent) =>
              some { nodes := Function.update link.nodes side { node with pipeline := p }
                     flying := sent.map fun reply => (side.other, reply)
                     replies := link.replies + sent.toList.length }

/-- A datagram for one of the servers, with the address of the other forged. -/
def injected (nodes : Side → Node) (side : Side) (datagram : Bytes) : Link where
  nodes := nodes
  flying := some (side, datagram)

/-- The limiter holds the call back, and nobody can be reached. -/
def refusing : Surroundings where
  allowed := false
  mapViaApi _ _ := none
  net := ⟨fun _ => true, fun _ _ _ => .err (.io "timed out"), fun _ _ _ => .err (.io "timed out")⟩
  nesting := 0
  env := ⟨0, 0, false⟩
  tsMs := 0
  rttMs := 0

theorem step_overrun {link link' : Link} {side : Side} {datagram : Bytes} {a : Action}
    (hFlying : link.flying = some (side, datagram)) (h : MessageOverrun (received datagram))
    (hStep : step link a = some link') : link'.flying = none ∧ link'.replies = link.replies := by
  cases a with
  | lose =>
      rw [step, hFlying] at hStep
      cases hStep
      exact ⟨rfl, rfl⟩
  | deliver u =>
      rw [step, hFlying] at hStep
      dsimp only at hStep
      rw [serveUdp_overrun h] at hStep
      cases hStep
      exact ⟨rfl, rfl⟩

theorem run_landed {link link' : Link} {actions : List Action} (hLanded : link.flying = none)
    (hRun : Runs.run step link actions = some link') : link' = link := by
  cases actions with
  | nil =>
      cases hRun
      rfl
  | cons a rest =>
      rw [Runs.run_cons] at hRun
      cases a <;> simp [step, hLanded] at hRun

/-- What can be read is answered over and over again. -/
theorem unending {link : Link} {side : Side} {datagram : Bytes}
    (hFlying : link.flying = some (side, datagram)) (h : ¬MessageOverrun (received datagram))
    (n : Nat) : ∃ actions link', Runs.run step link actions = some link' ∧
      link'.replies = link.replies + n := by
  induction n generalizing link side datagram with
  | zero => exact ⟨[], link, rfl, rfl⟩
  | succ n ih =>
      obtain ⟨reply, hServe, hReadable⟩ : ∃ reply,
          serveUdp (link.nodes side).pipeline (link.nodes side.other).ip datagram refusing =
            some ((link.nodes side).pipeline, some reply) ∧ ¬MessageOverrun (received reply) :=
        serveUdp_refused rfl h
      let next : Link :=
        { nodes := Function.update link.nodes side (link.nodes side)
          flying := some (side.other, reply)
          replies := link.replies + 1 }
      have hStep : step link (.deliver refusing) = some next := by
        rw [step, hFlying]
        dsimp only
        rw [hServe]
        rfl
      have hNext : next.flying = some (side.other, reply) := rfl
      obtain ⟨actions, link', hRun, hReplies⟩ := ih hNext hReadable
      refine ⟨.deliver refusing :: actions, link', ?_, ?_⟩
      · rw [Runs.run_cons, hStep]
        exact hRun
      · rw [hReplies]
        dsimp only [next]
        omega

/-- What is no query gets nothing back, and two servers exchange at most one reply,
exactly for the datagrams that the parser unwinds on. -/
theorem loopless_iff (nodes : Side → Node) (side : Side) (datagram : Bytes) :
    ((¬IsQuery (received datagram) → ∀ client u p sent,
        serveUdp (nodes side).pipeline client datagram u = some (p, sent) → sent = none) ∧
      ∀ actions link, Runs.run step (injected nodes side datagram) actions = some link →
        link.replies ≤ 1) ↔ MessageOverrun (received datagram) := by
  constructor
  · rintro ⟨-, hFew⟩
    by_contra h
    have hFlying : (injected nodes side datagram).flying = some (side, datagram) := rfl
    obtain ⟨actions, link, hRun, hReplies⟩ := unending hFlying h 2
    have hMany := hFew actions link hRun
    rw [hReplies] at hMany
    simp [injected] at hMany
  · intro h
    refine ⟨fun _ client u p sent hServe => ?_, fun actions link hRun => ?_⟩
    · rw [serveUdp_overrun h] at hServe
      cases hServe
      rfl
    · cases actions with
      | nil =>
          cases hRun
          exact Nat.zero_le 1
      | cons a rest =>
          rw [Runs.run_cons] at hRun
          obtain ⟨middle, hFirst, hRest⟩ := Option.bind_eq_some_iff.mp hRun
          have hFlying : (injected nodes side datagram).flying = some (side, datagram) := rfl
          obtain ⟨hLanded, hReplies⟩ := step_overrun hFlying h hFirst
          rw [run_landed hLanded hRest, hReplies]
          exact Nat.zero_le 1

/-- A server without zones, blocked domains or cached replies. -/
def labNode (ip : Ipv4Addr) : Node where
  pipeline := ⟨plainSettings, Resolver.new plainSettings.cfg, TieredCache.new 0 0 false⟩
  ip := .v4 ip

/-- Two of them, under different addresses. -/
def labNodes : Side → Node
  | .left => labNode ⟨192, 0, 2, 1⟩
  | .right => labNode ⟨192, 0, 2, 2⟩

/-- The single byte is no message. It is answered all the same, and so is each answer,
back and forth between the two servers without an end. -/
theorem loop_strayByte : ¬∀ nodes side datagram,
    (¬IsQuery (received datagram) → ∀ client u p sent,
      serveUdp (Node.pipeline (nodes side)) client datagram u = some (p, sent) → sent = none) ∧
    ∀ actions link, Runs.run step (injected nodes side datagram) actions = some link →
      link.replies ≤ 1 := by
  intro hAll
  have hReadable : ¬MessageOverrun (received [0x41]) := fun h => absurd h.1 (by decide)
  have hFlying : (injected labNodes .left [0x41]).flying = some (.left, [0x41]) := rfl
  obtain ⟨actions, link, hRun, hReplies⟩ := unending hFlying hReadable 2
  have hMany := (hAll labNodes .left [0x41]).2 actions link hRun
  rw [hReplies] at hMany
  simp [injected] at hMany

end Link

end Dnsd.Server
