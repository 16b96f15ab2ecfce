import Dnsd.Resolve.Failover

/-! Where a walk ends. A response without records that names other servers is a
referral to it, also when it denies that the name has data. -/

namespace Dnsd.Resolve

open Proto Asking

/-- The authority denies that the name has records of the type. -/
structure NoData (resp : Message) : Prop where
  authoritative : resp.header.aa = true
  rcode : resp.header.rcode = rcodeNoerror
  answers : resp.answers = []
  soa : ∃ rec ∈ resp.authority, rec.rtype = typeSoa

section Turns

variable (net : Network) (r : Resolver) (nesting : Nat) (asked : Asked) (n₀ : Nat)

/-- The turns of a lookup: how many are left, the servers, and the next question. -/
inductive Walked : Nat → List SocketAddr → Nat → Prop where
  | roots : Walked r.maxDepth r.roots n₀
  | referred (left : Nat) (servers : List SocketAddr) (n : Nat) (resp : Message)
      (inquiries : List Inquiry) (n' : Nat) (hWalked : Walked (left + 1) servers n)
      (hTurn : Turn net r nesting asked servers n resp inquiries n') :
      Walked left (addresses (taken resp inquiries)) n'

/-- A server that the lookup asks in one of its turns replies. -/
inductive Replied : Message → Nat → Prop where
  | turn (left : Nat) (servers : List SocketAddr) (n k : Nat) (server : SocketAddr)
      (resp : Message) (n' : Nat) (hWalked : Walked net r nesting asked n₀ (left + 1) servers n)
      (hTime : net.expired n = false)
      (hTried : Tried net (buildQuery asked.qname asked.qtype queryId asked.ecs) servers (n + 1)
        server k)
      (hDelivers : Delivers net server (buildQuery asked.qname asked.qtype queryId asked.ecs) k
        resp n')
      (hQr : resp.header.qr = true) : Replied resp n'

end Turns

section Walk

variable {net : Network} {r : Resolver} {nesting : Nat} {asked : Asked} {n₀ : Nat}

/-- The rest of the lookup is the walk from the turn that it has come to. -/
theorem Walked.iterative {left : Nat} {servers : List SocketAddr} {n : Nat}
    (h : Walked net r nesting asked n₀ left servers n) :
    r.iterative net (nesting + 1) asked n₀ =
      r.walk net (r.iterative net nesting) asked left servers n := by
  induction h with
  | roots => rfl
  | referred left servers n resp inquiries n' hWalked hTurn ih => rw [ih, hTurn.walk]

/-- Every message that a walk returns is one to end with. -/
theorem walk_ending (nested : Asked → Asks Message) (left : Nat) (servers : List SocketAddr) :
    Ensures (r.walk net nested asked left servers) Ending := by
  induction left generalizing servers with
  | zero => exact ensures_err _
  | succ left ih =>
      rw [Resolver.walk_succ]
      refine (ensures_true _).bind fun up _ => ?_
      split
      · exact ensures_err _
      · refine (ensures_true _).bind fun resp _ => ?_
        split
        · rename_i hEnding
          exact ensures_pure hEnding
        · refine (ensures_true _).bind fun next _ => ?_
          split
          · exact ensures_err _
          · exact ih next

/-- A reply that is one to end with is the result. -/
theorem Replied.iterative_of_ending {resp : Message} {n' : Nat}
    (h : Replied net r nesting asked n₀ resp n') (hEnding : Ending resp) :
    r.iterative net (nesting + 1) asked n₀ = some (.ok resp, n') := by
  obtain ⟨left, servers, n, k, server, _, _, hWalked, hTime, hTried, hDelivers, hQr⟩ := h
  have hResponse : queryServers net servers asked.qname asked.qtype asked.ecs (n + 1) =
      some (.ok resp, n') := queryServersFrom_tried hTried hDelivers hQr _
  rw [hWalked.iterative, Resolver.walk_of_response asked hTime hResponse, if_pos hEnding]
  rfl

end Walk

/-- The response names servers to go on with. -/
def NamesServers (resp : Message) : Prop :=
  ∃ rec ∈ resp.authority, rec.rtype = typeNs ∧ ∃ ns, rec.data = .name ns

theorem nsNames_ne_nil_iff {resp : Message} :
    (extractReferral resp).nsNames ≠ [] ↔ NamesServers resp := by
  rw [← List.isEmpty_eq_false_iff, List.isEmpty_eq_false_iff_exists_mem]
  constructor
  · rintro ⟨ns, hNs⟩
    obtain ⟨rec, hRec, hName⟩ := List.mem_filterMap.mp hNs
    split_ifs at hName with hType
    split at hName
    · rename_i n hData
      exact ⟨rec, hRec, hType, n, hData⟩
    · cases hName
  · rintro ⟨rec, hRec, hType, ns, hData⟩
    exact ⟨ns, List.mem_filterMap.mpr ⟨rec, hRec, by rw [if_pos hType, hData]⟩⟩

/-- In every turn of every lookup, a denial is returned exactly if it names no servers. -/
theorem noData_returned_iff {net : Network} {r : Resolver} {nesting : Nat} {asked : Asked}
    {n₀ n' : Nat} {resp : Message} (hReplied : Replied net r nesting asked n₀ resp n')
    (hNoData : NoData resp) :
    r.iterative net (nesting + 1) asked n₀ = some (.ok resp, n') ↔ ¬NamesServers resp := by
  rw [← nsNames_ne_nil_iff, not_not]
  constructor
  · intro hReturned
    have hEnding := walk_ending _ _ _ _ _ _ hReturned
    rcases hEnding with hAnswers | hRcode | hNames
    · exact absurd hNoData.answers hAnswers
    · exact absurd hNoData.rcode hRcode
    · exact hNames
  · exact fun hNames => hReplied.iterative_of_ending (Or.inr (Or.inr hNames))

/-- The zone "a." denies the type: its SOA record, and its NS record with glue if asked for. -/
def denialReply (servers : Bool) : Bytes :=
  if servers then
    [29, 94, 132, 0, 0, 0, 0, 0, 0, 2, 0, 1, 1, 97, 0, 0, 6, 0, 1, 0, 0, 0, 60, 0, 26,
      1, 97, 0, 1, 97, 0, 0, 0, 0, 1, 0, 0, 0, 60, 0, 0, 0, 60, 0, 0, 0, 60, 0, 0, 0, 60,
      1, 97, 0, 0, 2, 0, 1, 0, 0, 0, 60, 0, 3, 1, 97, 0,
      1, 97, 0, 0, 1, 0, 1, 0, 0, 0, 60, 0, 4, 192, 0, 2, 66]
  else
    [29, 94, 132, 0, 0, 0, 0, 0, 0, 1, 0, 0, 1, 97, 0, 0, 6, 0, 1, 0, 0, 0, 60, 0, 26,
      1, 97, 0, 1, 97, 0, 0, 0, 0, 1, 0, 0, 0, 60, 0, 0, 0, 60, 0, 0, 0, 60, 0, 0, 0, 60]

/-- A denial with the SOA record of the zone, parsed, with the servers of the zone beside
it or without. -/
def denialMessage (servers : Bool) : Message where
  header := { id := queryId, qr := true, aa := true }
  authority :=
    ⟨['a', '.'], typeSoa, classIn, 60, .soa ['a', '.'] ['a', '.'] 1 60 60 60 60⟩ ::
      if servers then [⟨['a', '.'], typeNs, classIn, 60, .name ['a', '.']⟩] else []
  additional := if servers then [⟨['a', '.'], typeA, classIn, 60, .a ⟨192, 0, 2, 66⟩⟩] else []

/-- Every server sends this denial. -/
def denialNetwork (servers : Bool) : Network where
  expired _ := false
  udp _ _ _ := .ok (denialReply servers)
  tcp _ _ _ := .err (.io "timed out")

theorem denialReplied (servers : Bool) :
    Replied (denialNetwork servers) ⟨2, [⟨.v4 Ipv4Addr.localhost, 53⟩]⟩ 0 ⟨['a', '.'], typeMx, none⟩
      0 (denialMessage servers) 3 := by
  have hExchange : exchange (denialNetwork servers) ⟨.v4 Ipv4Addr.localhost, 53⟩
      (buildQuery ['a', '.'] typeMx queryId none) 2 = some (.ok (denialMessage servers), 3) := by
    cases servers <;> rfl
  have hQr : (denialMessage servers).header.qr = true := rfl
  exact .turn 1 _ 0 2 _ _ 3 .roots rfl (.here _ _ _ rfl) (exchange_eq_ok.mp hExchange) hQr

theorem denialMessage_noData (servers : Bool) : NoData (denialMessage servers) :=
  ⟨rfl, rfl, rfl, _, List.mem_cons_self, rfl⟩

/-- A denial that names no servers is returned as it is. -/
theorem noData_returned_iff_denialReply :
    (⟨2, [⟨.v4 Ipv4Addr.localhost, 53⟩]⟩ : Resolver).iterative (denialNetwork false) 1
      ⟨['a', '.'], typeMx, none⟩ 0 = some (.ok (denialMessage false), 3) ↔
      ¬NamesServers (denialMessage false) :=
  noData_returned_iff (denialReplied false) (denialMessage_noData false)

/-- The denial has the SOA record of its zone and names a server beside it. That server is
asked instead, and the denial is not returned. -/
theorem not_noData_returned_denialReply : ¬∀ net r nesting asked n₀ resp n',
    Replied net r nesting asked n₀ resp n' → NoData resp →
      r.iterative net (nesting + 1) asked n₀ = some (.ok resp, n') := by
  intro hAll
  have hReturned := hAll _ _ _ _ _ _ _ (denialReplied true) (denialMessage_noData true)
  have hEnding := walk_ending _ _ _ _ _ _ hReturned
  rcases hEnding with hAnswers | hRcode | hNames
  · exact hAnswers rfl
  · exact hRcode rfl
  · exact absurd hNames (by decide)

end Dnsd.Resolve
