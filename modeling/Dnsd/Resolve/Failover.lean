import Dnsd.Resolve.Provenance

/-! Which of the addresses that a referral publishes are asked in the next turn, and
that no server of a turn is passed over before the turn fails. -/

namespace Dnsd.Resolve

open Proto Asking

/-! ## Servers of a turn -/

section Servers

variable (net : Network) (query : Message)

/-- The servers, asked in turn from this question on, come to one of them, whose
exchange begins with the second question. -/
inductive Tried : List SocketAddr → Nat → SocketAddr → Nat → Prop where
  | here (server : SocketAddr) (rest : List SocketAddr) (n : Nat) (hTime : net.expired n = false) :
      Tried (server :: rest) n server (n + 1)
  | later (server : SocketAddr) (rest : List SocketAddr) (n n₁ : Nat) (reply : Except Error Message)
      (addr : SocketAddr) (k : Nat) (hTime : net.expired n = false)
      (hReply : attempt (exchange net server query) (n + 1) = some (.ok reply, n₁))
      (hRefused : Refused reply) (hRest : Tried rest n₁ addr k) : Tried (server :: rest) n addr k

/-- The deadline is over in front of one of them. -/
inductive Late : List SocketAddr → Nat → Prop where
  | now (server : SocketAddr) (rest : List SocketAddr) (n : Nat) (hTime : net.expired n = true) :
      Late (server :: rest) n
  | later (server : SocketAddr) (rest : List SocketAddr) (n n₁ : Nat) (reply : Except Error Message)
      (hTime : net.expired n = false)
      (hReply : attempt (exchange net server query) (n + 1) = some (.ok reply, n₁))
      (hRefused : Refused reply) (hRest : Late rest n₁) : Late (server :: rest) n

end Servers

variable {net : Network}

/-- A failure of all servers comes after each of them was asked, or with the deadline. -/
theorem tried_of_err {query : Message} {qname : Str} {servers : List SocketAddr} {lastErr : String}
    {n n' : Nat} {e : Error}
    (h : queryServersFrom net query qname servers lastErr n = some (.err e, n')) :
    Late net query servers n ∨ ∀ addr ∈ servers, ∃ k, Tried net query servers n addr k := by
  induction servers generalizing n lastErr with
  | nil => exact Or.inr fun addr hAddr => absurd hAddr List.not_mem_nil
  | cons server rest ih =>
      cases hTime : net.expired n with
      | true => exact Or.inl (.now server rest n hTime)
      | false =>
          obtain ⟨reply, n₁, last, hReply, hRefused, hRest⟩ := queryServersFrom_eq_err hTime h
          rcases ih hRest with hLate | hTried
          · exact Or.inl (.later server rest n n₁ reply hTime hReply hRefused hLate)
          · right
            intro addr hAddr
            rcases List.mem_cons.mp hAddr with rfl | hAddr
            · exact ⟨n + 1, .here addr rest n hTime⟩
            · obtain ⟨k, hRest⟩ := hTried addr hAddr
              exact ⟨k, .later server rest n n₁ reply addr k hTime hReply hRefused hRest⟩

/-- The first response that a server delivers is the one that is returned. -/
theorem queryServersFrom_tried {query m : Message} {qname : Str} {servers : List SocketAddr}
    {server : SocketAddr} {n n' k : Nat} (hTried : Tried net query servers n server k)
    (hDelivers : Delivers net server query k m n') (hQr : m.header.qr = true) (lastErr : String) :
    queryServersFrom net query qname servers lastErr n = some (.ok m, n') := by
  induction hTried generalizing lastErr with
  | here server rest n hTime => rw [queryServersFrom_delivers hTime hDelivers, if_pos hQr]
  | later server rest n n₁ reply addr k hTime hReply hRefused hRest ih =>
      obtain ⟨last, hRun⟩ := queryServersFrom_refused hTime hReply hRefused lastErr
      rw [hRun]
      exact ih hDelivers last

/-! ## Glue -/

/-- The referral gives the address for a server that it lists. -/
def Published (resp : Message) (addr : SocketAddr) : Prop :=
  ∃ ns ∈ (extractReferral resp).nsNames, ∃ rec ∈ resp.additional,
    rec.name = ns ∧ addressOf rec = some addr

/-- A turn whose response refers to other servers, and the inquiries for them. -/
structure Referred (net : Network) (r : Resolver) (nesting : Nat) (asked : Asked)
    (servers : List SocketAddr) (n : Nat) (resp : Message) (inquiries : List Inquiry) (n' : Nat) :
    Prop where
  timely : net.expired n = false
  inquired : ∃ n₁, queryServers net servers asked.qname asked.qtype asked.ecs (n + 1) =
      some (.ok resp, n₁) ∧
    InquiredAll (r.iterative net nesting) resp (extractReferral resp).nsNames n₁ inquiries n'
  answers : resp.answers = []
  rcode : resp.header.rcode = rcodeNoerror

/-- Where there are next servers, the walk goes on with them. -/
theorem Referred.turn {r : Resolver} {nesting : Nat} {asked : Asked} {servers : List SocketAddr}
    {n n' : Nat} {resp : Message} {inquiries : List Inquiry}
    (h : Referred net r nesting asked servers n resp inquiries n')
    (hNext : addresses (taken resp inquiries) ≠ []) :
    Turn net r nesting asked servers n resp inquiries n' :=
  ⟨h.timely, h.inquired, h.answers, h.rcode, hNext⟩

/-- The additional section gives each published address to the next servers, the walk
goes on with these, and they fail only once each of them was asked, or with the deadline. -/
structure Exhaustive (net : Network) (r : Resolver) (nesting : Nat) (asked : Asked)
    (servers : List SocketAddr) (n : Nat) (resp : Message) (inquiries : List Inquiry)
    (n' : Nat) : Prop where
  listed : ∀ addr, Published resp addr →
    ∃ t ∈ taken resp inquiries, t.answer = none ∧ addressOf t.record = some addr
  next : ∀ addr, Published resp addr → ∀ left,
    r.walk net (r.iterative net nesting) asked (left + 1) servers n =
      r.walk net (r.iterative net nesting) asked left (addresses (taken resp inquiries)) n'
  tried : ∀ e n'', queryServers net (addresses (taken resp inquiries)) asked.qname asked.qtype
      asked.ecs (n' + 1) = some (.err e, n'') →
    Late net (buildQuery asked.qname asked.qtype queryId asked.ecs)
        (addresses (taken resp inquiries)) (n' + 1) ∨
      ∀ addr, Published resp addr →
        ∃ k, Tried net (buildQuery asked.qname asked.qtype queryId asked.ecs)
          (addresses (taken resp inquiries)) (n' + 1) addr k

/-- Each published address is that of the last address record of a listed server. -/
def GlueKept (resp : Message) : Prop :=
  ∀ addr, Published resp addr →
    ∃ ns ∈ (extractReferral resp).nsNames, (glueRecord resp ns).bind addressOf = some addr

/-- What is taken without a lookup is the glue of a name. -/
theorem mem_taken_glue_iff {resp : Message} {inquiries : List Inquiry} {addr : SocketAddr} :
    (∃ t ∈ taken resp inquiries, t.answer = none ∧ addressOf t.record = some addr) ↔
      ∃ ns ∈ inquiries.map Inquiry.ns, (glueRecord resp ns).bind addressOf = some addr := by
  constructor
  · rintro ⟨t, ht, hNone, hAddr⟩
    obtain ⟨i, hi, ht⟩ := List.mem_flatMap.mp ht
    refine ⟨i.ns, List.mem_map_of_mem hi, ?_⟩
    rw [Inquiry.taken] at ht
    cases hGlue : glueRecord resp i.ns with
    | some rec =>
        rw [hGlue] at ht
        rw [List.mem_singleton.mp ht] at hAddr
        exact hAddr
    | none =>
        rw [hGlue] at ht
        cases hAnswer : i.answer with
        | none =>
            rw [hAnswer] at ht
            cases ht
        | some answer =>
            rw [hAnswer] at ht
            obtain ⟨rec, -, rfl⟩ := List.mem_map.mp ht
            cases hNone
  · rintro ⟨ns, hNs, hAddr⟩
    obtain ⟨i, hi, rfl⟩ := List.mem_map.mp hNs
    obtain ⟨rec, hGlue, hAddr⟩ := Option.bind_eq_some_iff.mp hAddr
    refine ⟨⟨i.ns, rec, none⟩, List.mem_flatMap.mpr ⟨i, hi, ?_⟩, rfl, hAddr⟩
    rw [Inquiry.taken, hGlue]
    exact List.mem_singleton.mpr rfl

/-- In every turn that is referred, the published addresses are all asked exactly if
none of them is lost to another address record of its name. -/
theorem exhaustive_iff {r : Resolver} {nesting : Nat} {asked : Asked} {servers : List SocketAddr}
    {n n' : Nat} {resp : Message} {inquiries : List Inquiry}
    (h : Referred net r nesting asked servers n resp inquiries n') :
    Exhaustive net r nesting asked servers n resp inquiries n' ↔ GlueKept resp := by
  obtain ⟨n₁, -, hInquired⟩ := h.inquired
  have hListed (addr : SocketAddr) :
      (∃ t ∈ taken resp inquiries, t.answer = none ∧ addressOf t.record = some addr) ↔
        ∃ ns ∈ (extractReferral resp).nsNames,
          (glueRecord resp ns).bind addressOf = some addr := by
    rw [mem_taken_glue_iff, hInquired.names]
  constructor
  · exact fun hAll addr hAddr => (hListed addr).mp (hAll.listed addr hAddr)
  · intro hKept
    have hTaken (addr : SocketAddr) (hAddr : Published resp addr) :
        ∃ t ∈ taken resp inquiries, t.answer = none ∧ addressOf t.record = some addr :=
      (hListed addr).mpr (hKept addr hAddr)
    have hNext (addr : SocketAddr) (hAddr : Published resp addr) :
        addr ∈ addresses (taken resp inquiries) := by
      obtain ⟨t, ht, -, hRecord⟩ := hTaken addr hAddr
      exact List.mem_filterMap.mpr ⟨t, ht, hRecord⟩
    refine ⟨hTaken, fun addr hAddr => ?_, fun e n'' hFails => ?_⟩
    · exact (h.turn (List.ne_nil_of_mem (hNext addr hAddr))).walk
    · rcases tried_of_err hFails with hLate | hTried
      · exact Or.inl hLate
      · exact Or.inr fun addr hAddr => hTried addr (hNext addr hAddr)

/-- The referral has one address for its server, so none is lost to another. -/
theorem exhaustive_iff_glueTurn :
    Exhaustive (glueNetwork 97) ⟨2, [⟨.v4 Ipv4Addr.localhost, 53⟩]⟩ 1 ⟨['a', '.'], typeA, none⟩
      [⟨.v4 Ipv4Addr.localhost, 53⟩] 0 (glueMessage ['a', '.']) [⟨['a', '.'], none⟩] 3 ↔
      GlueKept (glueMessage ['a', '.']) := by
  have hTurn := glueTurn (Or.inl ⟨rfl, rfl⟩)
  exact exhaustive_iff ⟨hTurn.timely, hTurn.inquired, hTurn.answers, hTurn.rcode⟩

/-- The zone "a." is delegated to a server of that name, with addresses of both families. -/
def dualReply : Bytes :=
  [29, 94, 128, 0, 0, 0, 0, 0, 0, 1, 0, 2, 1, 97, 0, 0, 2, 0, 1, 0, 0, 0, 60, 0, 3, 1, 97, 0,
    1, 97, 0, 0, 1, 0, 1, 0, 0, 0, 60, 0, 4, 192, 0, 2, 66,
    1, 97, 0, 0, 28, 0, 1, 0, 0, 0, 60, 0, 16, 32, 1, 13, 184, 0, 0, 0, 0, 0, 0, 0, 0, 0, 0, 0, 1]

/-- The second address of the server. -/
def dualV6 : Ipv6Addr := ⟨[32, 1, 13, 184, 0, 0, 0, 0, 0, 0, 0, 0, 0, 0, 0, 1], rfl⟩

/-- A referral with two addresses for one server, parsed. -/
def dualMessage : Message where
  header := { id := queryId, qr := true }
  authority := [⟨['a', '.'], typeNs, classIn, 60, .name ['a', '.']⟩]
  additional := [⟨['a', '.'], typeA, classIn, 60, .a ⟨192, 0, 2, 66⟩⟩,
    ⟨['a', '.'], typeAaaa, classIn, 60, .aaaa dualV6⟩]

/-- Every server sends this referral. -/
def dualNetwork : Network where
  expired _ := false
  udp _ _ _ := .ok dualReply
  tcp _ _ _ := .err (.io "timed out")

/-- The server has an IPv4 and an IPv6 address, of which the glue keeps the last. The
first one is never asked. -/
theorem not_exhaustive_dual : ¬∀ net r nesting asked servers n resp inquiries n',
    Referred net r nesting asked servers n resp inquiries n' →
    Exhaustive net r nesting asked servers n resp inquiries n' := by
  intro hAll
  have hReferred : Referred dualNetwork ⟨2, [⟨.v4 Ipv4Addr.localhost, 53⟩]⟩ 1
      ⟨['a', '.'], typeA, none⟩ [⟨.v4 Ipv4Addr.localhost, 53⟩] 0 dualMessage
      [⟨['a', '.'], none⟩] 3 :=
    ⟨rfl, ⟨3, rfl, .cons _ _ _ 3 _ _ _ (.glue _ _ _ rfl) (.nil 3)⟩, rfl, rfl⟩
  obtain ⟨t, ht, -, hAddr⟩ := (hAll _ _ _ _ _ _ _ _ _ hReferred).listed ⟨.v4 ⟨192, 0, 2, 66⟩, 53⟩
    ⟨['a', '.'], by decide, _, List.mem_cons_self, rfl, rfl⟩
  have hMem : (⟨.v4 ⟨192, 0, 2, 66⟩, 53⟩ : SocketAddr) ∈
      addresses (taken dualMessage [⟨['a', '.'], none⟩]) := List.mem_filterMap.mpr ⟨t, ht, hAddr⟩
  exact absurd hMem (by decide)

end Dnsd.Resolve
