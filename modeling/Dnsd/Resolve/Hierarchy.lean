import Dnsd.Base.Descent
import Dnsd.Resolve.Orphans

/-! The name space as a tree of zones. The resolver finds what the tree holds for a
question: nothing else, where no server lies, and always this, where each zone on the
way has a server that responds. -/

namespace Dnsd.Resolve

open Proto Asking

/-- What a server is sent for a question. -/
def Asked.query (asked : Asked) : Message :=
  buildQuery asked.qname asked.qtype queryId asked.ecs

/-! ## The tree -/

/-- Zones that answer a question or refer it to a zone below, and what they respond
with. -/
structure Hierarchy (Zone : Type) extends Descent Zone Asked where
  root : Zone
  response : Zone → Asked → Message
  ending_iff : ∀ {z asked}, Ending (response z asked) ↔ next z asked = none

namespace Hierarchy

variable {Zone : Type} (h : Hierarchy Zone)

/-- What the tree holds for a question: the response of the zone that it ends at. -/
def truth (asked : Asked) : Message := h.response (h.bottom h.root asked) asked

/-- On its way from the root, the question is referred by one zone to the other. -/
def Refers (asked : Asked) (z z' : Zone) : Prop :=
  h.Passes asked h.root z ∧ h.next z asked = some z'

/-- The addresses that the tree has for a server that a referral lists. -/
def addressesOf (resp : Message) (ns : Str) : List SocketAddr :=
  match (extractReferral resp).glue.get ns with
  | some addr => [addr]
  | none => aRecords (h.truth ⟨ns, typeA, none⟩) ++ aaaaRecords (h.truth ⟨ns, typeAaaa, none⟩)

/-- Those of them that a turn goes on with. -/
def chosenOf (resp : Message) (ns : Str) : List SocketAddr :=
  match (extractReferral resp).glue.get ns with
  | some addr => [addr]
  | none =>
      if aRecords (h.truth ⟨ns, typeA, none⟩) ≠ [] then aRecords (h.truth ⟨ns, typeA, none⟩)
      else aaaaRecords (h.truth ⟨ns, typeAaaa, none⟩)

/-- The addresses of all servers that a referral lists, in its order. -/
def chosen (resp : Message) : List SocketAddr :=
  (extractReferral resp).nsNames.flatMap (h.chosenOf resp)

/-- A referral of the question lists the server without an address. -/
def Glueless (asked : Asked) (ns : Str) : Prop :=
  ∃ z z', h.Refers asked z z' ∧ ns ∈ (extractReferral (h.response z asked)).nsNames ∧
    (extractReferral (h.response z asked)).glue.get ns = none

/-! ## The servers -/

section Servers

variable (net : Network) (r : Resolver)

/-- A question that comes to the zone gets from the server, if anything, what the zone or
one below it responds. -/
def Honest (z : Zone) (server : SocketAddr) : Prop :=
  ∀ asked n m n', h.Passes asked h.root z → Delivers net server asked.query n m n' →
    m.header.qr = true → ∃ z', h.Passes asked z z' ∧ m = h.response z' asked

/-- Each address that the tree has for a zone is of an honest server. -/
structure Faithful : Prop where
  roots : ∀ server ∈ r.roots, h.Honest net h.root server
  servers : ∀ {asked z z'}, h.Refers asked z z' →
    ∀ ns ∈ (extractReferral (h.response z asked)).nsNames,
      ∀ server ∈ h.addressesOf (h.response z asked) ns, h.Honest net z' server

/-- Whenever it is asked, the server responds to the question. -/
def Live (asked : Asked) (server : SocketAddr) : Prop :=
  ∀ n, ∃ m n', Delivers net server asked.query n m n' ∧ m.header.qr = true

/-- Each zone on the way of the question has a server that responds, and so it is for the
servers that have to be looked up. -/
inductive Reachable : Asked → Prop where
  | intro (asked : Asked) (hRoot : ∃ server ∈ r.roots, Live net asked server)
      (hZones : ∀ z z', h.Refers asked z z' →
        ∃ server ∈ h.chosen (h.response z asked), Live net asked server)
      (hA : ∀ ns, h.Glueless asked ns → Reachable ⟨ns, typeA, none⟩)
      (hAaaa : ∀ ns, h.Glueless asked ns → aRecords (h.truth ⟨ns, typeA, none⟩) = [] →
        Reachable ⟨ns, typeAaaa, none⟩) : Reachable asked

/-- The deadline is far, and nothing that is sent unwinds the resolver. -/
structure Steady : Prop where
  timely : ∀ n, net.expired n = false
  calm : net.Calm

end Servers

variable {h} {net : Network} {r : Resolver} {asked : Asked} {z : Zone}

/-- The truth about a question is what the last zone on its way responds. -/
theorem truth_of_passes (hPasses : h.Passes asked h.root z) (hNext : h.next z asked = none) :
    h.response z asked = h.truth asked := by
  rw [truth, hPasses.bottom, h.bottom_of_none hNext]

/-- The address that is chosen for a server is one of its addresses. -/
theorem mem_addressesOf {resp : Message} {ns : Str} {server : SocketAddr}
    (hChosen : server ∈ h.chosenOf resp ns) : server ∈ h.addressesOf resp ns := by
  rw [chosenOf] at hChosen
  rw [addressesOf]
  split at hChosen
  · exact hChosen
  · split at hChosen
    · exact List.mem_append_left _ hChosen
    · exact List.mem_append_right _ hChosen

/-! ## Nothing but the truth -/

section Truth

/-- A response of honest servers is the one of a zone on the way. -/
theorem queryServersFrom_honest {servers : List SocketAddr} (hPasses : h.Passes asked h.root z)
    (hHonest : ∀ server ∈ servers, h.Honest net z server) (qname : Str) (lastErr : String) :
    Ensures (queryServersFrom net asked.query qname servers lastErr)
      fun m => ∃ z', h.Passes asked z z' ∧ m = h.response z' asked := by
  induction servers generalizing lastErr with
  | nil => exact ensures_err _
  | cons server rest ih =>
      have hRest : ∀ other ∈ rest, h.Honest net z other := fun other hOther =>
        hHonest other (List.mem_cons_of_mem server hOther)
      have hExchange : Ensures (exchange net server asked.query) fun m =>
          m.header.qr = true → ∃ z', h.Passes asked z z' ∧ m = h.response z' asked :=
        fun n m n' hRun hQr =>
          hHonest server List.mem_cons_self asked n m n' hPasses (exchange_eq_ok.mp hRun) hQr
      refine (ensures_true _).bind fun up _ => ?_
      split
      · exact ensures_err _
      · refine hExchange.attempt.bind fun reply hReply => ?_
        split
        · rename_i resp
          split
          · rename_i hQr
            exact ensures_pure (hReply resp rfl hQr)
          · exact ih hRest _
        · exact ih hRest _

variable {nested : Asked → Asks Message} (hNested : ∀ b, Ensures (nested b) fun m => m = h.truth b)

include hNested

/-- A lookup that is true to the tree finds only addresses that the tree has for the name.
-/
theorem lookedUp_truth (records : Message → List SocketAddr) (b : Asked) :
    Ensures (lookedUp nested records b) fun found =>
      ∀ server ∈ found, server ∈ records (h.truth b) := by
  refine (hNested b).attempt.bind fun reply hReply => ensures_pure ?_
  intro server hServer
  cases reply with
  | ok sub =>
      rw [← hReply sub rfl]
      exact hServer
  | error e => cases hServer

/-- What is found for one server is an address that the tree has for it, whether it came
with the referral or from a lookup. -/
theorem found_truth (resp : Message) (ns : Str) :
    Ensures (found nested (extractReferral resp).glue ns) fun servers =>
      ∀ server ∈ servers, server ∈ h.addressesOf resp ns := by
  rw [found]
  cases hGlue : (extractReferral resp).glue.get ns with
  | some addr =>
      refine ensures_pure fun server hServer => ?_
      rw [addressesOf, hGlue]
      exact hServer
  | none =>
      have hAddresses : h.addressesOf resp ns =
          aRecords (h.truth ⟨ns, typeA, none⟩) ++ aaaaRecords (h.truth ⟨ns, typeAaaa, none⟩) := by
        rw [addressesOf, hGlue]
      refine (lookedUp_truth hNested aRecords ⟨ns, typeA, none⟩).bind fun servers hServers => ?_
      split
      · refine ensures_pure fun server hServer => ?_
        rw [hAddresses]
        exact List.mem_append_left _ (hServers server hServer)
      · intro n servers' n' hRun server hServer
        rw [hAddresses]
        exact List.mem_append_right _
          (lookedUp_truth hNested aaaaRecords ⟨ns, typeAaaa, none⟩ n servers' n' hRun server hServer)

/-- The same for all servers of a referral. -/
theorem nameservers_truth (resp : Message) (names : List Str) :
    Ensures (Resolver.nameservers nested (extractReferral resp).glue names) fun servers =>
      ∀ server ∈ servers, ∃ ns ∈ names, server ∈ h.addressesOf resp ns := by
  induction names with
  | nil =>
      refine ensures_pure fun server hServer => ?_
      cases hServer
  | cons ns rest ih =>
      rw [nameservers_cons]
      refine (found_truth hNested resp ns).bind fun here hHere => ?_
      refine ih.bind fun next hNext => ensures_pure fun server hServer => ?_
      rcases List.mem_append.mp hServer with hFirst | hLater
      · exact ⟨ns, List.mem_cons_self, hHere server hFirst⟩
      · obtain ⟨other, hOther, hAddress⟩ := hNext server hLater
        exact ⟨other, List.mem_cons_of_mem ns hOther, hAddress⟩

/-- A walk below honest servers of a zone on the way ends at the bottom. -/
theorem walk_truth (hFaithful : h.Faithful net r) (left : Nat) {servers : List SocketAddr}
    (hPasses : h.Passes asked h.root z) (hHonest : ∀ server ∈ servers, h.Honest net z server) :
    Ensures (r.walk net nested asked left servers) fun m => m = h.truth asked := by
  induction left generalizing servers z with
  | zero => exact ensures_err _
  | succ left ih =>
      rw [Resolver.walk_succ]
      refine (ensures_true _).bind fun up _ => ?_
      split
      · exact ensures_err _
      · refine (queryServersFrom_honest hPasses hHonest asked.qname _).bind fun resp hResp => ?_
        obtain ⟨z', hBelow, rfl⟩ := hResp
        have hHere : h.Passes asked h.root z' := hPasses.trans hBelow
        split
        · rename_i hEnding
          exact ensures_pure (truth_of_passes hHere (h.ending_iff.mp hEnding))
        · rename_i hEnding
          cases hNext : h.next z' asked with
          | none => exact absurd (h.ending_iff.mpr hNext) hEnding
          | some z'' =>
              refine (nameservers_truth hNested _ _).bind fun next hServers => ?_
              split
              · exact ensures_err _
              · refine ih (hHere.snoc hNext) fun server hServer => ?_
                obtain ⟨ns, hNs, hAddress⟩ := hServers server hServer
                exact hFaithful.servers ⟨hHere, hNext⟩ ns hNs server hAddress

end Truth

/-- Whatever the clock and the network do, what is found is the truth. -/
theorem iterative_truth (hFaithful : h.Faithful net r) (nesting : Nat) (asked : Asked) :
    Ensures (r.iterative net nesting asked) fun m => m = h.truth asked := by
  induction nesting generalizing asked with
  | zero => exact ensures_cutOff
  | succ nesting ih => exact walk_truth ih hFaithful _ (.here _) hFaithful.roots

/-! ## Depths of nesting -/

/-- A walk that can nest deeper finds for a referral whatever it found before. -/
theorem nameservers_extends {f g : Asked → Asks Message} (hNested : ∀ b, Extends (f b) (g b))
    (glue : HashMap Str SocketAddr) (names : List Str) :
    Extends (Resolver.nameservers f glue names) (Resolver.nameservers g glue names) := by
  have hLooked (records : Message → List SocketAddr) (b : Asked) :
      Extends (lookedUp f records b) (lookedUp g records b) :=
    (hNested b).attempt.bind fun _ => extends_refl _
  have hFound (ns : Str) : Extends (found f glue ns) (found g glue ns) := by
    rw [found, found]
    cases glue.get ns with
    | some addr => exact extends_refl _
    | none =>
        refine (hLooked aRecords _).bind fun servers => ?_
        split
        · exact extends_refl _
        · exact hLooked aaaaRecords _
  induction names with
  | nil => exact extends_refl _
  | cons ns rest ih =>
      rw [nameservers_cons, nameservers_cons]
      exact (hFound ns).bind fun _ => ih.bind fun _ => extends_refl _

/-- A walk that can nest deeper ends as it did before, wherever it ended. -/
theorem walk_extends {f g : Asked → Asks Message} (hNested : ∀ b, Extends (f b) (g b))
    (asked : Asked) (left : Nat) (servers : List SocketAddr) :
    Extends (r.walk net f asked left servers) (r.walk net g asked left servers) := by
  induction left generalizing servers with
  | zero => exact extends_refl _
  | succ left ih =>
      rw [Resolver.walk_succ, Resolver.walk_succ]
      refine (extends_refl _).bind fun up => ?_
      split
      · exact extends_refl _
      · refine (extends_refl _).bind fun resp => ?_
        split
        · exact extends_refl _
        · refine (nameservers_extends hNested _ _).bind fun next => ?_
          split
          · exact extends_refl _
          · exact ih next

/-- What a walk comes to is the same with room for more walks inside it. -/
theorem iterative_extends {nesting nesting' : Nat} (hMore : nesting ≤ nesting') (asked : Asked) :
    Extends (r.iterative net nesting asked) (r.iterative net nesting' asked) := by
  induction nesting generalizing nesting' asked with
  | zero => exact extends_cutOff _
  | succ nesting ih =>
      obtain ⟨more, rfl⟩ := Nat.exists_eq_add_of_le hMore
      rw [Nat.succ_add]
      exact walk_extends (fun b => ih (Nat.le_add_right nesting more) b) asked _ _

/-! ## The whole truth -/

/-- The lookups of the server that a turn needs give what the tree holds. -/
def Known (h : Hierarchy Zone) (net : Network) (r : Resolver) (nesting : Nat) (ns : Str) : Prop :=
  Answered net r nesting ⟨ns, typeA, none⟩ (h.truth ⟨ns, typeA, none⟩) ∧
    (aRecords (h.truth ⟨ns, typeA, none⟩) = [] →
      Answered net r nesting ⟨ns, typeAaaa, none⟩ (h.truth ⟨ns, typeAaaa, none⟩))

/-- What is answered at some nesting is answered at every greater one. -/
theorem answered_more {nesting nesting' : Nat} (hMore : nesting ≤ nesting') {b : Asked} {m : Message}
    (hAnswered : Answered net r nesting b m) : Answered net r nesting' b m := by
  intro n
  obtain ⟨n', hRun⟩ := hAnswered n
  exact ⟨n', iterative_extends hMore b n _ hRun⟩

/-- A server that is known at some nesting is known at every greater one. -/
theorem Known.more {nesting nesting' : Nat} (hMore : nesting ≤ nesting') {ns : Str}
    (hKnown : Known h net r nesting ns) : Known h net r nesting' ns :=
  ⟨answered_more hMore hKnown.1, fun hNone => answered_more hMore (hKnown.2 hNone)⟩

/-- An exchange always comes to an end, if only with an error. -/
theorem exchange_total (net : Network) (server : SocketAddr) (query : Message) :
    Total (exchange net server query) := by
  refine (total_lift _).bind fun sent => (total_ask _).bind fun datagram => (total_lift _).bind fun m => ?_
  split
  · exact (total_lift _).bind fun sent => (total_ask _).bind fun stream => (total_lift _).bind fun resp =>
      total_lift _
  · exact total_lift _

section Live

variable (hSteady : Steady net)

include hSteady

/-- A server that is alive settles the exchange with a reply that the walk accepts. -/
theorem exchange_settles (server : SocketAddr) (asked : Asked) (n : Nat) :
    ∃ reply n', attempt (exchange net server asked.query) n = some (.ok reply, n') := by
  have hCalm := exchange_calm hSteady.calm server asked.query
  cases hRun : exchange net server asked.query n with
  | none => exact absurd hRun (exchange_total net server asked.query n)
  | some o =>
      obtain ⟨o, n'⟩ := o
      cases o with
      | ok m => exact ⟨.ok m, n', attempt_eq_ok.mpr hRun⟩
      | err e => exact ⟨.error e, n', attempt_eq_error.mpr hRun⟩
      | panicked => exact absurd hRun (hCalm n n')

/-- Of servers with a live one among them, one responds. -/
theorem queryServersFrom_live {servers : List SocketAddr}
    (hLive : ∃ server ∈ servers, Live net asked server) (qname : Str) (lastErr : String) (n : Nat) :
    ∃ m n', queryServersFrom net asked.query qname servers lastErr n = some (.ok m, n') := by
  induction servers generalizing lastErr n with
  | nil =>
      obtain ⟨server, hServer, -⟩ := hLive
      cases hServer
  | cons server rest ih =>
      have hTime := hSteady.timely n
      obtain ⟨reply, n₁, hReply⟩ := exchange_settles hSteady server asked (n + 1)
      by_cases hRefused : Refused reply
      · have hRest : ∃ other ∈ rest, Live net asked other := by
          obtain ⟨other, hOther, hAlive⟩ := hLive
          rcases List.mem_cons.mp hOther with rfl | hLater
          · obtain ⟨m, n', hDelivers, hQr⟩ := hAlive (n + 1)
            have hSame := attempt_eq_ok.mpr (exchange_eq_ok.mpr hDelivers)
            rw [hReply] at hSame
            cases hSame
            rw [hRefused m rfl] at hQr
            cases hQr
          · exact ⟨other, hLater, hAlive⟩
        obtain ⟨last, hRun⟩ := queryServersFrom_refused hTime hReply hRefused lastErr
        obtain ⟨m, n', hFound⟩ := ih hRest last n₁
        exact ⟨m, n', hRun.trans hFound⟩
      · cases reply with
        | error e =>
            refine absurd (fun m hm => ?_) hRefused
            cases hm
        | ok m =>
            have hQr : m.header.qr = true := by
              by_contra hNot
              refine hRefused fun m' hm' => ?_
              cases hm'
              simpa using hNot
            refine ⟨m, n₁, ?_⟩
            rw [queryServersFrom_reply hTime hReply]
            dsimp only
            rw [if_pos hQr]
            rfl

end Live

/-- A lookup whose question is answered gives the addresses in that answer. -/
theorem lookedUp_known {nesting : Nat} {b : Asked} {m : Message}
    (hAnswered : Answered net r nesting b m) (records : Message → List SocketAddr) (n : Nat) :
    ∃ n', lookedUp (r.iterative net nesting) records b n = some (.ok (records m), n') := by
  obtain ⟨n', hRun⟩ := hAnswered n
  exact ⟨n', lookedUp_eq_ok.mpr (Or.inl ⟨m, hRun, rfl⟩)⟩

/-- A server that is known is found, by its glue or by a lookup of its own. -/
theorem found_known {nesting : Nat} {resp : Message} {ns : Str}
    (hKnown : (extractReferral resp).glue.get ns = none → Known h net r nesting ns) (n : Nat) :
    ∃ n', found (r.iterative net nesting) (extractReferral resp).glue ns n =
      some (.ok (h.chosenOf resp ns), n') := by
  rw [found, chosenOf]
  cases hGlue : (extractReferral resp).glue.get ns with
  | some addr => exact ⟨n, rfl⟩
  | none =>
      obtain ⟨hA, hAaaa⟩ := hKnown hGlue
      obtain ⟨n₁, hFirst⟩ := lookedUp_known hA aRecords n
      dsimp only
      rw [bind_of_ok hFirst]
      split_ifs with hSome
      · exact ⟨n₁, rfl⟩
      · exact lookedUp_known (hAaaa (not_not.mp hSome)) aaaaRecords n₁

/-- The servers of a referral are looked up as the tree has them. -/
theorem nameservers_known {nesting : Nat} {resp : Message} {names : List Str}
    (hKnown : ∀ ns ∈ names, (extractReferral resp).glue.get ns = none → Known h net r nesting ns)
    (n : Nat) :
    ∃ n', Resolver.nameservers (r.iterative net nesting) (extractReferral resp).glue names n =
      some (.ok (names.flatMap (h.chosenOf resp)), n') := by
  induction names generalizing n with
  | nil => exact ⟨n, rfl⟩
  | cons ns rest ih =>
      obtain ⟨n₁, hFirst⟩ := found_known (hKnown ns List.mem_cons_self) n
      obtain ⟨n₂, hRest⟩ := ih (fun other hOther => hKnown other (List.mem_cons_of_mem ns hOther)) n₁
      refine ⟨n₂, ?_⟩
      rw [nameservers_cons, bind_of_ok hFirst, bind_of_ok hRest, List.flatMap_cons]
      rfl

/-- A walk with turns for all zones below gets to the end of the way. -/
theorem walk_ends (hSteady : Steady net) (hFaithful : h.Faithful net r) {nesting : Nat}
    (hKnown : ∀ ns, h.Glueless asked ns → Known h net r nesting ns)
    (hZones : ∀ z z', h.Refers asked z z' →
      ∃ server ∈ h.chosen (h.response z asked), Live net asked server)
    {left : Nat} {servers : List SocketAddr} (hPasses : h.Passes asked h.root z)
    (hHonest : ∀ server ∈ servers, h.Honest net z server)
    (hLive : ∃ server ∈ servers, Live net asked server) (hTurns : h.height z < left) (n : Nat) :
    ∃ m n', r.walk net (r.iterative net nesting) asked left servers n = some (.ok m, n') := by
  induction left generalizing servers z n with
  | zero => exact absurd hTurns (Nat.not_lt_zero _)
  | succ left ih =>
      obtain ⟨resp, n₁, hResponse⟩ :=
        queryServersFrom_live hSteady hLive asked.qname "no nameservers" (n + 1)
      obtain ⟨z', hBelow, rfl⟩ :=
        queryServersFrom_honest hPasses hHonest asked.qname "no nameservers" (n + 1) resp n₁ hResponse
      have hHere : h.Passes asked h.root z' := hPasses.trans hBelow
      rw [Resolver.walk_of_response asked (hSteady.timely n) hResponse]
      by_cases hEnding : Ending (h.response z' asked)
      · rw [if_pos hEnding]
        exact ⟨_, n₁, rfl⟩
      · rw [if_neg hEnding]
        cases hNext : h.next z' asked with
        | none => exact absurd (h.ending_iff.mpr hNext) hEnding
        | some z'' =>
            have hNames : ∀ ns ∈ (extractReferral (h.response z' asked)).nsNames,
                (extractReferral (h.response z' asked)).glue.get ns = none → Known h net r nesting ns :=
              fun ns hNs hGlue => hKnown ns ⟨z', z'', ⟨hHere, hNext⟩, hNs, hGlue⟩
            obtain ⟨n₂, hServers⟩ := nameservers_known hNames n₁
            obtain ⟨server, hServer, hAlive⟩ := hZones z' z'' ⟨hHere, hNext⟩
            have hSome : (extractReferral (h.response z' asked)).nsNames.flatMap
                (h.chosenOf (h.response z' asked)) ≠ [] := List.ne_nil_of_mem hServer
            rw [bind_of_ok hServers, if_neg hSome]
            have hLower : h.height z'' < left := by
              have hFirst := hBelow.height_le
              have hSecond := h.next_height hNext
              omega
            refine ih (hHere.snoc hNext) (fun other hOther => ?_) ⟨server, hServer, hAlive⟩ hLower n₂
            obtain ⟨ns, hNs, hChosen⟩ := List.mem_flatMap.mp hOther
            exact hFaithful.servers ⟨hHere, hNext⟩ ns hNs other (mem_addressesOf hChosen)

/-- One nesting serves for all names of a list, if each of them has one. -/
theorem exists_known_names {names : List Str} {P : Str → Prop}
    (hEach : ∀ ns ∈ names, P ns → ∃ nesting, Known h net r nesting ns) :
    ∃ nesting, ∀ ns ∈ names, P ns → Known h net r nesting ns := by
  induction names with
  | nil => exact ⟨0, fun ns hNs => by cases hNs⟩
  | cons ns rest ih =>
      obtain ⟨k, hRest⟩ := ih fun other hOther => hEach other (List.mem_cons_of_mem ns hOther)
      by_cases hP : P ns
      · obtain ⟨k', hFirst⟩ := hEach ns List.mem_cons_self hP
        refine ⟨max k k', fun other hOther hQ => ?_⟩
        rcases List.mem_cons.mp hOther with rfl | hLater
        · exact hFirst.more (Nat.le_max_right k k')
        · exact (hRest other hLater hQ).more (Nat.le_max_left k k')
      · refine ⟨k, fun other hOther hQ => ?_⟩
        rcases List.mem_cons.mp hOther with rfl | hLater
        · exact absurd hQ hP
        · exact hRest other hLater hQ

/-- One depth of nesting is enough for all servers that a question needs. -/
theorem exists_known (hEach : ∀ ns, h.Glueless asked ns → ∃ nesting, Known h net r nesting ns) :
    ∃ nesting, ∀ ns, h.Glueless asked ns → Known h net r nesting ns := by
  let P (nesting : Nat) (z : Zone) : Prop := ∀ ns ∈ (extractReferral (h.response z asked)).nsNames,
    (∃ z', h.next z asked = some z') ∧ (extractReferral (h.response z asked)).glue.get ns = none →
      Known h net r nesting ns
  have hMono {k k' : Nat} {z : Zone} (hMore : k ≤ k') (hAll : P k z) : P k' z :=
    fun ns hNs hGlueless => (hAll ns hNs hGlueless).more hMore
  have hZone (z : Zone) (hPasses : h.Passes asked h.root z) : ∃ nesting, P nesting z := by
    refine exists_known_names fun ns hNs hGlueless => ?_
    obtain ⟨⟨z', hNext⟩, hGlue⟩ := hGlueless
    exact hEach ns ⟨z, z', ⟨hPasses, hNext⟩, hNs, hGlue⟩
  obtain ⟨nesting, hAll⟩ := h.toDescent.exists_bound (P := P) hMono asked h.root hZone
  refine ⟨nesting, fun ns hGlueless => ?_⟩
  obtain ⟨z, z', ⟨hPasses, hNext⟩, hNs, hGlue⟩ := hGlueless
  exact hAll z hPasses ns hNs ⟨⟨z', hNext⟩, hGlue⟩

/-- A question whose zones can be reached is answered with what the tree holds. -/
theorem Reachable.answered (hSteady : Steady net) (hFaithful : h.Faithful net r)
    (hDepth : h.height h.root < r.maxDepth) (hReachable : h.Reachable net r asked) :
    ∃ nesting, Answered net r nesting asked (h.truth asked) := by
  induction hReachable with
  | intro asked hRoot hZones hA hAaaa ihA ihAaaa =>
      have hEach (ns : Str) (hGlueless : h.Glueless asked ns) : ∃ nesting, Known h net r nesting ns := by
        obtain ⟨k, hFirst⟩ := ihA ns hGlueless
        by_cases hNone : aRecords (h.truth ⟨ns, typeA, none⟩) = []
        · obtain ⟨k', hSecond⟩ := ihAaaa ns hGlueless hNone
          exact ⟨max k k', answered_more (Nat.le_max_left k k') hFirst,
            fun _ => answered_more (Nat.le_max_right k k') hSecond⟩
        · exact ⟨k, hFirst, fun hNil => absurd hNil hNone⟩
      obtain ⟨nesting, hAll⟩ := exists_known hEach
      refine ⟨nesting + 1, fun n => ?_⟩
      obtain ⟨m, n', hRun⟩ := walk_ends hSteady hFaithful hAll hZones (.here h.root) hFaithful.roots
        hRoot hDepth n
      have hTruth := iterative_truth hFaithful (nesting + 1) asked n m n' hRun
      exact ⟨n', hTruth ▸ hRun⟩

end Hierarchy

/-! ## Networks that only carry datagrams -/

/-- A server that has no reply lets the resolver wait. -/
def onlyUdp (reply : SocketAddr → Bytes → Option Bytes) : Network where
  expired _ := false
  udp _ server sent :=
    match reply server sent with
    | some datagram => .ok datagram
    | none => .err (.io "timed out")
  tcp _ _ _ := .err (.io "timed out")

section OnlyUdp

variable {reply : SocketAddr → Bytes → Option Bytes} {server : SocketAddr}

theorem onlyUdp_eq_ok {n : Nat} {sent datagram : Bytes} :
    (onlyUdp reply).udp n server sent = .ok datagram ↔ reply server sent = some datagram := by
  rw [onlyUdp]
  dsimp only
  cases reply server sent <;> simp

theorem delivers_onlyUdp {query m : Message} {n n' : Nat}
    (h : Delivers (onlyUdp reply) server query n m n') :
    ∃ sent datagram, query.encode = .ok sent ∧ reply server sent = some datagram ∧
      Message.parse (datagram.take udpBuffer) = .ok m := by
  cases h with
  | udp sent datagram _ hSent hDatagram hParse _ =>
      exact ⟨sent, datagram, hSent, onlyUdp_eq_ok.mp hDatagram, hParse⟩
  | tcp sent datagram stream resp cut _ _ _ _ _ hStream => cases hStream

/-- A server whose datagram parses to a whole reply is alive for the question. -/
theorem live_onlyUdp {asked : Asked} {sent datagram : Bytes} {m : Message}
    (hSent : asked.query.encode = .ok sent) (hReply : reply server sent = some datagram)
    (hParse : Message.parse (datagram.take udpBuffer) = .ok m) (hTc : m.header.tc = false)
    (hQr : m.header.qr = true) : Hierarchy.Live (onlyUdp reply) asked server := fun n =>
  ⟨m, n + 1, .udp n sent datagram m hSent (onlyUdp_eq_ok.mpr hReply) hParse hTc, hQr⟩

/-- A network whose datagrams all parse is steady. -/
theorem steady_onlyUdp (hParse : ∀ server sent datagram, reply server sent = some datagram →
    ∃ m, Message.parse (datagram.take udpBuffer) = .ok m) : Hierarchy.Steady (onlyUdp reply) where
  timely _ := rfl
  calm := by
    refine ⟨fun n server sent => ?_, fun n server sent hPanic => (by cases hPanic),
      fun n server sent datagram hDatagram hOverrun => ?_, fun n server sent stream resp hStream => ?_⟩
    · rw [onlyUdp]
      dsimp only
      cases reply server sent <;> simp
    · obtain ⟨m, hRead⟩ := hParse server sent datagram (onlyUdp_eq_ok.mp hDatagram)
      rw [(parse_eq_panicked_iff _).mpr hOverrun] at hRead
      cases hRead
    · cases hStream

end OnlyUdp

/-- The one root server that the resolvers of the examples know. -/
def rootServer : SocketAddr := ⟨.v4 Ipv4Addr.localhost, 53⟩

/-- A resolver with two turns for each walk. -/
def treeResolver : Resolver := ⟨2, [rootServer]⟩

/-- "a." has the address 192.0.2.1. -/
def ownReply : Bytes :=
  [29, 94, 128, 0, 0, 1, 0, 1, 0, 0, 0, 0, 1, 97, 0, 0, 1, 0, 1, 192, 12, 0, 1, 0, 1, 0, 0, 0, 60,
    0, 4, 192, 0, 2, 1]

/-- The reply of the zone "a.", parsed. -/
def ownMessage : Message where
  header := { id := queryId, qr := true }
  questions := [⟨['a', '.'], typeA, classIn⟩]
  answers := [⟨['a', '.'], typeA, classIn, 60, .a ⟨192, 0, 2, 1⟩⟩]

theorem parse_ownReply : Message.parse (ownReply.take udpBuffer) = .ok ownMessage := rfl

/-- The question of the examples. -/
def askedA : Asked := ⟨['a', '.'], typeA, none⟩

/-! ### Three zones -/

/-- "b." is delegated to its own server, with the address 192.0.2.66. -/
def gluedReply : Bytes :=
  [29, 94, 128, 0, 0, 0, 0, 0, 0, 1, 0, 1, 1, 98, 0, 0, 2, 0, 1, 0, 0, 0, 60, 0, 3, 1, 98, 0,
    1, 98, 0, 0, 1, 0, 1, 0, 0, 0, 60, 0, 4, 192, 0, 2, 66]

/-- The referral with an address, parsed. -/
def gluedMessage : Message where
  header := { id := queryId, qr := true }
  authority := [⟨['b', '.'], typeNs, classIn, 60, .name ['b', '.']⟩]
  additional := [⟨['b', '.'], typeA, classIn, 60, .a ⟨192, 0, 2, 66⟩⟩]

/-- "a." is delegated to the same server, without an address. -/
def bareReply : Bytes :=
  [29, 94, 128, 0, 0, 0, 0, 0, 0, 1, 0, 0, 1, 97, 0, 0, 2, 0, 1, 0, 0, 0, 60, 0, 3, 1, 98, 0]

/-- The referral without one, parsed. -/
def bareMessage : Message where
  header := { id := queryId, qr := true }
  authority := [⟨['a', '.'], typeNs, classIn, 60, .name ['b', '.']⟩]

/-- A top and two zones below it. -/
inductive LabZone where
  | top
  | a
  | b

/-- A query for the address of "b.", which the top refers to the zone of that name. -/
def Asked.ForB (asked : Asked) : Prop := asked.query.encode.toOption = some (letterQuery 98)

@[irreducible] instance Asked.decidableForB (asked : Asked) : Decidable asked.ForB :=
  inferInstanceAs (Decidable (_ = _))

theorem Asked.forB_iff {asked : Asked} {sent : Bytes} (hSent : asked.query.encode = .ok sent) :
    asked.ForB ↔ sent = letterQuery 98 := by
  rw [Asked.ForB, hSent, Exec.toOption, Option.some.injEq]

namespace LabZone

/-- What a zone responds: the top refers, the two others answer. -/
def response (z : LabZone) (asked : Asked) : Message :=
  match z with
  | top => if asked.ForB then gluedMessage else bareMessage
  | a => ownMessage
  | b => addressMessage

/-- All else belongs to "a.". -/
def next (z : LabZone) (asked : Asked) : Option LabZone :=
  match z with
  | top => if asked.ForB then some b else some a
  | a | b => none

/-- The zones that can still be below. -/
def height : LabZone → Nat
  | top => 1
  | a | b => 0

end LabZone

/-- The tree with the three zones. -/
def threeZones : Hierarchy LabZone where
  next := LabZone.next
  height := LabZone.height
  next_height := by
    intro z asked z' hNext
    cases z with
    | top =>
        rw [LabZone.next] at hNext
        split_ifs at hNext <;> cases hNext <;> decide
    | a => cases hNext
    | b => cases hNext
  root := .top
  response := LabZone.response
  ending_iff := by
    intro z asked
    cases z with
    | top =>
        rw [LabZone.response, LabZone.next]
        split_ifs <;> exact iff_of_false (by decide) (by simp)
    | a => exact iff_of_true (by decide : Ending ownMessage) rfl
    | b => exact iff_of_true (by decide : Ending addressMessage) rfl

/-- The address of the one server of a zone. -/
def serverOf : LabZone → SocketAddr
  | .top => rootServer
  | .a => ⟨.v4 ⟨192, 0, 2, 1⟩, 53⟩
  | .b => ⟨.v4 ⟨192, 0, 2, 66⟩, 53⟩

/-- What the servers send; at other addresses there is nobody. -/
def labReply (server : SocketAddr) (sent : Bytes) : Option Bytes :=
  if server = serverOf .top then some (if sent = letterQuery 98 then gluedReply else bareReply)
  else if server = serverOf .a then some ownReply
  else if server = serverOf .b then some addressReply
  else none

/-- Each server sends what its zone responds. -/
theorem parse_labReply {z : LabZone} {asked : Asked} {sent : Bytes}
    (hSent : asked.query.encode = .ok sent) :
    ∃ datagram, labReply (serverOf z) sent = some datagram ∧
      Message.parse (datagram.take udpBuffer) = .ok (threeZones.response z asked) := by
  cases z with
  | top =>
      refine ⟨_, rfl, ?_⟩
      change _ = Exec.ok (if asked.ForB then gluedMessage else bareMessage)
      simp only [Asked.forB_iff hSent]
      split_ifs <;> rfl
  | a => exact ⟨ownReply, rfl, rfl⟩
  | b => exact ⟨addressReply, rfl, rfl⟩

/-- The servers of the three zones send what their zones respond. -/
theorem honest_serverOf (z : LabZone) :
    threeZones.Honest (onlyUdp labReply) z (serverOf z) := by
  intro asked n m n' _ hDelivers _
  obtain ⟨sent, datagram, hSent, hReply, hParse⟩ := delivers_onlyUdp hDelivers
  obtain ⟨datagram', hReply', hParse'⟩ := parse_labReply (z := z) hSent
  rw [hReply', Option.some.injEq] at hReply
  rw [← hReply, hParse'] at hParse
  exact ⟨z, .here z, (Exec.ok.inj hParse).symm⟩

/-- Of a question that the top refers once, the truth is what the lower zone responds. -/
theorem truth_of_next {asked : Asked} {z : LabZone} (hNext : LabZone.next .top asked = some z)
    (hLast : z.next asked = none) : threeZones.truth asked = z.response asked := by
  have hTop : threeZones.next .top asked = some z := hNext
  have hEnd : threeZones.next z asked = none := hLast
  have hBottom : threeZones.bottom .top asked = z :=
    (threeZones.bottom_of_some hTop).trans (threeZones.bottom_of_none hEnd)
  rw [Hierarchy.truth]
  exact congrArg (LabZone.response · asked) hBottom

theorem truth_of_forB {asked : Asked} (h : asked.ForB) : threeZones.truth asked = addressMessage :=
  truth_of_next (if_pos h) rfl

theorem truth_of_not_forB {asked : Asked} (h : ¬asked.ForB) : threeZones.truth asked = ownMessage :=
  truth_of_next (if_neg h) rfl

/-- The question for the server of the zones. -/
def askedB : Asked := ⟨['b', '.'], typeA, none⟩

theorem askedB_forB : askedB.ForB := by decide +kernel

/-- Only the top refers a question: to "b." with an address, or without one. -/
theorem refers_threeZones {asked : Asked} {z z' : LabZone} (h : threeZones.Refers asked z z') :
    asked.ForB ∧ threeZones.response z asked = gluedMessage ∧ z' = .b ∨
      ¬asked.ForB ∧ threeZones.response z asked = bareMessage ∧ z' = .a := by
  obtain ⟨-, hNext⟩ := h
  replace hNext : z.next asked = some z' := hNext
  cases z with
  | a => cases hNext
  | b => cases hNext
  | top =>
      rw [LabZone.next] at hNext
      by_cases hForB : asked.ForB
      · rw [if_pos hForB] at hNext
        exact Or.inl ⟨hForB, if_pos hForB, (Option.some.inj hNext).symm⟩
      · rw [if_neg hForB] at hNext
        exact Or.inr ⟨hForB, if_neg hForB, (Option.some.inj hNext).symm⟩

theorem nsNames_refers {asked : Asked} {z z' : LabZone} (h : threeZones.Refers asked z z') :
    (extractReferral (threeZones.response z asked)).nsNames = [['b', '.']] := by
  rcases refers_threeZones h with ⟨-, hResponse, -⟩ | ⟨-, hResponse, -⟩ <;> rw [hResponse] <;> rfl

/-- The one address that there is for the server, written down or looked up. -/
theorem addresses_refers {asked : Asked} {z z' : LabZone} (h : threeZones.Refers asked z z') :
    threeZones.addressesOf (threeZones.response z asked) ['b', '.'] = [serverOf z'] ∧
      threeZones.chosenOf (threeZones.response z asked) ['b', '.'] = [serverOf z'] := by
  rcases refers_threeZones h with ⟨-, hResponse, rfl⟩ | ⟨-, hResponse, rfl⟩
  · rw [hResponse]
    exact ⟨rfl, rfl⟩
  · have hGlue : (extractReferral bareMessage).glue.get ['b', '.'] = none := rfl
    have hA : threeZones.truth ⟨['b', '.'], typeA, none⟩ = addressMessage := truth_of_forB askedB_forB
    have hAaaa : threeZones.truth ⟨['b', '.'], typeAaaa, none⟩ = ownMessage :=
      truth_of_not_forB (by decide +kernel)
    rw [hResponse, Hierarchy.addressesOf, Hierarchy.chosenOf, hGlue]
    dsimp only
    rw [hA, hAaaa]
    exact ⟨rfl, rfl⟩

/-- The three zones are served as the tree has them, whatever is asked. -/
theorem faithful_threeZones : threeZones.Faithful (onlyUdp labReply) treeResolver where
  roots server hServer := by
    rw [List.mem_singleton.mp hServer]
    exact honest_serverOf .top
  servers := by
    intro asked z z' hRefers ns hNs server hServer
    rw [nsNames_refers hRefers, List.mem_singleton] at hNs
    rw [hNs, (addresses_refers hRefers).1, List.mem_singleton] at hServer
    exact hServer ▸ honest_serverOf z'

theorem steady_labReply : Hierarchy.Steady (onlyUdp labReply) := by
  refine steady_onlyUdp fun server sent datagram hReply => ?_
  rw [labReply] at hReply
  split_ifs at hReply <;> cases hReply
  · exact ⟨gluedMessage, rfl⟩
  · exact ⟨bareMessage, rfl⟩
  · exact ⟨ownMessage, rfl⟩
  · exact ⟨addressMessage, rfl⟩

/-- Each of the servers replies to every query that can be written. -/
theorem live_serverOf {asked : Asked} (z : LabZone) {sent : Bytes}
    (hSent : asked.query.encode = .ok sent) :
    Hierarchy.Live (onlyUdp labReply) asked (serverOf z) := by
  obtain ⟨datagram, hReply, hParse⟩ := parse_labReply (z := z) hSent
  have hFlags : (threeZones.response z asked).header = { id := queryId, qr := true } := by
    cases z with
    | top =>
        change Message.header (if asked.ForB then gluedMessage else bareMessage) = _
        split_ifs <;> rfl
    | a => rfl
    | b => rfl
  exact live_onlyUdp hSent hReply hParse (by rw [hFlags]) (by rw [hFlags])

/-- A question whose query can be written is reachable, if the servers without an address
on its way are. -/
theorem reachable_of_glueless {asked : Asked} {sent : Bytes} (hSent : asked.query.encode = .ok sent)
    (hA : ∀ ns, threeZones.Glueless asked ns →
      threeZones.Reachable (onlyUdp labReply) treeResolver ⟨ns, typeA, none⟩)
    (hSome : ∀ ns, threeZones.Glueless asked ns → aRecords (threeZones.truth ⟨ns, typeA, none⟩) ≠ []) :
    threeZones.Reachable (onlyUdp labReply) treeResolver asked := by
  refine .intro asked ⟨rootServer, List.mem_singleton.mpr rfl, live_serverOf .top hSent⟩
    (fun z z' hRefers => ⟨serverOf z', ?_, live_serverOf z' hSent⟩) hA
    fun ns hGlueless hNil => absurd hNil (hSome ns hGlueless)
  refine List.mem_flatMap.mpr ⟨['b', '.'], ?_, ?_⟩
  · rw [nsNames_refers hRefers]
    exact List.mem_singleton_self _
  · rw [(addresses_refers hRefers).2]
    exact List.mem_singleton_self _

/-- The only server without an address is "b.", for the questions about all else. -/
theorem glueless_threeZones {asked : Asked} {ns : Str} (h : threeZones.Glueless asked ns) :
    ¬asked.ForB ∧ ns = ['b', '.'] := by
  obtain ⟨z, z', hRefers, hNs, hGlue⟩ := h
  rw [nsNames_refers hRefers, List.mem_singleton] at hNs
  subst hNs
  rcases refers_threeZones hRefers with ⟨-, hResponse, -⟩ | ⟨hForB, -, -⟩
  · rw [hResponse] at hGlue
    cases hGlue
  · exact ⟨hForB, rfl⟩

theorem askedA_not_forB : ¬askedA.ForB := by decide +kernel

/-- The question is reachable: the server that it leads to is found by a lookup, which has
glue itself. -/
theorem reachable_askedA : threeZones.Reachable (onlyUdp labReply) treeResolver askedA := by
  have hSentB : askedB.query.encode = .ok (letterQuery 98) := rfl
  have hSentA : askedA.query.encode = .ok (letterQuery 97) := rfl
  have hB : threeZones.Reachable (onlyUdp labReply) treeResolver askedB :=
    reachable_of_glueless hSentB
      (fun ns hGlueless => absurd askedB_forB (glueless_threeZones hGlueless).1)
      fun ns hGlueless => absurd askedB_forB (glueless_threeZones hGlueless).1
  refine reachable_of_glueless hSentA (fun ns hGlueless => ?_) fun ns hGlueless => ?_
  · rw [(glueless_threeZones hGlueless).2]
    exact hB
  · have hTruth : threeZones.truth ⟨['b', '.'], typeA, none⟩ = addressMessage := truth_of_forB askedB_forB
    rw [(glueless_threeZones hGlueless).2, hTruth]
    decide

end Dnsd.Resolve
