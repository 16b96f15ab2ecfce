import Dnsd.Resolve.Acceptance

/-! Where the addresses of the next servers of a walk come from: from which record
of which message, and whose record it is. -/

namespace Dnsd.Resolve

open Proto Asking

/-! ## Names and owners -/

/-- The labels of a name; the root has none. -/
def labelsOf (name : Str) : List Str :=
  let n := (canonicalName name).trimEndMatches '.'
  if n = [] then [] else n.splitOn '.'

/-- The zone is the name or an ancestor of it, whole labels being compared. -/
def InZone (name zone : Str) : Prop := labelsOf zone <:+ labelsOf name

/-- Two spellings of one name, which differ in case or in a dot at the end. -/
def SameOwner (a b : Str) : Prop := canonicalName a = canonicalName b

/-- The CNAME records lead from the name to the owner. -/
inductive Leads (records : List Record) : Str → Str → Prop where
  | here (name owner : Str) (hSame : SameOwner name owner) : Leads records name owner
  | cname (name owner target : Str) (rec : Record) (hRec : rec ∈ records)
      (hType : rec.rtype = typeCname) (hOwner : SameOwner rec.name name)
      (hData : rec.data = .name target) (hRest : Leads records target owner) :
      Leads records name owner

/-- The address that a record of type A or AAAA stands for. -/
def addressOf (r : Record) : Option SocketAddr :=
  match r.data with
  | .a ip => some ⟨.v4 ip, 53⟩
  | .aaaa ip => some ⟨.v6 ip, 53⟩
  | _ => none

/-- The record that the glue of a name is taken from. -/
def glueRecord (resp : Message) (ns : Str) : Option Record :=
  resp.additional.reverse.find? fun r => r.name = ns ∧ (addressOf r).isSome

theorem glueRecord_eq_some {resp : Message} {ns : Str} {rec : Record}
    (h : glueRecord resp ns = some rec) :
    rec ∈ resp.additional ∧ rec.name = ns ∧ (addressOf rec).isSome := by
  have hMem := List.mem_of_find?_eq_some h
  have hHolds := List.find?_some h
  exact ⟨List.mem_reverse.mp hMem, by simpa using hHolds⟩

theorem glueRecord_isSome {resp : Message} {ns : Str} {rec : Record} (hMem : rec ∈ resp.additional)
    (hName : rec.name = ns) (hAddress : (addressOf rec).isSome) :
    (glueRecord resp ns).isSome := by
  rw [glueRecord, List.find?_isSome]
  exact ⟨rec, List.mem_reverse.mpr hMem, by simp [hName, hAddress]⟩

theorem glue_get (resp : Message) (ns : Str) :
    (extractReferral resp).glue.get ns = (glueRecord resp ns).bind addressOf := by
  rw [extractReferral, glueRecord]
  induction resp.additional using List.reverseRecOn with
  | nil => rfl
  | append_singleton rest r ih =>
      rw [List.foldl_append, List.reverse_append, List.foldl_cons, List.foldl_nil,
        List.reverse_singleton, List.singleton_append, List.find?_cons]
      cases hData : r.data with
      | a ip =>
          by_cases hName : r.name = ns
          · simp [addressOf, hData, hName]
          · simp only [addressOf, hData, hName, HashMap.get_insert, Ne.symm hName, if_false,
              false_and, decide_false]
            exact ih
      | aaaa ip =>
          by_cases hName : r.name = ns
          · simp [addressOf, hData, hName]
          · simp only [addressOf, hData, hName, HashMap.get_insert, Ne.symm hName, if_false,
              false_and, decide_false]
            exact ih
      | _ => simpa [addressOf, hData] using ih

/-- The address records of the type in a message. -/
def addressRecords (rtype : UInt16) (m : Message) : List Record :=
  (m.answers ++ m.additional).filter fun r => r.rtype = rtype ∧ r.data.kind = rdataKind rtype

theorem aRecords_eq (m : Message) : aRecords m = (addressRecords typeA m).filterMap addressOf := by
  rw [aRecords, addressRecords, List.filterMap_filter]
  refine List.filterMap_congr fun r _ => ?_
  have hKind : rdataKind typeA = .a := rfl
  cases hData : r.data <;> simp [hData, hKind, RData.kind, addressOf]

theorem aaaaRecords_eq (m : Message) :
    aaaaRecords m = (addressRecords typeAaaa m).filterMap addressOf := by
  rw [aaaaRecords, addressRecords, List.filterMap_filter]
  refine List.filterMap_congr fun r _ => ?_
  have hKind : rdataKind typeAaaa = .aaaa := rfl
  cases hData : r.data <;> simp [hData, hKind, RData.kind, addressOf]

/-! ## Inquiries -/

/-- How a turn came to the addresses of one name server: its glue, or the lookup
of the given type that gave some. -/
structure Inquiry where
  ns : Str
  answer : Option (UInt16 × Message)

/-- An address of the next servers, by the record that it is taken from: one of
the referral, or one of the answer to the lookup of the name server. -/
structure Taken where
  ns : Str
  record : Record
  answer : Option Message

/-- The addresses that the resolver takes for one server: the glue if there is any, else
what the answer to its lookup has. -/
def Inquiry.taken (resp : Message) (i : Inquiry) : List Taken :=
  match glueRecord resp i.ns with
  | some rec => [⟨i.ns, rec, none⟩]
  | none =>
      match i.answer with
      | some (rtype, sub) => (addressRecords rtype sub).map fun rec => ⟨i.ns, rec, some sub⟩
      | none => []

/-- The same for all servers of a referral. -/
def taken (resp : Message) (inquiries : List Inquiry) : List Taken :=
  inquiries.flatMap (Inquiry.taken resp)

/-- What the walk goes on with: the address of each record that was taken. -/
def addresses (ts : List Taken) : List SocketAddr := ts.filterMap fun t => addressOf t.record

section Inquire

variable (lookup : Asked → Asks Message) (resp : Message)

/-- The inquiry for one name server, and the question numbers in front of it and
behind it. -/
inductive Inquired : Str → Nat → Inquiry → Nat → Prop where
  | glue (ns : Str) (n : Nat) (rec : Record) (hGlue : glueRecord resp ns = some rec) :
      Inquired ns n ⟨ns, none⟩ n
  | a (ns : Str) (n n₁ : Nat) (sub : Message) (hGlue : glueRecord resp ns = none)
      (hLookup : lookup ⟨ns, typeA, none⟩ n = some (.ok sub, n₁)) (hSome : aRecords sub ≠ []) :
      Inquired ns n ⟨ns, some (typeA, sub)⟩ n₁
  | aaaa (ns : Str) (n n₁ n₂ : Nat) (first : Except Error Message) (sub : Message)
      (hGlue : glueRecord resp ns = none)
      (hFirst : attempt (lookup ⟨ns, typeA, none⟩) n = some (.ok first, n₁))
      (hNone : ∀ m, first = .ok m → aRecords m = [])
      (hLookup : lookup ⟨ns, typeAaaa, none⟩ n₁ = some (.ok sub, n₂)) :
      Inquired ns n ⟨ns, some (typeAaaa, sub)⟩ n₂
  | failed (ns : Str) (n n₁ n₂ : Nat) (first : Except Error Message) (e : Error)
      (hGlue : glueRecord resp ns = none)
      (hFirst : attempt (lookup ⟨ns, typeA, none⟩) n = some (.ok first, n₁))
      (hNone : ∀ m, first = .ok m → aRecords m = [])
      (hLookup : lookup ⟨ns, typeAaaa, none⟩ n₁ = some (.err e, n₂)) :
      Inquired ns n ⟨ns, none⟩ n₂

/-- The servers of a referral are inquired after one by one. -/
inductive InquiredAll : List Str → Nat → List Inquiry → Nat → Prop where
  | nil (n : Nat) : InquiredAll [] n [] n
  | cons (ns : Str) (rest : List Str) (n n₁ n₂ : Nat) (i : Inquiry) (is : List Inquiry)
      (hFirst : Inquired lookup resp ns n i n₁) (hRest : InquiredAll rest n₁ is n₂) :
      InquiredAll (ns :: rest) n (i :: is) n₂

end Inquire

section Nameservers

variable {lookup : Asked → Asks Message} {resp : Message}

/-- The addresses in the answer to a lookup, none if it fails. -/
def lookedUp (lookup : Asked → Asks Message) (records : Message → List SocketAddr) (asked : Asked) :
    Asks (List SocketAddr) := do
  let r ← attempt (lookup asked)
  pure (match r with
    | .ok sub => records sub
    | .error _ => [])

/-- The addresses of one name server, as a turn finds them. -/
def found (lookup : Asked → Asks Message) (glue : HashMap Str SocketAddr) (ns : Str) :
    Asks (List SocketAddr) :=
  match glue.get ns with
  | some addr => pure [addr]
  | none => do
      let a ← lookedUp lookup aRecords ⟨ns, typeA, none⟩
      if a ≠ [] then pure a else lookedUp lookup aaaaRecords ⟨ns, typeAaaa, none⟩

theorem nameservers_cons (glue : HashMap Str SocketAddr) (ns : Str) (rest : List Str) :
    Resolver.nameservers lookup glue (ns :: rest) =
      (do
        let here ← found lookup glue ns
        let next ← Resolver.nameservers lookup glue rest
        pure (here ++ next)) := by
  rw [Resolver.nameservers, found]
  cases glue.get ns with
  | some addr => rfl
  | none =>
      dsimp only
      rw [lookedUp, Asking.bind_assoc, Asking.bind_assoc]
      refine bind_congr fun first => ?_
      have hSecond (a : List SocketAddr) : ∀ K : List SocketAddr → Asks (List SocketAddr),
          (if a ≠ [] then pure a >>= K
            else attempt (lookup ⟨ns, typeAaaa, none⟩) >>= fun r => match r with
              | .ok sub => pure (aaaaRecords sub) >>= K
              | .error _ => pure [] >>= K) =
          (if a ≠ [] then pure a else lookedUp lookup aaaaRecords ⟨ns, typeAaaa, none⟩) >>= K := by
        intro K
        split_ifs
        · rfl
        · rw [lookedUp, Asking.bind_assoc]
          refine bind_congr fun second => ?_
          cases second <;> rfl
      cases first with
      | ok sub => exact hSecond (aRecords sub) _
      | error e => exact hSecond [] _

theorem lookedUp_eq_ok {records : Message → List SocketAddr} {asked : Asked} {n n' : Nat}
    {here : List SocketAddr} :
    lookedUp lookup records asked n = some (.ok here, n') ↔
      (∃ sub, lookup asked n = some (.ok sub, n') ∧ here = records sub) ∨
        ∃ e, lookup asked n = some (.err e, n') ∧ here = [] := by
  rw [lookedUp, bind_eq_ok]
  constructor
  · rintro ⟨r, n₁, hLookup, hHere⟩
    cases hHere
    cases r with
    | ok sub => exact Or.inl ⟨sub, attempt_eq_ok.mp hLookup, rfl⟩
    | error e => exact Or.inr ⟨e, attempt_eq_error.mp hLookup, rfl⟩
  · rintro (⟨sub, hLookup, rfl⟩ | ⟨e, hLookup, rfl⟩)
    · exact ⟨.ok sub, n', attempt_eq_ok.mpr hLookup, rfl⟩
    · exact ⟨.error e, n', attempt_eq_error.mpr hLookup, rfl⟩

/-- Nothing is found where the lookup fails or its answer has no address. -/
theorem lookedUp_eq_nil {records : Message → List SocketAddr} {asked : Asked} {n n' : Nat} :
    lookedUp lookup records asked n = some (.ok [], n') ↔
      ∃ first, attempt (lookup asked) n = some (.ok first, n') ∧
        ∀ m, first = .ok m → records m = [] := by
  rw [lookedUp_eq_ok]
  constructor
  · rintro (⟨sub, hLookup, hNil⟩ | ⟨e, hLookup, -⟩)
    · refine ⟨.ok sub, attempt_eq_ok.mpr hLookup, fun m hm => ?_⟩
      cases hm
      exact hNil.symm
    · exact ⟨.error e, attempt_eq_error.mpr hLookup, fun m hm => by cases hm⟩
  · rintro ⟨first, hAttempt, hNil⟩
    cases first with
    | ok m => exact Or.inl ⟨m, attempt_eq_ok.mp hAttempt, (hNil m rfl).symm⟩
    | error e => exact Or.inr ⟨e, attempt_eq_error.mp hAttempt, rfl⟩

theorem addresses_lookedUp (rtype : UInt16) (ns : Str) (sub : Message) :
    addresses ((addressRecords rtype sub).map fun rec => ⟨ns, rec, some sub⟩) =
      (addressRecords rtype sub).filterMap addressOf := by
  rw [addresses, List.filterMap_map]
  rfl

theorem found_eq_ok {ns : Str} {n n' : Nat} {here : List SocketAddr} :
    found lookup (extractReferral resp).glue ns n = some (.ok here, n') ↔
      ∃ i, Inquired lookup resp ns n i n' ∧ here = addresses (i.taken resp) := by
  rw [found, glue_get]
  cases hGlue : glueRecord resp ns with
  | some rec =>
      obtain ⟨addr, hAddress⟩ := Option.isSome_iff_exists.mp (glueRecord_eq_some hGlue).2.2
      rw [Option.bind_some, hAddress]
      have hTaken : addresses (Inquiry.taken resp ⟨ns, none⟩) = [addr] := by
        simp [Inquiry.taken, hGlue, addresses, hAddress]
      constructor
      · intro hRun
        cases hRun
        exact ⟨⟨ns, none⟩, .glue ns n rec hGlue, hTaken.symm⟩
      · rintro ⟨i, hInquired, rfl⟩
        cases hInquired with
        | glue =>
            rw [hTaken]
            rfl
        | a _ sub hNone => simp [hNone] at hGlue
        | aaaa _ _ first sub hNone => simp [hNone] at hGlue
        | failed _ _ first e hNone => simp [hNone] at hGlue
  | none =>
      have hTaken (rtype : UInt16) (sub : Message) :
          addresses (Inquiry.taken resp ⟨ns, some (rtype, sub)⟩) =
            (addressRecords rtype sub).filterMap addressOf := by
        rw [Inquiry.taken, hGlue]
        exact addresses_lookedUp rtype ns sub
      have hNothing : addresses (Inquiry.taken resp ⟨ns, none⟩) = [] := by
        rw [Inquiry.taken, hGlue]
        rfl
      rw [Option.bind_none]
      constructor
      · intro hRun
        obtain ⟨a, n₁, hFirst, hRun⟩ := bind_eq_ok.mp hRun
        split_ifs at hRun with hSome
        · cases hRun
          rcases lookedUp_eq_ok.mp hFirst with ⟨sub, hLookup, rfl⟩ | ⟨e, hLookup, rfl⟩
          · exact ⟨_, .a ns n n' sub hGlue hLookup hSome, by rw [hTaken, aRecords_eq]⟩
          · exact absurd rfl hSome
        · rw [not_not.mp hSome] at hFirst
          obtain ⟨first, hAttempt, hNone⟩ := lookedUp_eq_nil.mp hFirst
          rcases lookedUp_eq_ok.mp hRun with ⟨sub, hLookup, rfl⟩ | ⟨e, hLookup, rfl⟩
          · exact ⟨_, .aaaa ns n n₁ n' first sub hGlue hAttempt hNone hLookup, by
              rw [hTaken, aaaaRecords_eq]⟩
          · exact ⟨_, .failed ns n n₁ n' first e hGlue hAttempt hNone hLookup, hNothing.symm⟩
      · rintro ⟨i, hInquired, rfl⟩
        cases hInquired with
        | glue rec hSome => simp [hSome] at hGlue
        | a _ sub _ hLookup hSome =>
            rw [hTaken, ← aRecords_eq]
            refine bind_eq_ok.mpr ⟨_, n', lookedUp_eq_ok.mpr (Or.inl ⟨sub, hLookup, rfl⟩), ?_⟩
            rw [if_pos hSome]
            rfl
        | aaaa _ _ first sub _ hAttempt hNone hLookup =>
            rw [hTaken, ← aaaaRecords_eq]
            refine bind_eq_ok.mpr ⟨_, _, lookedUp_eq_nil.mpr ⟨first, hAttempt, hNone⟩, ?_⟩
            exact lookedUp_eq_ok.mpr (Or.inl ⟨sub, hLookup, rfl⟩)
        | failed _ _ first e _ hAttempt hNone hLookup =>
            rw [hNothing]
            refine bind_eq_ok.mpr ⟨_, _, lookedUp_eq_nil.mpr ⟨first, hAttempt, hNone⟩, ?_⟩
            exact lookedUp_eq_ok.mpr (Or.inr ⟨e, hLookup, rfl⟩)

/-- The addresses of the next servers are those of the records that are taken. -/
theorem nameservers_eq_ok {names : List Str} {n n' : Nat} {next : List SocketAddr} :
    Resolver.nameservers lookup (extractReferral resp).glue names n = some (.ok next, n') ↔
      ∃ inquiries, InquiredAll lookup resp names n inquiries n' ∧
        next = addresses (taken resp inquiries) := by
  induction names generalizing n next with
  | nil =>
      constructor
      · intro hRun
        cases hRun
        exact ⟨[], .nil _, rfl⟩
      · rintro ⟨inquiries, hInquired, rfl⟩
        cases hInquired
        rfl
  | cons ns rest ih =>
      rw [nameservers_cons, bind_eq_ok]
      constructor
      · rintro ⟨here, n₁, hHere, hRun⟩
        obtain ⟨next', n₂, hNext, hRun⟩ := bind_eq_ok.mp hRun
        cases hRun
        obtain ⟨i, hFirst, rfl⟩ := found_eq_ok.mp hHere
        obtain ⟨is, hRest, rfl⟩ := ih.mp hNext
        exact ⟨i :: is, .cons _ _ _ _ _ i is hFirst hRest, by simp [addresses, taken]⟩
      · rintro ⟨inquiries, hInquired, rfl⟩
        cases hInquired with
        | cons _ _ _ n₁ _ i is hFirst hRest =>
            refine ⟨_, n₁, found_eq_ok.mpr ⟨i, hFirst, rfl⟩, bind_eq_ok.mpr ?_⟩
            exact ⟨_, n', ih.mpr ⟨is, hRest, rfl⟩, by simp [addresses, taken, pure, lift]⟩

theorem InquiredAll.names {names : List Str} {n n' : Nat} {inquiries : List Inquiry}
    (h : InquiredAll lookup resp names n inquiries n') : inquiries.map Inquiry.ns = names := by
  induction h with
  | nil => rfl
  | cons ns rest n n₁ n₂ i is hFirst hRest ih =>
      rw [List.map_cons, ih]
      cases hFirst <;> rfl

end Nameservers

/-! ## Turns -/

/-- A turn of the loop of `iterative` that goes on: the response, the inquiries
for the name servers in it, and the question numbers in front and behind. -/
structure Turn (net : Network) (r : Resolver) (nesting : Nat) (asked : Asked)
    (servers : List SocketAddr) (n : Nat) (resp : Message) (inquiries : List Inquiry) (n' : Nat) :
    Prop where
  timely : net.expired n = false
  inquired : ∃ n₁, queryServers net servers asked.qname asked.qtype asked.ecs (n + 1) =
      some (.ok resp, n₁) ∧
    InquiredAll (r.iterative net nesting) resp (extractReferral resp).nsNames n₁ inquiries n'
  answers : resp.answers = []
  rcode : resp.header.rcode = rcodeNoerror
  next : addresses (taken resp inquiries) ≠ []

/-- The next servers are the addresses of what is taken. -/
theorem Turn.walk {net : Network} {r : Resolver} {nesting : Nat} {asked : Asked}
    {servers : List SocketAddr} {n n' : Nat} {resp : Message} {inquiries : List Inquiry}
    (h : Turn net r nesting asked servers n resp inquiries n') (left : Nat) :
    r.walk net (r.iterative net nesting) asked (left + 1) servers n =
      r.walk net (r.iterative net nesting) asked left (addresses (taken resp inquiries)) n' := by
  obtain ⟨n₁, hResponse, hInquired⟩ := h.inquired
  have hGoesOn : ¬Ending resp := by
    rintro (hAnswers | hRcode | hNames)
    · exact hAnswers h.answers
    · exact hRcode h.rcode
    · rw [hNames] at hInquired
      cases hInquired
      exact h.next rfl
  rw [Resolver.walk_of_response asked h.timely hResponse, if_neg hGoesOn,
    bind_of_ok (nameservers_eq_ok.mpr ⟨inquiries, hInquired, rfl⟩), if_neg h.next]

/-- The name is that of a server of the response, and lies in the zone that is
delegated to it. -/
def Delegated (resp : Message) (ns : Str) : Prop :=
  ∃ rec ∈ resp.authority, rec.rtype = typeNs ∧ rec.data = .name ns ∧ InZone ns rec.name

/-- The record is one of the server itself, or of the end of its CNAME chain. -/
def OwnedBy (sub : Message) (ns : Str) (rec : Record) : Prop := Leads sub.answers ns rec.name

/-- The name servers of the response are those of the name or of an ancestor. -/
def Covers (resp : Message) (name : Str) : Prop :=
  ∀ rec ∈ resp.authority, rec.rtype = typeNs → ∀ ns, rec.data = .name ns → InZone name rec.name

/-- Where the address has come from is entitled to give it. -/
def Taken.Proper (resp : Message) (t : Taken) : Prop :=
  match t.answer with
  | none => Delegated resp t.ns
  | some sub => OwnedBy sub t.ns t.record

/-- Each address comes from glue of a server inside the delegated zone, or from a
record that the server owns in the answer to its own lookup. -/
structure Provenance (name : Str) (resp : Message) (inquiries : List Inquiry) : Prop where
  zone : Covers resp name
  proper : ∀ t ∈ taken resp inquiries, t.Proper resp

/-- Servers have glue inside the delegated zone alone, and the answers to their
lookups have no address records of others. -/
structure Faithful (name : Str) (resp : Message) (inquiries : List Inquiry) : Prop where
  zone : Covers resp name
  glue : ∀ ns ∈ (extractReferral resp).nsNames, ∀ rec ∈ resp.additional, rec.name = ns →
    (addressOf rec).isSome → Delegated resp ns
  answers : ∀ i ∈ inquiries, glueRecord resp i.ns = none → ∀ rtype sub, i.answer = some (rtype, sub) →
    ∀ rec ∈ sub.answers ++ sub.additional, rec.rtype = rtype → rec.data.kind = rdataKind rtype →
      OwnedBy sub i.ns rec

/-- In every turn of a walk, the next servers have the right provenance if and
only if the messages that the turn has read are faithful. -/
theorem provenance_iff {net : Network} {r : Resolver} {nesting : Nat} {asked : Asked}
    {servers : List SocketAddr} {n n' : Nat} {resp : Message} {inquiries : List Inquiry}
    (hTurn : Turn net r nesting asked servers n resp inquiries n') :
    Provenance asked.qname resp inquiries ↔ Faithful asked.qname resp inquiries := by
  obtain ⟨n₁, _, hInquired⟩ := hTurn.inquired
  have hNames := hInquired.names
  constructor
  · intro h
    refine ⟨h.zone, fun ns hns rec hRec hName hAddress => ?_,
      fun i hi hGlue rtype sub hAnswer rec hRec hType hKind => ?_⟩
    · obtain ⟨first, hFirst⟩ :=
        Option.isSome_iff_exists.mp (glueRecord_isSome hRec hName hAddress)
      rw [← hNames] at hns
      obtain ⟨i, hi, rfl⟩ := List.mem_map.mp hns
      refine h.proper ⟨i.ns, first, none⟩ (List.mem_flatMap.mpr ⟨i, hi, ?_⟩)
      rw [Inquiry.taken, hFirst]
      exact List.mem_singleton.mpr rfl
    · refine h.proper ⟨i.ns, rec, some sub⟩ (List.mem_flatMap.mpr ⟨i, hi, ?_⟩)
      rw [Inquiry.taken, hGlue, hAnswer]
      refine List.mem_map.mpr ⟨rec, List.mem_filter.mpr ⟨hRec, ?_⟩, rfl⟩
      simp [hType, hKind]
  · intro h
    refine ⟨h.zone, fun t ht => ?_⟩
    obtain ⟨i, hi, ht⟩ := List.mem_flatMap.mp ht
    rw [Inquiry.taken] at ht
    cases hGlue : glueRecord resp i.ns with
    | some rec =>
        rw [hGlue] at ht
        rw [List.mem_singleton.mp ht]
        obtain ⟨hRec, hName, hAddress⟩ := glueRecord_eq_some hGlue
        exact h.glue i.ns (hNames ▸ List.mem_map_of_mem hi) rec hRec hName hAddress
    | none =>
        rw [hGlue] at ht
        cases hAnswer : i.answer with
        | none =>
            rw [hAnswer] at ht
            cases ht
        | some answer =>
            obtain ⟨rtype, sub⟩ := answer
            rw [hAnswer] at ht
            obtain ⟨rec, hRec, rfl⟩ := List.mem_map.mp ht
            obtain ⟨hMem, hHolds⟩ := List.mem_filter.mp hRec
            obtain ⟨hType, hKind⟩ : rec.rtype = rtype ∧ rec.data.kind = rdataKind rtype := by
              simpa using hHolds
            exact h.answers i hi hGlue rtype sub hAnswer rec hMem hType hKind

/-- The zone "a." is delegated to a server with a name of one letter, with glue. -/
def glueReply (letter : UInt8) : Bytes :=
  [29, 94, 128, 0, 0, 0, 0, 0, 0, 1, 0, 1, 1, 97, 0, 0, 2, 0, 1, 0, 0, 0, 60, 0, 3, 1, letter, 0,
    1, letter, 0, 0, 1, 0, 1, 0, 0, 0, 60, 0, 4, 192, 0, 2, 66]

/-- The referral, parsed. -/
def glueMessage (ns : Str) : Message where
  header := { id := queryId, qr := true }
  authority := [⟨['a', '.'], typeNs, classIn, 60, .name ns⟩]
  additional := [⟨ns, typeA, classIn, 60, .a ⟨192, 0, 2, 66⟩⟩]

/-- Every server sends this referral. -/
def glueNetwork (letter : UInt8) : Network where
  expired _ := false
  udp _ _ _ := .ok (glueReply letter)
  tcp _ _ _ := .err (.io "timed out")

theorem glueTurn {letter : UInt8} {ns : Str}
    (hLetter : letter = 97 ∧ ns = ['a', '.'] ∨ letter = 98 ∧ ns = ['b', '.']) :
    Turn (glueNetwork letter) ⟨2, [⟨.v4 Ipv4Addr.localhost, 53⟩]⟩ 1 ⟨['a', '.'], typeA, none⟩
      [⟨.v4 Ipv4Addr.localhost, 53⟩] 0 (glueMessage ns) [⟨ns, none⟩] 3 := by
  rcases hLetter with ⟨rfl, rfl⟩ | ⟨rfl, rfl⟩
  · exact ⟨rfl, ⟨3, rfl, .cons _ _ _ 3 _ _ _ (.glue _ _ _ rfl) (.nil 3)⟩, rfl, rfl, by decide⟩
  · exact ⟨rfl, ⟨3, rfl, .cons _ _ _ 3 _ _ _ (.glue _ _ _ rfl) (.nil 3)⟩, rfl, rfl, by decide⟩

/-- For a server below the zone the address in the referral has the right provenance. -/
theorem provenance_iff_glueTurn :
    Provenance ['a', '.'] (glueMessage ['a', '.']) [⟨['a', '.'], none⟩] ↔
      Faithful ['a', '.'] (glueMessage ['a', '.']) [⟨['a', '.'], none⟩] :=
  provenance_iff (glueTurn (Or.inl ⟨rfl, rfl⟩))

/-- A server of "a." sends the walk to an address that it gives for "b.". -/
theorem provenance_not_glueTurn :
    ¬∀ net r nesting asked servers n resp inquiries n',
      Turn net r nesting asked servers n resp inquiries n' →
      Provenance asked.qname resp inquiries := by
  intro hAll
  have hProvenance := hAll _ _ _ _ _ _ _ _ _ (glueTurn (Or.inr ⟨rfl, rfl⟩))
  obtain ⟨rec, hRec, _, _, hZone⟩ := hProvenance.proper
    ⟨['b', '.'], ⟨['b', '.'], typeA, classIn, 60, .a ⟨192, 0, 2, 66⟩⟩, none⟩
    (List.mem_singleton.mpr rfl)
  rw [List.mem_singleton.mp hRec] at hZone
  exact absurd hZone (by unfold InZone; decide)

end Dnsd.Resolve
