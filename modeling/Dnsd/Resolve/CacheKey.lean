import Dnsd.Resolve.Pipeline

/-! What the key of the cache tells apart: name and type always, the network of
the client only where the option or the mapping has a whole address for it. -/

namespace Dnsd.Resolve

open Proto

/-! ## The text of a key -/

theorem tokenOf_chars {ecs : Option EcsInfo} : '|' ∉ tokenOf ecs := by
  intro hMem
  cases ecs with
  | none => simp [tokenOf] at hMem
  | some e =>
      simp only [tokenOf, Option.map_some, Option.getD_some, EcsInfo.cacheToken] at hMem
      split at hMem
      · rename_i ip _
        simp only [List.mem_append, List.mem_cons] at hMem
        rcases hMem with hText | hSlash | hDecimal
        · exact absurd (IpAddr.text_chars hText) (by decide)
        · exact absurd hSlash (by decide)
        · exact absurd (Str.decimal_isDigit hDecimal) (by decide)
      · cases hMem

/-- A token is at most an address with its prefix length. -/
theorem tokenOf_length (ecs : Option EcsInfo) : (tokenOf ecs).length ≤ 45 := by
  cases ecs with
  | none => exact Nat.zero_le _
  | some e =>
      rw [tokenOf, Option.map_some, Option.getD_some, EcsInfo.cacheToken]
      cases e.address with
      | none => exact Nat.zero_le _
      | some ip =>
          have hText := ip.text_length_le
          have hPrefix := Str.decimal_length_le (n := e.sourcePrefix.toNat) (k := 3) (by decide)
            (Nat.lt_trans e.sourcePrefix.toNat_lt (by decide))
          simp only [List.length_append, List.length_cons]
          omega

theorem keyText_inj {qname qname' ecs ecs' : Str} {qtype qtype' : UInt16} (hEcs : '|' ∉ ecs)
    (hEcs' : '|' ∉ ecs') (h : keyText qname qtype ecs = keyText qname' qtype' ecs') :
    canonicalName qname = canonicalName qname' ∧ qtype = qtype' ∧ ecs = ecs' := by
  have hDecimal (n : Nat) : '|' ∉ Str.decimal n := fun hMem =>
    absurd (Str.decimal_isDigit hMem) (by decide)
  obtain ⟨hFront, hToken⟩ := Str.append_sep_inj hEcs hEcs' h
  obtain ⟨hName, hType⟩ := Str.append_sep_inj (hDecimal _) (hDecimal _) hFront
  exact ⟨hName, UInt16.toNat_inj.mp (Str.decimal_injective hType), hToken⟩

theorem Lookup.key_inj {l l' : Lookup} (h : l.key = l'.key) :
    canonicalName l.q.name = canonicalName l'.q.name ∧ l.q.qtype = l'.q.qtype ∧
      tokenOf l.ecs = tokenOf l'.ecs :=
  keyText_inj tokenOf_chars tokenOf_chars h

/-! ## The network of a client -/

section Client

variable (s : Settings) (call : Call) (req : Message)

/-- The IPv4 address that stands for an internal IPv6 client. -/
def derivedV4 : Option Ipv4Addr :=
  if s.cfg.dualstackEnabled then
    match call.clientIp with
    | .v6 v6 => s.dualstack.verified s.cfg call.mapViaApi v6
    | .v4 _ => none
  else none

/-- The network that the option of a query names, or else that of the derived
address, the prefixes being cut as configured. -/
def clientSubnet : Option Subnet :=
  match req.ecsData with
  | some data => some (optionSubnet s.cfg.ecsScopeMax data)
  | none => (derivedV4 s call).map fun v4 => subnetOf 1 s.cfg.ecsDeriveMask v4.octets

/-- The query has an option that is too short for a whole address or of another
family than IPv4 and IPv6, or it has no option and no address is derived. -/
def WithoutAddress : Prop :=
  match req.ecsData with
  | some data => ¬NamesAddress data
  | none => derivedV4 s call = none

end Client

variable {s s' : Settings} {call call' : Call} {req req' : Message}

theorem clampScope_address_isSome (e : EcsInfo) (max : UInt8) :
    (e.clampScope max).address.isSome = e.address.isSome := by
  rw [EcsInfo.clampScope]
  split_ifs
  · rfl
  · dsimp only
    split <;> simp_all

theorem clientEcs_of_option {data : Bytes} (hData : req.ecsData = some data) :
    clientEcs s call req = some ((EcsInfo.decode data).clampScope s.cfg.ecsScopeMax) := by
  rw [clientEcs, Message.ecs, hData]
  rfl

theorem clientEcs_of_none (s : Settings) (call : Call) (hData : req.ecsData = none) :
    clientEcs s call req = none ∧ derivedV4 s call = none ∨
      ∃ e v4 ip, clientEcs s call req = some e ∧ derivedV4 s call = some v4 ∧
        e.address = some (.v4 ip) ∧ e.sourcePrefix = s.cfg.ecsDeriveMask ∧
        subnetOf 1 e.sourcePrefix ip.octets = subnetOf 1 s.cfg.ecsDeriveMask v4.octets := by
  rw [clientEcs, derivedV4, Message.ecs, hData]
  simp only [Option.map_none]
  split_ifs
  · cases call.clientIp with
    | v4 ip => exact Or.inl ⟨rfl, rfl⟩
    | v6 v6 =>
        dsimp only
        cases hDerived : s.dualstack.deriveEcs s.cfg call.mapViaApi v6 with
        | none => exact Or.inl ⟨rfl, by simpa [Dualstack.deriveEcs] using hDerived⟩
        | some e =>
            obtain ⟨v4, ip, hVerified, hRest⟩ :=
              Dualstack.deriveEcs_eq_some s.dualstack s.cfg call.mapViaApi hDerived
            exact Or.inr ⟨e, v4, ip, rfl, hVerified, hRest⟩
  · exact Or.inl ⟨rfl, rfl⟩

/-- The token is empty exactly when there is no whole address. -/
theorem tokenOf_clientEcs_eq_nil_iff :
    tokenOf (clientEcs s call req) = [] ↔ WithoutAddress s call req := by
  rw [WithoutAddress]
  cases hData : req.ecsData with
  | some data =>
      dsimp only
      rw [clientEcs_of_option hData, ← EcsInfo.decode_address_isSome_iff,
        ← clampScope_address_isSome _ s.cfg.ecsScopeMax]
      simp only [tokenOf, Option.map_some, Option.getD_some, EcsInfo.cacheToken_eq_nil_iff]
      simp
  | none =>
      rcases clientEcs_of_none s call hData with
        ⟨hEcs, hNone⟩ | ⟨e, v4, ip, hEcs, hSome, hAddress, _⟩
      · simp [hEcs, hNone, tokenOf]
      · simp [hEcs, hSome, tokenOf, EcsInfo.cacheToken, hAddress]

/-- A whole address names the network of the client. -/
theorem clientSubnet_of_address {e : EcsInfo} {ip : IpAddr}
    (hEcs : clientEcs s call req = some e) (hAddress : e.address = some ip) :
    clientSubnet s call req = some (addressSubnet ip e.sourcePrefix) := by
  rw [clientSubnet]
  cases hData : req.ecsData with
  | some data =>
      rw [clientEcs_of_option hData] at hEcs
      cases hEcs
      have hNames : NamesAddress data := by
        rw [← EcsInfo.decode_address_isSome_iff, ← clampScope_address_isSome _ s.cfg.ecsScopeMax,
          hAddress]
        rfl
      obtain ⟨ip', hClamped, hSubnet⟩ := EcsInfo.clampScope_decode hNames s.cfg.ecsScopeMax
      rw [hAddress] at hClamped
      cases hClamped
      exact congrArg some hSubnet
  | none =>
      rcases clientEcs_of_none s call hData with
        ⟨hNone, _⟩ | ⟨e', v4, ip', hSome, hDerived, hAddress', hPrefix, hSubnet⟩
      · rw [hNone] at hEcs
        cases hEcs
      · rw [hSome] at hEcs
        cases hEcs
        rw [hAddress'] at hAddress
        cases hAddress
        rw [hDerived, Option.map_some, addressSubnet, hSubnet]

/-! ## Isolation -/

/-- Two queries with the same key have the same name, the same type and the same
network, if and only if this holds of the networks of two queries for one name
and one type that both come without a whole address. -/
theorem key_isolates_iff {l l' : Lookup} {info info' : RespMeta}
    (hLookup : judge s call = .ok (.lookup l, info))
    (hLookup' : judge s' call' = .ok (.lookup l', info'))
    (hParse : Message.parse call.raw = .ok req) (hParse' : Message.parse call'.raw = .ok req') :
    (l.key = l'.key →
      canonicalName l.q.name = canonicalName l'.q.name ∧ l.q.qtype = l'.q.qtype ∧
        clientSubnet s call req = clientSubnet s' call' req') ↔
    (canonicalName l.q.name = canonicalName l'.q.name → l.q.qtype = l'.q.qtype →
      WithoutAddress s call req → WithoutAddress s' call' req' →
        clientSubnet s call req = clientSubnet s' call' req') := by
  have hEcs : l.ecs = clientEcs s call req := by
    cases judge_judged hLookup with
    | lookup m q hAgain =>
        rw [hParse] at hAgain
        cases hAgain
        rfl
  have hEcs' : l'.ecs = clientEcs s' call' req' := by
    cases judge_judged hLookup' with
    | lookup m q hAgain =>
        rw [hParse'] at hAgain
        cases hAgain
        rfl
  constructor
  · intro hIsolates hName hType hWithout hWithout'
    refine (hIsolates ?_).2.2
    rw [Lookup.key, Lookup.key, cacheKey, cacheKey, keyText, keyText, hName, hType, hEcs, hEcs',
      tokenOf_clientEcs_eq_nil_iff.mpr hWithout, tokenOf_clientEcs_eq_nil_iff.mpr hWithout']
  · intro hShort hKey
    obtain ⟨hName, hType, hToken⟩ := Lookup.key_inj hKey
    refine ⟨hName, hType, ?_⟩
    rw [hEcs, hEcs'] at hToken
    by_cases hNil : tokenOf (clientEcs s call req) = []
    · exact hShort hName hType (tokenOf_clientEcs_eq_nil_iff.mp hNil)
        (tokenOf_clientEcs_eq_nil_iff.mp (hToken ▸ hNil))
    · obtain ⟨e, hSome⟩ : ∃ e, clientEcs s call req = some e :=
        Option.ne_none_iff_exists'.mp fun hNone => hNil (by rw [hNone]; rfl)
      obtain ⟨e', hSome'⟩ : ∃ e', clientEcs s' call' req' = some e' :=
        Option.ne_none_iff_exists'.mp fun hNone => hNil (by rw [hToken, hNone]; rfl)
      rw [hSome] at hNil
      rw [hSome, hSome'] at hToken
      simp only [tokenOf, Option.map_some, Option.getD_some] at hNil hToken
      obtain ⟨ip, hAddress⟩ : ∃ ip, e.address = some ip :=
        Option.ne_none_iff_exists'.mp fun hNone => hNil ((EcsInfo.cacheToken_eq_nil_iff e).mpr hNone)
      obtain ⟨hAddress', hPrefix⟩ := EcsInfo.cacheToken_inj hAddress hToken
      rw [clientSubnet_of_address hSome hAddress, clientSubnet_of_address hSome' hAddress', hPrefix]

/-- A query for the addresses of "a." with the given options in its OPT record. -/
def subnetQuery (options : Bytes) : Bytes :=
  [0, 1, 1, 0, 0, 1, 0, 0, 0, 0, 0, 1] ++ [1, 97, 0, 0, 1, 0, 1] ++
    [0, 0, 41, 4, 208, 0, 0, 0, 0, 0, UInt8.ofNat options.length] ++ options

/-- From 192.0.2.0/24, of which the option has the three octets that it needs. -/
def cutQuery : Bytes := subnetQuery [0, 8, 0, 7, 0, 1, 24, 0, 192, 0, 2]

/-- A call from an allowed IPv4 client, for which no service maps anything. -/
def plainCall (raw : Bytes) : Call := ⟨raw, .v4 Ipv4Addr.localhost, true, fun _ _ => none⟩

/-- The message that such a query parses to. -/
def subnetRequest (options : List OptOption) : Message where
  header := { id := 1, rd := true }
  questions := [⟨['a', '.'], typeA, classIn⟩]
  additional := [⟨['.'], typeOpt, 1232, 0, .opt 1232 0 0 0 options⟩]

/-- The query without an option, parsed. -/
def plainRequest : Message := subnetRequest []

/-- The query from the shortened network, parsed. -/
def cutRequest : Message := subnetRequest [⟨ednsOptEcs, [0, 1, 24, 0, 192, 0, 2]⟩]

theorem judge_subnetQueries :
    judge plainSettings (plainCall (subnetQuery [])) =
        .ok (.lookup ⟨1, ⟨['a', '.'], typeA, classIn⟩, none⟩,
          { qname := ['a', '.'], qtype := "A" }) ∧
      judge plainSettings (plainCall cutQuery) =
        .ok (.lookup ⟨1, ⟨['a', '.'], typeA, classIn⟩, some ⟨1, 24, 0, none⟩⟩,
          { qname := ['a', '.'], qtype := "A" }) :=
  ⟨rfl, rfl⟩

/-- From a host of 192.0.2.0/24, with all of its address, of which 24 bits are kept. -/
def hostQuery (host : UInt8) : Bytes := subnetQuery [0, 8, 0, 8, 0, 1, 32, 0, 192, 0, 2, host]

/-- The query of a host, parsed. -/
def hostRequest (host : UInt8) : Message :=
  subnetRequest [⟨ednsOptEcs, [0, 1, 32, 0, 192, 0, 2, host]⟩]

/-- The lookup of every host of the network. -/
def hostLookup : Lookup :=
  ⟨1, ⟨['a', '.'], typeA, classIn⟩, some ⟨1, 24, 0, some (.v4 ⟨192, 0, 2, 0⟩)⟩⟩

/-- What is known of the call at that point. -/
def hostMeta : RespMeta := { qname := ['a', '.'], qtype := "A", ecs := "192.0.2.0/24".toList }

theorem judge_hostQuery :
    judge plainSettings (plainCall (hostQuery 77)) = .ok (.lookup hostLookup, hostMeta) ∧
      judge plainSettings (plainCall (hostQuery 9)) = .ok (.lookup hostLookup, hostMeta) :=
  ⟨rfl, rfl⟩

/-- Two hosts of one network share an entry, and the network that it is for. -/
theorem key_isolates_twoHosts :
    clientSubnet plainSettings (plainCall (hostQuery 77)) (hostRequest 77) =
      clientSubnet plainSettings (plainCall (hostQuery 9)) (hostRequest 9) := by
  have hWhole : ¬WithoutAddress plainSettings (plainCall (hostQuery 77)) (hostRequest 77) :=
    not_not_intro (by decide : NamesAddress [0, 1, 32, 0, 192, 0, 2, 77])
  have hIsolates := (key_isolates_iff judge_hostQuery.1 judge_hostQuery.2 rfl rfl).mpr
    fun _ _ hWithout => absurd hWithout hWhole
  exact (hIsolates rfl).2.2

/-- The query without an option and the one from 192.0.2.0/24, whose three octets are no
whole address, share an entry. -/
theorem key_shared_cutQuery :
    ¬∀ s s' call call' req req' l l' info info',
      judge s call = .ok (.lookup l, info) → judge s' call' = .ok (.lookup l', info') →
      Message.parse call.raw = .ok req → Message.parse call'.raw = .ok req' → l.key = l'.key →
        canonicalName l.q.name = canonicalName l'.q.name ∧ l.q.qtype = l'.q.qtype ∧
          clientSubnet s call req = clientSubnet s' call' req' := by
  intro hAll
  have hShared := hAll plainSettings plainSettings (plainCall (subnetQuery [])) (plainCall cutQuery)
    plainRequest cutRequest _ _ _ _ judge_subnetQueries.1 judge_subnetQueries.2 rfl rfl rfl
  have hNone : clientSubnet plainSettings (plainCall (subnetQuery [])) plainRequest = none := rfl
  have hSome : (clientSubnet plainSettings (plainCall cutQuery) cutRequest).isSome = true := rfl
  rw [← hShared.2.2, hNone] at hSome
  cases hSome

end Dnsd.Resolve
