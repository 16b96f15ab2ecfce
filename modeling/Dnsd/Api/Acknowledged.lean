import Dnsd.Api.Reload
import Dnsd.Resolve.BlockOrder

/-! A domain that a request has blocked stays blocked: from the write of the row, over
the reads of all requests, to the queries behind an installation. -/

namespace Dnsd.Api

open Resolve Store Proto

/-! ## A row for the domain -/

/-- A row has the domain as the store writes it. -/
def Has (domain : Str) (rows : List BlockedDomain) : Prop := ∃ e ∈ rows, e.domain = domain.toLowercase

/-- An enabled row of the table has the domain. -/
def Stored (domain : Str) (t : Table BlockedRow) : Prop :=
  ∃ row, (row, true) ∈ t.rows ∧ row.domain = domain.toLowercase

section Stored

variable {domain : Str} {t : Table BlockedRow}

/-- A stored domain is among the rows that are read. -/
theorem Stored.load (h : Stored domain t) : Has domain (t.load Tables.toBlocked).rows := by
  obtain ⟨row, hRow, hDomain⟩ := h
  exact ⟨Tables.toBlocked row,
    List.mem_map.mpr ⟨(row, true), List.mem_filter.mpr ⟨hRow, rfl⟩, rfl⟩, hDomain⟩

/-- An insertion stores its domain. -/
theorem stored_insert (t : Table BlockedRow) (place : Nat) (domain mode : Str) :
    Stored domain (t.insert place ⟨domain.toLowercase, mode⟩) :=
  ⟨_, List.mem_append_right _ List.mem_cons_self, rfl⟩

/-- Another insertion leaves it stored, as a row of its own or a replaced one. -/
theorem Stored.insert (h : Stored domain t) (place : Nat) (row : BlockedRow) :
    Stored domain (t.insert place row) := by
  obtain ⟨old, hOld, hDomain⟩ := h
  refine ⟨old, ?_, hDomain⟩
  rw [← List.take_append_drop place t.rows] at hOld
  rcases List.mem_append.mp hOld with hFront | hBack
  · exact List.mem_append_left _ hFront
  · exact List.mem_append_right _ (List.mem_cons_of_mem _ hBack)

/-- So does a deletion of other rows. -/
theorem Stored.delete (h : Stored domain t) {gone : BlockedRow → Bool}
    (hKept : ∀ row, row.domain = domain.toLowercase → gone row = false) :
    Stored domain (t.delete gone) := by
  obtain ⟨row, hRow, hDomain⟩ := h
  exact ⟨row, List.mem_filter.mpr ⟨hRow, by rw [hKept row hDomain]; rfl⟩, hDomain⟩

end Stored

/-- The route does not take the domain off the list. -/
def Route.Keeps (same : Str → Str → Bool) (domain : Str) : Route → Prop
  | .unblock other => same domain.toLowercase other.toLowercase = false
  | _ => True

instance (same : Str → Str → Bool) (domain : Str) : (route : Route) →
    Decidable (route.Keeps same domain)
  | .unblock other =>
      inferInstanceAs (Decidable (same domain.toLowercase other.toLowercase = false))
  | .reload | .createZone .. | .createRecord .. | .block .. => inferInstanceAs (Decidable True)

/-- So does every write of a request that keeps the domain. -/
theorem Stored.write {same : Str → Str → Bool} {domain : Str} {t : Tables} {route : Route}
    (h : Stored domain t.blockedDomains) (hKeeps : route.Keeps same domain) :
    Stored domain (route.write same t).blockedDomains := by
  cases route with
  | reload | createZone place id name | createRecord place zr => exact h
  | block place other mode => exact h.insert place _
  | unblock other => exact h.delete fun row hRow => by rw [hRow]; exact hKeeps

/-! ## The invariant -/

/-- The read of the block list that a request has not installed yet. -/
def Stage.held : Stage → Option (Loaded BlockedDomain)
  | .readBlocked _ _ b | .loaded _ _ b _ => some b
  | _ => none

/-- Whoever has seen so many writes of the table has seen the row. -/
structure Seen (domain : Str) (writes : Nat) (s : State) : Prop where
  le : writes ≤ s.tables.blockedDomains.writes
  stored : Stored domain s.tables.blockedDomains
  held : ∀ r ∈ s.requests, ∀ b ∈ r.stage.held, writes ≤ b.writes → Has domain b.rows
  installed : ∀ stamp ∈ s.installed, writes ≤ stamp.blocked →
    ∃ entries, s.policy.block = BlockList.new entries ∧ Has domain entries

/-- How far the request has seen the writes: not yet, in its read, or in an
installation. -/
def Stage.Reached (writes : Nat) (installed : Option Stamp) : Stage → Prop
  | .accepted | .failed => False
  | .written | .readZones _ | .readRecords _ _ => True
  | .readBlocked _ _ b | .loaded _ _ b _ => writes ≤ b.writes
  | .reloaded _ | .returned => ∃ stamp ∈ installed, writes ≤ stamp.blocked

/-- A request that blocks the domain is in front of its write, or has failed, or some
number of writes shows that its row is there. -/
def Follows (domain : Str) (i : Nat) (s : State) : Prop :=
  ∀ place mode stage, s.requests[i]? = some ⟨.block place domain mode, stage⟩ →
    stage = .accepted ∨ stage = .failed ∨
      ∃ writes, Seen domain writes s ∧ stage.Reached writes s.installed

section Steps

variable {same : Str → Str → Bool} {mapFile : Option Str} {domain : Str} {writes : Nat} {s s' : State}
  {i j : Nat} {route : Route} {old new : Stage}

/-- A request that installs nothing, and reads what has the row. -/
theorem Seen.move (h : Seen domain writes s) (j : Nat) (route : Route)
    (hHeld : ∀ b ∈ new.held, writes ≤ b.writes → Has domain b.rows) :
    Seen domain writes (s.move j route new) :=
  ⟨h.le, h.stored, Parties.forall_set h.held hHeld, h.installed⟩

theorem Seen.write (h : Seen domain writes s) (hKeeps : route.Keeps same domain) (j : Nat) :
    Seen domain writes ({ s with tables := route.write same s.tables }.move j route .written) := by
  refine ⟨?_, h.stored.write hKeeps, Parties.forall_set h.held (by simp [Stage.held]), h.installed⟩
  have hLe := h.le
  rcases (write_grown same s.tables route).blockedDomains with hSame | hMore
  · change writes ≤ (route.write same s.tables).blockedDomains.writes
    rw [hSame]
    exact hLe
  · exact Nat.le_trans hLe hMore.le

theorem Seen.reload (h : Seen domain writes s) {z : Loaded Zone} {r : Loaded ZoneRecord}
    {b : Loaded BlockedDomain} {d : Loaded DualstackBinding}
    (hRequest : s.requests[j]? = some ⟨route, .loaded z r b d⟩) :
    Seen domain writes ((s.reload z r b).move j route (.reloaded d)) := by
  refine ⟨h.le, h.stored, Parties.forall_set h.held (by simp [Stage.held]), ?_⟩
  rintro stamp ⟨⟩ hWrites
  exact ⟨b.rows, rfl, h.held _ (List.mem_of_getElem? hRequest) b rfl hWrites⟩

theorem Seen.install (h : Seen domain writes s) (j : Nat) (route : Route) (bindings : BindingTable) :
    Seen domain writes ({ s with bindings }.move j route .returned) :=
  ⟨h.le, h.stored, Parties.forall_set h.held (by simp [Stage.held]), h.installed⟩

/-- The write of the row is more than what anyone has read. -/
theorem seen_written (hSound : Sound mapFile s) (place : Nat) (mode : Str) (j : Nat) :
    Seen domain (s.tables.blockedDomains.writes + 1)
      ({ s with tables := (Route.block place domain mode).write same s.tables }.move j
        (.block place domain mode) .written) := by
  have hHeld (r : Request) (hr : r ∈ s.requests) (b : Loaded BlockedDomain) (hb : b ∈ r.stage.held) :
      b.writes ≤ s.tables.blockedDomains.writes := by
    have hHolds := hSound.holds r hr
    cases hStage : r.stage with
    | readBlocked z q b' =>
        rw [hStage] at hb hHolds
        cases hb
        exact hHolds.2.2.le
    | loaded z q b' d =>
        rw [hStage] at hb hHolds
        cases hb
        exact hHolds.2.2.1.le
    | accepted | written | readZones z | readRecords z q | reloaded d | returned | failed =>
        rw [hStage] at hb
        cases hb
  refine ⟨Nat.le_refl _, stored_insert _ place domain mode, ?_, ?_⟩
  · apply Parties.forall_set
    · intro r hr b hb hWrites
      have hLe := hHeld r hr b hb
      omega
    · simp [Stage.held]
  · intro stamp hStamp hWrites
    obtain ⟨z, r, b, rfl, -, -, -, hBlocked⟩ := hSound.installed stamp hStamp
    have hLe := hBlocked.le
    dsimp only at hWrites
    omega

theorem Stage.Reached.mono {installed installed' : Option Stamp} {stage : Stage}
    (h : stage.Reached writes installed)
    (hInstalled : (∃ stamp ∈ installed, writes ≤ stamp.blocked) →
      ∃ stamp ∈ installed', writes ≤ stamp.blocked) : stage.Reached writes installed' := by
  cases stage with
  | reloaded d | returned => exact hInstalled h
  | _ => exact h

/-- A step of a request: what has been seen stays seen, what is installed is not
replaced by less, and the request itself gets on. -/
theorem Follows.set (h : Follows domain i s) (hRequest : s.requests[j]? = some ⟨route, old⟩)
    (hRequests : s'.requests = s.requests.set j ⟨route, new⟩)
    (hSeen : ∀ writes, Seen domain writes s → Seen domain writes s')
    (hInstalled : ∀ writes, (∃ stamp ∈ s.installed, writes ≤ stamp.blocked) →
      ∃ stamp ∈ s'.installed, writes ≤ stamp.blocked)
    (hOwn : ∀ place mode, route = .block place domain mode →
      (old = .accepted ∨ old = .failed ∨ ∃ writes, Seen domain writes s ∧ old.Reached writes s.installed) →
      new = .accepted ∨ new = .failed ∨ ∃ writes, Seen domain writes s' ∧ new.Reached writes s'.installed) :
    Follows domain i s' := by
  intro place mode stage hStage
  rw [hRequests, Parties.set_get hRequest] at hStage
  split_ifs at hStage with hSame
  · cases hStage
    subst hSame
    exact hOwn place mode rfl (h place mode old hRequest)
  · rcases h place mode stage hStage with hAccepted | hFailed | ⟨writes, hSeenOld, hReached⟩
    · exact Or.inl hAccepted
    · exact Or.inr (Or.inl hFailed)
    · exact Or.inr (Or.inr ⟨writes, hSeen writes hSeenOld, hReached.mono (hInstalled writes)⟩)

/-- A request that reads, or fails. -/
theorem Follows.move (h : Follows domain i s) (hRequest : s.requests[j]? = some ⟨route, old⟩)
    (hHeld : ∀ writes, Seen domain writes s → ∀ b ∈ new.held, writes ≤ b.writes → Has domain b.rows)
    (hReached : ∀ writes, Seen domain writes s → old.Reached writes s.installed →
      new = .failed ∨ new.Reached writes s.installed)
    (hStays : old = .accepted ∨ old = .failed → new = .failed) : Follows domain i (s.move j route new) := by
  refine h.set hRequest rfl (fun writes hSeen => hSeen.move j route (hHeld writes hSeen))
    (fun _ hSome => hSome) fun place mode _ hOwn => ?_
  rcases hOwn with hAccepted | hFailed | ⟨writes, hSeen, hOld⟩
  · exact Or.inr (Or.inl (hStays (Or.inl hAccepted)))
  · exact Or.inr (Or.inl (hStays (Or.inr hFailed)))
  · rcases hReached writes hSeen hOld with hFailed | hNew
    · exact Or.inr (Or.inl hFailed)
    · exact Or.inr (Or.inr ⟨writes, hSeen.move j route (hHeld writes hSeen), hNew⟩)

/-- The write of any request keeps what follows from the acknowledged one. -/
theorem Follows.write (h : Follows domain i s) (hSound : Sound mapFile s)
    (hKeeps : route.Keeps same domain) (hRequest : s.requests[j]? = some ⟨route, .accepted⟩) :
    Follows domain i ({ s with tables := route.write same s.tables }.move j route .written) := by
  refine h.set hRequest rfl (fun writes hSeen => hSeen.write hKeeps j) (fun _ hSome => hSome) ?_
  rintro place mode rfl -
  exact Or.inr (Or.inr ⟨_, seen_written hSound place mode j, trivial⟩)

/-- Every step of a request does. -/
theorem follows_advance (h : Follows domain i s) (hSound : Sound mapFile s)
    (hOrder : s.InOrder (.advance j)) (hKeeps : route.Keeps same domain)
    (hRequest : s.requests[j]? = some ⟨route, old⟩)
    (hStep : s.advance same mapFile j route old = some s') : Follows domain i s' := by
  cases old with
  | accepted =>
      cases hStep
      exact h.write hSound hKeeps hRequest
  | written =>
      cases hStep
      exact h.move hRequest (by simp [Stage.held]) (fun _ _ _ => Or.inr trivial) (by simp)
  | readZones z =>
      cases hStep
      exact h.move hRequest (by simp [Stage.held]) (fun _ _ _ => Or.inr trivial) (by simp)
  | readRecords z r =>
      cases hStep
      refine h.move hRequest ?_ (fun writes hSeen _ => Or.inr hSeen.le) (by simp)
      rintro writes hSeen b ⟨⟩ -
      exact hSeen.stored.load
  | readBlocked z r b =>
      cases hStep
      refine h.move hRequest ?_ (fun writes _ hReached => Or.inr hReached) (by simp)
      rintro writes hSeen b' ⟨⟩
      exact hSeen.held _ (List.mem_of_getElem? hRequest) b rfl
  | loaded z r b d =>
      cases hStep
      rw [State.InOrder, hRequest] at hOrder
      refine h.set hRequest rfl (fun writes hSeen => hSeen.reload hRequest) ?_ ?_
      · rintro writes ⟨stamp, hStamp, hWrites⟩
        exact ⟨_, rfl, Nat.le_trans hWrites (hOrder stamp hStamp).2.2⟩
      · rintro place mode - (hAccepted | hFailed | ⟨writes, hSeen, hReached⟩)
        · cases hAccepted
        · cases hFailed
        · exact Or.inr (Or.inr ⟨writes, hSeen.reload hRequest, _, rfl, hReached⟩)
  | reloaded d =>
      cases hStep
      refine h.set hRequest rfl (fun writes hSeen => hSeen.install j route _) (fun _ hSome => hSome) ?_
      rintro place mode - (hAccepted | hFailed | ⟨writes, hSeen, hReached⟩)
      · cases hAccepted
      · cases hFailed
      · exact Or.inr (Or.inr ⟨writes, hSeen.install j route _, hReached⟩)
  | returned | failed => cases hStep

/-- Nobody takes the domain off the list. -/
def Action.Keeps (same : Str → Str → Bool) (domain : Str) : Action → Prop
  | .arrive route => route.Keeps same domain
  | _ => True

instance (same : Str → Str → Bool) (domain : Str) : (a : Action) → Decidable (a.Keeps same domain)
  | .arrive route => inferInstanceAs (Decidable (route.Keeps same domain))
  | .advance _ | .fail _ => inferInstanceAs (Decidable True)

theorem advance_requests (hStep : s.advance same mapFile j route old = some s') :
    ∃ new, s'.requests = s.requests.set j ⟨route, new⟩ := by
  cases old with
  | returned | failed => cases hStep
  | _ =>
      cases hStep
      exact ⟨_, rfl⟩

theorem Follows.arrive (h : Follows domain i s) (route : Route) :
    Follows domain i { s with requests := s.requests ++ [⟨route, .accepted⟩] } := by
  intro place mode stage hStage
  rw [Parties.push_get] at hStage
  split_ifs at hStage
  · cases hStage
    exact Or.inl rfl
  · refine (h place mode stage hStage).imp_right (Or.imp_right ?_)
    rintro ⟨writes, hSeen, hReached⟩
    refine ⟨writes, ⟨hSeen.le, hSeen.stored, ?_, hSeen.installed⟩, hReached⟩
    rw [List.forall_mem_append, List.forall_mem_singleton]
    exact ⟨hSeen.held, by simp [Stage.held]⟩

/-- Every action does. -/
theorem follows_step {a : Action} (h : Follows domain i s) (hSound : Sound mapFile s)
    (hRoutes : ∀ r ∈ s.requests, r.route.Keeps same domain) (hOrder : s.InOrder a)
    (hKeeps : a.Keeps same domain) (hStep : s.step same mapFile a = some s') :
    Follows domain i s' ∧ ∀ r ∈ s'.requests, r.route.Keeps same domain := by
  cases a with
  | arrive route =>
      cases hStep
      refine ⟨h.arrive route, ?_⟩
      rw [List.forall_mem_append, List.forall_mem_singleton]
      exact ⟨hRoutes, hKeeps⟩
  | advance j =>
      rw [State.step] at hStep
      split at hStep
      · rename_i route stage hRequest
        have hRoute := hRoutes _ (List.mem_of_getElem? hRequest)
        obtain ⟨new, hRequests⟩ := advance_requests hStep
        refine ⟨follows_advance h hSound hOrder hRoute hRequest hStep, ?_⟩
        rw [hRequests]
        exact Parties.forall_set hRoutes hRoute
      · cases hStep
  | fail j =>
      rw [State.step] at hStep
      split at hStep
      · rename_i route stage hRequest
        have hRoute := hRoutes _ (List.mem_of_getElem? hRequest)
        split_ifs at hStep
        cases hStep
        refine ⟨h.move hRequest (by simp [Stage.held]) (fun _ _ _ => Or.inl rfl) (by simp), ?_⟩
        exact Parties.forall_set hRoutes hRoute
      · cases hStep

end Steps

/-! ## Queries -/

/-- A row with the domain is for the name, or for a name that it ends in. -/
def Covers (domain qname : Str) : Prop :=
  ∀ e : BlockedDomain, e.domain = domain.toLowercase →
    match e.suffix? with
    | none => e.key = BlockList.queryKey qname
    | some s => BlockList.EndsIn (BlockList.queryKey qname) s

/-- A list with a row for a domain blocks the names that it covers. -/
theorem modeFor_of_has {domain qname : Str} {entries : List BlockedDomain} (hHas : Has domain entries)
    (hCovers : Covers domain qname) : ((BlockList.new entries).modeFor qname).isSome := by
  obtain ⟨e, he, hDomain⟩ := hHas
  have hRow := hCovers e hDomain
  rw [BlockList.modeFor_new, Option.isSome_or, Bool.or_eq_true]
  cases hSuffix : e.suffix? with
  | none =>
      rw [hSuffix] at hRow
      left
      rw [Option.isSome_iff_ne_none]
      intro hNone
      exact LastWrite.lastWrite_eq_none_iff.mp hNone _
        (BlockList.mem_exacts.mpr ⟨e, he, hSuffix, rfl, rfl⟩) hRow
  | some s =>
      rw [hSuffix] at hRow
      right
      rw [Option.isSome_map, List.find?_isSome]
      exact ⟨_, BlockList.mem_wildcards.mpr ⟨e, he, hSuffix, rfl⟩, decide_eq_true hRow⟩

/-- A question for a blocked name gets no further than the block list. -/
theorem judge_of_blocked {settings : Settings} {call : Call} {req : Message} {q : Question} {v : Verdict}
    {info : RespMeta} (hParse : Message.parse call.raw = .ok req) (hQuestion : req.question = some q)
    (hBlocked : (settings.policy.block.modeFor q.name).isSome)
    (h : judge settings call = .ok (v, info)) :
    v = .silent ∨ (∃ resp, v = .echo resp) ∨ ∃ resp, v = .blocked resp := by
  obtain ⟨mode, hMode⟩ := Option.isSome_iff_exists.mp hBlocked
  have hRefuse {before : RespMeta} (h : refuse call.raw before = .ok (v, info)) :
      v = .silent ∨ (∃ resp, v = .echo resp) ∨ ∃ resp, v = .blocked resp := by
    rw [refuse, hParse] at h
    cases h
    exact Or.inr (Or.inl ⟨_, rfl⟩)
  rw [judge, hParse] at h
  dsimp only at h
  rw [hQuestion] at h
  split at h
  · cases h
    exact Or.inl rfl
  · dsimp only at h
    split_ifs at h
    · exact hRefuse h
    · cases h
      exact Or.inr (Or.inl ⟨_, rfl⟩)
    · cases h
      exact Or.inr (Or.inl ⟨_, rfl⟩)
    · rw [applyPolicy, hMode] at h
      cases h
      exact Or.inr (Or.inr ⟨_, rfl⟩)

/-- In every run without an installation that is older than the one before it, and
without a request that takes the domain off the list, a domain whose block has been
acknowledged is in force: no query for a name that it covers gets to the zones, the
cache or the resolver. -/
theorem acknowledged_block {same : Str → Str → Bool} {mapFile : Option Str} {tables : Tables}
    {domain mode : Str} {actions : List Action} {s : State} {i place : Nat}
    (hMeets : Runs.Meets (State.step same mapFile) (fun s a => s.InOrder a ∧ a.Keeps same domain)
      { tables } actions)
    (hRun : Runs.run (State.step same mapFile) { tables } actions = some s)
    (hReturned : s.requests[i]? = some ⟨.block place domain mode, .returned⟩) (cfg : Config)
    (dualstack : Dualstack) {call : Call} {req : Message} {q : Question}
    (hParse : Message.parse call.raw = .ok req) (hQuestion : req.question = some q)
    (hCovers : Covers domain q.name) {v : Verdict} {info : RespMeta}
    (hJudge : judge ⟨cfg, s.policy, dualstack⟩ call = .ok (v, info)) :
    v = .silent ∨ (∃ resp, v = .echo resp) ∨ ∃ resp, v = .blocked resp := by
  let Holds (s : State) : Prop :=
    Sound mapFile s ∧ Follows domain i s ∧ ∀ r ∈ s.requests, r.route.Keeps same domain
  have hStart : Holds { tables } := by
    refine ⟨⟨Or.inl rfl, Or.inl rfl, Or.inl rfl, by simp, by simp [Installed], by simp⟩, ?_, by simp⟩
    intro place mode stage hStage
    cases hStage
  have hStep (s : State) (a : Action) (s' : State) (h : Holds s)
      (hOk : s.InOrder a ∧ a.Keeps same domain) (hNext : s.step same mapFile a = some s') : Holds s' :=
    ⟨sound_step h.1 hOk.1 hNext, follows_step h.2.1 h.1 h.2.2 hOk.1 hOk.2 hNext⟩
  obtain ⟨-, hFollows, -⟩ := hMeets.invariant hStep hStart hRun
  rcases hFollows place mode .returned hReturned with hAccepted | hFailed | ⟨writes, hSeen, hReached⟩
  · cases hAccepted
  · cases hFailed
  · obtain ⟨stamp, hStamp, hWrites⟩ := hReached
    obtain ⟨entries, hBlock, hHas⟩ := hSeen.installed stamp hStamp hWrites
    refine judge_of_blocked hParse hQuestion ?_ hJudge
    change (s.policy.block.modeFor q.name).isSome
    rw [hBlock]
    exact modeFor_of_has hHas hCovers

/-- A query for the address of "a.example". -/
def exampleCall : Call where
  raw := [0, 7, 1, 0, 0, 1, 0, 0, 0, 0, 0, 0] ++
    (1 :: Str.bytes "a".toList ++ 7 :: Str.bytes "example".toList) ++ [0, 0, 1, 0, 1]
  clientIp := .v4 Ipv4Addr.localhost
  allowed := true
  mapViaApi := fun _ _ => none

/-- A question for a name below the domain that the runs block. -/
def exampleQuestion : Question := ⟨"a.example.".toList, typeA, classIn⟩

theorem parse_exampleCall : Message.parse exampleCall.raw =
    .ok { header := { id := 7, rd := true }, questions := [exampleQuestion] } := by
  decide +kernel

theorem covers_example : Covers "a.example".toList "a.example.".toList := by
  have hRow (mode : BlockMode) :
      (⟨Str.toLowercase "a.example".toList, mode⟩ : BlockedDomain).suffix? = none ∧
        (⟨Str.toLowercase "a.example".toList, mode⟩ : BlockedDomain).key =
          BlockList.queryKey "a.example.".toList := by
    cases mode <;> decide +kernel
  rintro ⟨domain, mode⟩ hDomain
  obtain rfl : domain = Str.toLowercase "a.example".toList := hDomain
  obtain ⟨hSuffix, hKey⟩ := hRow mode
  rw [hSuffix]
  exact hKey

/-- What a run ends in: the first request, and whether the query is judged. -/
def firstBlock (s : State) : Option (Nat × Str × Str) × Bool × Bool :=
  (s.requests[0]?.bind fun r => match r.route with
    | .block place domain mode => some (place, domain, mode)
    | _ => none,
  s.requests[0]?.any fun r => r.stage.isReturned,
  (judge ⟨plainSettings.cfg, s.policy, {}⟩ exampleCall).toOption.isSome)

/-- Two domains are blocked at the same time, both requests are acknowledged, and a query
for the first domain is then not let through. -/
theorem acknowledged_twoBlocks : ∃ s v info,
    Runs.run (State.step (· == ·) none) ⟨{}, {}, {}, none, []⟩ twoBlocks = some s ∧
      judge ⟨plainSettings.cfg, s.policy, {}⟩ exampleCall = .ok (v, info) ∧
      (v = .silent ∨ (∃ resp, v = .echo resp) ∨ ∃ resp, v = .blocked resp) := by
  have hEnd : (Runs.run (State.step (· == ·) none) ⟨{}, {}, {}, none, []⟩ twoBlocks).map firstBlock =
      some (some (0, "a.example".toList, "random".toList), true, true) := by
    decide +kernel
  have hMeets : Runs.Meets (State.step (· == ·) none)
      (fun s a => s.InOrder a ∧ a.Keeps (· == ·) "a.example".toList) ⟨{}, {}, {}, none, []⟩ twoBlocks := by
    decide +kernel
  obtain ⟨s, hRun, hFirst⟩ := Option.map_eq_some_iff.mp hEnd
  obtain ⟨hRoute, hStages⟩ := Prod.mk.inj hFirst
  obtain ⟨hReturned, hJudged⟩ := Prod.mk.inj hStages
  obtain ⟨⟨route, stage⟩, hRequest, hBlock⟩ := Option.bind_eq_some_iff.mp hRoute
  rw [hRequest] at hReturned
  have hStage : stage = .returned := Stage.eq_of_isReturned hReturned
  subst hStage
  cases hJudge : judge ⟨plainSettings.cfg, s.policy, {}⟩ exampleCall with
  | err e | panicked =>
      rw [hJudge] at hJudged
      cases hJudged
  | ok r =>
      cases route with
      | block place domain mode =>
          obtain ⟨-, hNames⟩ := Prod.mk.inj (Option.some.inj hBlock)
          obtain ⟨rfl, -⟩ := Prod.mk.inj hNames
          exact ⟨s, r.1, r.2, hRun, hJudge, acknowledged_block hMeets hRun hRequest plainSettings.cfg {}
            parse_exampleCall rfl covers_example hJudge⟩
      | _ => cases hBlock

end Dnsd.Api
