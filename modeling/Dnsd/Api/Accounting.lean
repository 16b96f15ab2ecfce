import Dnsd.Api.Management
import Dnsd.Server.Doh

/-! The records of the audit log and the changes of the tables account for each other,
in every order of the steps of all connections. -/

namespace Dnsd.Api.Management

open Cache.Resp (Arrival)
open Server Store

/-- The request that has come over a connection asks for the change. -/
def Asks (d : Deployment) (arrival : Arrival) (c : Change) : Prop :=
  ∃ req, readRequest d.memory arrival = some (.ok (some req)) ∧ route d.serde req = .change c

/-- A request asks for at most one change. -/
theorem Asks.unique {d : Deployment} {arrival : Arrival} {c c' : Change} (h : Asks d arrival c)
    (h' : Asks d arrival c') : c = c' := by
  obtain ⟨req, hRead, hRoute⟩ := h
  obtain ⟨req', hRead', hRoute'⟩ := h'
  cases hRead.symm.trans hRead'
  cases hRoute.symm.trans hRoute'
  rfl

/-- What the phase of a connection says of the requests and the changes: one that is
closed has not asked for a change, or has been told that it failed. -/
def Stands (d : Deployment) (requests : List Request) (written : List Write) (c : Connection) : Prop :=
  match c.phase with
  | .connected => True
  | .looking _ => ∀ change, ¬Asks d c.arrival change
  | .closed out => ∀ change, Asks d c.arrival change → ∃ error, out = some (internalError error)
  | .recording change | .recorded change => Asks d c.arrival change
  | .requested change k =>
      Asks d c.arrival change ∧ ∃ place id, requests[k]? = some ⟨change.route place id, .accepted⟩
  | .changed _ k => ∃ route stage, requests[k]? = some ⟨route, stage⟩ ∧ stage ≠ .accepted ∧
      ⟨c.arrival, c.client, route⟩ ∈ written

/-- The row that the log waits for is that of the holder of its lock. -/
def Held (s : Management) : Prop :=
  match s.holder with
  | none => inserting s.audit = none
  | some j => ∃ c change pending, s.connections[j]? = some c ∧ c.phase = .recording change ∧
      inserting s.audit = some pending ∧ .ofRow pending.row = change.call c.client

/-- The rows that were added, and the calls that left none, are for the changes that
were made or failed, or are still to be made. -/
def Balanced (rows : List AuditRow) (s : Management) : Prop :=
  ∃ added, s.audit.rows = rows ++ added ∧ ∀ call,
    (added.map AuditCall.ofRow).count call + s.unlogged.count call =
      (s.written.map Write.call).count call + s.abandoned.count call + s.inserted.count call +
        (s.connections.filterMap Connection.pending).count call

/-- What every step of the connections keeps, relative to the tables and the rows at the
start: the tables are the fold of the writes, the calls balance, and each connection
stands where its request has brought it. -/
structure Sound (d : Deployment) (tables : Tables) (rows : List AuditRow) (s : Management) : Prop where
  tables : s.api.tables = (s.written.map Write.route).foldl (Route.write d.same) tables
  asked : ∀ w ∈ s.written, Asks d w.arrival w.route.change
  stands : ∀ (j : Nat) c, s.connections[j]? = some c → Stands d s.api.requests s.written c
  distinct : Parties.Distinct (fun c : Connection => c.phase.request?) s.connections
  held : Held s
  balanced : Balanced rows s

section Parts

variable {d : Deployment} {requests requests' : List Request} {written written' : List Write}
  {connections : List Connection} {j : Nat} {old new : Connection}

/-- A connection stands where it did, as long as its own request stays and no write is
lost. -/
theorem Stands.keep {c : Connection} (h : Stands d requests written c)
    (hRequests : ∀ k, c.phase.request? = some k → requests'[k]? = requests[k]?)
    (hWritten : written ⊆ written') : Stands d requests' written' c := by
  obtain ⟨arrival, client, phase⟩ := c
  cases phase with
  | connected => trivial
  | looking asked | closed out | recording change | recorded change => exact h
  | requested change k =>
      obtain ⟨hAsks, place, id, hRequest⟩ := h
      exact ⟨hAsks, place, id, (hRequests k rfl).trans hRequest⟩
  | changed change k =>
      obtain ⟨route, stage, hRequest, hStage, hWrite⟩ := h
      exact ⟨route, stage, (hRequests k rfl).trans hRequest, hStage, hWritten hWrite⟩

theorem Stands.lt {c : Connection} (h : Stands d requests written c) {k : Nat}
    (hk : c.phase.request? = some k) : k < requests.length := by
  obtain ⟨arrival, client, phase⟩ := c
  cases phase with
  | connected | looking asked | closed out | recording change | recorded change => cases hk
  | requested change k =>
      cases hk
      obtain ⟨-, place, id, hRequest⟩ := h
      exact (List.getElem?_eq_some_iff.mp hRequest).1
  | changed change k =>
      cases hk
      obtain ⟨route, stage, hRequest, -⟩ := h
      exact (List.getElem?_eq_some_iff.mp hRequest).1

/-- A step of one connection, which leaves the requests of all others alone. -/
theorem stands_set (h : ∀ (i : Nat) c, connections[i]? = some c → Stands d requests written c)
    (hAt : connections[j]? = some old)
    (hRequests : ∀ (i : Nat) c k, i ≠ j → connections[i]? = some c → c.phase.request? = some k →
      requests'[k]? = requests[k]?)
    (hWritten : written ⊆ written') (hNew : Stands d requests' written' new) :
    ∀ (i : Nat) c, (connections.set j new)[i]? = some c → Stands d requests' written' c := by
  intro i c hGet
  rw [Parties.set_get hAt] at hGet
  split_ifs at hGet with hSame
  · cases hGet
    exact hNew
  · exact (h i c hGet).keep (fun k hk => hRequests i c k hSame hGet hk) hWritten

/-- Of the pending calls only that of the connection in question changes. -/
theorem pending_set (hAt : connections[j]? = some old) (new : Connection) (call : AuditCall) :
    old.pending.toList.count call + ((connections.set j new).filterMap Connection.pending).count call =
      new.pending.toList.count call + (connections.filterMap Connection.pending).count call := by
  have hPerm := (Parties.perm_filterMap_set hAt Connection.pending new).count_eq call
  rw [List.count_append, List.count_append] at hPerm
  exact hPerm

/-- Nobody else waits for the request of a connection. -/
theorem set_other {stage : Stage} {r : Request} {k : Nat}
    (hDistinct : Parties.Distinct (fun c : Connection => c.phase.request?) connections)
    (hAt : connections[j]? = some old) (hOld : old.phase.request? = some k)
    (hRequest : requests[k]? = some r) {i : Nat} {c : Connection} {k' : Nat} (hi : i ≠ j)
    (hc : connections[i]? = some c) (hk : c.phase.request? = some k') :
    (requests.set k ⟨r.route, stage⟩)[k']? = requests[k']? := by
  rw [Parties.set_get hRequest]
  refine if_neg fun hSame => hi ?_
  subst hSame
  exact hDistinct i j c old k' hc hAt hk hOld

end Parts

section Steps

variable {d : Deployment} {tables : Tables} {rows : List AuditRow} {s s' : Management} {j k : Nat}
  {arrival : Arrival} {client : IpAddr} {c : Change}

/-- The lock stays with its holder when another connection moves, or the holder ends
its record. -/
theorem Held.move (h : Held s) {old : Connection} (hAt : s.connections[j]? = some old)
    (hOld : ∀ change, old.phase ≠ .recording change) (phase : Phase) : Held (s.move j old phase) := by
  rw [Held] at h ⊢
  dsimp only [Management.move]
  cases hHolder : s.holder with
  | none =>
      rw [hHolder] at h
      exact h
  | some i =>
      rw [hHolder] at h
      obtain ⟨holder, change, pending, hGet, hPhase, hInserting, hCall⟩ := h
      refine ⟨holder, change, pending, ?_, hPhase, hInserting, hCall⟩
      rw [Parties.set_get hAt, if_neg, hGet]
      rintro rfl
      rw [hAt, Option.some.injEq] at hGet
      subst hGet
      exact hOld change hPhase

/-- A connection that moves on without its pending call leaves the balance as it is. -/
theorem Balanced.move (h : Balanced rows s) {old : Connection} (hAt : s.connections[j]? = some old)
    {phase : Phase} (hPending : Connection.pending { old with phase } = old.pending) :
    Balanced rows (s.move j old phase) := by
  obtain ⟨added, hRows, hCount⟩ := h
  refine ⟨added, hRows, fun call => ?_⟩
  have hSet := pending_set hAt { old with phase } call
  rw [hPending] at hSet
  have hOld := hCount call
  dsimp only [Management.move]
  rw [Management.inserted] at hOld ⊢
  dsimp only at hOld ⊢
  omega

/-- A new connection keeps everything sound: it has asked for nothing yet. -/
theorem Sound.connect (h : Sound d tables rows s) (arrival : Arrival) (client : IpAddr) :
    Sound d tables rows { s with connections := s.connections ++ [{ arrival, client }] } where
  tables := h.tables
  asked := h.asked
  stands i c hGet := by
    rw [Parties.push_get] at hGet
    split_ifs at hGet
    · cases hGet
      trivial
    · exact h.stands i c hGet
  distinct := Parties.distinct_push h.distinct rfl
  held := by
    have hHeld := h.held
    rw [Held] at hHeld ⊢
    cases hHolder : s.holder with
    | none =>
        rw [hHolder] at hHeld
        exact hHeld
    | some i =>
        rw [hHolder] at hHeld
        obtain ⟨c, change, pending, hGet, hRest⟩ := hHeld
        refine ⟨c, change, pending, ?_, hRest⟩
        rw [Parties.push_get, if_neg, hGet]
        obtain ⟨hLess, -⟩ := List.getElem?_eq_some_iff.mp hGet
        omega
  balanced := by
    obtain ⟨added, hRows, hCount⟩ := h.balanced
    refine ⟨added, hRows, fun call => ?_⟩
    have hNone : [({ arrival, client } : Connection)].filterMap Connection.pending = [] := rfl
    rw [List.filterMap_append, hNone, List.append_nil]
    exact hCount call

/-- A connection that moves without the log and the requests. -/
theorem Sound.move (h : Sound d tables rows s) {old : Connection} (hAt : s.connections[j]? = some old)
    (hOld : ∀ change, old.phase ≠ .recording change) {phase : Phase}
    (hPending : Connection.pending { old with phase } = old.pending)
    (hRequest : phase.request? = none)
    (hNew : Stands d s.api.requests s.written { old with phase }) :
    Sound d tables rows (s.move j old phase) where
  tables := h.tables
  asked := h.asked
  stands := stands_set h.stands hAt (fun _ _ _ _ _ _ => rfl) (List.Subset.refl _) hNew
  distinct := by
    refine Parties.distinct_set h.distinct hAt fun k hk => ?_
    dsimp only at hk
    rw [hRequest] at hk
    cases hk
  held := h.held.move hAt hOld phase
  balanced := h.balanced.move hAt hPending

/-- A connection stands where reading its request has brought it, and it has no call
pending. -/
theorem stands_begin {arrival : Arrival} {phase : Phase} (hPhase : d.begin arrival = some phase)
    (requests : List Request) (written : List Write) (client : IpAddr) :
    Stands d requests written ⟨arrival, client, phase⟩ ∧
      Connection.pending ⟨arrival, client, phase⟩ = none ∧ phase.request? = none := by
  have hNone {routed : Routed} {req : HttpRequest}
      (hRead : readRequest d.memory arrival = some (.ok (some req)))
      (hRoute : route d.serde req = routed) (hOther : ∀ change, routed ≠ .change change)
      (change : Change) : ¬Asks d arrival change := by
    rintro ⟨req', hRead', hRoute'⟩
    cases hRead.symm.trans hRead'
    exact hOther change (hRoute.symm.trans hRoute')
  unfold Deployment.begin at hPhase
  split at hPhase
  · cases hPhase
  · rename_i req hRead
    split at hPhase
    · rename_i r hRoute
      cases hPhase
      exact ⟨fun change hAsks => absurd hAsks (hNone hRead hRoute nofun change), rfl, rfl⟩
    · rename_i change hRoute
      cases hPhase
      exact ⟨⟨req, hRead, hRoute⟩, rfl, rfl⟩
    · rename_i hAnswered hChange
      cases hPhase
      exact ⟨hNone hRead rfl hChange, rfl, rfl⟩
  · rename_i outcome hUnread hRead
    cases hPhase
    refine ⟨fun change hAsks => ?_, rfl, rfl⟩
    obtain ⟨req, hRead', -⟩ := hAsks
    exact absurd (Option.some.inj (hRead.symm.trans hRead')) (hUnread req)

/-- Taking the lock keeps it sound, and the row that is made is that of the holder. -/
theorem Sound.lock (h : Sound d tables rows s)
    (hAt : s.connections[j]? = some ⟨arrival, client, .recording c⟩) (hFree : s.holder = none)
    (w : AuditWriter) (tsMs : Int) :
    Sound d tables rows { s with
      audit := { s.audit with
        writer := some (Audit.lock d.sha256 d.verifier w ((c.call client).entry tsMs)) }
      holder := some j } where
  tables := h.tables
  asked := h.asked
  stands := h.stands
  distinct := h.distinct
  held := ⟨_, c, _, hAt, rfl, rfl, rfl⟩
  balanced := by
    obtain ⟨added, hRows, hCount⟩ := h.balanced
    refine ⟨added, hRows, fun call => ?_⟩
    have hOld := hCount call
    have hNone : inserting s.audit = none := by
      have hHeld := h.held
      rw [Held, hFree] at hHeld
      exact hHeld
    rw [Management.inserted, hNone] at hOld
    exact hOld

/-- A row that gets committed moves from the writer to the table. -/
theorem Sound.commit (h : Sound d tables rows s) {w : AuditWriter} {row : AuditRow}
    (hWriter : s.audit.writer = some w) (hInserting : w.inserting = some ⟨row, false⟩) :
    Sound d tables rows { s with
      audit := ⟨s.audit.rows ++ [row], some { w with inserting := some ⟨row, true⟩ }⟩ } where
  tables := h.tables
  asked := h.asked
  stands := h.stands
  distinct := h.distinct
  held := by
    have hPending : inserting s.audit = some ⟨row, false⟩ := by
      rw [inserting, hWriter, Option.bind_some, hInserting]
    have hHeld := h.held
    rw [Held] at hHeld ⊢
    dsimp only
    cases hHolder : s.holder with
    | none =>
        rw [hHolder, hPending] at hHeld
        cases hHeld
    | some i =>
        rw [hHolder, hPending] at hHeld
        obtain ⟨c, change, pending, hGet, hPhase, hSame, hCall⟩ := hHeld
        cases hSame
        exact ⟨c, change, _, hGet, hPhase, rfl, hCall⟩
  balanced := by
    obtain ⟨added, hRows, hCount⟩ := h.balanced
    have hPending : inserting s.audit = some ⟨row, false⟩ := by
      rw [inserting, hWriter, Option.bind_some, hInserting]
    refine ⟨added ++ [row], by rw [hRows, List.append_assoc], fun call => ?_⟩
    have hOld := hCount call
    rw [Management.inserted, hPending] at hOld
    dsimp only [Management.inserted, inserting, Option.bind_some]
    rw [List.count_nil] at hOld
    rw [List.map_append, List.count_append, List.map_singleton]
    omega

/-- The end of a record: by then its row is in the table, or it has left none. -/
theorem Sound.record (h : Sound d tables rows s)
    (hAt : s.connections[j]? = some ⟨arrival, client, .recording c⟩) {audit : Audit}
    {unlogged : List AuditCall} (hRows : audit.rows = s.audit.rows) (hDone : inserting audit = none)
    (hEnd : s.inserted = [c.call client] ∧ unlogged = s.unlogged ∨
      s.inserted = [] ∧ unlogged = s.unlogged ++ [c.call client]) :
    Sound d tables rows { s.move j ⟨arrival, client, .recording c⟩ (.recorded c) with
      audit
      holder := none
      unlogged } where
  tables := h.tables
  asked := h.asked
  stands := stands_set h.stands hAt (fun _ _ _ _ _ _ => rfl) (List.Subset.refl _)
    (show Asks d arrival c from h.stands j _ hAt)
  distinct := Parties.distinct_set h.distinct hAt nofun
  held := hDone
  balanced := by
    obtain ⟨added, hAdded, hCount⟩ := h.balanced
    refine ⟨added, hRows.trans hAdded, fun call => ?_⟩
    have hOld := hCount call
    have hSet := pending_set hAt ⟨arrival, client, .recorded c⟩ call
    have hNone : (Management.inserted { s.move j ⟨arrival, client, .recording c⟩ (.recorded c) with
        audit, holder := none, unlogged }) = [] := by
      dsimp only [Management.inserted]
      rw [hDone]
    rw [hNone]
    dsimp only [Management.move, Connection.pending, Option.toList_none, Option.toList_some] at hSet ⊢
    rw [List.count_nil] at hSet ⊢
    rcases hEnd with ⟨hInserted, rfl⟩ | ⟨hInserted, rfl⟩
    · rw [hInserted] at hOld
      omega
    · rw [hInserted, List.count_nil] at hOld
      rw [List.count_append]
      omega

/-- Where the log has no writer, the call is counted among the unlogged. -/
theorem Sound.skip (h : Sound d tables rows s)
    (hAt : s.connections[j]? = some ⟨arrival, client, .recording c⟩) (hFree : s.holder = none) :
    Sound d tables rows { s.move j ⟨arrival, client, .recording c⟩ (.recorded c) with
      unlogged := s.unlogged ++ [c.call client] } := by
  have hNone : inserting s.audit = none := by
    have hHeld := h.held
    rw [Held, hFree] at hHeld
    exact hHeld
  have hEmpty : s.inserted = [] := by rw [Management.inserted, hNone]
  have hSound := h.record hAt rfl hNone (Or.inr ⟨hEmpty, rfl⟩)
  rw [← hFree] at hSound
  exact hSound

/-- The answer of the log, good or bad, lets go of the lock and leads the connection on.
-/
theorem Sound.reply (h : Sound d tables rows s) (hHolder : s.holder = some j)
    (hAt : s.connections[j]? = some ⟨arrival, client, .recording c⟩) {w : AuditWriter}
    {pending : Inserting} {ok : Bool} (hWriter : s.audit.writer = some w)
    (hInserting : w.inserting = some pending) :
    Sound d tables rows { s.move j ⟨arrival, client, .recording c⟩ (.recorded c) with
      audit := { s.audit with writer := some (Audit.reply w pending ok) }
      holder := none
      unlogged := if s.inserted = [] then s.unlogged ++ [c.call client] else s.unlogged } := by
  have hPending : inserting s.audit = some pending := by
    rw [inserting, hWriter, Option.bind_some, hInserting]
  have hCall : .ofRow pending.row = c.call client := by
    have hHeld := h.held
    rw [Held, hHolder, hPending] at hHeld
    obtain ⟨holder, change, pending', hGet, hPhase, hSame, hCall⟩ := hHeld
    rw [hAt, Option.some.injEq] at hGet
    cases hGet
    cases hPhase
    cases hSame
    exact hCall
  refine h.record hAt rfl ?_ ?_
  · dsimp only [inserting, Option.bind_some]
    rw [Audit.reply]
    split_ifs <;> rfl
  · obtain ⟨row, committed⟩ := pending
    cases committed with
    | true =>
        have hInserted : s.inserted = [c.call client] := by
          rw [Management.inserted, hPending, ← hCall]
        exact Or.inl ⟨hInserted, if_neg (by rw [hInserted]; simp)⟩
    | false =>
        have hInserted : s.inserted = [] := by rw [Management.inserted, hPending]
        exact Or.inr ⟨hInserted, if_pos hInserted⟩

/-- The change is handed over to the API, whose request stands for this connection alone.
-/
theorem Sound.enter (h : Sound d tables rows s)
    (hAt : s.connections[j]? = some ⟨arrival, client, .recorded c⟩) (place : Nat) (id : Str) :
    Sound d tables rows {
      s.move j ⟨arrival, client, .recorded c⟩ (.requested c s.api.requests.length) with
      api := { s.api with requests := s.api.requests ++ [⟨c.route place id, .accepted⟩] } } where
  tables := h.tables
  asked := h.asked
  stands := by
    refine stands_set h.stands hAt (fun i other k _ hOther hk => ?_) (List.Subset.refl _) ?_
    · have hLess := (h.stands i other hOther).lt hk
      rw [Parties.push_get, if_neg (by omega)]
    · refine ⟨h.stands j _ hAt, place, id, ?_⟩
      rw [Parties.push_get, if_pos rfl]
  distinct := by
    refine Parties.distinct_set h.distinct hAt fun k hk => Or.inr fun other hOther hSame => ?_
    cases hk
    obtain ⟨i, hi⟩ := List.mem_iff_getElem?.mp hOther
    exact Nat.lt_irrefl _ ((h.stands i other hi).lt hSame)
  held := h.held.move hAt nofun _
  balanced := h.balanced.move hAt rfl

/-- A step of the request that a connection waits for. -/
theorem Sound.request (h : Sound d tables rows s) {old : Connection}
    (hAt : s.connections[j]? = some old) (hOld : old.phase.request? = some k) {r : Request}
    (hRequest : s.api.requests[k]? = some r) {api : State} {stage : Stage}
    (hRequests : api.requests = s.api.requests.set k ⟨r.route, stage⟩) {phase : Phase}
    (hPhase : phase.request? = none ∨ phase.request? = some k) {written : List Write}
    {abandoned : List AuditCall} (hWritten : s.written ⊆ written)
    (hTables : api.tables = (written.map Write.route).foldl (Route.write d.same) tables)
    (hAsked : ∀ w ∈ written, Asks d w.arrival w.route.change)
    (hNew : Stands d api.requests written { old with phase })
    (hCount : ∀ call, (s.written.map Write.call).count call + s.abandoned.count call +
      old.pending.toList.count call = (written.map Write.call).count call + abandoned.count call +
        (Connection.pending { old with phase }).toList.count call) :
    Sound d tables rows { s.move j old phase with api, written, abandoned } where
  tables := hTables
  asked := hAsked
  stands := by
    refine stands_set h.stands hAt (fun i c k' hi hc hk => ?_) hWritten hNew
    rw [hRequests]
    exact set_other h.distinct hAt hOld hRequest hi hc hk
  distinct := by
    refine Parties.distinct_set h.distinct hAt fun k' hk => Or.inl ?_
    dsimp only at hk
    rcases hPhase with hNone | hSame
    · rw [hNone] at hk
      cases hk
    · exact hOld.trans (hSame.symm.trans hk)
  held := by
    refine h.held.move hAt (fun change hRecording => ?_) phase
    rw [hRecording] at hOld
    cases hOld
  balanced := by
    obtain ⟨added, hRows, hBalance⟩ := h.balanced
    refine ⟨added, hRows, fun call => ?_⟩
    have hSet := pending_set hAt { old with phase } call
    have hBefore := hBalance call
    have hMoved := hCount call
    rw [Management.inserted] at hBefore ⊢
    dsimp only [Management.move] at hBefore ⊢
    omega

/-- The write of the change is the one that the request asked for. -/
theorem Sound.change (h : Sound d tables rows s)
    (hAt : s.connections[j]? = some ⟨arrival, client, .requested c k⟩) {r : Request}
    (hRequest : s.api.requests[k]? = some r) {api : State}
    (hStep : s.api.step d.same d.mapFile (.advance k) = some api) :
    Sound d tables rows { s.move j ⟨arrival, client, .requested c k⟩ (.changed c k) with
      api
      written := s.written ++ [⟨arrival, client, r.route⟩] } := by
  obtain ⟨hAsks, place, id, hAccepted⟩ := h.stands j _ hAt
  rw [hRequest, Option.some.injEq] at hAccepted
  subst hAccepted
  obtain ⟨stage, hStage, hRequests, hTables⟩ := api_advance hRequest hStep
  refine h.request hAt rfl hRequest hRequests (Or.inr rfl)
    (List.subset_append_left _ _) ?_ ?_ ?_ fun call => ?_
  · rw [hTables, h.tables, List.map_append, List.foldl_append]
    rfl
  · rw [List.forall_mem_append, List.forall_mem_singleton]
    refine ⟨h.asked, ?_⟩
    dsimp only
    rw [change_route]
    exact hAsks
  · refine ⟨_, stage, ?_, hStage, List.mem_append_right _ List.mem_cons_self⟩
    rw [hRequests, Parties.set_get hRequest, if_pos rfl]
  · rw [List.map_append, List.count_append, List.map_singleton, Write.call, change_route]
    dsimp only [Management.move, Connection.pending, Option.toList_none, Option.toList_some]
    rw [List.count_nil]
    omega

/-- The later steps of a request write nothing more. -/
theorem Sound.advance (h : Sound d tables rows s)
    (hAt : s.connections[j]? = some ⟨arrival, client, .changed c k⟩) {r : Request}
    (hRequest : s.api.requests[k]? = some r) {api : State}
    (hStep : s.api.step d.same d.mapFile (.advance k) = some api) :
    Sound d tables rows { s.move j ⟨arrival, client, .changed c k⟩ (.changed c k) with api } := by
  obtain ⟨route, old, hChanged, hOld, hWrite⟩ := h.stands j _ hAt
  rw [hRequest, Option.some.injEq] at hChanged
  subst hChanged
  obtain ⟨stage, hStage, hRequests, hTables⟩ := api_advance hRequest hStep
  refine h.request hAt rfl hRequest hRequests (Or.inr rfl)
    (List.Subset.refl _) ?_ h.asked ?_ fun call => rfl
  · have hLater : old.isAccepted = false := by
      cases old with
      | accepted => exact absurd rfl hOld
      | _ => rfl
    rw [hTables, hLater, if_neg Bool.false_ne_true]
    exact h.tables
  · refine ⟨route, stage, ?_, hStage, hWrite⟩
    rw [hRequests, Parties.set_get hRequest, if_pos rfl]

/-- A change that fails before it has reached the tables, or behind that. -/
theorem Sound.fail (h : Sound d tables rows s) {old : Connection}
    (hAt : s.connections[j]? = some old) (hOld : old.phase.request? = some k) {r : Request}
    (hRequest : s.api.requests[k]? = some r) {api : State}
    (hStep : s.api.step d.same d.mapFile (.fail k) = some api) (error : String) :
    Sound d tables rows { s.move j old (.closed (some (internalError error))) with
      api
      abandoned := s.abandoned ++ old.pending.toList } := by
  obtain ⟨hRequests, hTables⟩ := api_fail hRequest hStep
  refine h.request hAt hOld hRequest hRequests (Or.inl rfl) (List.Subset.refl _) (hTables.trans h.tables)
    h.asked (fun _ _ => ⟨error, rfl⟩) fun call => ?_
  rw [List.count_append]
  dsimp only [Management.move, Connection.pending, Option.toList_none]
  rw [List.count_nil]
  omega

/-- One step of any connection keeps it sound. -/
theorem sound_step {a : Action} (h : Sound d tables rows s) (hStep : step d s a = some s') :
    Sound d tables rows s' := by
  cases step_cases hStep with
  | connect arrival client => exact h.connect arrival client
  | begin hAt hPhase =>
      obtain ⟨hStands, hPending, hRequest⟩ := stands_begin hPhase _ _ _
      exact h.move hAt nofun hPending hRequest hStands
  | look sight out hAt =>
      have hOther := h.stands _ _ hAt
      exact h.move hAt nofun rfl rfl fun change hAsks => absurd hAsks (hOther change)
  | lock tsMs hAt hFree => exact h.lock hAt hFree _ tsMs
  | skip tsMs hAt hFree => exact h.skip hAt hFree
  | commit hWriter hInserting => exact h.commit hWriter hInserting
  | reply hHolder hAt hWriter hInserting => exact h.reply hHolder hAt hWriter hInserting
  | enter place id hAt => exact h.enter hAt place id
  | change hAt hRequest hApi => exact h.change hAt hRequest hApi
  | advance hAt hRequest hApi => exact h.advance hAt hRequest hApi
  | abandon text hAt hRequest hApi => exact h.fail hAt rfl hRequest hApi _
  | fail text hAt hRequest hApi =>
      have hSound := h.fail hAt rfl hRequest hApi (d.failure text).text
      dsimp only [Connection.pending, Option.toList_none] at hSound
      rw [List.append_nil] at hSound
      exact hSound

/-! ## A log whose insertions succeed -/

/-- The log has a row for each call so far, and its writer knows all rows. -/
structure Complete (s : Management) : Prop where
  unlogged : s.unlogged = []
  sound : Audit.Sound s.audit
  writer : ∃ w, s.audit.writer = some w ∧ w.available = true ∧ w.misled = false

/-- As long as insertions succeed, the log misses no call. -/
theorem complete_step {a : Action} (h : Complete s) (hSucceeds : a ≠ .reply false)
    (hStep : step d s a = some s') : Complete s' := by
  obtain ⟨w, hWriter, hAvailable, hTrue⟩ := h.writer
  cases step_cases hStep with
  | connect | begin | look | enter | change | advance | abandon | fail =>
      exact ⟨h.unlogged, h.sound, h.writer⟩
  | lock tsMs hAt hFree hWriter' hAvailable' hIdle =>
      rw [hWriter, Option.some.injEq] at hWriter'
      subst hWriter'
      exact ⟨h.unlogged, h.sound.lock hWriter hIdle _, _, rfl, hAvailable, hTrue⟩
  | skip tsMs hAt hFree hWriter' hOut =>
      rw [hWriter, Option.some.injEq] at hWriter'
      subst hWriter'
      rw [hAvailable] at hOut
      cases hOut
  | commit hWriter' hInserting =>
      rw [hWriter, Option.some.injEq] at hWriter'
      subst hWriter'
      exact ⟨h.unlogged, h.sound.commit hWriter hTrue hInserting, _, rfl, hAvailable, hTrue⟩
  | @reply j arrival client c w' pending ok hHolder hAt hWriter' hInserting hHonest =>
      rw [hWriter, Option.some.injEq] at hWriter'
      subst hWriter'
      obtain ⟨row, committed⟩ := pending
      have hOk : ok = true := by
        cases ok with
        | true => rfl
        | false => exact absurd rfl hSucceeds
      obtain rfl : committed = true := hHonest hOk
      have hInserted : s.inserted = [.ofRow row] := by
        rw [Management.inserted, inserting, hWriter, Option.bind_some, hInserting]
      refine ⟨?_, h.sound.reply hWriter hInserting hHonest, _, rfl, ?_⟩
      · dsimp only
        rw [if_neg (by rw [hInserted]; simp), h.unlogged]
      · rw [Audit.reply, if_pos hOk]
        exact ⟨hAvailable, hTrue⟩

/-- A log that could be read at the start misses nothing. -/
theorem complete_start (d : Deployment) (hAvailable : d.available = true) (tables : Tables)
    {rows : List AuditRow} (hChained : Chained rows) : Complete (start d true tables rows) where
  unlogged := rfl
  sound := ⟨hChained, fun w hw hTrue => by
    cases hw
    exact Audit.inStep_new hTrue⟩
  writer := by
    refine ⟨_, rfl, hAvailable, ?_⟩
    rw [AuditWriter.new, hAvailable]
    rfl

end Steps

/-- At the start no connection has asked for anything. -/
theorem sound_start (d : Deployment) (answered : Bool) (tables : Tables) (rows : List AuditRow) :
    Sound d (start d answered tables rows).api.tables rows (start d answered tables rows) where
  tables := rfl
  asked := by simp [start]
  stands := by simp [start]
  distinct i j p q b hi := by simp [start] at hi
  held := rfl
  balanced := ⟨[], (List.append_nil rows).symm, fun _ => rfl⟩

/-- A step of a connection is a step of its request, or one of the log, or neither. -/
theorem step_below {d : Deployment} {s s' : Management} {a : Action} (hStep : step d s a = some s') :
    (s'.api = s.api ∨ ∃ b, s.api.step d.same d.mapFile b = some s'.api) ∧
      (s'.audit = s.audit ∨ ∃ b, s.audit.step d.sha256 d.verifier b = some s'.audit) := by
  cases step_cases hStep with
  | connect | begin | look | skip => exact ⟨Or.inl rfl, Or.inl rfl⟩
  | @lock j arrival client c w tsMs hAt hFree hWriter hAvailable hIdle =>
      refine ⟨Or.inl rfl, Or.inr ⟨.lock ((c.call client).entry tsMs), ?_⟩⟩
      rw [Audit.step, hWriter]
      dsimp only
      rw [if_neg (by simp [hAvailable]), if_neg (by simp [hIdle])]
  | commit hWriter hInserting =>
      refine ⟨Or.inl rfl, Or.inr ⟨.commit, ?_⟩⟩
      rw [Audit.step, hWriter]
      dsimp only
      rw [hInserting]
  | @reply j arrival client c w pending ok hHolder hAt hWriter hInserting hHonest =>
      refine ⟨Or.inl rfl, Or.inr ⟨.reply ok, ?_⟩⟩
      rw [Audit.step, hWriter]
      dsimp only
      rw [hInserting]
      dsimp only
      rw [if_neg (by simpa using hHonest)]
  | enter => exact ⟨Or.inr ⟨.arrive _, rfl⟩, Or.inl rfl⟩
  | change hAt hRequest hApi | advance hAt hRequest hApi => exact ⟨Or.inr ⟨_, hApi⟩, Or.inl rfl⟩
  | abandon text hAt hRequest hApi | fail text hAt hRequest hApi =>
      exact ⟨Or.inr ⟨_, hApi⟩, Or.inl rfl⟩

/-- No change that failed is answered as one that was made. -/
theorem internalError_ne_done (error : String) : internalError error ≠ done := by
  intro h
  have hStatus : 500 = 200 := congrArg HttpResponse.status h
  cases hStatus

/-- What a connection is told that has asked for a change: of an error, or that it is
done, and then the change is among those that were made. -/
theorem Sound.told {d : Deployment} {tables : Tables} {rows : List AuditRow} {s : Management}
    (h : Sound d tables rows s) {c : Connection} (hc : c ∈ s.connections) {change : Change}
    (hAsks : Asks d c.arrival change) {r : HttpResponse} (hResponse : s.response c = some r) :
    (r ≠ done ∧ ∃ error, r = internalError error) ∨
      r = done ∧ ∃ route, route.change = change ∧ ⟨c.arrival, c.client, route⟩ ∈ s.written := by
  obtain ⟨j, hj⟩ := List.mem_iff_getElem?.mp hc
  have hStands := h.stands j c hj
  obtain ⟨arrival, client, phase⟩ := c
  cases phase with
  | closed out =>
      obtain ⟨error, rfl⟩ := hStands change hAsks
      cases hResponse
      exact Or.inl ⟨internalError_ne_done error, error, rfl⟩
  | changed _ k =>
      obtain ⟨route, stage, hRequest, -, hWrite⟩ := hStands
      dsimp only [response] at hResponse
      rw [hRequest] at hResponse
      cases stage with
      | returned =>
          cases hResponse
          exact Or.inr ⟨rfl, route, (h.asked _ hWrite).unique hAsks, hWrite⟩
      | _ => cases hResponse
  | _ => cases hResponse

/-- Every run keeps the connections, the tables and the log accounted for. -/
theorem sound_run {d : Deployment} {answered : Bool} {tables : Tables} {rows : List AuditRow}
    {actions : List Action} {s : Management}
    (hRun : Runs.run (step d) (start d answered tables rows) actions = some s) :
    Sound d (start d answered tables rows).api.tables rows s := by
  have hKeep (s s' : Management) (a : Action)
      (h : Sound d (start d answered tables rows).api.tables rows s) (_ : True)
      (hStep : step d s a = some s') : Sound d (start d answered tables rows).api.tables rows s' :=
    sound_step h hStep
  exact Runs.run_invariant (fun s a s' => hKeep s s' a) (sound_start d answered tables rows)
    (fun _ _ => trivial) hRun

/-- In every order of the steps, the tables are what the requests behind the changes
have made of them, and the rows that the log has got, with the calls of `record` that
left none, are those of the changes that were made, that failed or that are to come. A
connection that asks for a change is told of an error, or that the change is done, and
then it has been made. All steps are steps of the requests of `Reload` and of the log
below. -/
theorem changes_accounted {d : Deployment} {answered : Bool} {tables : Tables} {rows : List AuditRow}
    {actions : List Action} {s : Management}
    (hRun : Runs.run (step d) (start d answered tables rows) actions = some s) :
    (∃ steps, Runs.run (State.step d.same d.mapFile) (start d answered tables rows).api steps =
      some s.api) ∧
    (∃ steps, Runs.run (Audit.step d.sha256 d.verifier) (start d answered tables rows).audit steps =
      some s.audit) ∧
    s.api.tables = (s.written.map Write.route).foldl (Route.write d.same)
      (start d answered tables rows).api.tables ∧
    (∀ w ∈ s.written, Asks d w.arrival w.route.change) ∧
    (∃ added, s.audit.rows = rows ++ added ∧
      (added.map AuditCall.ofRow ++ s.unlogged).Perm (s.written.map Write.call ++ s.abandoned ++
        s.inserted ++ s.connections.filterMap Connection.pending)) ∧
    (∀ c ∈ s.connections, ∀ change, Asks d c.arrival change → ∀ r, s.response c = some r →
      (r ≠ done ∧ ∃ error, r = internalError error) ∨
        r = done ∧ ∃ route, route.change = change ∧ ⟨c.arrival, c.client, route⟩ ∈ s.written) ∧
    (d.available = true → answered = true → Chained rows → .reply false ∉ actions →
      s.unlogged = [] ∧ Chained s.audit.rows) := by
  have hSound := sound_run hRun
  refine ⟨?_, ?_, hSound.tables, hSound.asked, ?_, ?_, ?_⟩
  · exact Runs.run_project Management.api (fun _ _ _ hStep => (step_below hStep).1) hRun
  · exact Runs.run_project Management.audit (fun _ _ _ hStep => (step_below hStep).2) hRun
  · obtain ⟨added, hRows, hCount⟩ := hSound.balanced
    refine ⟨added, hRows, List.perm_iff_count.mpr fun call => ?_⟩
    have hBalance := hCount call
    simp only [List.count_append]
    omega
  · exact fun c hc change hAsks r hResponse => hSound.told hc hAsks hResponse
  · rintro hAvailable rfl hChained hSucceed
    have hActions : ∀ a ∈ actions, a ≠ .reply false := fun a ha hFails => by
      rw [hFails] at ha
      exact hSucceed ha
    have hComplete := Runs.run_invariant (fun _ _ _ h hOk hStep => complete_step h hOk hStep)
      (complete_start d hAvailable tables hChained) hActions hRun
    exact ⟨hComplete.unlogged, hComplete.sound.chained⟩

/-! ## Two requests -/

/-- The JSON of a request that blocks one domain, without a mode. -/
def adsBody : Bytes := Str.bytes "\x7b\"domain\":\"ads.example\"\x7d".toList

/-- A request to block a domain. -/
def adsRequest : Sent :=
  postRequest "/api/v1/blocked".toList (by decide) adsBody (by decide)

/-- What the request asks for: the mode is the default one. -/
def adsChange : Change := .block "ads.example".toList "loopback".toList

def adsClient : IpAddr := .v4 Ipv4Addr.localhost

/-- The record of the request at a time. -/
def adsEntry (tsMs : Int) : Entry := (adsChange.call adsClient).entry tsMs

/-- The hash of the first record. -/
def adsHash : Bytes :=
  [0xc0, 0xd6, 0xa1, 0xac, 0x47, 0x84, 0xab, 0x1f, 0x0e, 0x48, 0x8c, 0xf5, 0x43, 0x18, 0x65, 0xb9,
    0x4c, 0x95, 0xa4, 0x06, 0xdf, 0x66, 0xdb, 0x62, 0xf8, 0x9e, 0xb6, 0x51, 0x16, 0x41, 0x10, 0x5f]

/-- A database, serde_json and SHA-256 on what two requests make of them. -/
def adsDeployment : Deployment where
  serde := {
    fromSlice body :=
      if body = adsBody then some (.object [("domain".toList, .string "ads.example".toList)]) else none
    zones _ := "[]".toList
    blocked _ := "[]".toList }
  same := (· == ·)
  mapFile := none
  sha256 message :=
    if message = preimage genesis (adsEntry 1000) then adsHash
    else if message = preimage (hexEncode adsHash) (adsEntry 2000) then
      [0xe5, 0xb0, 0x95, 0x00, 0x54, 0x46, 0x14, 0xab, 0x84, 0x3f, 0x70, 0xc1, 0xa1, 0xdc, 0x1c, 0xb8,
        0x73, 0xcf, 0x6a, 0x0c, 0x8d, 0x68, 0xef, 0x88, 0x8c, 0x3f, 0x5b, 0x66, 0x5e, 0xc6, 0x16, 0x66]
    else []
  verifier := []
  available := true
  memory := 65536

/-- The whole request has arrived, and the connection is still open. -/
def adsArrival : Arrival := ⟨adsRequest.bytes, false⟩

/-- What follows the read of both requests: the second one is recorded, and then fails,
before the first one is through. -/
def adsActions : List Action :=
  [.lock 0 1000, .commit, .reply true, .enter 0 0 [], .lock 1 2000, .advance 0, .commit, .reply true,
    .enter 1 1 [], .fail 1 "deadlock"] ++ List.replicate 6 (.advance 0)

/-- Both requests, from their connections on. -/
def adsRun : List Action :=
  [.connect adsArrival adsClient, .connect adsArrival adsClient, .read 0, .read 1] ++ adsActions

theorem begin_adsRequest : adsDeployment.begin adsArrival = some (.recording adsChange) := by
  have hMemory : adsRequest.body.length ≤ adsDeployment.memory := by decide
  have hRead := adsRequest.readRequest_bytes hMemory [] false
  rw [List.append_nil] at hRead
  unfold Deployment.begin
  rw [adsArrival, hRead]
  rfl

/-- Two connections on which the same request has arrived. -/
def adsState (first second : Phase) : Management :=
  { start adsDeployment true {} [] with
    connections := [⟨adsArrival, adsClient, first⟩, ⟨adsArrival, adsClient, second⟩] }

theorem adsRun_asked : Runs.run (step adsDeployment) (start adsDeployment true {} []) adsRun =
    Runs.run (step adsDeployment) (adsState (.recording adsChange) (.recording adsChange)) adsActions := by
  have hFirst : step adsDeployment (adsState .connected .connected) (.read 0) =
      some (adsState (.recording adsChange) .connected) := by
    have hMove : step adsDeployment (adsState .connected .connected) (.read 0) =
        (adsDeployment.begin adsArrival).map fun phase => adsState phase .connected := rfl
    rw [hMove, begin_adsRequest]
    rfl
  have hSecond : step adsDeployment (adsState (.recording adsChange) .connected) (.read 1) =
      some (adsState (.recording adsChange) (.recording adsChange)) := by
    have hMove : step adsDeployment (adsState (.recording adsChange) .connected) (.read 1) =
        (adsDeployment.begin adsArrival).map fun phase => adsState (.recording adsChange) phase := rfl
    rw [hMove, begin_adsRequest]
    rfl
  -- The rest is a variable here: with the reads in place, comparing the two sides runs them.
  have hConnected (rest : List Action) : Runs.run (step adsDeployment) (start adsDeployment true {} [])
      (.connect adsArrival adsClient :: .connect adsArrival adsClient :: rest) =
        Runs.run (step adsDeployment) (adsState .connected .connected) rest := rfl
  rw [adsRun, List.cons_append, List.cons_append, List.cons_append, List.cons_append,
    List.nil_append, hConnected, Runs.run_cons, hFirst, Option.bind_some, Runs.run_cons, hSecond,
    Option.bind_some]

theorem adsRun_ends : (Runs.run (step adsDeployment)
    (adsState (.recording adsChange) (.recording adsChange)) adsActions).map
      (fun s => (s.written.length, s.abandoned.length, s.audit.rows.length)) = some (1, 1, 2) := by
  decide +kernel

/-- Two connections ask for one change and the second fails: it is abandoned, and the log
has a row for each. -/
theorem changes_accounted_secondFails : ∃ s,
    Runs.run (step adsDeployment) (start adsDeployment true {} []) adsRun = some s ∧
      (s.written.length, s.abandoned.length, s.audit.rows.length) = (1, 1, 2) ∧
      s.unlogged = [] ∧ Chained s.audit.rows ∧
      ∀ c ∈ s.connections, ∀ change, Asks adsDeployment c.arrival change → ∀ r,
        s.response c = some r → (r ≠ done ∧ ∃ error, r = internalError error) ∨
          r = done ∧ ∃ route, route.change = change ∧ ⟨c.arrival, c.client, route⟩ ∈ s.written := by
  obtain ⟨s, hRun, hLengths⟩ := Option.map_eq_some_iff.mp adsRun_ends
  rw [← adsRun_asked] at hRun
  obtain ⟨-, -, -, -, -, hAnswered, hComplete⟩ := changes_accounted hRun
  have hSucceed : Action.reply false ∉ adsRun := by simp [adsRun, adsActions]
  obtain ⟨hLogged, hChained⟩ := hComplete rfl rfl Chain.linked_nil hSucceed
  exact ⟨s, hRun, hLengths, hLogged, hChained, hAnswered⟩

end Dnsd.Api.Management
