import Dnsd.Api.Routes

/-! The connections of the management API, step by step: a request is read, recorded
under the lock of the audit log, and carried out; and how the records and the changes
of the tables account for each other. -/

namespace Dnsd.Api

open Cache.Resp (Arrival)
open Server Store

/-- What no step changes: the reader of requests, the comparison of texts, the file of
bindings, the hash, its verifier, and whether the log has a database. -/
structure Deployment where
  serde : Serde
  same : Str → Str → Bool
  mapFile : Option Str
  sha256 : Bytes → Bytes
  verifier : Str
  available : Bool
  memory : Nat

/-- How far `handle` is with a connection, from its request to its response. -/
inductive Phase where
  | connected
  | looking (asked : Routed)
  | recording (c : Change)
  | recorded (c : Change)
  | requested (c : Change) (k : Nat)
  | changed (c : Change) (k : Nat)
  | closed (out : Option HttpResponse)

/-- The request of `Reload` that a connection waits for. -/
def Phase.request? : Phase → Option Nat
  | .requested _ k | .changed _ k => some k
  | _ => none

/-- A connection, with what has arrived on it and what has become of it so far. -/
structure Connection where
  arrival : Arrival
  client : IpAddr
  phase : Phase := .connected

/-- The change that a connection has recorded, or tried to, and not begun. -/
def Connection.pending (c : Connection) : Option AuditCall :=
  match c.phase with
  | .recorded change | .requested change _ => some (change.call c.client)
  | _ => none

/-- A change that the tables have seen, and where it came from. -/
structure Write where
  arrival : Arrival
  client : IpAddr
  route : Route

/-- The call of `record` that went in front of the statement. -/
def Write.call (w : Write) : AuditCall := w.route.change.call w.client

/-- The tables and the log, the connection that holds the lock of the log, and all
connections. The last three fields are not in the program: the changes that were
made, the calls of `record` that left no row, and the changes that failed. -/
structure Management where
  api : State
  audit : Audit
  holder : Option Nat := none
  connections : List Connection := []
  written : List Write := []
  unlogged : List AuditCall := []
  abandoned : List AuditCall := []

/-- `commit` and `reply` are the database's, for the holder of the lock. -/
inductive Management.Action where
  | connect (arrival : Arrival) (client : IpAddr)
  | read (j : Nat)
  | look (j : Nat) (sight : Sight)
  | lock (j : Nat) (tsMs : Int)
  | commit
  | reply (ok : Bool)
  | enter (j : Nat) (place : Nat) (id : Str)
  | advance (j : Nat)
  | fail (j : Nat) (text : String)

/-- Whether the route changes a table: all do but the reload, which only reads them. -/
def Route.inserts : Route → Bool
  | .reload => false
  | _ => true

def Stage.isAccepted : Stage → Bool
  | .accepted => true
  | _ => false

/-- Without a database all statements fail, and no load does. -/
def Deployment.Admits (d : Deployment) (r : Request) (fails : Bool) : Bool :=
  d.available || fails == (r.stage.isAccepted && r.route.inserts)

/-- What the store has to say about a failure. -/
def Deployment.failure (d : Deployment) (text : String) : Error :=
  .db (if d.available then text else "MySQL unavailable")

/-- The read of the request and what `route` makes of it; there is no phase behind a body
that the allocator has no room for, as the process ends. -/
def Deployment.begin (d : Deployment) (arrival : Arrival) : Option Phase :=
  match readRequest d.memory arrival with
  | none => none
  | some (.ok (some req)) =>
      match route d.serde req with
      | .answered r => some (.closed (some r))
      | .change c => some (.recording c)
      | asked => some (.looking asked)
  | some _ => some (.closed none)

/-- The insertion into the log that the holder of the lock waits for. -/
def inserting (audit : Audit) : Option Inserting := audit.writer.bind AuditWriter.inserting

namespace Management

/-- One connection goes on to another phase; tables, log and the other connections stay.
-/
def move (s : Management) (j : Nat) (c : Connection) (phase : Phase) : Management :=
  { s with connections := s.connections.set j { c with phase } }

/-- The call whose row is in the table while its writer does not know it yet. -/
def inserted (s : Management) : List AuditCall :=
  match inserting s.audit with
  | some ⟨row, true⟩ => [.ofRow row]
  | _ => []

variable (d : Deployment) (s : Management) (j : Nat) (c : Connection)

/-- The call of `record`: with a database it takes the lock and asks for the insertion,
without one it leaves no row. Nobody comes in while another connection has the lock. -/
def lock (change : Change) (tsMs : Int) : Option Management :=
  match s.audit.writer with
  | none => none
  | some w =>
      let call := change.call c.client
      if s.holder.isSome then none
      else if w.available then
        (s.audit.step d.sha256 d.verifier (.lock (call.entry tsMs))).map fun audit =>
          { s with audit, holder := some j }
      else some { s.move j c (.recorded change) with unlogged := s.unlogged ++ [call] }

/-- A failure is logged, and the change goes on all the same. -/
def reply (change : Change) (ok : Bool) : Option Management :=
  (s.audit.step d.sha256 d.verifier (.reply ok)).map fun audit =>
    { s.move j c (.recorded change) with
      audit
      holder := none
      unlogged := if s.inserted = [] then s.unlogged ++ [change.call c.client] else s.unlogged }

/-- The next step of the request behind a connection; the first one is its write. -/
def advance (change : Change) (k : Nat) (first : Bool) : Option Management :=
  match s.api.requests[k]? with
  | none => none
  | some r =>
      if d.Admits r false then
        (s.api.step d.same d.mapFile (.advance k)).map fun api =>
          { s.move j c (.changed change k) with
            api
            written := if first then s.written ++ [⟨c.arrival, c.client, r.route⟩] else s.written }
      else none

/-- A statement or a reload fails, and the connection is told of an internal error. The
call that was recorded is one without a change if it was the first statement. -/
def fail (change : Change) (k : Nat) (first : Bool) (text : String) : Option Management :=
  match s.api.requests[k]? with
  | none => none
  | some r =>
      if d.Admits r true then
        (s.api.step d.same d.mapFile (.fail k)).map fun api =>
          { s.move j c (.closed (some (internalError (d.failure text).text))) with
            api
            abandoned := if first then s.abandoned ++ [change.call c.client] else s.abandoned }
      else none

/-- One step of one connection, of the audit writer or of a reload. Where a step is `none`
it is not due. -/
def step (s : Management) : Action → Option Management
  | .connect arrival client =>
      some { s with connections := s.connections ++ [{ arrival, client }] }
  | .read j =>
      match s.connections[j]? with
      | some ⟨arrival, client, .connected⟩ =>
          (d.begin arrival).map fun phase => s.move j ⟨arrival, client, .connected⟩ phase
      | _ => none
  | .look j sight =>
      match s.connections[j]? with
      | some ⟨arrival, client, .looking asked⟩ =>
          some (s.move j ⟨arrival, client, .looking asked⟩
            (.closed (look d.serde d.available s.api.tables sight asked)))
      | _ => none
  | .lock j tsMs =>
      match s.connections[j]? with
      | some ⟨arrival, client, .recording c⟩ => s.lock d j ⟨arrival, client, .recording c⟩ c tsMs
      | _ => none
  | .commit =>
      (s.audit.step d.sha256 d.verifier .commit).map fun audit => { s with audit }
  | .reply ok =>
      match s.holder with
      | none => none
      | some j =>
          match s.connections[j]? with
          | some ⟨arrival, client, .recording c⟩ => s.reply d j ⟨arrival, client, .recording c⟩ c ok
          | _ => none
  | .enter j place id =>
      match s.connections[j]? with
      | some ⟨arrival, client, .recorded c⟩ =>
          (s.api.step d.same d.mapFile (.arrive (c.route place id))).map fun api =>
            { s.move j ⟨arrival, client, .recorded c⟩ (.requested c s.api.requests.length) with api }
      | _ => none
  | .advance j =>
      match s.connections[j]? with
      | some ⟨arrival, client, .requested c k⟩ =>
          s.advance d j ⟨arrival, client, .requested c k⟩ c k true
      | some ⟨arrival, client, .changed c k⟩ =>
          s.advance d j ⟨arrival, client, .changed c k⟩ c k false
      | _ => none
  | .fail j text =>
      match s.connections[j]? with
      | some ⟨arrival, client, .requested c k⟩ =>
          s.fail d j ⟨arrival, client, .requested c k⟩ c k true text
      | some ⟨arrival, client, .changed c k⟩ =>
          s.fail d j ⟨arrival, client, .changed c k⟩ c k false text
      | _ => none

/-- What a connection is answered with, as far as it is. -/
def response (s : Management) (c : Connection) : Option HttpResponse :=
  match c.phase with
  | .closed out => out
  | .changed _ k =>
      match s.api.requests[k]? with
      | some ⟨_, .returned⟩ => some done
      | _ => none
  | _ => none

/-- A process that starts: without a database it sees empty tables. -/
def start (d : Deployment) (answered : Bool) (tables : Tables) (rows : List AuditRow) :
    Management where
  api := { tables := if d.available then tables else {} }
  audit := ⟨rows, some (.new d.available answered rows)⟩

/-! ## What a step can do -/

section Steps

variable {d : Deployment} {s s' : Management}

/-- A step of the request behind a connection, with what it does to the tables. -/
theorem api_advance {api api' : State} {k : Nat} {r : Request} (hRequest : api.requests[k]? = some r)
    (hStep : api.step d.same d.mapFile (.advance k) = some api') :
    ∃ stage, stage ≠ .accepted ∧ api'.requests = api.requests.set k ⟨r.route, stage⟩ ∧
      api'.tables = if r.stage.isAccepted then r.route.write d.same api.tables else api.tables := by
  rw [State.step, hRequest] at hStep
  obtain ⟨route, stage⟩ := r
  cases stage with
  | returned | failed => cases hStep
  | _ =>
      cases hStep
      refine ⟨_, ?_, rfl, rfl⟩
      intro hAccepted
      cases hAccepted

theorem api_fail {api api' : State} {k : Nat} {r : Request} (hRequest : api.requests[k]? = some r)
    (hStep : api.step d.same d.mapFile (.fail k) = some api') :
    api'.requests = api.requests.set k ⟨r.route, .failed⟩ ∧ api'.tables = api.tables := by
  rw [State.step, hRequest] at hStep
  obtain ⟨route, stage⟩ := r
  dsimp only at hStep
  split_ifs at hStep
  cases hStep
  exact ⟨rfl, rfl⟩

/-- The steps that one connection takes, by what they do to the log and to the requests. -/
inductive Steps (d : Deployment) (s : Management) : Action → Management → Prop where
  | connect (arrival : Arrival) (client : IpAddr) :
      Steps d s (.connect arrival client)
        { s with connections := s.connections ++ [{ arrival, client }] }
  | begin {j : Nat} {arrival : Arrival} {client : IpAddr} {phase : Phase}
      (hAt : s.connections[j]? = some ⟨arrival, client, .connected⟩)
      (hPhase : d.begin arrival = some phase) :
      Steps d s (.read j) (s.move j ⟨arrival, client, .connected⟩ phase)
  | look {j : Nat} {arrival : Arrival} {client : IpAddr} {asked : Routed} (sight : Sight)
      (out : Option HttpResponse)
      (hAt : s.connections[j]? = some ⟨arrival, client, .looking asked⟩) :
      Steps d s (.look j sight) (s.move j ⟨arrival, client, .looking asked⟩ (.closed out))
  | lock {j : Nat} {arrival : Arrival} {client : IpAddr} {c : Change} {w : AuditWriter} (tsMs : Int)
      (hAt : s.connections[j]? = some ⟨arrival, client, .recording c⟩) (hFree : s.holder = none)
      (hWriter : s.audit.writer = some w) (hAvailable : w.available = true)
      (hIdle : w.inserting = none) :
      Steps d s (.lock j tsMs) { s with
        audit := { s.audit with
          writer := some (Audit.lock d.sha256 d.verifier w ((c.call client).entry tsMs)) }
        holder := some j }
  | skip {j : Nat} {arrival : Arrival} {client : IpAddr} {c : Change} {w : AuditWriter} (tsMs : Int)
      (hAt : s.connections[j]? = some ⟨arrival, client, .recording c⟩) (hFree : s.holder = none)
      (hWriter : s.audit.writer = some w) (hAvailable : w.available = false) :
      Steps d s (.lock j tsMs) { s.move j ⟨arrival, client, .recording c⟩ (.recorded c) with
        unlogged := s.unlogged ++ [c.call client] }
  | commit {w : AuditWriter} {row : AuditRow} (hWriter : s.audit.writer = some w)
      (hInserting : w.inserting = some ⟨row, false⟩) :
      Steps d s .commit { s with
        audit := ⟨s.audit.rows ++ [row], some { w with inserting := some ⟨row, true⟩ }⟩ }
  | reply {j : Nat} {arrival : Arrival} {client : IpAddr} {c : Change} {w : AuditWriter}
      {pending : Inserting} {ok : Bool} (hHolder : s.holder = some j)
      (hAt : s.connections[j]? = some ⟨arrival, client, .recording c⟩)
      (hWriter : s.audit.writer = some w) (hInserting : w.inserting = some pending)
      (hHonest : ok = true → pending.committed = true) :
      Steps d s (.reply ok) { s.move j ⟨arrival, client, .recording c⟩ (.recorded c) with
        audit := { s.audit with writer := some (Audit.reply w pending ok) }
        holder := none
        unlogged := if s.inserted = [] then s.unlogged ++ [c.call client] else s.unlogged }
  | enter {j : Nat} {arrival : Arrival} {client : IpAddr} {c : Change} (place : Nat) (id : Str)
      (hAt : s.connections[j]? = some ⟨arrival, client, .recorded c⟩) :
      Steps d s (.enter j place id) {
        s.move j ⟨arrival, client, .recorded c⟩ (.requested c s.api.requests.length) with
        api := { s.api with requests := s.api.requests ++ [⟨c.route place id, .accepted⟩] } }
  | change {j k : Nat} {arrival : Arrival} {client : IpAddr} {c : Change} {r : Request} {api : State}
      (hAt : s.connections[j]? = some ⟨arrival, client, .requested c k⟩)
      (hRequest : s.api.requests[k]? = some r)
      (hStep : s.api.step d.same d.mapFile (.advance k) = some api) :
      Steps d s (.advance j) { s.move j ⟨arrival, client, .requested c k⟩ (.changed c k) with
        api
        written := s.written ++ [⟨arrival, client, r.route⟩] }
  | advance {j k : Nat} {arrival : Arrival} {client : IpAddr} {c : Change} {r : Request} {api : State}
      (hAt : s.connections[j]? = some ⟨arrival, client, .changed c k⟩)
      (hRequest : s.api.requests[k]? = some r)
      (hStep : s.api.step d.same d.mapFile (.advance k) = some api) :
      Steps d s (.advance j) { s.move j ⟨arrival, client, .changed c k⟩ (.changed c k) with api }
  | abandon {j k : Nat} {arrival : Arrival} {client : IpAddr} {c : Change} {r : Request} {api : State}
      (text : String)
      (hAt : s.connections[j]? = some ⟨arrival, client, .requested c k⟩)
      (hRequest : s.api.requests[k]? = some r)
      (hStep : s.api.step d.same d.mapFile (.fail k) = some api) :
      Steps d s (.fail j text) {
        s.move j ⟨arrival, client, .requested c k⟩
          (.closed (some (internalError (d.failure text).text))) with
        api
        abandoned := s.abandoned ++ [c.call client] }
  | fail {j k : Nat} {arrival : Arrival} {client : IpAddr} {c : Change} {r : Request} {api : State}
      (text : String)
      (hAt : s.connections[j]? = some ⟨arrival, client, .changed c k⟩)
      (hRequest : s.api.requests[k]? = some r)
      (hStep : s.api.step d.same d.mapFile (.fail k) = some api) :
      Steps d s (.fail j text) {
        s.move j ⟨arrival, client, .changed c k⟩
          (.closed (some (internalError (d.failure text).text))) with api }

theorem steps_advance {j k : Nat} {c : Connection} {change : Change} {first : Bool}
    (hStep : s.advance d j c change k first = some s') :
    ∃ r api, s.api.requests[k]? = some r ∧ s.api.step d.same d.mapFile (.advance k) = some api ∧
      s' = { s.move j c (.changed change k) with
        api
        written := if first then s.written ++ [⟨c.arrival, c.client, r.route⟩] else s.written } := by
  rw [advance] at hStep
  cases hRequest : s.api.requests[k]? with
  | none =>
      rw [hRequest] at hStep
      cases hStep
  | some r =>
      rw [hRequest] at hStep
      dsimp only at hStep
      by_cases hAdmits : d.Admits r false
      · rw [if_pos hAdmits] at hStep
        obtain ⟨api, hApi, rfl⟩ := Option.map_eq_some_iff.mp hStep
        exact ⟨r, api, rfl, hApi, rfl⟩
      · rw [if_neg hAdmits] at hStep
        cases hStep

theorem steps_fail {j k : Nat} {c : Connection} {change : Change} {first : Bool} {text : String}
    (hStep : s.fail d j c change k first text = some s') :
    ∃ r api, s.api.requests[k]? = some r ∧ s.api.step d.same d.mapFile (.fail k) = some api ∧
      s' = { s.move j c (.closed (some (internalError (d.failure text).text))) with
        api
        abandoned := if first then s.abandoned ++ [change.call c.client] else s.abandoned } := by
  rw [fail] at hStep
  cases hRequest : s.api.requests[k]? with
  | none =>
      rw [hRequest] at hStep
      cases hStep
  | some r =>
      rw [hRequest] at hStep
      dsimp only at hStep
      by_cases hAdmits : d.Admits r true
      · rw [if_pos hAdmits] at hStep
        obtain ⟨api, hApi, rfl⟩ := Option.map_eq_some_iff.mp hStep
        exact ⟨r, api, rfl, hApi, rfl⟩
      · rw [if_neg hAdmits] at hStep
        cases hStep

/-- What the log does for the holder of its lock. -/
theorem audit_commit {audit audit' : Audit} (hStep : audit.step d.sha256 d.verifier .commit = some audit') :
    ∃ w row, audit.writer = some w ∧ w.inserting = some ⟨row, false⟩ ∧
      audit' = ⟨audit.rows ++ [row], some { w with inserting := some ⟨row, true⟩ }⟩ := by
  rw [Audit.step] at hStep
  split at hStep
  · rename_i w hWriter
    split at hStep
    · rename_i row hInserting
      cases hStep
      exact ⟨w, row, hWriter, hInserting, rfl⟩
    · cases hStep
  · cases hStep

theorem audit_reply {audit audit' : Audit} {ok : Bool}
    (hStep : audit.step d.sha256 d.verifier (.reply ok) = some audit') :
    ∃ w pending, audit.writer = some w ∧ w.inserting = some pending ∧
      (ok = true → pending.committed = true) ∧
      audit' = { audit with writer := some (Audit.reply w pending ok) } := by
  rw [Audit.step] at hStep
  split at hStep
  · rename_i w hWriter
    split at hStep
    · rename_i pending hInserting
      split_ifs at hStep with hLie
      cases hStep
      exact ⟨w, pending, hWriter, hInserting, by simpa using hLie, rfl⟩
    · cases hStep
  · cases hStep

theorem audit_lock {audit audit' : Audit} {e : Entry} {w : AuditWriter} (hWriter : audit.writer = some w)
    (hAvailable : w.available = true) (hStep : audit.step d.sha256 d.verifier (.lock e) = some audit') :
    w.inserting = none ∧
      audit' = { audit with writer := some (Audit.lock d.sha256 d.verifier w e) } := by
  rw [Audit.step, hWriter] at hStep
  dsimp only at hStep
  rw [if_neg (by simp [hAvailable])] at hStep
  split_ifs at hStep with hBusy
  cases hStep
  exact ⟨Option.not_isSome_iff_eq_none.mp hBusy, rfl⟩

theorem step_cases {a : Action} (hStep : step d s a = some s') : Steps d s a s' := by
  cases a with
  | connect arrival client =>
      cases hStep
      exact .connect arrival client
  | read j =>
      rw [step] at hStep
      split at hStep
      · rename_i arrival client hAt
        obtain ⟨phase, hPhase, rfl⟩ := Option.map_eq_some_iff.mp hStep
        exact .begin hAt hPhase
      · cases hStep
  | look j sight =>
      rw [step] at hStep
      split at hStep
      · rename_i arrival client asked hAt
        cases hStep
        exact .look sight _ hAt
      · cases hStep
  | lock j tsMs =>
      rw [step] at hStep
      split at hStep
      · rename_i arrival client c hAt
        rw [lock] at hStep
        split at hStep
        · cases hStep
        · rename_i w hWriter
          dsimp only at hStep
          split_ifs at hStep with hHolder hAvailable
          · obtain ⟨audit, hAudit, rfl⟩ := Option.map_eq_some_iff.mp hStep
            obtain ⟨hIdle, rfl⟩ := audit_lock hWriter hAvailable hAudit
            exact .lock tsMs hAt (Option.not_isSome_iff_eq_none.mp hHolder) hWriter hAvailable hIdle
          · cases hStep
            exact .skip tsMs hAt (Option.not_isSome_iff_eq_none.mp hHolder) hWriter
              (Bool.not_eq_true _ ▸ hAvailable)
      · cases hStep
  | commit =>
      obtain ⟨audit, hAudit, rfl⟩ := Option.map_eq_some_iff.mp hStep
      obtain ⟨w, row, hWriter, hInserting, rfl⟩ := audit_commit hAudit
      exact .commit hWriter hInserting
  | reply ok =>
      rw [step] at hStep
      split at hStep
      · cases hStep
      · rename_i j hHolder
        split at hStep
        · rename_i arrival client c hAt
          obtain ⟨audit, hAudit, rfl⟩ := Option.map_eq_some_iff.mp hStep
          obtain ⟨w, pending, hWriter, hInserting, hHonest, rfl⟩ := audit_reply hAudit
          exact .reply hHolder hAt hWriter hInserting hHonest
        · cases hStep
  | enter j place id =>
      rw [step] at hStep
      split at hStep
      · rename_i arrival client c hAt
        cases hStep
        exact .enter place id hAt
      · cases hStep
  | advance j =>
      rw [step] at hStep
      split at hStep
      · rename_i arrival client c k hAt
        obtain ⟨r, api, hRequest, hApi, rfl⟩ := steps_advance hStep
        exact .change hAt hRequest hApi
      · rename_i arrival client c k hAt
        obtain ⟨r, api, hRequest, hApi, rfl⟩ := steps_advance hStep
        exact .advance hAt hRequest hApi
      · cases hStep
  | fail j text =>
      rw [step] at hStep
      split at hStep
      · rename_i arrival client c k hAt
        obtain ⟨r, api, hRequest, hApi, rfl⟩ := steps_fail hStep
        exact .abandon text hAt hRequest hApi
      · rename_i arrival client c k hAt
        obtain ⟨r, api, hRequest, hApi, rfl⟩ := steps_fail hStep
        exact .fail text hAt hRequest hApi
      · cases hStep

end Steps

end Management

end Dnsd.Api
