import Dnsd.Base.Parties
import Dnsd.Base.Runs
import Dnsd.Store.Tables

/-! Requests of the management API, step by step: a write of the database, four
reads of its tables, and the installation of what has been read. -/

namespace Dnsd.Api

open Resolve Store

/-- The requests that end in `reload_all`; the load at start-up is a `reload`. -/
inductive Route where
  | reload
  | createZone (place : Nat) (id name : Str)
  | createRecord (place : Nat) (zr : ZoneRecord)
  | block (place : Nat) (domain mode : Str)
  | unblock (domain : Str)

/-- The statement of a route on the tables; the reload itself has none. -/
def Route.write (same : Str → Str → Bool) (t : Tables) : Route → Tables
  | .reload => t
  | .createZone place id name => t.insertZone place id name
  | .createRecord place zr => t.insertZoneRecord place zr
  | .block place domain mode => t.insertBlocked place domain mode
  | .unblock domain => t.deleteBlocked same domain

/-- What a request has done last, and what it has read so far. -/
inductive Stage where
  | accepted
  | written
  | readZones (zones : Loaded Zone)
  | readRecords (zones : Loaded Zone) (records : Loaded ZoneRecord)
  | readBlocked (zones : Loaded Zone) (records : Loaded ZoneRecord) (blocked : Loaded BlockedDomain)
  | loaded (zones : Loaded Zone) (records : Loaded ZoneRecord) (blocked : Loaded BlockedDomain)
      (bindings : Loaded DualstackBinding)
  | reloaded (bindings : Loaded DualstackBinding)
  | returned
  | failed

/-- A request that changes something, and how far it has come. -/
structure Request where
  route : Route
  stage : Stage

/-- The writes that the three tables of an installed policy had seen. -/
structure Stamp where
  zones : Nat
  records : Nat
  blocked : Nat

/-- The database, the pipeline and the requests so far. The stamp of the installed
policy is not in the program. -/
structure State where
  tables : Tables
  policy : Policy := {}
  bindings : BindingTable := {}
  installed : Option Stamp := none
  requests : List Request := []

/-- `advance` is the next step of a request, `fail` an error of its next query. -/
inductive Action where
  | arrive (route : Route)
  | advance (i : Nat)
  | fail (i : Nat)

/-- The next step of the request is a statement or a query, which can fail. -/
def Stage.queries : Stage → Bool
  | .accepted | .written | .readZones _ | .readRecords _ _ | .readBlocked _ _ _ => true
  | .loaded _ _ _ _ | .reloaded _ | .returned | .failed => false

namespace State

/-- One request goes on to another stage; nothing else changes. -/
def move (s : State) (i : Nat) (route : Route) (stage : Stage) : State :=
  { s with requests := s.requests.set i ⟨route, stage⟩ }

/-- `Pipeline::reload`: both lists are replaced at once, under the lock of the policy. -/
def reload (s : State) (zones : Loaded Zone) (records : Loaded ZoneRecord)
    (blocked : Loaded BlockedDomain) : State :=
  { s with
    policy := Policy.reload zones.rows records.rows blocked.rows
    installed := some ⟨zones.writes, records.writes, blocked.writes⟩ }

/-- What the next action of a request does: its statement, the three queries of the reload
one after the other, the installation of each table, the return. -/
def advance (same : Str → Str → Bool) (mapFile : Option Str) (s : State) (i : Nat) (route : Route) :
    Stage → Option State
  | .accepted => some ({ s with tables := route.write same s.tables }.move i route .written)
  | .written => some (s.move i route (.readZones s.tables.loadZones))
  | .readZones zones => some (s.move i route (.readRecords zones s.tables.loadZoneRecords))
  | .readRecords zones records =>
      some (s.move i route (.readBlocked zones records s.tables.loadBlocked))
  | .readBlocked zones records blocked =>
      some (s.move i route (.loaded zones records blocked s.tables.loadBindings))
  | .loaded zones records blocked bindings =>
      some ((s.reload zones records blocked).move i route (.reloaded bindings))
  | .reloaded bindings =>
      some ({ s with bindings := reloadBindings mapFile bindings.rows }.move i route .returned)
  | .returned | .failed => none

/-- A request arrives, or one of those that are there does its next action. The requests
take turns in any order. -/
def step (same : Str → Str → Bool) (mapFile : Option Str) (s : State) : Action → Option State
  | .arrive route => some { s with requests := s.requests ++ [⟨route, .accepted⟩] }
  | .advance i =>
      match s.requests[i]? with
      | some ⟨route, stage⟩ => s.advance same mapFile i route stage
      | none => none
  | .fail i =>
      match s.requests[i]? with
      | some ⟨route, stage⟩ => if stage.queries then some (s.move i route .failed) else none
      | none => none

/-- A step does not install what is older than what is installed. -/
def InOrder (s : State) : Action → Prop
  | .advance i =>
      match s.requests[i]? with
      | some ⟨_, .loaded zones records blocked _⟩ => ∀ stamp ∈ s.installed,
          stamp.zones ≤ zones.writes ∧ stamp.records ≤ records.writes ∧
            stamp.blocked ≤ blocked.writes
      | _ => True
  | _ => True

instance (s : State) (a : Action) : Decidable (s.InOrder a) := by
  unfold InOrder
  repeat' split
  all_goals infer_instance

end State

/-! ## Freshness of one table -/

/-- How far a request is with one of the tables. -/
inductive Progress where
  | unread
  | read (writes : Nat)
  | done
  | failed

/-- A request that leaves the table as it is installed to be stale for now: it will
install all writes, or it has failed. -/
def Progress.Excuses (writes : Nat) : Progress → Prop
  | .unread | .failed => True
  | .read seen => seen = writes
  | .done => False

/-- All writes of a table are installed, or some request excuses that they are not. -/
def Fresh (progress : Stage → Progress) (writes : Nat) (stamp : Option Nat)
    (requests : List Request) : Prop :=
  requests = [] ∨ stamp = some writes ∨ ∃ r ∈ requests, (progress r.stage).Excuses writes

section Fresh

variable {progress : Stage → Progress} {writes : Nat} {stamp : Option Nat} {requests : List Request}
  {i : Nat} {route : Route} {old new : Stage}

/-- A request that has not read its table, or has failed to, leaves the others as fresh as
they were. -/
theorem Fresh.of_unread (hRequest : requests[i]? = some ⟨route, old⟩)
    (hNew : progress new = .unread ∨ progress new = .failed) :
    Fresh progress writes stamp (requests.set i ⟨route, new⟩) := by
  refine Or.inr (Or.inr ⟨⟨route, new⟩, ?_, ?_⟩)
  · exact List.mem_of_getElem? (by rw [Parties.set_get hRequest, if_pos rfl])
  · rcases hNew with hNew | hNew
    · rw [hNew]
      trivial
    · rw [hNew]
      trivial

/-- A request that goes on keeps what is installed fresh, as long as it is excused for as
many writes as before. -/
theorem Fresh.move (h : Fresh progress writes stamp requests)
    (hRequest : requests[i]? = some ⟨route, old⟩)
    (hKeep : (progress old).Excuses writes → (progress new).Excuses writes) :
    Fresh progress writes stamp (requests.set i ⟨route, new⟩) := by
  rcases h with rfl | hStamp | hSome
  · simp at hRequest
  · exact Or.inr (Or.inl hStamp)
  · exact Or.inr (Or.inr (Parties.exists_set hRequest hSome hKeep))

/-- An installation that is not older than the one before it. -/
theorem Fresh.install (h : Fresh progress writes stamp requests)
    (hRequest : requests[i]? = some ⟨route, old⟩) {seen : Nat} (hOld : progress old = .read seen)
    (hSeen : seen ≤ writes) (hOrder : ∀ before ∈ stamp, before ≤ seen) :
    Fresh progress writes (some seen) (requests.set i ⟨route, new⟩) := by
  by_cases hAll : seen = writes
  · exact Or.inr (Or.inl (congrArg some hAll))
  · have hStale : ¬(progress old).Excuses writes := by
      rw [hOld]
      exact hAll
    rcases h with rfl | hStamp | hSome
    · simp at hRequest
    · have hBefore := hOrder writes hStamp
      omega
    · exact Or.inr (Or.inr (Parties.exists_set hRequest hSome fun hHolds => absurd hHolds hStale))

/-- When all requests are done with a table, what is installed of it has every write. -/
theorem Fresh.eq_of_done (h : Fresh progress writes stamp requests) (hAny : requests ≠ [])
    (hDone : ∀ r ∈ requests, progress r.stage = .done) : stamp = some writes := by
  rcases h with hNone | hStamp | ⟨r, hr, hHolds⟩
  · exact absurd hNone hAny
  · exact hStamp
  · rw [hDone r hr] at hHolds
    exact hHolds.elim

end Fresh

namespace Stage

/-- How far a reload has come with the zones: not yet read, read and not yet installed, or
installed. -/
def zonesProgress : Stage → Progress
  | .accepted | .written => .unread
  | .readZones z | .readRecords z _ | .readBlocked z _ _ | .loaded z _ _ _ => .read z.writes
  | .reloaded _ | .returned => .done
  | .failed => .failed

/-- The same for the records of the zones, which are read behind the zones. -/
def recordsProgress : Stage → Progress
  | .accepted | .written | .readZones _ => .unread
  | .readRecords _ r | .readBlocked _ r _ | .loaded _ r _ _ => .read r.writes
  | .reloaded _ | .returned => .done
  | .failed => .failed

/-- The same for the blocked domains, which are read last. -/
def blockedProgress : Stage → Progress
  | .accepted | .written | .readZones _ | .readRecords _ _ => .unread
  | .readBlocked _ _ b | .loaded _ _ b _ => .read b.writes
  | .reloaded _ | .returned => .done
  | .failed => .failed

/-- What a request has read comes from the tables. Nothing writes the bindings. -/
def Holds (t : Tables) : Stage → Prop
  | .accepted | .written | .returned | .failed => True
  | .readZones z => z.Of id t.zones
  | .readRecords z r => z.Of id t.zones ∧ r.Of id t.zoneRecords
  | .readBlocked z r b =>
      z.Of id t.zones ∧ r.Of id t.zoneRecords ∧ b.Of Tables.toBlocked t.blockedDomains
  | .loaded z r b d =>
      z.Of id t.zones ∧ r.Of id t.zoneRecords ∧ b.Of Tables.toBlocked t.blockedDomains ∧
        d = t.loadBindings
  | .reloaded d => d = t.loadBindings

end Stage

/-- Tables behind a write of a request. The bindings are as they were, and each of the
others is as it was or behind a statement. -/
structure Grown (t t' : Tables) : Prop where
  zones : t.zones.Grows t'.zones
  zoneRecords : t.zoneRecords.Grows t'.zoneRecords
  blockedDomains : t.blockedDomains.Grows t'.blockedDomains
  dualstackBindings : t'.dualstackBindings = t.dualstackBindings

theorem write_grown (same : Str → Str → Bool) (t : Tables) (route : Route) :
    Grown t (route.write same t) := by
  have hSame : Grown t t := ⟨.refl _, .refl _, .refl _, rfl⟩
  cases route with
  | reload => exact hSame
  | createZone place id name => exact { hSame with zones := Table.grows_insert _ _ _ }
  | createRecord place zr => exact { hSame with zoneRecords := Table.grows_insert _ _ _ }
  | block place domain mode => exact { hSame with blockedDomains := Table.grows_insert _ _ _ }
  | unblock domain =>
      exact { hSame with
        blockedDomains := t.blockedDomains.grows_delete fun row => same row.domain domain.toLowercase }

theorem Stage.Holds.grow {t t' : Tables} {stage : Stage} (h : stage.Holds t) (hGrown : Grown t t') :
    stage.Holds t' := by
  have hBindings : t'.loadBindings = t.loadBindings := by
    rw [Tables.loadBindings, hGrown.dualstackBindings, Tables.loadBindings]
  cases stage with
  | accepted | written | returned | failed => trivial
  | readZones z => exact Loaded.Of.grow h hGrown.zones
  | readRecords z r => exact ⟨h.1.grow hGrown.zones, h.2.grow hGrown.zoneRecords⟩
  | readBlocked z r b =>
      obtain ⟨hZones, hRecords, hBlocked⟩ := h
      exact ⟨hZones.grow hGrown.zones, hRecords.grow hGrown.zoneRecords,
        hBlocked.grow hGrown.blockedDomains⟩
  | loaded z r b d =>
      obtain ⟨hZones, hRecords, hBlocked, hHeld⟩ := h
      exact ⟨hZones.grow hGrown.zones, hRecords.grow hGrown.zoneRecords,
        hBlocked.grow hGrown.blockedDomains, hHeld.trans hBindings.symm⟩
  | reloaded d => exact Eq.trans h hBindings.symm

/-! ## The invariant -/

/-- What is installed has been read from the tables. -/
def Installed (s : State) : Prop :=
  ∀ stamp ∈ s.installed, ∃ (z : Loaded Zone) (r : Loaded ZoneRecord) (b : Loaded BlockedDomain),
    stamp = ⟨z.writes, r.writes, b.writes⟩ ∧ s.policy = Policy.reload z.rows r.rows b.rows ∧
      z.Of id s.tables.zones ∧ r.Of id s.tables.zoneRecords ∧
      b.Of Tables.toBlocked s.tables.blockedDomains

/-- What every step keeps: for each of the three tables the reads and the installations
are as fresh as the requests say, and the stages of the requests fit the tables. -/
structure Sound (mapFile : Option Str) (s : State) : Prop where
  zones : Fresh Stage.zonesProgress s.tables.zones.writes (s.installed.map Stamp.zones) s.requests
  records : Fresh Stage.recordsProgress s.tables.zoneRecords.writes (s.installed.map Stamp.records)
    s.requests
  blocked : Fresh Stage.blockedProgress s.tables.blockedDomains.writes
    (s.installed.map Stamp.blocked) s.requests
  holds : ∀ r ∈ s.requests, r.stage.Holds s.tables
  installed : Installed s
  bindings : ∀ r ∈ s.requests, r.stage = .returned →
    s.bindings = reloadBindings mapFile s.tables.loadBindings.rows

section Steps

variable {mapFile : Option Str} {s s' : State} {i : Nat} {route : Route} {old new : Stage}

/-- A request that arrives has read nothing yet, so everything stays sound. -/
theorem Sound.arrive (h : Sound mapFile s) (route : Route) :
    Sound mapFile { s with requests := s.requests ++ [⟨route, .accepted⟩] } := by
  have hFresh (progress : Stage → Progress) (writes : Nat) (stamp : Option Nat)
      (hUnread : progress .accepted = .unread) :
      Fresh progress writes stamp (s.requests ++ [⟨route, .accepted⟩]) := by
    refine Or.inr (Or.inr ⟨⟨route, .accepted⟩, by simp, ?_⟩)
    rw [hUnread]
    trivial
  refine ⟨hFresh _ _ _ rfl, hFresh _ _ _ rfl, hFresh _ _ _ rfl, fun r hr => ?_, h.installed,
    fun r hr hReturned => ?_⟩
  · rcases List.mem_append.mp hr with hOld | hNew
    · exact h.holds r hOld
    · rw [List.mem_singleton.mp hNew]
      trivial
  · rcases List.mem_append.mp hr with hOld | hNew
    · exact h.bindings r hOld hReturned
    · rw [List.mem_singleton.mp hNew] at hReturned
      cases hReturned

/-- A request that reads a table, or fails. -/
theorem Sound.move (h : Sound mapFile s) (hRequest : s.requests[i]? = some ⟨route, old⟩)
    (hZones : (old.zonesProgress).Excuses s.tables.zones.writes →
      (new.zonesProgress).Excuses s.tables.zones.writes)
    (hRecords : (old.recordsProgress).Excuses s.tables.zoneRecords.writes →
      (new.recordsProgress).Excuses s.tables.zoneRecords.writes)
    (hBlocked : (old.blockedProgress).Excuses s.tables.blockedDomains.writes →
      (new.blockedProgress).Excuses s.tables.blockedDomains.writes)
    (hHolds : new.Holds s.tables) (hNew : new ≠ .returned) : Sound mapFile (s.move i route new) where
  zones := h.zones.move hRequest hZones
  records := h.records.move hRequest hRecords
  blocked := h.blocked.move hRequest hBlocked
  holds := Parties.forall_set h.holds hHolds
  installed := h.installed
  bindings := Parties.forall_set h.bindings fun hReturned => absurd hReturned hNew

/-- A write makes what was read before it stale, and its own request has still to read. -/
theorem Sound.write (h : Sound mapFile s) (hRequest : s.requests[i]? = some ⟨route, .accepted⟩)
    (same : Str → Str → Bool) :
    Sound mapFile ({ s with tables := route.write same s.tables }.move i route .written) := by
  have hGrown := write_grown same s.tables route
  have hHolds : ∀ r ∈ s.requests, r.stage.Holds (route.write same s.tables) :=
    fun r hr => (h.holds r hr).grow hGrown
  have hBindings : (route.write same s.tables).loadBindings = s.tables.loadBindings := by
    rw [Tables.loadBindings, hGrown.dualstackBindings, Tables.loadBindings]
  refine ⟨.of_unread hRequest (Or.inl rfl), .of_unread hRequest (Or.inl rfl),
    .of_unread hRequest (Or.inl rfl), Parties.forall_set hHolds trivial, fun stamp hStamp => ?_,
    Parties.forall_set (fun r hr hReturned => ?_) fun hReturned => (by cases hReturned)⟩
  · obtain ⟨z, r, b, hEq, hPolicy, hZones, hRecords, hBlocked⟩ := h.installed stamp hStamp
    exact ⟨z, r, b, hEq, hPolicy, hZones.grow hGrown.zones, hRecords.grow hGrown.zoneRecords,
      hBlocked.grow hGrown.blockedDomains⟩
  · exact (h.bindings r hr hReturned).trans (congrArg (fun d => reloadBindings mapFile d.rows)
      hBindings.symm)

/-- The lists that were read are installed, and they have no fewer writes than those they
replace. -/
theorem Sound.reload (h : Sound mapFile s) {z : Loaded Zone} {r : Loaded ZoneRecord}
    {b : Loaded BlockedDomain} {d : Loaded DualstackBinding}
    (hRequest : s.requests[i]? = some ⟨route, .loaded z r b d⟩)
    (hOrder : ∀ stamp ∈ s.installed, stamp.zones ≤ z.writes ∧ stamp.records ≤ r.writes ∧
      stamp.blocked ≤ b.writes) :
    Sound mapFile ((s.reload z r b).move i route (.reloaded d)) := by
  obtain ⟨hZones, hRecords, hBlocked, hHeld⟩ := h.holds _ (List.mem_of_getElem? hRequest)
  refine ⟨?_, ?_, ?_, Parties.forall_set h.holds hHeld, fun stamp hStamp => ?_,
    Parties.forall_set h.bindings fun hReturned => (by cases hReturned)⟩
  · refine h.zones.install hRequest rfl hZones.le fun before hBefore => ?_
    obtain ⟨stamp, hStamp, rfl⟩ := Option.map_eq_some_iff.mp hBefore
    exact (hOrder stamp hStamp).1
  · refine h.records.install hRequest rfl hRecords.le fun before hBefore => ?_
    obtain ⟨stamp, hStamp, rfl⟩ := Option.map_eq_some_iff.mp hBefore
    exact (hOrder stamp hStamp).2.1
  · refine h.blocked.install hRequest rfl hBlocked.le fun before hBefore => ?_
    obtain ⟨stamp, hStamp, rfl⟩ := Option.map_eq_some_iff.mp hBefore
    exact (hOrder stamp hStamp).2.2
  · cases hStamp
    exact ⟨z, r, b, rfl, rfl, hZones, hRecords, hBlocked⟩

/-- The bindings are installed last, by a request that then returns. -/
theorem Sound.install (h : Sound mapFile s) {d : Loaded DualstackBinding}
    (hRequest : s.requests[i]? = some ⟨route, .reloaded d⟩) :
    Sound mapFile
      ({ s with bindings := reloadBindings mapFile d.rows }.move i route .returned) := by
  have hHeld : d = s.tables.loadBindings := h.holds _ (List.mem_of_getElem? hRequest)
  refine ⟨h.zones.move hRequest id, h.records.move hRequest id, h.blocked.move hRequest id,
    Parties.forall_set h.holds trivial, h.installed, fun _ _ _ => ?_⟩
  exact congrArg (fun d => reloadBindings mapFile d.rows) hHeld

/-- Every step of a request keeps the installed tables sound, if it installs nothing older
than what is there. -/
theorem sound_advance {same : Str → Str → Bool} (h : Sound mapFile s) (hOrder : s.InOrder (.advance i))
    (hRequest : s.requests[i]? = some ⟨route, old⟩)
    (hStep : s.advance same mapFile i route old = some s') : Sound mapFile s' := by
  have hHolds : old.Holds s.tables := h.holds _ (List.mem_of_getElem? hRequest)
  cases old with
  | accepted =>
      cases hStep
      exact h.write hRequest same
  | written =>
      cases hStep
      exact h.move hRequest (fun _ => rfl) id id (.load id _) (by simp)
  | readZones z =>
      cases hStep
      exact h.move hRequest id (fun _ => rfl) id ⟨hHolds, .load id _⟩ (by simp)
  | readRecords z r =>
      cases hStep
      exact h.move hRequest id id (fun _ => rfl) ⟨hHolds.1, hHolds.2, .load _ _⟩ (by simp)
  | readBlocked z r b =>
      cases hStep
      exact h.move hRequest id id id ⟨hHolds.1, hHolds.2.1, hHolds.2.2, rfl⟩ (by simp)
  | loaded z r b d =>
      cases hStep
      rw [State.InOrder, hRequest] at hOrder
      exact h.reload hRequest hOrder
  | reloaded d =>
      cases hStep
      exact h.install hRequest
  | returned | failed => cases hStep

/-- So does every action, the arrival of a request included. -/
theorem sound_step {same : Str → Str → Bool} {a : Action} (h : Sound mapFile s) (hOrder : s.InOrder a)
    (hStep : s.step same mapFile a = some s') : Sound mapFile s' := by
  cases a with
  | arrive route =>
      cases hStep
      exact h.arrive route
  | advance i =>
      rw [State.step] at hStep
      split at hStep
      · rename_i route stage hRequest
        exact sound_advance h hOrder hRequest hStep
      · cases hStep
  | fail i =>
      rw [State.step] at hStep
      split at hStep
      · rename_i route stage hRequest
        split_ifs at hStep
        cases hStep
        exact h.move hRequest (fun _ => trivial) (fun _ => trivial) (fun _ => trivial) trivial (by simp)
      · cases hStep

end Steps

/-- In every run without an installation that is older than the one before it, all
tables are installed when all requests, at least one, have returned. -/
theorem installed_run {same : Str → Str → Bool} {mapFile : Option Str} {tables : Tables}
    {actions : List Action} {s : State}
    (hOrder : Runs.Meets (State.step same mapFile) State.InOrder { tables } actions)
    (hRun : Runs.run (State.step same mapFile) { tables } actions = some s) (hAny : s.requests ≠ [])
    (hReturned : ∀ r ∈ s.requests, r.stage = .returned) :
    s.policy.block = BlockList.new s.tables.loadBlocked.rows ∧
      s.policy.zones = ZoneIndex.new s.tables.loadZones.rows s.tables.loadZoneRecords.rows ∧
      s.bindings = reloadBindings mapFile s.tables.loadBindings.rows := by
  have hStart : Sound mapFile { tables } :=
    ⟨Or.inl rfl, Or.inl rfl, Or.inl rfl, by simp, by simp [Installed], by simp⟩
  have hSound : Sound mapFile s := hOrder.invariant (fun _ _ _ => sound_step) hStart hRun
  have hZones := hSound.zones.eq_of_done hAny fun r hr => by rw [hReturned r hr]; rfl
  have hRecords := hSound.records.eq_of_done hAny fun r hr => by rw [hReturned r hr]; rfl
  have hBlocked := hSound.blocked.eq_of_done hAny fun r hr => by rw [hReturned r hr]; rfl
  obtain ⟨stamp, hStamp, hZonesEq⟩ := Option.map_eq_some_iff.mp hZones
  rw [hStamp, Option.map_some, Option.some.injEq] at hRecords hBlocked
  obtain ⟨z, r, b, rfl, hPolicy, hOfZones, hOfRecords, hOfBlocked⟩ := hSound.installed stamp hStamp
  rw [hPolicy, Policy.reload, hOfZones.rows hZonesEq, hOfRecords.rows hRecords,
    hOfBlocked.rows hBlocked]
  obtain ⟨q, hq⟩ := List.exists_mem_of_ne_nil _ hAny
  exact ⟨rfl, rfl, hSound.bindings q hq (hReturned q hq)⟩

/-- The request has been answered, after its change and its reload. -/
def Stage.isReturned : Stage → Bool
  | .returned => true
  | _ => false

theorem Stage.eq_of_isReturned {stage : Stage} (h : stage.isReturned = true) : stage = .returned := by
  cases stage with
  | returned => rfl
  | _ => cases h

theorem returned_of_map {requests : List Request} {all : List Bool}
    (h : requests.map (fun r => r.stage.isReturned) = all) (hAny : all ≠ []) (hAll : ∀ b ∈ all, b) :
    requests ≠ [] ∧ ∀ r ∈ requests, r.stage = .returned := by
  subst h
  refine ⟨fun hNone => hAny (by rw [hNone, List.map_nil]), fun r hr => ?_⟩
  exact Stage.eq_of_isReturned (hAll _ (List.mem_map.mpr ⟨r, hr, rfl⟩))

/-- Two names are blocked; the first request reads between write and reads of the second. -/
def twoBlocks : List Action :=
  [.arrive (.block 0 "a.example".toList "random".toList),
    .arrive (.block 0 "b.example".toList "loopback".toList), .advance 0, .advance 1] ++
  List.replicate 4 (.advance 0) ++ List.replicate 4 (.advance 1) ++
  [.advance 0, .advance 1, .advance 0, .advance 1]

theorem twoBlocks_returned : (Runs.run (State.step (· == ·) none) ⟨{}, {}, {}, none, []⟩ twoBlocks).map
    (fun s => s.requests.map fun r => r.stage.isReturned) = some [true, true] := by
  decide +kernel

/-- Both requests have returned, and block list, zones and bindings are those of the
tables, the write of either request included. -/
theorem installed_twoBlocks : ∃ s,
    Runs.run (State.step (· == ·) none) ⟨{}, {}, {}, none, []⟩ twoBlocks = some s ∧
      s.policy.block = BlockList.new s.tables.loadBlocked.rows ∧
      s.policy.zones = ZoneIndex.new s.tables.loadZones.rows s.tables.loadZoneRecords.rows ∧
      s.bindings = reloadBindings none s.tables.loadBindings.rows := by
  obtain ⟨s, hRun, hAll⟩ := Option.map_eq_some_iff.mp twoBlocks_returned
  obtain ⟨hAny, hReturned⟩ := returned_of_map hAll (by simp) (by simp)
  exact ⟨s, hRun, installed_run (by decide +kernel) hRun hAny hReturned⟩

/-- The first request reads before the write of the second one and installs behind it. -/
def staleInstall : List Action :=
  [.arrive (.block 0 "a.example".toList "random".toList),
    .arrive (.block 0 "b.example".toList "loopback".toList)] ++
  List.replicate 5 (.advance 0) ++ List.replicate 7 (.advance 1) ++ [.advance 0, .advance 0]

theorem staleInstall_drops : (Runs.run (State.step (· == ·) none) ⟨{}, {}, {}, none, []⟩ staleInstall).map
    (fun s => (s.requests.map fun r => r.stage.isReturned,
      s.policy.block.modeFor "b.example".toList,
      (BlockList.new s.tables.loadBlocked.rows).modeFor "b.example".toList)) =
    some ([true, true], none, some .loopback) := by
  decide +kernel

/-- The second domain is in the table and its request has returned, and the block list
that is installed last does not have it. -/
theorem lost_staleInstall : ¬∀ same mapFile (tables : Tables) actions s,
    Runs.run (State.step same mapFile) { tables } actions = some s → s.requests ≠ [] →
      (∀ r ∈ s.requests, r.stage = .returned) →
      s.policy.block = BlockList.new s.tables.loadBlocked.rows ∧
        s.policy.zones = ZoneIndex.new s.tables.loadZones.rows s.tables.loadZoneRecords.rows ∧
        s.bindings = reloadBindings mapFile s.tables.loadBindings.rows := by
  intro hAll
  obtain ⟨s, hRun, hEnd⟩ := Option.map_eq_some_iff.mp staleInstall_drops
  obtain ⟨hStages, hBlock⟩ := Prod.mk.inj hEnd
  obtain ⟨hInstalled, hTables⟩ := Prod.mk.inj hBlock
  obtain ⟨hAny, hReturned⟩ := returned_of_map hStages (by simp) (by simp)
  obtain ⟨hSame, _⟩ := hAll (· == ·) none {} staleInstall s hRun hAny hReturned
  rw [hSame, hTables] at hInstalled
  cases hInstalled

end Dnsd.Api
