import Dnsd.Base.Parties
import Dnsd.Base.Runs
import Dnsd.Resolve.Recurse

/-! Concurrent calls of `resolve`, step by step: a caller finds or inserts the
flight of its key, swaps its flag, and then leads it or waits for its result. -/

namespace Dnsd.Resolve.Singleflight

open Proto

/-- What a flight ends with: bytes, or the text of an error. -/
abbrev Resolved := Except String Bytes

/-- A flight, with two things that are not in the program: the key that it was
inserted under, and the caller that has won the swap. -/
structure Flight where
  key : Str
  started : Bool := false
  state : Option Resolved := none
  leader : Option Nat := none

/-- Where a caller is: behind its arrival always with the flight that it has
found. A leader whose resolution unwinds ends there. -/
inductive Stage where
  | arrived
  | found (flight : Nat)
  | leads (flight : Nat)
  | publishes (flight : Nat) (result : Resolved)
  | removes (flight : Nat) (result : Resolved)
  | waits (flight : Nat)
  | returned (flight : Nat) (result : Resolved)
  | unwound (flight : Nat)

/-- The flight that a caller has found or started. -/
def Stage.flight : Stage → Option Nat
  | .arrived => none
  | .found f | .leads f | .publishes f _ | .removes f _ | .waits f | .returned f _ | .unwound f =>
      some f

/-- A caller of `resolve`, and how far it has come. -/
structure Caller where
  asked : Asked
  stage : Stage

/-- A result that a caller has put in a flight. -/
structure Publication where
  flight : Nat
  caller : Nat
  result : Resolved

/-- The map of the flights, all flights and callers so far, and what has been
published. -/
structure State where
  inflight : HashMap Str Nat := ∅
  flights : List Flight := []
  callers : List Caller := []
  published : List Publication := []

/-- One step of one caller. The network is what a resolution meets. -/
inductive Action where
  | arrive (asked : Asked)
  | find (i : Nat)
  | swap (i : Nat)
  | resolve (i : Nat) (net : Network) (nesting n : Nat)
  | publish (i : Nat)
  | remove (i : Nat)
  | wake (i : Nat)

namespace State

/-- One caller goes on; map and flights stay. -/
def move (s : State) (i : Nat) (asked : Asked) (stage : Stage) : State :=
  { s with callers := s.callers.set i ⟨asked, stage⟩ }

/-- `map.entry(key).or_insert_with`: the flight of the key, or a new one that has not
started. -/
def find (s : State) (i : Nat) (asked : Asked) : State :=
  match s.inflight.get asked.key with
  | some f => s.move i asked (.found f)
  | none =>
      { s.move i asked (.found s.flights.length) with
        inflight := s.inflight.insert asked.key s.flights.length
        flights := s.flights ++ [{ key := asked.key }] }

/-- `started.swap(true)`: the first caller becomes the leader, all others wait. -/
def swap (s : State) (i : Nat) (asked : Asked) (f : Nat) (flight : Flight) : State :=
  if flight.started then s.move i asked (.waits f)
  else
    { s.move i asked (.leads f) with
      flights := s.flights.set f { flight with started := true, leader := some i } }

/-- The leader writes the result into the flight, and wakes whoever waits. -/
def publish (s : State) (i : Nat) (asked : Asked) (f : Nat) (flight : Flight) (result : Resolved) :
    State :=
  { s.move i asked (.removes f result) with
    flights := s.flights.set f { flight with state := some result }
    published := ⟨f, i, result⟩ :: s.published }

/-- `inflight.remove(&key)`, whatever flight is under the key by then. -/
def remove (s : State) (i : Nat) (asked : Asked) (f : Nat) (result : Resolved) : State :=
  { s.move i asked (.returned f result) with inflight := s.inflight.erase asked.key }

/-- The next action of one caller. Each takes a lock or gives it back, so the callers can
take turns here in any order. -/
def step (r : Resolver) (s : State) : Action → Option State
  | .arrive asked => some { s with callers := s.callers ++ [⟨asked, .arrived⟩] }
  | .find i =>
      match s.callers[i]? with
      | some ⟨asked, .arrived⟩ => some (s.find i asked)
      | _ => none
  | .swap i =>
      match s.callers[i]? with
      | some ⟨asked, .found f⟩ => (s.flights[f]?).map (s.swap i asked f)
      | _ => none
  | .resolve i net nesting n =>
      match s.callers[i]? with
      | some ⟨asked, .leads f⟩ =>
          match r.publish net nesting asked n with
          | some (.ok result, _) => some (s.move i asked (.publishes f result))
          | some (.panicked, _) => some (s.move i asked (.unwound f))
          | _ => none
      | _ => none
  | .publish i =>
      match s.callers[i]? with
      | some ⟨asked, .publishes f result⟩ =>
          (s.flights[f]?).map fun flight => s.publish i asked f flight result
      | _ => none
  | .remove i =>
      match s.callers[i]? with
      | some ⟨asked, .removes f result⟩ => some (s.remove i asked f result)
      | _ => none
  | .wake i =>
      match s.callers[i]? with
      | some ⟨asked, .waits f⟩ =>
          (s.flights[f]?).bind fun flight => flight.state.map fun result =>
            s.move i asked (.returned f result)
      | _ => none

/-- All that a step can do, with the stage of the caller that admits it. -/
inductive Steps (r : Resolver) (s : State) : Action → State → Prop where
  | arrive (asked : Asked) :
      Steps r s (.arrive asked) { s with callers := s.callers ++ [⟨asked, .arrived⟩] }
  | find {i : Nat} {asked : Asked} (hCaller : s.callers[i]? = some ⟨asked, .arrived⟩) :
      Steps r s (.find i) (s.find i asked)
  | swap {i f : Nat} {asked : Asked} {fl : Flight} (hCaller : s.callers[i]? = some ⟨asked, .found f⟩)
      (hFlight : s.flights[f]? = some fl) : Steps r s (.swap i) (s.swap i asked f fl)
  | resolve {i f nesting n n' : Nat} {net : Network} {asked : Asked} {result : Resolved}
      (hCaller : s.callers[i]? = some ⟨asked, .leads f⟩)
      (hResult : r.publish net nesting asked n = some (.ok result, n')) :
      Steps r s (.resolve i net nesting n) (s.move i asked (.publishes f result))
  | unwind {i f nesting n n' : Nat} {net : Network} {asked : Asked}
      (hCaller : s.callers[i]? = some ⟨asked, .leads f⟩)
      (hPanic : r.publish net nesting asked n = some (.panicked, n')) :
      Steps r s (.resolve i net nesting n) (s.move i asked (.unwound f))
  | publish {i f : Nat} {asked : Asked} {fl : Flight} {result : Resolved}
      (hCaller : s.callers[i]? = some ⟨asked, .publishes f result⟩)
      (hFlight : s.flights[f]? = some fl) :
      Steps r s (.publish i) (s.publish i asked f fl result)
  | remove {i f : Nat} {asked : Asked} {result : Resolved}
      (hCaller : s.callers[i]? = some ⟨asked, .removes f result⟩) :
      Steps r s (.remove i) (s.remove i asked f result)
  | wake {i f : Nat} {asked : Asked} {fl : Flight} {result : Resolved}
      (hCaller : s.callers[i]? = some ⟨asked, .waits f⟩) (hFlight : s.flights[f]? = some fl)
      (hSome : fl.state = some result) : Steps r s (.wake i) (s.move i asked (.returned f result))

theorem steps_of_step {r : Resolver} {s s' : State} {a : Action} (h : s.step r a = some s') :
    Steps r s a s' := by
  cases a with
  | arrive asked =>
      cases h
      exact .arrive asked
  | find i =>
      rw [step] at h
      split at h
      · rename_i asked hCaller
        cases h
        exact .find hCaller
      · cases h
  | swap i =>
      rw [step] at h
      split at h
      · rename_i asked f hCaller
        obtain ⟨fl, hFlight, rfl⟩ := Option.map_eq_some_iff.mp h
        exact .swap hCaller hFlight
      · cases h
  | resolve i net nesting n =>
      rw [step] at h
      split at h
      · rename_i asked f hCaller
        split at h
        · rename_i result n' hResult
          cases h
          exact .resolve hCaller hResult
        · rename_i n' hPanic
          cases h
          exact .unwind hCaller hPanic
        · cases h
      · cases h
  | publish i =>
      rw [step] at h
      split at h
      · rename_i asked f result hCaller
        obtain ⟨fl, hFlight, rfl⟩ := Option.map_eq_some_iff.mp h
        exact .publish hCaller hFlight
      · cases h
  | remove i =>
      rw [step] at h
      split at h
      · rename_i asked f result hCaller
        cases h
        exact .remove hCaller
      · cases h
  | wake i =>
      rw [step] at h
      split at h
      · rename_i asked f hCaller
        obtain ⟨fl, hFlight, hMap⟩ := Option.bind_eq_some_iff.mp h
        obtain ⟨result, hSome, rfl⟩ := Option.map_eq_some_iff.mp hMap
        exact .wake hCaller hFlight hSome
      · cases h

end State

/-! ## The invariant -/

/-- The leader of a flight without a result, alive or not. -/
def Stage.InCharge : Stage → Prop
  | .leads _ | .publishes _ _ | .unwound _ => True
  | _ => False

/-- What a stage of a caller says about its flight. -/
def Stage.Holds (inflight : HashMap Str Nat) (i f : Nat) (fl : Flight) : Stage → Prop
  | .leads _ | .publishes _ _ | .unwound _ =>
      fl.leader = some i ∧ fl.state = none ∧ inflight.get fl.key = some f
  | .removes _ r => fl.leader = some i ∧ fl.state = some r ∧ inflight.get fl.key = some f
  | .returned _ r => fl.state = some r
  | .arrived | .found _ | .waits _ => True

/-- The flight of a caller has its key, and is at a point that fits the stage of the
caller. -/
def Agrees (s : State) (i : Nat) (c : Caller) : Prop :=
  ∀ f, c.stage.flight = some f → ∃ fl, s.flights[f]? = some fl ∧ fl.key = c.asked.key ∧
    c.stage.Holds s.inflight i f fl

/-- A flight is in the map until it has a leader, the leader is at it until there
is a result, and the result has been published by the leader. -/
structure Regular (s : State) (f : Nat) (fl : Flight) : Prop where
  started : fl.started = fl.leader.isSome
  idle : fl.leader = none → fl.state = none ∧ s.inflight.get fl.key = some f
  led : ∀ i, fl.leader = some i → ∃ c, s.callers[i]? = some c ∧ c.stage.flight = some f ∧
    (fl.state = none → c.stage.InCharge)
  published : ∀ r, fl.state = some r → ∃ i, fl.leader = some i ∧ ⟨f, i, r⟩ ∈ s.published

/-- What every step keeps of map, callers and flights. No flight is published twice. -/
structure Sound (s : State) : Prop where
  mapped : ∀ key f, s.inflight.get key = some f → ∃ fl, s.flights[f]? = some fl ∧ fl.key = key
  callers : ∀ i c, s.callers[i]? = some c → Agrees s i c
  flights : ∀ f fl, s.flights[f]? = some fl → Regular s f fl
  published : ∀ p ∈ s.published, ∃ fl, s.flights[p.flight]? = some fl ∧ fl.leader = some p.caller ∧
    fl.state = some p.result
  once : (s.published.map Publication.flight).Nodup

theorem sound_init : Sound {} where
  mapped := by simp
  callers := by simp
  flights := by simp
  published := by simp
  once := by simp

/-- What a step of one caller leaves as it is for another. -/
def Kept (s s' : State) (j : Nat) : Prop :=
  ∀ f fl, s.flights[f]? = some fl → ∃ fl', s'.flights[f]? = some fl' ∧ fl'.key = fl.key ∧
    (∀ r, fl.state = some r → fl'.state = some r) ∧
    (fl.leader = some j → fl'.leader = some j ∧ fl'.state = fl.state ∧
      (s.inflight.get fl.key = some f → s'.inflight.get fl.key = some f))

section Steps

variable {s s' : State} {i j f : Nat} {c : Caller} {asked : Asked} {old stage : Stage}

theorem Agrees.kept (h : Agrees s j c) (hKept : Kept s s' j) : Agrees s' j c := by
  intro f hf
  obtain ⟨fl, hFlight, hKey, hHolds⟩ := h f hf
  obtain ⟨fl', hFlight', hKey', hState, hLeader⟩ := hKept f fl hFlight
  refine ⟨fl', hFlight', hKey'.trans hKey, ?_⟩
  cases hStage : c.stage with
  | arrived | found | waits => trivial
  | leads _ | publishes _ _ | unwound _ =>
      rw [hStage] at hHolds
      obtain ⟨hLed, hNone, hMap⟩ := hHolds
      obtain ⟨hLed', hSame, hMap'⟩ := hLeader hLed
      exact ⟨hLed', hSame.trans hNone, hKey' ▸ hMap' hMap⟩
  | removes _ r =>
      rw [hStage] at hHolds
      obtain ⟨hLed, hSome, hMap⟩ := hHolds
      obtain ⟨hLed', hSame, hMap'⟩ := hLeader hLed
      exact ⟨hLed', hSame.trans hSome, hKey' ▸ hMap' hMap⟩
  | returned _ r =>
      rw [hStage] at hHolds
      exact hState r hHolds

/-- A flight that the step of a caller does not touch. -/
theorem Regular.kept {fl : Flight} (h : Regular s f fl) (hCaller : s.callers[i]? = some ⟨asked, old⟩)
    (hCallers : s'.callers = s.callers.set i ⟨asked, stage⟩)
    (hMap : fl.leader = none → s.inflight.get fl.key = some f → s'.inflight.get fl.key = some f)
    (hStage : fl.leader = some i → old.flight = some f → (fl.state = none → old.InCharge) →
      stage.flight = some f ∧ (fl.state = none → stage.InCharge))
    (hPublished : s.published ⊆ s'.published) : Regular s' f fl := by
  refine ⟨h.started, fun hNone => ?_, fun j hLed => ?_, fun r hSome => ?_⟩
  · obtain ⟨hState, hGet⟩ := h.idle hNone
    exact ⟨hState, hMap hNone hGet⟩
  · obtain ⟨c, hOld, hFlight, hCharge⟩ := h.led j hLed
    rw [hCallers, Parties.set_get hCaller]
    by_cases hj : j = i
    · subst hj
      rw [hCaller] at hOld
      cases hOld
      obtain ⟨hFlight', hCharge'⟩ := hStage hLed hFlight hCharge
      exact ⟨_, by rw [if_pos rfl], hFlight', hCharge'⟩
    · exact ⟨c, by rw [if_neg hj, hOld], hFlight, hCharge⟩
  · obtain ⟨j, hLed, hMem⟩ := h.published r hSome
    exact ⟨j, hLed, hPublished hMem⟩

/-- The callers behind a step of one of them. -/
theorem Sound.agrees (h : Sound s) (hCaller : s.callers[i]? = some ⟨asked, old⟩)
    (hCallers : s'.callers = s.callers.set i ⟨asked, stage⟩) (hNew : Agrees s' i ⟨asked, stage⟩)
    (hOthers : ∀ j, j ≠ i → Kept s s' j) : ∀ j c, s'.callers[j]? = some c → Agrees s' j c := by
  intro j c hc
  rw [hCallers, Parties.set_get hCaller] at hc
  split_ifs at hc with hj
  · cases hc
    exact hj ▸ hNew
  · exact (h.callers j c hc).kept (hOthers j hj)

/-- A step that touches neither flights nor map. -/
theorem Sound.move (h : Sound s) (hCaller : s.callers[i]? = some ⟨asked, old⟩)
    (hNew : Agrees s i ⟨asked, stage⟩)
    (hStage : ∀ f, old.flight = some f → stage.flight = some f ∧ (old.InCharge → stage.InCharge)) :
    Sound (s.move i asked stage) := by
  refine ⟨h.mapped, ?_, fun f fl hFlight => ?_, h.published, h.once⟩
  · exact h.agrees hCaller rfl hNew fun j _ f fl hFlight =>
      ⟨fl, hFlight, rfl, fun _ hr => hr, fun hLed => ⟨hLed, rfl, id⟩⟩
  · refine (h.flights f fl hFlight).kept hCaller rfl (fun _ hMap => hMap) ?_ (List.Subset.refl _)
    intro _ hOld hCharge
    exact ⟨(hStage f hOld).1, fun hNone => (hStage f hOld).2 (hCharge hNone)⟩

theorem Sound.arrive (h : Sound s) (asked : Asked) :
    Sound { s with callers := s.callers ++ [⟨asked, .arrived⟩] } := by
  refine ⟨h.mapped, fun j c hc => ?_, fun f fl hFlight => ?_, h.published, h.once⟩
  · rw [Parties.push_get] at hc
    split_ifs at hc
    · cases hc
      intro f hf
      cases hf
    · exact h.callers j c hc
  · have hRegular := h.flights f fl hFlight
    refine ⟨hRegular.started, hRegular.idle, fun i hLed => ?_, hRegular.published⟩
    obtain ⟨c, hc, hRest⟩ := hRegular.led i hLed
    obtain ⟨hLength, _⟩ := List.getElem?_eq_some_iff.mp hc
    exact ⟨c, by rw [Parties.push_get, if_neg (by omega), hc], hRest⟩

theorem Sound.find (h : Sound s) (hCaller : s.callers[i]? = some ⟨asked, .arrived⟩) :
    Sound (s.find i asked) := by
  rw [State.find]
  cases hGet : s.inflight.get asked.key with
  | some f =>
      refine h.move hCaller (fun g hg => ?_) (fun g hg => by cases hg)
      cases hg
      obtain ⟨fl, hFlight, hKey⟩ := h.mapped _ _ hGet
      exact ⟨fl, hFlight, hKey, trivial⟩
  | none =>
      have hMap {key : Str} {f : Nat} (hOld : s.inflight.get key = some f) :
          HashMap.get (s.inflight.insert asked.key s.flights.length) key = some f := by
        rw [HashMap.get_insert, if_neg fun hSame => ?_, hOld]
        rw [hSame, hGet] at hOld
        cases hOld
      have hFlights {f : Nat} {fl : Flight} (hOld : s.flights[f]? = some fl) :
          (s.flights ++ [({ key := asked.key } : Flight)])[f]? = some fl := by
        obtain ⟨hLength, _⟩ := List.getElem?_eq_some_iff.mp hOld
        rw [Parties.push_get, if_neg (by omega), hOld]
      refine ⟨fun key f hKey => ?_, ?_, fun f fl hFlight => ?_, fun p hp => ?_, h.once⟩
      · dsimp only at hKey
        rw [HashMap.get_insert] at hKey
        split_ifs at hKey with hSame
        · cases hKey
          exact ⟨_, by rw [Parties.push_get, if_pos rfl], hSame.symm⟩
        · obtain ⟨fl, hFlight, hKey'⟩ := h.mapped key f hKey
          exact ⟨fl, hFlights hFlight, hKey'⟩
      · refine h.agrees hCaller rfl (fun g hg => ?_) fun j _ f fl hFlight =>
          ⟨fl, hFlights hFlight, rfl, fun _ hr => hr, fun hLed => ⟨hLed, rfl, hMap⟩⟩
        cases hg
        exact ⟨_, by rw [Parties.push_get, if_pos rfl], rfl, trivial⟩
      · dsimp only at hFlight
        rw [Parties.push_get] at hFlight
        split_ifs at hFlight with hEnd
        · cases hFlight
          refine ⟨rfl, fun _ => ⟨rfl, ?_⟩, fun j hLed => (by cases hLed), fun r hr => (by cases hr)⟩
          rw [hEnd]
          exact HashMap.get_insert_self _ _ _
        · exact (h.flights f fl hFlight).kept hCaller rfl (fun _ => hMap)
            (fun _ hOld => by cases hOld) (List.Subset.refl _)
      · obtain ⟨fl, hFlight, hRest⟩ := h.published p hp
        exact ⟨fl, hFlights hFlight, hRest⟩

/-! A step that reworks one flight: what it leaves as it is. -/

section Rework

variable {fl fl' : Flight}

theorem Sound.mapped_set (h : Sound s) (hFlight : s.flights[f]? = some fl) (hKey : fl'.key = fl.key)
    (key : Str) (g : Nat) (hMap : s.inflight.get key = some g) :
    ∃ fl'', (s.flights.set f fl')[g]? = some fl'' ∧ fl''.key = key := by
  obtain ⟨old, hOld, hSame⟩ := h.mapped key g hMap
  rw [Parties.set_get hFlight]
  by_cases hg : g = f
  · subst hg
    rw [hFlight] at hOld
    cases hOld
    exact ⟨fl', by rw [if_pos rfl], hKey.trans hSame⟩
  · exact ⟨old, by rw [if_neg hg, hOld], hSame⟩

/-- The flight is as before for everyone but its leader. -/
theorem kept_set (hFlight : s.flights[f]? = some fl) (hFlights : s'.flights = s.flights.set f fl')
    (hMap : s'.inflight = s.inflight) (hKey : fl'.key = fl.key)
    (hState : ∀ r, fl.state = some r → fl'.state = some r) (hLeader : fl.leader ≠ some j) :
    Kept s s' j := by
  intro g old hOld
  rw [hFlights, Parties.set_get hFlight, hMap]
  by_cases hg : g = f
  · subst hg
    rw [hFlight] at hOld
    cases hOld
    exact ⟨fl', by rw [if_pos rfl], hKey, hState, fun hLed => absurd hLed hLeader⟩
  · exact ⟨old, by rw [if_neg hg, hOld], rfl, fun _ hr => hr, fun hLed => ⟨hLed, rfl, id⟩⟩

theorem Sound.regular_set (h : Sound s) (hCaller : s.callers[i]? = some ⟨asked, old⟩)
    (hCallers : s'.callers = s.callers.set i ⟨asked, stage⟩) (hOld : old.flight = some f)
    (hFlight : s.flights[f]? = some fl) (hFlights : s'.flights = s.flights.set f fl')
    (hMap : s'.inflight = s.inflight) (hPublished : s.published ⊆ s'.published)
    (hNew : Regular s' f fl') (g : Nat) (other : Flight) (hOther : s'.flights[g]? = some other) :
    Regular s' g other := by
  rw [hFlights, Parties.set_get hFlight] at hOther
  split_ifs at hOther with hg
  · cases hOther
    exact hg ▸ hNew
  · refine (h.flights g other hOther).kept hCaller hCallers (fun _ hGet => hMap ▸ hGet) ?_ hPublished
    intro _ hSame
    exact absurd (Option.some.inj (hSame.symm.trans hOld)) hg

end Rework

theorem Sound.swap (h : Sound s) {fl : Flight} (hCaller : s.callers[i]? = some ⟨asked, .found f⟩)
    (hFlight : s.flights[f]? = some fl) : Sound (s.swap i asked f fl) := by
  obtain ⟨fl', hFlight', hKey, _⟩ := h.callers i _ hCaller f rfl
  rw [hFlight] at hFlight'
  cases hFlight'
  rw [State.swap]
  split_ifs with hStarted
  · refine h.move hCaller (fun g hg => ?_) (fun g hg => ⟨hg, False.elim⟩)
    cases hg
    exact ⟨fl, hFlight, hKey, trivial⟩
  · have hRegular := h.flights f fl hFlight
    have hFree : fl.leader = none := by
      have hNot := hRegular.started
      rw [Bool.eq_false_iff.mpr hStarted] at hNot
      simpa using hNot.symm
    obtain ⟨hNone, hMap⟩ := hRegular.idle hFree
    have hHere : (s.flights.set f { fl with started := true, leader := some i })[f]? =
        some { fl with started := true, leader := some i } := by
      rw [Parties.set_get hFlight, if_pos rfl]
    refine ⟨h.mapped_set hFlight rfl, ?_, ?_, fun p hp => ?_, h.once⟩
    · refine h.agrees hCaller rfl (fun g hg => ?_) fun j _ => kept_set hFlight rfl rfl rfl
        (fun _ hr => hr) fun hLed => ?_
      · cases hg
        exact ⟨_, hHere, hKey, rfl, hNone, hMap⟩
      · rw [hFree] at hLed
        cases hLed
    · refine h.regular_set hCaller rfl rfl hFlight rfl rfl (List.Subset.refl _)
        ⟨rfl, fun hLed => (by cases hLed), fun j hLed => ?_, fun r hr => ?_⟩
      · cases hLed
        exact ⟨⟨asked, .leads f⟩, by rw [State.move, Parties.set_get hCaller, if_pos rfl], rfl,
          fun _ => trivial⟩
      · rw [hNone] at hr
        cases hr
    · obtain ⟨fl', hFlight', hLed, hRest⟩ := h.published p hp
      have hOther : p.flight ≠ f := fun hSame => by
        rw [hSame, hFlight] at hFlight'
        cases hFlight'
        rw [hFree] at hLed
        cases hLed
      exact ⟨fl', by rw [Parties.set_get hFlight, if_neg hOther, hFlight'], hLed, hRest⟩

theorem Sound.publish (h : Sound s) {fl : Flight} {result : Resolved}
    (hCaller : s.callers[i]? = some ⟨asked, .publishes f result⟩) (hFlight : s.flights[f]? = some fl) :
    Sound (s.publish i asked f fl result) := by
  obtain ⟨fl', hFlight', hKey, hLed, hNone, hMap⟩ := h.callers i _ hCaller f rfl
  rw [hFlight] at hFlight'
  cases hFlight'
  have hHere : (s.flights.set f { fl with state := some result })[f]? =
      some { fl with state := some result } := by
    rw [Parties.set_get hFlight, if_pos rfl]
  have hFresh : ∀ p ∈ s.published, p.flight ≠ f := by
    intro p hp hSame
    obtain ⟨fl', hFlight', _, hSome⟩ := h.published p hp
    rw [hSame, hFlight] at hFlight'
    cases hFlight'
    rw [hNone] at hSome
    cases hSome
  refine ⟨h.mapped_set hFlight rfl, ?_, ?_, fun p hp => ?_, ?_⟩
  · refine h.agrees hCaller rfl (fun g hg => ?_) fun j hj => kept_set hFlight rfl rfl rfl
      (fun r hr => ?_) fun hOther => ?_
    · cases hg
      exact ⟨_, hHere, hKey, hLed, rfl, hMap⟩
    · rw [hNone] at hr
      cases hr
    · rw [hLed] at hOther
      cases hOther
      exact hj rfl
  · refine h.regular_set hCaller rfl rfl hFlight rfl rfl (List.subset_cons_self _ _)
      ⟨(h.flights f fl hFlight).started, fun hFree => ?_, fun j hOther => ?_, fun r hr => ?_⟩
    · exact absurd (hLed.symm.trans hFree) (Option.some_ne_none i)
    · obtain rfl : i = j := Option.some.inj (hLed.symm.trans hOther)
      refine ⟨_, by rw [State.publish, State.move, Parties.set_get hCaller, if_pos rfl], rfl,
        fun hOpen => ?_⟩
      cases hOpen
    · cases hr
      exact ⟨i, hLed, List.mem_cons_self⟩
  · rcases List.mem_cons.mp hp with rfl | hOld
    · exact ⟨_, hHere, hLed, rfl⟩
    · obtain ⟨fl', hFlight', hRest⟩ := h.published p hOld
      refine ⟨fl', ?_, hRest⟩
      rw [State.publish, Parties.set_get hFlight, if_neg (hFresh p hOld), hFlight']
  · refine List.nodup_cons.mpr ⟨fun hMem => ?_, h.once⟩
    obtain ⟨p, hp, hSame⟩ := List.mem_map.mp hMem
    exact hFresh p hp hSame

theorem Sound.remove (h : Sound s) {result : Resolved}
    (hCaller : s.callers[i]? = some ⟨asked, .removes f result⟩) :
    Sound (s.remove i asked f result) := by
  obtain ⟨fl, hFlight, hKey, hLed, hSome, hMap⟩ := h.callers i _ hCaller f rfl
  rw [hKey] at hMap
  have hOther {key : Str} {g : Nat} (hOld : s.inflight.get key = some g) (hg : g ≠ f) :
      HashMap.get (s.inflight.erase asked.key) key = some g := by
    rw [HashMap.get_erase, if_neg fun hSame => ?_, hOld]
    rw [hSame, hMap] at hOld
    cases hOld
    exact hg rfl
  refine ⟨fun key g hKey' => ?_, ?_, fun g fl' hFlight' => ?_, h.published, h.once⟩
  · dsimp only [State.remove] at hKey'
    rw [HashMap.get_erase] at hKey'
    split_ifs at hKey'
    exact h.mapped key g hKey'
  · refine h.agrees hCaller rfl (fun g hg => ?_) fun j hj g fl' hFlight' => ?_
    · cases hg
      exact ⟨fl, hFlight, hKey, hSome⟩
    · refine ⟨fl', hFlight', rfl, fun _ hr => hr, fun hLed' => ⟨hLed', rfl, fun hOld => ?_⟩⟩
      refine hOther hOld fun hg => ?_
      rw [hg, hFlight] at hFlight'
      cases hFlight'
      rw [hLed] at hLed'
      cases hLed'
      exact hj rfl
  · change s.flights[g]? = some fl' at hFlight'
    refine (h.flights g fl' hFlight').kept hCaller rfl (fun hFree hOld => hOther hOld fun hg => ?_) ?_
      (List.Subset.refl _)
    · rw [hg, hFlight] at hFlight'
      cases hFlight'
      rw [hLed] at hFree
      cases hFree
    · intro _ hOld hCharge
      cases hOld
      rw [hFlight] at hFlight'
      cases hFlight'
      exact ⟨rfl, fun hNone => absurd (hSome.symm.trans hNone) (Option.some_ne_none _)⟩

/-- Every step keeps the invariant. -/
theorem Sound.step {r : Resolver} (h : Sound s) {a : Action} (hStep : s.step r a = some s') :
    Sound s' := by
  cases State.steps_of_step hStep with
  | arrive asked => exact h.arrive asked
  | find hCaller => exact h.find hCaller
  | swap hCaller hFlight => exact h.swap hCaller hFlight
  | resolve hCaller hResult =>
      obtain ⟨fl, hFlight, hKey, hHolds⟩ := h.callers _ _ hCaller _ rfl
      refine h.move hCaller (fun g hg => ?_) (fun g hg => ⟨hg, fun _ => trivial⟩)
      cases hg
      exact ⟨fl, hFlight, hKey, hHolds⟩
  | unwind hCaller hPanic =>
      obtain ⟨fl, hFlight, hKey, hHolds⟩ := h.callers _ _ hCaller _ rfl
      refine h.move hCaller (fun g hg => ?_) (fun g hg => ⟨hg, fun _ => trivial⟩)
      cases hg
      exact ⟨fl, hFlight, hKey, hHolds⟩
  | publish hCaller hFlight => exact h.publish hCaller hFlight
  | remove hCaller => exact h.remove hCaller
  | wake hCaller hFlight hSome =>
      obtain ⟨fl', hFlight', hKey, _⟩ := h.callers _ _ hCaller _ rfl
      rw [hFlight] at hFlight'
      cases hFlight'
      refine h.move hCaller (fun g hg => ?_) (fun g hg => ⟨hg, False.elim⟩)
      cases hg
      exact ⟨_, hFlight, hKey, hSome⟩

theorem sound_run {r : Resolver} {actions : List Action}
    (hRun : Runs.run (State.step r) {} actions = some s) : Sound s :=
  Runs.run_invariant (fun _ _ _ hSound _ hStep => hSound.step hStep) sound_init
    (fun _ _ => trivial) hRun

end Steps

/-! ## Safety -/

/-- A step never takes a caller to another flight than the one that it has found. -/
theorem step_keeps_flight {r : Resolver} {s s' : State} {a : Action} (h : s.step r a = some s')
    {i : Nat} {c : Caller} (hCaller : s.callers[i]? = some c) {f : Nat}
    (hFlight : c.stage.flight = some f) :
    ∃ c', s'.callers[i]? = some c' ∧ c'.asked = c.asked ∧ c'.stage.flight = some f := by
  have hMove {j : Nat} {asked : Asked} {old stage : Stage}
      (hOld : s.callers[j]? = some ⟨asked, old⟩)
      (hStage : ∀ g, old.flight = some g → stage.flight = some g) :
      ∃ c', (s.callers.set j ⟨asked, stage⟩)[i]? = some c' ∧ c'.asked = c.asked ∧
        c'.stage.flight = some f := by
    rw [Parties.set_get hOld]
    by_cases hi : i = j
    · subst hi
      rw [hCaller] at hOld
      cases hOld
      exact ⟨_, if_pos rfl, rfl, hStage f hFlight⟩
    · exact ⟨c, by rw [if_neg hi, hCaller], rfl, hFlight⟩
  cases State.steps_of_step h with
  | arrive asked =>
      obtain ⟨hLength, _⟩ := List.getElem?_eq_some_iff.mp hCaller
      exact ⟨c, by rw [Parties.push_get, if_neg (by omega), hCaller], rfl, hFlight⟩
  | find hOld =>
      rw [State.find]
      split
      · exact hMove hOld fun g hg => by cases hg
      · exact hMove hOld fun g hg => by cases hg
  | swap hOld _ =>
      rw [State.swap]
      split_ifs
      · exact hMove hOld fun _ hg => hg
      · exact hMove hOld fun _ hg => hg
  | resolve hOld _ => exact hMove hOld fun _ hg => hg
  | unwind hOld _ => exact hMove hOld fun _ hg => hg
  | publish hOld _ => exact hMove hOld fun _ hg => hg
  | remove hOld => exact hMove hOld fun _ hg => hg
  | wake hOld _ _ => exact hMove hOld fun _ hg => hg

/-- No key has two resolutions running; a caller returns the result that the
leader of its flight, which is one for its key, has published; no flight is
published twice; and what a leader removes from the map is its own flight. -/
structure Safe (s : State) : Prop where
  exclusive : ∀ (i j : Nat) (c d : Caller) f g, s.callers[i]? = some c → s.callers[j]? = some d →
    c.stage = .leads f → d.stage = .leads g → c.asked.key = d.asked.key → i = j
  returns : ∀ (i : Nat) (c : Caller) f result, s.callers[i]? = some c → c.stage = .returned f result →
    ∃ fl leader, s.flights[f]? = some fl ∧ fl.key = c.asked.key ∧ fl.leader = some leader ∧
      ⟨f, leader, result⟩ ∈ s.published
  once : (s.published.map Publication.flight).Nodup
  removes : ∀ (i : Nat) (c : Caller) f result, s.callers[i]? = some c → c.stage = .removes f result →
    s.inflight.get c.asked.key = some f

/-- Every run of any number of callers is safe, also one in which leaders unwind. -/
theorem safe_run {r : Resolver} {actions : List Action} {s : State}
    (hRun : Runs.run (State.step r) {} actions = some s) : Safe s := by
  have hSound := sound_run hRun
  refine ⟨fun i j c d f g hc hd hLeads hLeads' hKey => ?_, fun i c f result hc hReturned => ?_,
    hSound.once, fun i c f result hc hRemoves => ?_⟩
  · obtain ⟨fl, hFlight, hOwn, hHolds⟩ := hSound.callers i c hc f (by rw [hLeads]; rfl)
    obtain ⟨fl', hFlight', hOwn', hHolds'⟩ := hSound.callers j d hd g (by rw [hLeads']; rfl)
    rw [hLeads] at hHolds
    rw [hLeads'] at hHolds'
    obtain ⟨hLed, _, hMap⟩ := hHolds
    obtain ⟨hLed', _, hMap'⟩ := hHolds'
    -- both flights are the one in the map under the common key
    rw [hOwn, hKey, ← hOwn', hMap'] at hMap
    cases hMap
    rw [hFlight] at hFlight'
    cases hFlight'
    exact Option.some.inj (hLed.symm.trans hLed')
  · obtain ⟨fl, hFlight, hKey, hHolds⟩ := hSound.callers i c hc f (by rw [hReturned]; rfl)
    rw [hReturned] at hHolds
    obtain ⟨leader, hLed, hMem⟩ := (hSound.flights f fl hFlight).published result hHolds
    exact ⟨fl, leader, hFlight, hKey, hLed, hMem⟩
  · obtain ⟨fl, hFlight, hKey, hHolds⟩ := hSound.callers i c hc f (by rw [hRemoves]; rfl)
    rw [hRemoves] at hHolds
    rw [← hKey]
    exact hHolds.2.2

/-- A network whose servers give no reply at all, so that every question times out. -/
def deafNetwork : Network where
  expired _ := false
  udp _ _ _ := .err (.io "timed out")
  tcp _ _ _ := .err (.io "timed out")

/-- Two callers with one key, of which the second one, that inserts no flight,
wins the swap; a third one inserts a new flight behind them. -/
def threeCallers : List Action :=
  [.arrive ⟨['a', '.'], typeA, none⟩, .arrive ⟨['A'], typeA, none⟩, .find 0, .find 1, .swap 1,
    .swap 0, .resolve 1 deafNetwork 1 0, .publish 1, .wake 0, .remove 1,
    .arrive ⟨['a', '.'], typeA, none⟩, .find 2, .swap 2]

/-- A resolver with one turn and one root server. -/
def plainResolver : Resolver := ⟨1, [⟨.v4 Ipv4Addr.localhost, 53⟩]⟩

theorem threeCallers_run :
    (Runs.run (State.step plainResolver) {} threeCallers).map (fun s => s.published.length) =
      some 1 := by
  decide +kernel

/-- The run of the three callers is safe: one result is published, and a second flight is
started behind it. -/
theorem safe_threeCallers : ∃ s, Runs.run (State.step plainResolver) {} threeCallers = some s ∧
    s.published.length = 1 ∧ Safe s := by
  obtain ⟨s, hRun, hLength⟩ := Option.map_eq_some_iff.mp threeCallers_run
  exact ⟨s, hRun, hLength, safe_run hRun⟩

end Dnsd.Resolve.Singleflight
