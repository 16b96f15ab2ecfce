import Dnsd.Proto.EncodeSafety
import Dnsd.Proto.ParseSafety
import Dnsd.Resolve.Chasing
import Dnsd.Resolve.Provenance
import Dnsd.Resolve.Singleflight

/-! Leaders that unwind. Reading a reply may unwind, and nothing removes the flight
of a leader that is gone: it stays started, without a result, in the map. -/

namespace Dnsd.Resolve

open Proto Asking

/-! ## Resolutions that do not unwind -/

/-- No message that a server sends has the overrun that makes `parse` unwind, and
the calls of the network do not unwind themselves. -/
structure Network.Calm (net : Network) : Prop where
  udp : ∀ n server sent, net.udp n server sent ≠ .panicked
  tcp : ∀ n server sent, net.tcp n server sent ≠ .panicked
  datagram : ∀ n server sent datagram, net.udp n server sent = .ok datagram →
    ¬MessageOverrun (datagram.take udpBuffer)
  stream : ∀ n server sent stream resp, net.tcp n server sent = .ok stream →
    readFrame stream = .ok resp → ¬MessageOverrun resp

section Calm

variable {net : Network}

theorem readFrame_ne_panicked (stream : Bytes) : readFrame stream ≠ .panicked := by
  unfold readFrame
  split
  · dsimp only
    split_ifs <;> simp
  · simp

theorem exchangeTcp_calm (h : net.Calm) (server : SocketAddr) (query : Message) :
    Calm (exchangeTcp net server query) := by
  refine (calm_lift (encode_ne_panicked query)).bind (ensures_true _) fun bytes _ => ?_
  refine (calm_ask fun n => h.tcp n server _).bind (ensures_ask
    (fun stream => ∃ n, net.tcp n server (frame bytes) = .ok stream) fun n _ hSent => ⟨n, hSent⟩)
    fun stream hStream => ?_
  obtain ⟨n, hStream⟩ := hStream
  refine (calm_lift (readFrame_ne_panicked stream)).bind
    (ensures_lift (fun resp => readFrame stream = .ok resp) fun _ hFrame => hFrame) fun resp hFrame => ?_
  exact calm_lift fun hPanic =>
    h.stream n server _ stream resp hStream hFrame ((parse_eq_panicked_iff _).mp hPanic)

theorem exchange_calm (h : net.Calm) (server : SocketAddr) (query : Message) :
    Calm (exchange net server query) := by
  refine (calm_lift (encode_ne_panicked query)).bind (ensures_true _) fun bytes _ => ?_
  refine (calm_ask fun n => h.udp n server _).bind (ensures_ask
    (fun datagram => ∃ n, net.udp n server bytes = .ok datagram) fun n _ hSent => ⟨n, hSent⟩)
    fun datagram hDatagram => ?_
  obtain ⟨n, hDatagram⟩ := hDatagram
  have hParse : Message.parse (datagram.take udpBuffer) ≠ .panicked := fun hPanic =>
    h.datagram n server bytes datagram hDatagram ((parse_eq_panicked_iff _).mp hPanic)
  refine (calm_lift hParse).bind (ensures_true _) fun msg _ => ?_
  split
  · exact exchangeTcp_calm h server query
  · exact calm_pure msg

theorem timeIsUp_calm : Calm (timeIsUp net) := calm_ask fun _ => by simp

theorem queryServersFrom_calm (h : net.Calm) (query : Message) (qname : Str)
    (servers : List SocketAddr) (lastErr : String) :
    Calm (queryServersFrom net query qname servers lastErr) := by
  induction servers generalizing lastErr with
  | nil => exact calm_err _
  | cons server rest ih =>
      refine timeIsUp_calm.bind (ensures_true _) fun up _ => ?_
      split
      · exact calm_err _
      · refine (exchange_calm h server query).attempt.bind (ensures_true _) fun r _ => ?_
        split
        · split
          · exact calm_pure _
          · exact ih _
        · exact ih _

theorem lookedUp_calm {lookup : Asked → Asks Message} (hLookup : ∀ asked, Calm (lookup asked))
    (records : Message → List SocketAddr) (asked : Asked) : Calm (lookedUp lookup records asked) :=
  (hLookup asked).attempt.bind (ensures_true _) fun _ _ => calm_pure _

theorem nameservers_calm {lookup : Asked → Asks Message} (hLookup : ∀ asked, Calm (lookup asked))
    (glue : HashMap Str SocketAddr) (names : List Str) :
    Calm (Resolver.nameservers lookup glue names) := by
  induction names with
  | nil => exact calm_pure _
  | cons ns rest ih =>
      have hFound : Calm (found lookup glue ns) := by
        rw [found]
        split
        · exact calm_pure _
        · refine (lookedUp_calm hLookup _ _).bind (ensures_true _) fun a _ => ?_
          split
          · exact calm_pure _
          · exact lookedUp_calm hLookup _ _
      rw [nameservers_cons]
      exact hFound.bind (ensures_true _) fun here _ =>
        ih.bind (ensures_true _) fun next _ => calm_pure _

theorem walk_calm (h : net.Calm) (r : Resolver) {lookup : Asked → Asks Message}
    (hLookup : ∀ asked, Calm (lookup asked)) (asked : Asked) (left : Nat) (servers : List SocketAddr) :
    Calm (r.walk net lookup asked left servers) := by
  induction left generalizing servers with
  | zero => exact calm_err _
  | succ left ih =>
      rw [Resolver.walk_succ]
      refine timeIsUp_calm.bind (ensures_true _) fun up _ => ?_
      split
      · exact calm_err _
      · refine (queryServersFrom_calm h _ _ servers _).bind (ensures_true _) fun resp _ => ?_
        split
        · exact calm_pure _
        · refine (nameservers_calm hLookup _ _).bind (ensures_true _) fun next _ => ?_
          split
          · exact calm_err _
          · exact ih next

theorem iterative_calm (h : net.Calm) (r : Resolver) (nesting : Nat) (asked : Asked) :
    Calm (r.iterative net nesting asked) := by
  induction nesting generalizing asked with
  | zero => exact calm_cutOff
  | succ nesting ih => exact walk_calm h r ih asked _ _

theorem publish_calm (h : net.Calm) (r : Resolver) (nesting : Nat) (asked : Asked) :
    Calm (r.publish net nesting asked) := by
  have hResolve : Calm (r.doResolve net nesting asked) := by
    rw [doResolve_eq]
    exact iterative_calm h r nesting asked.canonical
  have hEncoded : Calm (r.doResolve net nesting asked >>= fun m => lift m.encode) :=
    hResolve.bind (ensures_true _) fun m _ => calm_lift (encode_ne_panicked m)
  refine hEncoded.attempt.bind (ensures_true _) fun outcome _ => ?_
  cases outcome with
  | ok bytes => exact calm_pure _
  | error e => exact calm_pure _

end Calm

namespace Singleflight

/-! ## Flights without a leader -/

/-- A caller that is at work as the leader of the flight. -/
def Stage.Leading (f : Nat) : Stage → Prop
  | .leads g | .publishes g _ => g = f
  | _ => False

/-- Each flight in the map that is started and has no result yet has a leader that
is at work. -/
def NoOrphan (s : State) : Prop :=
  ∀ key f fl, s.inflight.get key = some f → s.flights[f]? = some fl → fl.started = true →
    fl.state = none → ∃ c ∈ s.callers, c.stage.Leading f

/-- The caller has panicked on its way, and takes no further step. -/
def Stage.HasUnwound : Stage → Prop
  | .unwound _ => True
  | _ => False

/-- A flight is orphaned exactly when its leader has unwound. -/
theorem Sound.noOrphan_iff {s : State} (h : Sound s) :
    NoOrphan s ↔ ∀ c ∈ s.callers, ¬c.stage.HasUnwound := by
  constructor
  · intro hNone c hc hUnwound
    obtain ⟨i, hi⟩ := List.mem_iff_getElem?.mp hc
    cases hStage : c.stage with
    | unwound f =>
        obtain ⟨fl, hFlight, hKey, hHolds⟩ := h.callers i c hi f (by rw [hStage]; rfl)
        rw [hStage] at hHolds
        obtain ⟨hLed, hOpen, hMap⟩ := hHolds
        have hStarted : fl.started = true := by rw [(h.flights f fl hFlight).started, hLed]; rfl
        obtain ⟨d, hd, hLeading⟩ := hNone _ f fl hMap hFlight hStarted hOpen
        obtain ⟨j, hj⟩ := List.mem_iff_getElem?.mp hd
        have hOther : ∃ fl', s.flights[f]? = some fl' ∧ fl'.leader = some j := by
          cases hStage' : d.stage with
          | leads g | publishes g _ =>
              rw [hStage'] at hLeading
              subst hLeading
              obtain ⟨fl', hFlight', _, hHolds'⟩ := h.callers j d hj g (by rw [hStage']; rfl)
              rw [hStage'] at hHolds'
              exact ⟨fl', hFlight', hHolds'.1⟩
          | _ => simp [hStage', Stage.Leading] at hLeading
        obtain ⟨fl', hFlight', hLed'⟩ := hOther
        rw [hFlight] at hFlight'
        cases hFlight'
        rw [hLed] at hLed'
        cases hLed'
        rw [hi] at hj
        cases hj
        simp [hStage, Stage.Leading] at hLeading
    | _ => simp [hStage, Stage.HasUnwound] at hUnwound
  · intro hAlive key f fl hMap hFlight hStarted hOpen
    have hRegular := h.flights f fl hFlight
    rw [hRegular.started] at hStarted
    obtain ⟨i, hLed⟩ := Option.isSome_iff_exists.mp hStarted
    obtain ⟨c, hc, hOwn, hCharge⟩ := hRegular.led i hLed
    have hMem := List.mem_of_getElem? hc
    refine ⟨c, hMem, ?_⟩
    have hInCharge := hCharge hOpen
    cases hStage : c.stage with
    | leads g | publishes g _ =>
        rw [hStage] at hOwn
        exact Option.some.inj hOwn
    | unwound g => exact absurd (by rw [hStage]; trivial) (hAlive c hMem)
    | _ => simp [hStage, Stage.InCharge] at hInCharge

/-- The network of a resolution sends nothing that makes `parse` unwind. -/
def Action.Calm : Action → Prop
  | .resolve _ net _ _ => net.Calm
  | _ => True

theorem step_alive {r : Resolver} {s s' : State} {a : Action}
    (hAlive : ∀ c ∈ s.callers, ¬c.stage.HasUnwound) (hCalm : a.Calm) (hStep : s.step r a = some s') :
    ∀ c ∈ s'.callers, ¬c.stage.HasUnwound := by
  have hSet (i : Nat) {asked : Asked} {stage : Stage} (hStage : ¬stage.HasUnwound) :
      ∀ c ∈ s.callers.set i ⟨asked, stage⟩, ¬c.stage.HasUnwound :=
    Parties.forall_set hAlive hStage
  cases State.steps_of_step hStep with
  | arrive asked =>
      intro c hc
      rcases List.mem_append.mp hc with hOld | hNew
      · exact hAlive c hOld
      · rw [List.mem_singleton.mp hNew]
        exact id
  | find _ =>
      rw [State.find]
      split
      · exact hSet _ id
      · exact hSet _ id
  | swap _ _ =>
      rw [State.swap]
      split_ifs
      · exact hSet _ id
      · exact hSet _ id
  | unwind _ hPanic => exact absurd hPanic (publish_calm hCalm r _ _ _ _)
  | resolve _ _ => exact hSet _ id
  | publish _ _ => exact hSet _ id
  | remove _ => exact hSet _ id
  | wake _ _ _ => exact hSet _ id

/-- In every run in which no reply makes `parse` unwind, no flight is orphaned: one that
has started and has no result has its leader at work. -/
theorem noOrphan_run {r : Resolver} {actions : List Action} {s : State}
    (hCalm : ∀ a ∈ actions, a.Calm) (hRun : Runs.run (State.step r) {} actions = some s) :
    NoOrphan s := by
  refine (sound_run hRun).noOrphan_iff.mpr ?_
  have hStart : ∀ c ∈ ({} : State).callers, ¬c.stage.HasUnwound := by simp
  exact Runs.run_invariant (fun s a s' hAlive hAction hStep => step_alive hAlive hAction hStep)
    hStart hCalm hRun

/-- In the run of the three callers the flight that is in the map at the end has its
leader at work. -/
theorem noOrphan_threeCallers : ∃ s, Runs.run (State.step plainResolver) {} threeCallers = some s ∧
    s.published.length = 1 ∧ NoOrphan s := by
  obtain ⟨s, hRun, hLength⟩ := Option.map_eq_some_iff.mp threeCallers_run
  refine ⟨s, hRun, hLength, noOrphan_run (fun a ha => ?_) hRun⟩
  simp only [threeCallers, List.mem_cons, List.not_mem_nil, or_false] at ha
  rcases ha with rfl | rfl | rfl | rfl | rfl | rfl | rfl | rfl | rfl | rfl | rfl | rfl | rfl
  all_goals first | trivial | exact ⟨by simp [deafNetwork], by simp [deafNetwork],
    by simp [deafNetwork], by simp [deafNetwork]⟩

/-- A server that sends the message with an SOA record that is cut short. -/
def soaNetwork : Network where
  expired _ := false
  udp _ _ _ := .ok shortSoaMessage
  tcp _ _ _ := .err (.io "timed out")

/-- A leader that reads the message, and a caller that waits for it. -/
def orphanRun : List Action :=
  [.arrive ⟨['a', '.'], typeA, none⟩, .find 0, .swap 0, .resolve 0 soaNetwork 1 0,
    .arrive ⟨['a', '.'], typeA, none⟩, .find 1, .swap 1]

instance (stage : Stage) : Decidable stage.HasUnwound := by
  cases stage <;> unfold Stage.HasUnwound <;> infer_instance

theorem orphanRun_unwinds :
    (Runs.run (State.step plainResolver) {} orphanRun).map
      (fun s => s.callers.any fun c => c.stage.HasUnwound) = some true := by
  decide +kernel

/-- The leader unwinds on the message that it reads, before it publishes. The caller that
waits for its flight has nobody to wake it. -/
theorem orphan_orphanRun :
    ¬∀ r actions s, Runs.run (State.step r) {} actions = some s → NoOrphan s := by
  intro hAll
  obtain ⟨s, hRun, hUnwound⟩ := Option.map_eq_some_iff.mp orphanRun_unwinds
  obtain ⟨c, hc, hHas⟩ := List.any_eq_true.mp hUnwound
  exact (sound_run hRun).noOrphan_iff.mp (hAll _ _ s hRun) c hc (by simpa using hHas)

end Singleflight

end Dnsd.Resolve
