import Dnsd.Base.Pool
import Dnsd.Server.Udp

/-! The workers of the UDP listener: what becomes of the datagrams, and of a worker
that has unwound. -/

namespace Dnsd.Server

open Proto Resolve Cache

/-- Bytes from an address, as `recv_from` returns them. -/
structure Datagram where
  source : SocketAddr
  bytes : Bytes

/-- The pipeline as a worker finds it: others change it between two turns. -/
structure Moment where
  pipeline : Pipeline
  around : Surroundings

namespace Datagram

/-- What a worker sends back to where the datagram came from. -/
def served (m : Moment) (d : Datagram) : Option (Option Bytes) :=
  (serveUdp m.pipeline d.source.ip d.bytes m.around).map Prod.snd

/-- A reader with its channel, and at least four workers behind it. -/
def listening (workers : Nat) : Pool.State Datagram Bytes := Pool.start (max workers 4)

variable {workers : Nat} {s s' : Pool.State Datagram Bytes}
  {actions : List (Pool.Action Datagram Moment)}

/-- Each datagram is answered at most once, with what the pipeline makes of it, and
to its own source. One that is not answered is in the queue or with a worker, which is
dead if it is not at work; and one that is answered has not killed a worker. -/
theorem each_once (hRun : Runs.run (Pool.step served) (listening workers) actions = some s) :
    (∃ taken, s.received = taken ++ s.queue ∧
      taken.Perm (s.answers.map Prod.fst ++ s.workers.filterMap Pool.Worker.job)) ∧
    (∀ a ∈ s.answers, ∃ m : Moment, ∃ p', serveUdp m.pipeline a.1.source.ip a.1.bytes m.around =
      some (p', some a.2)) ∧
    (∀ d, .dead d ∈ s.workers → ∃ m : Moment, ∃ p', serveUdp m.pipeline d.source.ip d.bytes m.around =
      some (p', none)) ∧
    s.workers.length = max workers 4 := by
  have hSound := Pool.sound_run hRun
  refine ⟨hSound.flow, fun a ha => ?_, fun d hd => ?_, hSound.size⟩
  · obtain ⟨m, hServed⟩ := hSound.answered a ha
    obtain ⟨⟨p', sent⟩, hServe, rfl⟩ := Option.map_eq_some_iff.mp hServed
    exact ⟨m, p', hServe⟩
  · obtain ⟨m, hServed⟩ := hSound.dead d hd
    obtain ⟨⟨p', sent⟩, hServe, rfl⟩ := Option.map_eq_some_iff.mp hServed
    exact ⟨m, p', hServe⟩

/-- A moment at which the client is not allowed to ask. -/
def labMoment : Moment := ⟨(Link.labNode Ipv4Addr.localhost).pipeline, Link.refusing⟩

/-- A datagram with nothing in it. -/
def blank : Datagram := ⟨⟨.v4 Ipv4Addr.localhost, 4053⟩, []⟩

/-- A query for the addresses of "a.", and what a client that asks too often is sent. -/
def plainQuery : Datagram :=
  ⟨⟨.v4 Ipv4Addr.localhost, 4054⟩, [0, 7, 1, 0, 0, 1, 0, 0, 0, 0, 0, 0, 1, 97, 0, 0, 1, 0, 1]⟩

/-- The query with the flags of a refusal. -/
def refusal : Bytes := [0, 7, 0x81, 0x85, 0, 1, 0, 0, 0, 0, 0, 0, 1, 97, 0, 0, 1, 0, 1]

/-- A datagram that the parser unwinds on, so that its worker dies. -/
def shortSoa : Datagram := ⟨⟨.v4 Ipv4Addr.localhost, 4053⟩, shortSoaMessage⟩

/-- A worker dies, one that has taken a later datagram is done before an earlier one, and
one datagram is still there. -/
def mixed : List (Pool.Action Datagram Moment) :=
  [.receive blank, .receive shortSoa, .receive plainQuery, .receive blank, .take 2, .take 0,
    .finish 0 labMoment, .take 1, .finish 1 labMoment, .finish 2 labMoment]

theorem each_once_mixed : ∃ s, Runs.run (Pool.step served) (listening 1) mixed = some s ∧
    s.workers = [.dead shortSoa, .waiting, .waiting, .waiting] ∧ s.queue = [blank] ∧
      (plainQuery, refusal) ∈ s.answers ∧
      (∃ taken, s.received = taken ++ s.queue ∧
        taken.Perm (s.answers.map Prod.fst ++ s.workers.filterMap Pool.Worker.job)) := by
  obtain ⟨reply, hServe, -⟩ := @serveUdp_refused labMoment.pipeline blank.source.ip [] labMoment.around
    rfl not_overrun_nil
  have hBlank : served labMoment blank = some (some reply) := congrArg (Option.map Prod.snd) hServe
  have hShort : served labMoment shortSoa = some none := by decide +kernel
  have hQuery : served labMoment plainQuery = some (some refusal) := by decide +kernel
  have hRun : Runs.run (Pool.step served) (listening 1) mixed =
      some ⟨[.dead shortSoa, .waiting, .waiting, .waiting], true, [blank],
        [(plainQuery, refusal), (blank, reply)], [blank, shortSoa, plainQuery, blank]⟩ := by
    simp [mixed, listening, Pool.start, Runs.run_cons, Pool.step, Pool.Worker.alive, hBlank, hShort,
      hQuery, List.replicate]
  exact ⟨_, hRun, rfl, rfl, List.mem_cons_self, (each_once hRun).1⟩

theorem served_overrun {d : Datagram} (h : MessageOverrun (received d.bytes)) (m : Moment) :
    served m d = some none := by
  rw [served, serveUdp_overrun h]
  rfl

/-- As many datagrams as there are workers, each of which the parser unwinds on, end
the listener: nothing that comes later is ever answered. -/
theorem overruns_exhaust {crafted : List Datagram}
    (hRun : Runs.run (Pool.step served) (listening workers) actions = some s) (hIdle : Pool.Idle s)
    (hCrafted : ∀ d ∈ crafted, MessageOverrun (received d.bytes))
    (hReceived : crafted.Subperm s.received) (hMany : max workers 4 ≤ crafted.length)
    {later : List (Pool.Action Datagram Moment)}
    (hLater : Runs.run (Pool.step served) s later = some s') :
    (∀ w ∈ s.workers, w.alive = false) ∧ s'.answers = s.answers ∧ s'.received = s.received := by
  have hDeadly (d : Datagram) (hd : d ∈ crafted) (m : Moment) (answer : Bytes) :
      served m d ≠ some (some answer) := by
    rw [served_overrun (hCrafted d hd)]
    simp
  have hDead := (Pool.sound_run hRun).exhausted hIdle hDeadly hReceived hMany
  exact ⟨hDead, Pool.silent_run hDead hLater⟩

/-- Four of them, one for each worker, so that none is left. -/
def fourShort : List (Pool.Action Datagram Moment) :=
  List.replicate 4 (.receive shortSoa) ++ [.take 0, .take 1, .take 2, .take 3] ++
    [.finish 0 labMoment, .finish 1 labMoment, .finish 2 labMoment, .finish 3 labMoment]

theorem overruns_exhaust_fourShort : ∃ s s',
    Runs.run (Pool.step served) (listening 4) fourShort = some s ∧
      Runs.run (Pool.step served) s [.receive blank] = some s' ∧
        (∀ w ∈ s.workers, w.alive = false) ∧ s'.answers = s.answers ∧ s'.received = s.received := by
  have hOverrun : MessageOverrun (received shortSoa.bytes) :=
    (parse_eq_panicked_iff _).mp (by decide)
  have hServed := served_overrun hOverrun labMoment
  have hRun : Runs.run (Pool.step served) (listening 4) fourShort =
      some ⟨List.replicate 4 (.dead shortSoa), true, [], [], List.replicate 4 shortSoa⟩ := by
    have hTaken : Runs.run (Pool.step served) (listening 4) fourShort =
        Runs.run (Pool.step served) ⟨List.replicate 4 (.handling shortSoa), true, [], [],
          List.replicate 4 shortSoa⟩ (fourShort.drop 8) := rfl
    rw [hTaken]
    simp [fourShort, Runs.run_cons, Pool.step, hServed, List.replicate]
  have hLater : Runs.run (Pool.step served) ⟨List.replicate 4 (.dead shortSoa), true, [], [],
      List.replicate 4 shortSoa⟩ [.receive blank] =
        some ⟨List.replicate 4 (.dead shortSoa), false, [], [], List.replicate 4 shortSoa⟩ := rfl
  have hIdle : Pool.Idle (⟨List.replicate 4 (.dead shortSoa), true, [], [],
      List.replicate 4 shortSoa⟩ : Pool.State Datagram Bytes) :=
    ⟨fun d hd => (by cases List.eq_of_mem_replicate hd), Or.inl rfl⟩
  exact ⟨_, _, hRun, hLater, overruns_exhaust hRun hIdle
    (fun d hd => List.eq_of_mem_replicate hd ▸ hOverrun) (List.Subperm.refl _) (by decide) hLater⟩

end Datagram

end Dnsd.Server
