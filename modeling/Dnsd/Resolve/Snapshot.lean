import Dnsd.Base.Runs
import Dnsd.Resolve.Pipeline

/-! The policy lock: a query reads it anew for each of its steps, and a reload may
come between two of them. -/

namespace Dnsd.Resolve

open Proto

/-- What the block list and the zones make of a question. -/
inductive Decision where
  | blocked (mode : BlockMode) (resp : Message)
  | zone (resp : Message)
  | passed

/-- What the reading of the zones decides; without an answer the query goes on. -/
def Decision.ofZones : Option Message → Decision
  | some resp => .zone resp
  | none => .passed

theorem Decision.ofZones_injective : Function.Injective Decision.ofZones := by
  intro a b h
  cases a <;> cases b <;> simp_all [Decision.ofZones]

/-- The decision of one policy, read without a reload in between. -/
def Policy.decision (p : Policy) (q : Question) (clientIp : IpAddr) : Decision :=
  match p.block.modeFor q.name with
  | some mode => .blocked mode (BlockList.respond q clientIp mode)
  | none => .ofZones (p.zones.respond q)

/-- The verdict on a query with that decision. -/
def Decision.verdict (req : Message) (q : Question) (ecs : Option EcsInfo) : Decision → Verdict
  | .blocked _ resp => .blocked { resp with header := { resp.header with id := req.header.id } }
  | .zone resp => .zone { resp with header := { resp.header with id := req.header.id } }
  | .passed => .lookup ⟨req.header.id, q, ecs⟩

/-- A pipeline whose policy stays as it is follows the decision of that policy. -/
theorem applyPolicy_verdict (s : Settings) (call : Call) (req : Message) (q : Question)
    (info : RespMeta) : (applyPolicy s call req q info).1 =
      (s.policy.decision q call.clientIp).verdict req q (clientEcs s call req) := by
  rw [applyPolicy, Policy.decision]
  cases s.policy.block.modeFor q.name with
  | some mode => rfl
  | none => cases s.policy.zones.respond q <;> simp [Decision.ofZones, Decision.verdict]

/-! ## A query and a reload -/

/-- What a query has read so far. It takes the lock anew for every read, so a reload can
come in between. -/
inductive Reading where
  | start
  | listed (mode : BlockMode)
  | unlisted
  | decided (d : Decision)

/-- The next read of the lock, with the policy that is there at that moment. -/
def Reading.next (q : Question) (clientIp : IpAddr) (p : Policy) : Reading → Option Reading
  | .start =>
      match p.block.modeFor q.name with
      | some mode => some (.listed mode)
      | none => some .unlisted
  | .listed mode => some (.decided (.blocked mode (BlockList.respond q clientIp mode)))
  | .unlisted => some (.decided (.ofZones (p.zones.respond q)))
  | .decided _ => none

/-- How far `reload` is: it holds the lock from its second stage to its last but one. -/
inductive Writing where
  | waiting
  | locked
  | storedBlock
  | storedZones
  | unlocked
  deriving DecidableEq

/-- The policy behind the lock, a reload and a query. -/
structure Race where
  policy : Policy
  writing : Writing := .waiting
  reading : Reading := .start

/-- The query reads once more, or the reload writes once more. -/
inductive Race.Action where
  | read
  | reload

namespace Race

variable (after : Policy) (q : Question) (clientIp : IpAddr)

/-- The reload takes the write lock, stores the two lists, and gives the lock back. -/
def reload (s : Race) : Option Race :=
  match s.writing with
  | .waiting => some { s with writing := .locked }
  | .locked =>
      some { s with policy := { s.policy with block := after.block }, writing := .storedBlock }
  | .storedBlock =>
      some { s with policy := { s.policy with zones := after.zones }, writing := .storedZones }
  | .storedZones => some { s with writing := .unlocked }
  | .unlocked => none

/-- A read waits for the writer that holds the lock. -/
def step (s : Race) : Action → Option Race
  | .read =>
      if s.writing = .waiting ∨ s.writing = .unlocked then
        (s.reading.next q clientIp s.policy).map fun reading => { s with reading := reading }
      else none
  | .reload => s.reload after

variable {after q clientIp} {before : Policy}

/-- What is behind the lock at each stage of the reload. -/
def Holds (before after : Policy) (s : Race) : Prop :=
  match s.writing with
  | .waiting | .locked => s.policy = before
  | .storedBlock => s.policy = { before with block := after.block }
  | .storedZones | .unlocked => s.policy = after

/-- What a query can have read: the decision of either policy, or the block list
of the first and the zones of the second. -/
def Read (before after : Policy) (q : Question) (clientIp : IpAddr) (s : Race) : Prop :=
  match s.reading with
  | .start => True
  | .listed mode =>
      before.block.modeFor q.name = some mode ∨ after.block.modeFor q.name = some mode
  | .unlisted => before.block.modeFor q.name = none ∨
      s.writing = .unlocked ∧ after.block.modeFor q.name = none
  | .decided d => d = before.decision q clientIp ∨ d = after.decision q clientIp ∨
      before.block.modeFor q.name = none ∧ d = .ofZones (after.zones.respond q)

theorem holds_step {s s' : Race} {a : Action} (h : Holds before after s)
    (hStep : step after q clientIp s a = some s') : Holds before after s' := by
  cases a with
  | read =>
      rw [step] at hStep
      split_ifs at hStep
      obtain ⟨reading, -, rfl⟩ := Option.map_eq_some_iff.mp hStep
      exact h
  | reload =>
      obtain ⟨policy, writing, reading⟩ := s
      cases writing <;> simp_all [step, reload, Holds] <;> subst hStep <;> simp_all

theorem decision_listed {p : Policy} {mode : BlockMode} (h : p.block.modeFor q.name = some mode) :
    p.decision q clientIp = .blocked mode (BlockList.respond q clientIp mode) := by
  rw [Policy.decision, h]

theorem decision_unlisted {p : Policy} (h : p.block.modeFor q.name = none) :
    p.decision q clientIp = .ofZones (p.zones.respond q) := by
  rw [Policy.decision, h]

theorem read_step {s s' : Race} {a : Action} (hHolds : Holds before after s)
    (h : Read before after q clientIp s) (hStep : step after q clientIp s a = some s') :
    Read before after q clientIp s' := by
  cases a with
  | reload =>
      -- the reload has not ended before its last step, and nothing is read in it
      obtain ⟨policy, writing, reading⟩ := s
      cases writing <;> simp only [step, reload, Option.some.injEq, reduceCtorEq] at hStep <;>
        subst hStep <;> cases reading <;> simp_all [Read]
  | read =>
      rw [step] at hStep
      split_ifs at hStep with hFree
      obtain ⟨reading, hNext, rfl⟩ := Option.map_eq_some_iff.mp hStep
      have hPolicy : s.writing = .waiting ∧ s.policy = before ∨
          s.writing = .unlocked ∧ s.policy = after := by
        rcases hFree with hFree | hFree
        · exact Or.inl ⟨hFree, by simpa [Holds, hFree] using hHolds⟩
        · exact Or.inr ⟨hFree, by simpa [Holds, hFree] using hHolds⟩
      cases hReading : s.reading with
      | start =>
          rw [hReading, Reading.next] at hNext
          cases hMode : s.policy.block.modeFor q.name with
          | some mode =>
              rw [hMode] at hNext
              cases hNext
              rcases hPolicy with ⟨-, hPolicy⟩ | ⟨-, hPolicy⟩
              · exact Or.inl (hPolicy ▸ hMode)
              · exact Or.inr (hPolicy ▸ hMode)
          | none =>
              rw [hMode] at hNext
              cases hNext
              rcases hPolicy with ⟨-, hPolicy⟩ | ⟨hDone, hPolicy⟩
              · exact Or.inl (hPolicy ▸ hMode)
              · exact Or.inr ⟨hDone, hPolicy ▸ hMode⟩
      | listed mode =>
          rw [hReading, Reading.next] at hNext
          cases hNext
          rw [Read, hReading] at h
          rcases h with h | h
          · exact Or.inl (decision_listed h).symm
          · exact Or.inr (Or.inl (decision_listed h).symm)
      | unlisted =>
          rw [hReading, Reading.next] at hNext
          cases hNext
          rw [Read, hReading] at h
          rcases h with hBefore | ⟨hDone, hAfter⟩
          · rcases hPolicy with ⟨-, hPolicy⟩ | ⟨-, hPolicy⟩
            · exact Or.inl (by rw [decision_unlisted hBefore, hPolicy])
            · exact Or.inr (Or.inr ⟨hBefore, by rw [hPolicy]⟩)
          · rcases hPolicy with ⟨hWaiting, -⟩ | ⟨-, hPolicy⟩
            · simp [hDone] at hWaiting
            · exact Or.inr (Or.inl (by rw [decision_unlisted hAfter, hPolicy]))
      | decided d =>
          rw [hReading, Reading.next] at hNext
          cases hNext

/-- Whatever the order of the reads and the reload, a decision is that of one of
the policies or mixes the two. -/
theorem read_run {actions : List Action} {s : Race}
    (hRun : Runs.run (step after q clientIp) { policy := before } actions = some s) :
    Read before after q clientIp s := by
  let holds (s : Race) : Prop := Holds before after s ∧ Read before after q clientIp s
  have hStep (s : Race) (a : Action) (s' : Race) (h : holds s) (_ : True)
      (hStep : step after q clientIp s a = some s') : holds s' :=
    ⟨holds_step h.1 hStep, read_step h.1 h.2 hStep⟩
  have hStart : holds { policy := before } := ⟨rfl, trivial⟩
  exact (Runs.run_invariant hStep hStart (fun _ _ => trivial) hRun).2

/-- The reload comes between the two reads of a query. -/
def between : List Action := [.read, .reload, .reload, .reload, .reload, .read]

variable (after clientIp) in
theorem run_between (hBlock : before.block.modeFor q.name = none) :
    ∃ s, Runs.run (step after q clientIp) { policy := before } between = some s ∧
      s.reading = .decided (.ofZones (after.zones.respond q)) := by
  have hFirst : step after q clientIp { policy := before } .read =
      some { policy := before, reading := .unlisted } := by
    simp [step, Reading.next, hBlock]
  refine ⟨⟨after, .unlocked, .decided (.ofZones (after.zones.respond q))⟩, ?_, rfl⟩
  rw [between, Runs.run_cons, hFirst]
  rfl

variable (before after q clientIp)

/-- A query is decided by one policy, wherever a reload comes, exactly if the old
policy blocks it, the new one does not, or the zones of both say the same. -/
theorem decision_iff :
    (∀ actions s d, Runs.run (step after q clientIp) { policy := before } actions = some s →
      s.reading = .decided d → d = before.decision q clientIp ∨ d = after.decision q clientIp) ↔
    before.block.modeFor q.name ≠ none ∨ after.block.modeFor q.name = none ∨
      before.zones.respond q = after.zones.respond q := by
  constructor
  · intro hOne
    by_cases hBefore : before.block.modeFor q.name = none
    · obtain ⟨s, hRun, hDecided⟩ := run_between after clientIp hBefore
      rcases hOne _ s _ hRun hDecided with h | h
      · rw [decision_unlisted hBefore] at h
        exact Or.inr (Or.inr (Decision.ofZones_injective h.symm))
      · refine Or.inr (Or.inl ?_)
        cases hAfter : after.block.modeFor q.name with
        | none => rfl
        | some mode =>
            rw [decision_listed hAfter] at h
            cases hZone : after.zones.respond q <;> simp [hZone, Decision.ofZones] at h
    · exact Or.inl hBefore
  · intro hCondition actions s d hRun hDecided
    have hRead := read_run hRun
    rw [Read, hDecided] at hRead
    rcases hRead with h | h | ⟨hBefore, h⟩
    · exact Or.inl h
    · exact Or.inr h
    · rcases hCondition with hBlocked | hAfter | hZones
      · exact absurd hBefore hBlocked
      · exact Or.inr (by rw [h, decision_unlisted hAfter])
      · exact Or.inl (by rw [h, decision_unlisted hBefore, hZones])

/-- A policy that answers for a zone, and the one that blocks its name instead. -/
def served : Policy :=
  .reload [⟨"1".toList, "lab.example".toList⟩]
    [⟨"1".toList, "@".toList, "A", "192.0.2.1".toList, 60, 0⟩] []

/-- The zone is gone, and its name is blocked. -/
def withdrawn : Policy := .reload [] [] [⟨"lab.example".toList, .loopback⟩]

/-- A question for the name of the zone. -/
def labQuestion : Question := ⟨"lab.example.".toList, typeA, classIn⟩

/-- The query finds the name not blocked yet and its zone gone already, and goes on to the
cache and the resolver, which neither policy says. -/
theorem decision_mixed : ¬∀ (before after : Policy) (q : Question) (clientIp : IpAddr) actions s d,
    Runs.run (step after q clientIp) { policy := before } actions = some s →
      s.reading = .decided d →
      d = before.decision q clientIp ∨ d = after.decision q clientIp := by
  intro hAll
  have hBefore : served.block.modeFor labQuestion.name = none := by decide +kernel
  have hServed : (served.zones.respond labQuestion).isSome = true := by decide +kernel
  have hAfter : withdrawn.block.modeFor labQuestion.name = some .loopback := by decide +kernel
  have hNoZone : (withdrawn.zones.respond labQuestion).isNone = true := by decide +kernel
  obtain ⟨s, hRun, hDecided⟩ := run_between withdrawn (.v4 Ipv4Addr.localhost) hBefore
  rcases hAll served withdrawn _ _ _ _ _ hRun hDecided with h | h
  · rw [decision_unlisted hBefore] at h
    rw [← Decision.ofZones_injective h, Option.isNone_iff_eq_none.mp hNoZone] at hServed
    cases hServed
  · rw [decision_listed hAfter, Option.isNone_iff_eq_none.mp hNoZone] at h
    cases h

end Race

end Dnsd.Resolve
