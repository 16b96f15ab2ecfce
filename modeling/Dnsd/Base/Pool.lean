import Mathlib.Data.List.Perm.Subperm
import Dnsd.Base.Parties
import Dnsd.Base.Runs

/-! A pool of workers that take jobs from one queue. A job is answered once, or
costs the worker that has taken it its life. -/

namespace Pool

variable {J R T : Type}

/-- A worker waits for a job, is at work on one, or has died on one. -/
inductive Worker (J : Type) where
  | waiting
  | handling (job : J)
  | dead (job : J)

/-- The job that a worker has taken and not answered. -/
def Worker.job : Worker J → Option J
  | .waiting => none
  | .handling job | .dead job => some job

/-- Only a dead worker never takes a job again. -/
def Worker.alive : Worker J → Bool
  | .dead _ => false
  | _ => true

/-- The jobs are kept as they come in, and the answers with what they answer. -/
structure State (J R : Type) where
  workers : List (Worker J)
  reading : Bool := true
  queue : List J := []
  answers : List (J × R) := []
  received : List J := []

/-- A job comes in, a worker takes the first one of the queue, or it comes to the end of
its job with what its turn makes of it. -/
inductive Action (J T : Type) where
  | receive (job : J)
  | take (i : Nat)
  | finish (i : Nat) (turn : T)

/-- A job that no worker is left for ends the intake. `work` is what a turn makes of
a job: an answer, nothing when the worker dies, no end at all. -/
def step (work : T → J → Option (Option R)) (s : State J R) : Action J T → Option (State J R)
  | .receive job =>
      if s.reading then
        if s.workers.any Worker.alive then
          some { s with queue := s.queue ++ [job], received := s.received ++ [job] }
        else some { s with reading := false }
      else none
  | .take i =>
      match s.workers[i]?, s.queue with
      | some .waiting, job :: queue =>
          some { s with workers := s.workers.set i (.handling job), queue := queue }
      | _, _ => none
  | .finish i turn =>
      match s.workers[i]? with
      | some (.handling job) =>
          match work turn job with
          | some (some answer) =>
              some { s with
                workers := s.workers.set i .waiting
                answers := s.answers ++ [(job, answer)] }
          | some none => some { s with workers := s.workers.set i (.dead job) }
          | none => none
      | _ => none

/-- All workers wait, and nothing has been received. -/
def start (n : Nat) : State J R := { workers := List.replicate n .waiting }

/-- What has been received is answered, with a worker, or in the queue, each job
once; jobs leave the queue in the order in which they came. -/
structure Sound (work : T → J → Option (Option R)) (n : Nat) (s : State J R) : Prop where
  size : s.workers.length = n
  flow : ∃ taken, s.received = taken ++ s.queue ∧
    taken.Perm (s.answers.map Prod.fst ++ s.workers.filterMap Worker.job)
  answered : ∀ a ∈ s.answers, ∃ turn, work turn a.1 = some (some a.2)
  dead : ∀ job, .dead job ∈ s.workers → ∃ turn, work turn job = some none

section Steps

variable {work : T → J → Option (Option R)} {n : Nat} {s s' : State J R}

theorem sound_start (n : Nat) : Sound work n (start n) := by
  refine ⟨List.length_replicate, ⟨[], rfl, ?_⟩, by simp [start], fun job hJob => ?_⟩
  · rw [start, List.filterMap_replicate_of_none rfl]
    rfl
  · cases List.eq_of_mem_replicate hJob

theorem Sound.receive (h : Sound work n s) (job : J) :
    Sound work n { s with queue := s.queue ++ [job], received := s.received ++ [job] } := by
  obtain ⟨taken, hReceived, hTaken⟩ := h.flow
  exact ⟨h.size, ⟨taken, by rw [hReceived, List.append_assoc], hTaken⟩, h.answered, h.dead⟩

theorem Sound.take (h : Sound work n s) {i : Nat} {job : J} {queue : List J}
    (hWorker : s.workers[i]? = some .waiting) (hQueue : s.queue = job :: queue) :
    Sound work n { s with workers := s.workers.set i (.handling job), queue := queue } := by
  obtain ⟨taken, hReceived, hTaken⟩ := h.flow
  have hSwap := Parties.perm_filterMap_set hWorker Worker.job (.handling job)
  refine ⟨by rw [List.length_set, h.size], ⟨taken ++ [job], ?_, ?_⟩, h.answered, fun other hOther => ?_⟩
  · rw [hReceived, hQueue, List.append_assoc]
    rfl
  · have hJobs : List.Perm ((s.workers.set i (.handling job)).filterMap Worker.job)
        (job :: s.workers.filterMap Worker.job) := hSwap
    calc
      List.Perm (taken ++ [job]) (job :: taken) := List.perm_append_singleton job taken
      List.Perm _ (job :: (s.answers.map Prod.fst ++ s.workers.filterMap Worker.job)) :=
        hTaken.cons job
      List.Perm _ (s.answers.map Prod.fst ++ job :: s.workers.filterMap Worker.job) :=
        List.perm_middle.symm
      List.Perm _ (s.answers.map Prod.fst ++ (s.workers.set i (.handling job)).filterMap Worker.job) :=
        hJobs.symm.append_left _
  · rcases List.mem_or_eq_of_mem_set hOther with hOld | hNew
    · exact h.dead other hOld
    · cases hNew

theorem Sound.answer (h : Sound work n s) {i : Nat} {job : J} {turn : T} {answer : R}
    (hWorker : s.workers[i]? = some (.handling job)) (hWork : work turn job = some (some answer)) :
    Sound work n { s with
      workers := s.workers.set i .waiting
      answers := s.answers ++ [(job, answer)] } := by
  obtain ⟨taken, hReceived, hTaken⟩ := h.flow
  have hJobs : List.Perm (job :: (s.workers.set i .waiting).filterMap Worker.job)
      (s.workers.filterMap Worker.job) := Parties.perm_filterMap_set hWorker Worker.job .waiting
  refine ⟨by rw [List.length_set, h.size], ⟨taken, hReceived, ?_⟩, fun a ha => ?_, fun other hOther => ?_⟩
  · rw [List.map_append, List.append_assoc]
    exact hTaken.trans (hJobs.symm.append_left _)
  · rcases List.mem_append.mp ha with hOld | hNew
    · exact h.answered a hOld
    · rw [List.mem_singleton.mp hNew]
      exact ⟨turn, hWork⟩
  · rcases List.mem_or_eq_of_mem_set hOther with hOld | hNew
    · exact h.dead other hOld
    · cases hNew

theorem Sound.die (h : Sound work n s) {i : Nat} {job : J} {turn : T}
    (hWorker : s.workers[i]? = some (.handling job)) (hWork : work turn job = some none) :
    Sound work n { s with workers := s.workers.set i (.dead job) } := by
  obtain ⟨taken, hReceived, hTaken⟩ := h.flow
  have hJobs : List.Perm (job :: (s.workers.set i (.dead job)).filterMap Worker.job)
      (job :: s.workers.filterMap Worker.job) :=
    Parties.perm_filterMap_set hWorker Worker.job (.dead job)
  refine ⟨by rw [List.length_set, h.size], ⟨taken, hReceived, ?_⟩, h.answered, fun other hOther => ?_⟩
  · exact hTaken.trans ((List.perm_cons job).mp hJobs.symm |>.append_left _)
  · rcases List.mem_or_eq_of_mem_set hOther with hOld | hNew
    · exact h.dead other hOld
    · cases hNew
      exact ⟨turn, hWork⟩

theorem Sound.step {a : Action J T} (h : Sound work n s) (hStep : step work s a = some s') :
    Sound work n s' := by
  cases a with
  | receive job =>
      rw [Pool.step] at hStep
      split_ifs at hStep
      · cases hStep
        exact h.receive job
      · cases hStep
        exact ⟨h.size, h.flow, h.answered, h.dead⟩
  | take i =>
      rw [Pool.step] at hStep
      split at hStep
      · next hWorker hQueue =>
          cases hStep
          exact h.take hWorker hQueue
      · cases hStep
  | finish i turn =>
      rw [Pool.step] at hStep
      split at hStep
      · next job hWorker =>
          split at hStep
          · next answer hWork =>
              cases hStep
              exact h.answer hWorker hWork
          · next hWork =>
              cases hStep
              exact h.die hWorker hWork
          · cases hStep
      · cases hStep

/-- Whatever the workers do in whatever order. -/
theorem sound_run {actions : List (Action J T)}
    (hRun : Runs.run (Pool.step work) (start n) actions = some s) : Sound work n s := by
  have hKeep (s : State J R) (a : Action J T) (s' : State J R) (h : Sound work n s) (_ : True)
      (hStep : Pool.step work s a = some s') : Sound work n s' := h.step hStep
  exact Runs.run_invariant hKeep (sound_start n) (fun _ _ => trivial) hRun

/-- Nothing is left to do: no job is with a worker, and none is in the queue that a
worker could take. -/
structure Idle (s : State J R) : Prop where
  workers : ∀ job, .handling job ∉ s.workers
  queue : s.queue = [] ∨ ∀ w ∈ s.workers, w.alive = false

/-- When the queue is empty every job is answered, but for those that are with a worker. -/
theorem Sound.settled (h : Sound work n s) (hQueue : s.queue = []) :
    s.received.Perm (s.answers.map Prod.fst ++ s.workers.filterMap Worker.job) := by
  obtain ⟨taken, hReceived, hTaken⟩ := h.flow
  rwa [hReceived, hQueue, List.append_nil]

/-- A job that no turn answers is with a worker once it has been taken. -/
theorem Sound.deadly_le (h : Sound work n s) {deadly : List J}
    (hDeadly : ∀ job ∈ deadly, ∀ turn answer, work turn job ≠ some (some answer))
    (hReceived : deadly.Subperm (s.answers.map Prod.fst ++ s.workers.filterMap Worker.job)) :
    deadly.length ≤ (s.workers.filterMap Worker.job).length := by
  classical
  let spared (job : J) : Bool := decide (∃ turn answer, work turn job = some (some answer))
  have hAll : deadly.filter (fun job => !spared job) = deadly := by
    refine List.filter_eq_self.mpr fun job hJob => ?_
    rw [Bool.not_eq_true', decide_eq_false_iff_not]
    rintro ⟨turn, answer, hWork⟩
    exact hDeadly job hJob turn answer hWork
  have hNone : (s.answers.map Prod.fst).filter (fun job => !spared job) = [] := by
    refine List.filter_eq_nil_iff.mpr fun job hJob => ?_
    obtain ⟨a, ha, rfl⟩ := List.mem_map.mp hJob
    obtain ⟨turn, hWork⟩ := h.answered a ha
    rw [Bool.not_eq_true', decide_eq_false_iff_not, not_not]
    exact ⟨turn, a.2, hWork⟩
  have hSub := hReceived.filter (fun job => !spared job)
  rw [hAll, List.filter_append, hNone, List.nil_append] at hSub
  exact Nat.le_trans hSub.length_le (List.length_filter_le _ _)

/-- As many deadly jobs as there are workers leave no worker, once all that can be
done is done. -/
theorem Sound.exhausted (h : Sound work n s) (hIdle : Idle s) {deadly : List J}
    (hDeadly : ∀ job ∈ deadly, ∀ turn answer, work turn job ≠ some (some answer))
    (hReceived : deadly.Subperm s.received) (hMany : n ≤ deadly.length) :
    ∀ w ∈ s.workers, w.alive = false := by
  rcases hIdle.queue with hQueue | hDead
  · have hLe := h.deadly_le hDeadly (hReceived.trans (h.settled hQueue).subperm)
    have hSize := h.size
    have hLength : (s.workers.filterMap Worker.job).length = s.workers.length := by
      have := List.length_filterMap_le Worker.job s.workers
      omega
    intro w hw
    have hSome := List.filterMap_length_eq_length.mp hLength w hw
    cases w with
    | waiting => cases hSome
    | handling job => exact absurd hw (hIdle.workers job)
    | dead job => rfl
  · exact hDead

/-- Without workers nothing is taken any more, and nothing is answered. -/
theorem silent_run (hDead : ∀ w ∈ s.workers, w.alive = false) {actions : List (Action J T)}
    (hRun : Runs.run (Pool.step work) s actions = some s') :
    s'.answers = s.answers ∧ s'.received = s.received := by
  have hNone : s.workers.any Worker.alive = false := by simpa using hDead
  have hKeep (m : State J R) (a : Action J T) (m' : State J R)
      (h : m.workers = s.workers ∧ m.answers = s.answers ∧ m.received = s.received) (_ : True)
      (hStep : Pool.step work m a = some m') :
      m'.workers = s.workers ∧ m'.answers = s.answers ∧ m'.received = s.received := by
    obtain ⟨hWorkers, hSame⟩ := h
    cases a with
    | receive job =>
        rw [Pool.step, hWorkers, hNone, if_neg Bool.false_ne_true] at hStep
        split_ifs at hStep
        cases hStep
        exact ⟨rfl, hSame⟩
    | take i =>
        rw [Pool.step] at hStep
        split at hStep
        · next hWorker _ =>
            rw [hWorkers] at hWorker
            cases hDead _ (List.mem_of_getElem? hWorker)
        · cases hStep
    | finish i turn =>
        rw [Pool.step] at hStep
        split at hStep
        · next job hWorker =>
            rw [hWorkers] at hWorker
            cases hDead _ (List.mem_of_getElem? hWorker)
        · cases hStep
  exact (Runs.run_invariant hKeep ⟨rfl, rfl, rfl⟩ (fun _ _ => trivial) hRun).2

end Steps

end Pool
