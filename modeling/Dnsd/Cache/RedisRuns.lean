import Dnsd.Base.Parties
import Dnsd.Base.Runs
import Dnsd.Cache.Resp

/-! Commands that share one connection to Redis: each writes and reads under a
lock, and tries once more behind a reconnection when that fails. -/

namespace Dnsd.Cache.RedisClient

open Resp

/-- A connection: the calls whose commands the server has received and not yet
answered, and what it has written and nobody has read. That an attempt has failed
on the connection is not in the program. -/
structure Conn where
  asked : List Nat := []
  unread : Bytes := []
  failed : Bool := false

/-- Where a call of `cmd` is; a reading one holds the lock. -/
inductive Stage where
  | ready
  | reading (retry : Bool)
  | failed
  | retries
  | returned (result : Except String Resp)
  | unwound

/-- The attempt that comes next, if one does: the second one or the first. -/
def Stage.next : Stage → Option Bool
  | .ready => some false
  | .retries => some true
  | .reading _ | .failed | .returned _ | .unwound => none

/-- A call of `cmd`: the arguments of its command, and how far it has come. -/
structure Call where
  args : List Bytes
  stage : Stage

/-- The client and its calls so far. What the server has answered to the commands
of each call is not in the program. A process that has been aborted, which is one in
which a reader has asked for a buffer that the allocator refuses, takes no more steps. -/
structure State where
  conn : Option Conn := none
  holder : Option Nat := none
  poisoned : Bool := false
  aborted : Bool := false
  calls : List Call := []
  answers : List (Nat × Reply) := []

/-- How a write ends: with or without the server having received the command, or
with an error. -/
inductive Write where
  | received
  | lost
  | error (e : String)

/-- The steps of the calls, and answers of the server. A read is given how many of
the bytes arrive before it gives up, and how large a buffer the allocator grants it. -/
inductive Action where
  | call (args : List Bytes)
  | send (i : Nat) (write : Write)
  | answer (r : Reply)
  | read (i n : Nat) (closed : Bool) (memory : Nat)
  | reconnect (i : Nat) (connected : Bool)

namespace State

/-- The state behind `Redis::connect`: a fresh connection, and no call so far. -/
def start : State := { conn := some {} }

/-- One call goes on to another stage; the connection stays. -/
def move (s : State) (i : Nat) (args : List Bytes) (stage : Stage) : State :=
  { s with calls := s.calls.set i ⟨args, stage⟩ }

/-- The end of an attempt that has failed. -/
def fail (s : State) (i : Nat) (args : List Bytes) (retry : Bool) (e : String) : State :=
  s.move i args (if retry then .returned (.error e) else .failed)

/-- The first half of `cmd_inner`, up to `flush`. -/
def send (s : State) (i : Nat) (args : List Bytes) (retry : Bool) (write : Write) : State :=
  match s.conn with
  | none => s.fail i args retry "not connected"
  | some c =>
      match write with
      | .received =>
          { s.move i args (.reading retry) with
            holder := some i
            conn := some { c with asked := c.asked ++ [i] } }
      | .lost => { s.move i args (.reading retry) with holder := some i }
      | .error e => { s.fail i args retry e with conn := some { c with failed := true } }

/-- The second half of an attempt, `read_resp`, on what has arrived so far. -/
def read (s : State) (i : Nat) (args : List Bytes) (retry : Bool) (c : Conn) (n : Nat)
    (closed : Bool) (memory : Nat) : State :=
  match Resp.read memory ⟨c.unread.take n, closed⟩ with
  | none => { s with aborted := true }
  | some (result, rest) =>
      let c := { c with unread := rest ++ c.unread.drop n }
      match result with
      | .ok v => { s.move i args (.returned (.ok v)) with holder := none, conn := some c }
      | .err e =>
          { s.fail i args retry e with holder := none, conn := some { c with failed := true } }
      | .panicked =>
          { s.move i args .unwound with
            holder := none
            poisoned := true
            conn := some { c with failed := true } }

/-- A step of a process that has not been aborted. -/
def act (s : State) : Action → Option State
  | .call args => some { s with calls := s.calls ++ [⟨args, .ready⟩] }
  | .send i write =>
      match s.calls[i]? with
      | some ⟨args, stage⟩ =>
          match stage.next with
          | some retry =>
              if s.holder.isSome then none
              else if s.poisoned then some (s.move i args .unwound)
              else some (s.send i args retry write)
          | none => none
      | none => none
  | .answer r =>
      match s.conn with
      | some ⟨i :: rest, unread, failed⟩ =>
          if r.WellFormed then
            some { s with
              conn := some ⟨rest, unread ++ r.encode, failed⟩
              answers := (i, r) :: s.answers }
          else none
      | _ => none
  | .read i n closed memory =>
      match s.calls[i]?, s.conn with
      | some ⟨args, .reading retry⟩, some c => some (s.read i args retry c n closed memory)
      | _, _ => none
  | .reconnect i connected =>
      match s.calls[i]? with
      | some ⟨args, .failed⟩ =>
          if !connected then some (s.move i args .retries)
          else if s.holder.isSome then none
          else if s.poisoned then some (s.move i args .unwound)
          else some { s.move i args .retries with conn := some {} }
      | _ => none

/-- Nothing is done any more once the process has been aborted. -/
def step (s : State) (a : Action) : Option State := if s.aborted then none else s.act a

/-- All that a step can do, with what admits it. -/
inductive Steps (s : State) : Action → State → Prop where
  | call (args : List Bytes) :
      s.Steps (.call args) { s with calls := s.calls ++ [⟨args, .ready⟩] }
  | sendUnwound {i : Nat} {args : List Bytes} {stage : Stage} (write : Write)
      (hCall : s.calls[i]? = some ⟨args, stage⟩) (hPoisoned : s.poisoned = true) :
      s.Steps (.send i write) (s.move i args .unwound)
  | send {i : Nat} {args : List Bytes} {stage : Stage} (retry : Bool) (write : Write)
      (hCall : s.calls[i]? = some ⟨args, stage⟩) (hNext : stage.next = some retry)
      (hFree : s.holder = none) (hWhole : s.poisoned = false) :
      s.Steps (.send i write) (s.send i args retry write)
  | answer {i : Nat} {rest : List Nat} {unread : Bytes} {failed : Bool} {r : Reply}
      (hConn : s.conn = some ⟨i :: rest, unread, failed⟩) (hWell : r.WellFormed) :
      s.Steps (.answer r) { s with
        conn := some ⟨rest, unread ++ r.encode, failed⟩
        answers := (i, r) :: s.answers }
  | read {i : Nat} {args : List Bytes} {retry : Bool} {c : Conn} (n : Nat) (closed : Bool)
      (memory : Nat) (hCall : s.calls[i]? = some ⟨args, .reading retry⟩) (hConn : s.conn = some c) :
      s.Steps (.read i n closed memory) (s.read i args retry c n closed memory)
  | reconnectFailed {i : Nat} {args : List Bytes} (hCall : s.calls[i]? = some ⟨args, .failed⟩) :
      s.Steps (.reconnect i false) (s.move i args .retries)
  | reconnectUnwound {i : Nat} {args : List Bytes} (hCall : s.calls[i]? = some ⟨args, .failed⟩)
      (hPoisoned : s.poisoned = true) : s.Steps (.reconnect i true) (s.move i args .unwound)
  | reconnect {i : Nat} {args : List Bytes} (hCall : s.calls[i]? = some ⟨args, .failed⟩)
      (hFree : s.holder = none) (hWhole : s.poisoned = false) :
      s.Steps (.reconnect i true) { s.move i args .retries with conn := some {} }

theorem steps_of_step {s s' : State} {a : Action} (h : s.step a = some s') : s.Steps a s' := by
  rw [step] at h
  split_ifs at h with hAborted
  cases a with
  | call args =>
      cases h
      exact .call args
  | send i write =>
      rw [act] at h
      split at h
      · rename_i args stage hCall
        split at h
        · rename_i retry hNext
          split_ifs at h with hHeld hPoisoned
          · cases h
            exact .sendUnwound write hCall hPoisoned
          · cases h
            exact .send retry write hCall hNext (Option.not_isSome_iff_eq_none.mp hHeld)
              (by simpa using hPoisoned)
        · cases h
      · cases h
  | answer r =>
      rw [act] at h
      split at h
      · rename_i i rest unread failed hConn
        split_ifs at h with hWell
        cases h
        exact .answer hConn hWell
      · cases h
  | read i n closed memory =>
      rw [act] at h
      split at h
      · rename_i args retry c hCall hConn
        cases h
        exact .read n closed memory hCall hConn
      · cases h
  | reconnect i connected =>
      rw [act] at h
      split at h
      · rename_i args hCall
        cases connected with
        | false =>
            cases h
            exact .reconnectFailed hCall
        | true =>
            rw [if_neg (by simp)] at h
            split_ifs at h with hHeld hPoisoned
            · cases h
              exact .reconnectUnwound hCall hPoisoned
            · cases h
              exact .reconnect hCall (Option.not_isSome_iff_eq_none.mp hHeld) (by simpa using hPoisoned)
      · cases h

/-- Nothing is written to a connection on which an attempt has failed, the replies
are plain, and the server does not close the connection within a line. -/
def Regular (s : State) : Action → Prop
  | .send _ _ => ∀ c ∈ s.conn, c.failed = false
  | .answer r => r.Plain
  | .read _ n closed _ => ∀ c ∈ s.conn, (⟨c.unread.take n, closed⟩ : Arrival).Uncut
  | .call _ | .reconnect _ _ => True

instance (s : State) (a : Action) : Decidable (s.Regular a) := by
  cases a <;> unfold Regular <;> infer_instance

/-- A connection on which an attempt has failed may still be written to, as long as
nothing arrives over it any more. -/
def Orderly (s : State) : Action → Prop
  | .answer r => r.Plain
  | .read _ n closed _ => ∀ c ∈ s.conn, (⟨c.unread.take n, closed⟩ : Arrival).Uncut ∧
      (c.failed = true → c.unread.take n = [])
  | .call _ | .send _ _ | .reconnect _ _ => True

instance (s : State) (a : Action) : Decidable (s.Orderly a) := by
  cases a <;> unfold Orderly <;> infer_instance

end State

/-! ## The invariant -/

/-- What is outstanding on a connection on which no attempt has failed: nothing, but
for the command of the caller that holds the lock, or the reply to it. -/
def Outstanding (s : State) (c : Conn) : Prop :=
  match s.holder with
  | none => c.asked = [] ∧ c.unread = []
  | some i => (c.unread = [] ∧ (c.asked = [] ∨ c.asked = [i])) ∨
      (c.asked = [] ∧ ∃ r, (i, r) ∈ s.answers ∧ r.WellFormed ∧ r.Plain ∧ c.unread = r.encode)

/-- A call of which the server has answered a command with what it has returned. -/
def Answered (s : State) (i : Nat) (v : Resp) : Prop := ∃ r, (i, r) ∈ s.answers ∧ r.resp = some v

/-- What every step keeps: nothing is outstanding on a good connection but the command of
the caller that holds the lock, and a value that was returned is the answer to the own
command. -/
structure Sound (s : State) : Prop where
  conn : ∀ c ∈ s.conn, c.failed = false → Outstanding s c
  reading : ∀ i args retry, s.calls[i]? = some ⟨args, .reading retry⟩ → s.holder = some i
  returned : ∀ i args v, s.calls[i]? = some ⟨args, .returned (.ok v)⟩ → Answered s i v

theorem sound_start : Sound State.start := by
  refine ⟨fun c hc _ => ?_, by simp [State.start], by simp [State.start]⟩
  cases hc
  exact ⟨rfl, rfl⟩

section Steps

variable {s s' : State} {i : Nat} {args : List Bytes} {old stage : Stage}

/-- A step of one call: what it leaves outstanding, and where it is then. -/
theorem Sound.call (h : Sound s) (hCall : s.calls[i]? = some ⟨args, old⟩) (stage : Stage)
    (hCalls : s'.calls = s.calls.set i ⟨args, stage⟩) (hAnswers : s'.answers = s.answers)
    (hConn : ∀ c ∈ s'.conn, c.failed = false → Outstanding s' c)
    (hOthers : ∀ j, j ≠ i → s.holder = some j → s'.holder = some j)
    (hReading : ∀ retry, stage = .reading retry → s'.holder = some i)
    (hReturned : ∀ v, stage = .returned (.ok v) → Answered s i v) : Sound s' := by
  refine ⟨hConn, fun j args' retry hj => ?_, fun j args' v hj => ?_⟩
  · rw [hCalls, Parties.set_get hCall] at hj
    split_ifs at hj with hSame
    · cases hj
      subst hSame
      exact hReading retry rfl
    · exact hOthers j hSame (h.reading j args' retry hj)
  · rw [Answered, hAnswers]
    rw [hCalls, Parties.set_get hCall] at hj
    split_ifs at hj with hSame
    · cases hj
      subst hSame
      exact hReturned v rfl
    · exact h.returned j args' v hj

/-- A step that changes nothing but the stage. -/
theorem Sound.move (h : Sound s) (hCall : s.calls[i]? = some ⟨args, old⟩)
    (hReading : ∀ retry, stage ≠ .reading retry) (hReturned : ∀ v, stage ≠ .returned (.ok v)) :
    Sound (s.move i args stage) :=
  h.call hCall _ rfl rfl h.conn (fun _ _ hHolder => hHolder)
    (fun retry hStage => absurd hStage (hReading retry))
    fun v hStage => absurd hStage (hReturned v)

/-- A step by which the connection fails, while no other call waits for a reply. -/
theorem Sound.fail (h : Sound s) (hCall : s.calls[i]? = some ⟨args, old⟩)
    (hAlone : ∀ j, j ≠ i → s.holder ≠ some j) (hReading : ∀ retry, stage ≠ .reading retry)
    (hReturned : ∀ v, stage ≠ .returned (.ok v)) (hCalls : s'.calls = s.calls.set i ⟨args, stage⟩)
    (hAnswers : s'.answers = s.answers) (hConn : ∀ c ∈ s'.conn, c.failed = true) : Sound s' := by
  refine h.call hCall stage hCalls hAnswers (fun c hc hFailed => ?_)
    (fun j hj hHolder => absurd hHolder (hAlone j hj))
    (fun retry hStage => absurd hStage (hReading retry))
    fun v hStage => absurd hStage (hReturned v)
  rw [hConn c hc] at hFailed
  cases hFailed

/-- The stage behind an attempt that has failed. -/
theorem failed_stage (retry : Bool) (e : String) :
    (∀ again, (if retry then Stage.returned (.error e) else .failed) ≠ .reading again) ∧
      ∀ v, (if retry then Stage.returned (.error e) else .failed) ≠ .returned (.ok v) := by
  cases retry <;> simp

theorem Sound.send (h : Sound s) (hCall : s.calls[i]? = some ⟨args, old⟩)
    (hFree : s.holder = none) (retry : Bool) (write : Write) :
    Sound (s.send i args retry write) := by
  have hAlone : ∀ j, j ≠ i → s.holder ≠ some j := fun j _ hHolder => by
    rw [hFree] at hHolder
    cases hHolder
  rw [State.send]
  split
  · exact h.move hCall (failed_stage retry _).1 (failed_stage retry _).2
  · rename_i c hConn
    have hOutstanding (hUnfailed : c.failed = false) : c.asked = [] ∧ c.unread = [] := by
      have hBoth := h.conn c hConn hUnfailed
      rwa [Outstanding, hFree] at hBoth
    cases write with
    | received =>
        refine h.call hCall (.reading retry) rfl rfl (fun c' hc' hUnfailed => ?_)
          (fun j hj hHolder => absurd hHolder (hAlone j hj)) (fun again _ => rfl)
          fun v hStage => by cases hStage
        cases hc'
        obtain ⟨hAsked, hUnread⟩ := hOutstanding hUnfailed
        exact Or.inl ⟨hUnread, Or.inr (by simp [hAsked])⟩
    | lost =>
        refine h.call hCall (.reading retry) rfl rfl (fun c' hc' hUnfailed => ?_)
          (fun j hj hHolder => absurd hHolder (hAlone j hj)) (fun again _ => rfl)
          fun v hStage => by cases hStage
        obtain rfl : c = c' := Option.some.inj (hConn.symm.trans hc')
        obtain ⟨hAsked, hUnread⟩ := hOutstanding hUnfailed
        exact Or.inl ⟨hUnread, Or.inl hAsked⟩
    | error e =>
        refine h.fail hCall hAlone (failed_stage retry e).1 (failed_stage retry e).2 rfl rfl
          fun c' hc' => ?_
        cases hc'
        rfl

/-- A read of what is outstanding for a call gives no value but that of its reply. -/
theorem answered_of_read {c : Conn} {n : Nat} {closed : Bool} {memory : Nat} {v : Resp} {rest : Bytes}
    (hOutstanding : (c.unread = [] ∧ (c.asked = [] ∨ c.asked = [i])) ∨
      (c.asked = [] ∧ ∃ r, (i, r) ∈ s.answers ∧ r.WellFormed ∧ r.Plain ∧ c.unread = r.encode))
    (hUncut : (⟨c.unread.take n, closed⟩ : Arrival).Uncut)
    (hRead : Resp.read memory ⟨c.unread.take n, closed⟩ = some (.ok v, rest)) :
    Answered s i v ∧ rest ++ c.unread.drop n = [] ∧ c.asked = [] := by
  rcases hOutstanding with ⟨hUnread, _⟩ | ⟨hAsked, r, hAnswer, hWell, hPlain, hUnread⟩
  · exact absurd hRead (read_nil (by simp [hUnread]) v rest)
  · have hPrefix : c.unread.take n <+: r.encode := hUnread ▸ List.take_prefix n c.unread
    obtain ⟨hValue, rfl, hBytes⟩ := read_encode hWell hPlain hPrefix hUncut hRead
    dsimp only at hBytes
    refine ⟨⟨r, hAnswer, hValue⟩, ?_, hAsked⟩
    rw [List.nil_append, List.drop_eq_nil_iff]
    rw [← hUnread, List.take_eq_self_iff] at hBytes
    exact hBytes

/-- The end of a read: a value, or a connection that has failed. -/
theorem Sound.read (h : Sound s) {c : Conn} {retry : Bool}
    (hCall : s.calls[i]? = some ⟨args, .reading retry⟩) (hConn : s.conn = some c) {n : Nat}
    {closed : Bool} (hUncut : (⟨c.unread.take n, closed⟩ : Arrival).Uncut)
    (hSilent : c.failed = true → c.unread.take n = []) (memory : Nat) :
    Sound (s.read i args retry c n closed memory) := by
  have hHolder := h.reading i args retry hCall
  have hAlone : ∀ j, j ≠ i → s.holder ≠ some j := fun j hj hOther => by
    rw [hHolder] at hOther
    exact hj (Option.some.inj hOther).symm
  rw [State.read]
  cases hRead : Resp.read memory ⟨c.unread.take n, closed⟩ with
  -- nothing but the process has changed
  | none => exact ⟨h.conn, h.reading, h.returned⟩
  | some ending =>
      obtain ⟨result, rest⟩ := ending
      dsimp only
      cases result with
      | ok v =>
          dsimp only
          have hUnfailed : c.failed = false := by
            by_contra hFailed
            exact read_nil (hSilent (by simpa using hFailed)) v rest hRead
          have hOutstanding := h.conn c hConn hUnfailed
          rw [Outstanding, hHolder] at hOutstanding
          obtain ⟨hAnswered, hRest, hAsked⟩ := answered_of_read hOutstanding hUncut hRead
          refine h.call hCall (.returned (.ok v)) rfl rfl (fun c' hc' _ => ?_)
            (fun j hj hOther => absurd hOther (hAlone j hj)) (fun again hStage => by cases hStage)
            fun v' hStage => by cases hStage; exact hAnswered
          cases hc'
          exact ⟨hAsked, hRest⟩
      | err e =>
          dsimp only
          refine h.fail hCall hAlone (failed_stage retry e).1 (failed_stage retry e).2 rfl rfl
            fun c' hc' => ?_
          cases hc'
          rfl
      | panicked =>
          dsimp only
          refine h.fail hCall hAlone (by simp) (by simp) rfl rfl fun c' hc' => ?_
          cases hc'
          rfl

/-- The server answers the oldest command of a connection. -/
theorem Sound.answer (h : Sound s) {j : Nat} {rest : List Nat} {unread : Bytes} {failed : Bool}
    (hConn : s.conn = some ⟨j :: rest, unread, failed⟩) {r : Reply} (hWell : r.WellFormed)
    (hPlain : r.Plain) :
    Sound { s with
      conn := some ⟨rest, unread ++ r.encode, failed⟩
      answers := (j, r) :: s.answers } := by
  refine ⟨fun c hc hFailed => ?_, fun i args retry hi => ?_, fun i args v hi => ?_⟩
  · cases hc
    have hOutstanding := h.conn _ hConn hFailed
    rw [Outstanding] at hOutstanding ⊢
    dsimp only at hOutstanding ⊢
    cases hHolder : s.holder with
    | none =>
        rw [hHolder] at hOutstanding
        cases hOutstanding.1
    | some i =>
        rw [hHolder] at hOutstanding
        rcases hOutstanding with ⟨hUnread, hNone | hOne⟩ | ⟨hNone, _⟩
        · cases hNone
        · cases hOne
          exact Or.inr ⟨rfl, r, List.mem_cons_self, hWell, hPlain, by rw [hUnread, List.nil_append]⟩
        · cases hNone
  · exact h.reading i args retry hi
  · obtain ⟨r', hAnswer, hValue⟩ := h.returned i args v hi
    exact ⟨r', List.mem_cons_of_mem _ hAnswer, hValue⟩

/-- Nothing is outstanding on a new connection. -/
theorem Sound.reconnect (h : Sound s) (hCall : s.calls[i]? = some ⟨args, old⟩)
    (hFree : s.holder = none) : Sound { s.move i args .retries with conn := some {} } := by
  refine h.call hCall .retries rfl rfl (fun c hc _ => ?_) (fun j _ hOther => hOther)
    (fun again hStage => by cases hStage) fun v hStage => by cases hStage
  cases hc
  rw [Outstanding]
  dsimp only [State.move]
  rw [hFree]
  exact ⟨rfl, rfl⟩

theorem sound_step {a : Action} (h : Sound s) (hOrderly : s.Orderly a) (hStep : s.step a = some s') :
    Sound s' := by
  cases State.steps_of_step hStep with
  | call args =>
      refine ⟨h.conn, fun j args' retry hj => ?_, fun j args' v hj => ?_⟩
      · rw [Parties.push_get] at hj
        split_ifs at hj
        · cases hj
        · exact h.reading j args' retry hj
      · rw [Parties.push_get] at hj
        split_ifs at hj
        · cases hj
        · exact h.returned j args' v hj
  | sendUnwound write hCall hPoisoned => exact h.move hCall (by simp) (by simp)
  | send retry write hCall hNext hFree hWhole => exact h.send hCall hFree retry write
  | answer hConn hWell => exact h.answer hConn hWell hOrderly
  | read n closed memory hCall hConn =>
      obtain ⟨hUncut, hSilent⟩ := hOrderly _ hConn
      exact h.read hCall hConn hUncut hSilent memory
  | reconnectFailed hCall => exact h.move hCall (by simp) (by simp)
  | reconnectUnwound hCall hPoisoned => exact h.move hCall (by simp) (by simp)
  | reconnect hCall hFree hWhole => exact h.reconnect hCall hFree

/-! Where nothing is written to a connection that has failed, no call reads from one. -/

/-- No call waits for a reply on a connection on which an attempt has failed. -/
def Clean (s : State) : Prop :=
  ∀ (i : Nat) (args : List Bytes) (retry : Bool),
    s.calls[i]? = some ⟨args, .reading retry⟩ → ∀ c ∈ s.conn, c.failed = false

/-- A step of one call that leaves the others with nothing to wait for, or with the same
connection. -/
theorem Clean.call (h : Clean s) (hCall : s.calls[i]? = some ⟨args, old⟩) {stage : Stage}
    (hCalls : s'.calls = s.calls.set i ⟨args, stage⟩)
    (hOthers : ∀ j args' retry, j ≠ i → s.calls[j]? = some ⟨args', .reading retry⟩ → s'.conn = s.conn)
    (hReading : ∀ retry, stage = .reading retry → ∀ c ∈ s'.conn, c.failed = false) : Clean s' := by
  intro j args' retry hj
  rw [hCalls, Parties.set_get hCall] at hj
  split_ifs at hj with hSame
  · cases hj
    exact hReading retry rfl
  · rw [hOthers j args' retry hSame hj]
    exact h j args' retry hj

theorem Clean.move (h : Clean s) (hCall : s.calls[i]? = some ⟨args, old⟩)
    (hReading : ∀ retry, stage ≠ .reading retry) : Clean (s.move i args stage) :=
  h.call hCall rfl (fun _ _ _ _ _ => rfl) fun retry hStage => absurd hStage (hReading retry)

/-- No other call reads while one may write, and none while one reads. -/
theorem Sound.alone (h : Sound s) (hHolder : s.holder = none ∨ s.holder = some i) {j : Nat}
    {args' : List Bytes} {retry : Bool} (hj : s.calls[j]? = some ⟨args', .reading retry⟩) : j = i := by
  have hOther := h.reading j args' retry hj
  rcases hHolder with hFree | hHeld
  · rw [hFree] at hOther
    cases hOther
  · rw [hHeld] at hOther
    exact (Option.some.inj hOther).symm

theorem Clean.send (h : Clean s) (hSound : Sound s) (hCall : s.calls[i]? = some ⟨args, old⟩)
    (hFree : s.holder = none) (hUnfailed : ∀ c ∈ s.conn, c.failed = false) (retry : Bool)
    (write : Write) : Clean (s.send i args retry write) := by
  have hAlone {conn : Option Conn} (j : Nat) (args' : List Bytes) (again : Bool) (hj : j ≠ i)
      (hOther : s.calls[j]? = some ⟨args', .reading again⟩) : conn = s.conn :=
    absurd (hSound.alone (.inl hFree) hOther) hj
  rw [State.send]
  split
  · exact h.move hCall (failed_stage retry _).1
  · rename_i c hConn
    cases write with
    | received =>
        refine h.call hCall rfl hAlone fun _ _ c' hc' => ?_
        cases hc'
        exact hUnfailed c hConn
    | lost => exact h.call hCall rfl hAlone fun _ _ => hUnfailed
    | error e =>
        exact h.call hCall rfl hAlone fun again hStage => absurd hStage ((failed_stage retry e).1 again)

theorem Clean.read (h : Clean s) (hSound : Sound s) {c : Conn} {retry : Bool}
    (hCall : s.calls[i]? = some ⟨args, .reading retry⟩) (n : Nat) (closed : Bool) (memory : Nat) :
    Clean (s.read i args retry c n closed memory) := by
  have hAlone {conn : Option Conn} (j : Nat) (args' : List Bytes) (again : Bool) (hj : j ≠ i)
      (hOther : s.calls[j]? = some ⟨args', .reading again⟩) : conn = s.conn :=
    absurd (hSound.alone (.inr (hSound.reading i args retry hCall)) hOther) hj
  rw [State.read]
  rcases Resp.read memory ⟨c.unread.take n, closed⟩ with _ | ⟨v | e | _, rest⟩
  · exact h
  · exact h.call hCall rfl hAlone fun again hStage => by cases hStage
  · exact h.call hCall rfl hAlone fun again hStage => absurd hStage ((failed_stage retry e).1 again)
  · exact h.call hCall rfl hAlone fun again hStage => by cases hStage

theorem clean_step {a : Action} (h : Clean s) (hSound : Sound s) (hRegular : s.Regular a)
    (hStep : s.step a = some s') : Clean s' := by
  cases State.steps_of_step hStep with
  | call args =>
      intro j args' retry hj
      rw [Parties.push_get] at hj
      split_ifs at hj
      · cases hj
      · exact h j args' retry hj
  | sendUnwound write hCall hPoisoned => exact h.move hCall (by simp)
  | send retry write hCall hNext hFree hWhole => exact h.send hSound hCall hFree hRegular retry write
  | answer hConn hWell =>
      intro j args' retry hj c hc
      have hUnfailed := h j args' retry hj _ hConn
      cases hc
      exact hUnfailed
  | read n closed memory hCall hConn => exact h.read hSound hCall n closed memory
  | reconnectFailed hCall => exact h.move hCall (by simp)
  | reconnectUnwound hCall hPoisoned => exact h.move hCall (by simp)
  | reconnect hCall hFree hWhole =>
      exact h.call hCall rfl (fun j args' again hj hOther => absurd (hSound.alone (.inl hFree) hOther) hj)
        fun again hStage => by cases hStage

/-- What carries over a run: what is outstanding, and that nobody waits in vain. -/
structure Paired (s : State) : Prop where
  sound : Sound s
  clean : Clean s

/-- A regular step is orderly where no call waits on a failed connection. -/
theorem Clean.orderly (h : Clean s) {a : Action} (hRegular : s.Regular a)
    (hStep : s.step a = some s') : s.Orderly a := by
  cases State.steps_of_step hStep with
  | answer hConn hWell => exact hRegular
  | read n closed memory hCall hConn =>
      refine fun c hc => ⟨hRegular c hc, fun hFailed => ?_⟩
      rw [h _ _ _ hCall c hc] at hFailed
      cases hFailed
  | _ => trivial

theorem Paired.step {a : Action} (h : Paired s) (hRegular : s.Regular a)
    (hStep : s.step a = some s') : Paired s' where
  sound := sound_step h.sound (h.clean.orderly hRegular hStep) hStep
  clean := clean_step h.clean h.sound hRegular hStep

end Steps

/-! ## The replies -/

/-- The words of `GET key`. -/
def getArgs (key : Str) : List Bytes := [Str.bytes "GET".toList, key.bytes]

/-- What `get` makes of the result of its command. -/
def gotten (result : Except String Resp) : Except String (Option Bytes) :=
  match result with
  | .ok (.bulk b) => .ok b
  | .ok _ => .error "unexpected GET reply"
  | .error e => .error e

/-- In every regular run a call that returns a value returns the reply of the server
to its own command, and a lookup that finds a value the one that the server has
answered to the lookup of that key. -/
theorem paired_run {actions : List Action} {s : State}
    (hRegular : Runs.Meets State.step State.Regular State.start actions)
    (hRun : Runs.run State.step State.start actions = some s) :
    (∀ i args v, s.calls[i]? = some ⟨args, .returned (.ok v)⟩ →
      ∃ r, (i, r) ∈ s.answers ∧ r.resp = some v) ∧
    ∀ i key result b, s.calls[i]? = some ⟨getArgs key, .returned result⟩ →
      gotten result = .ok (some b) → (i, Reply.bulk (some b)) ∈ s.answers := by
  have hStart : Paired State.start := ⟨sound_start, by simp [Clean, State.start]⟩
  have hSound := (hRegular.invariant (fun _ _ _ => Paired.step) hStart hRun).sound
  refine ⟨hSound.returned, fun i key result b hCall hGot => ?_⟩
  obtain ⟨v, rfl⟩ : ∃ v, result = .ok (.bulk v) := by
    unfold gotten at hGot
    split at hGot
    · exact ⟨_, rfl⟩
    · cases hGot
    · cases hGot
  cases hGot
  obtain ⟨r, hAnswer, hValue⟩ := hSound.returned i _ _ hCall
  cases r with
  | bulk c =>
      cases hValue
      exact hAnswer
  | simple text | error text =>
      rw [Reply.resp, Option.map_eq_some_iff] at hValue
      obtain ⟨_, _, hValue⟩ := hValue
      cases hValue
  | integer n | array count elements => cases hValue

/-- The value that a call has returned, if it has returned one. -/
def Stage.value : Stage → Option Resp
  | .returned (.ok v) => some v
  | _ => none

theorem Stage.eq_of_value {stage : Stage} {v : Resp} (h : stage.value = some v) :
    stage = .returned (.ok v) := by
  unfold Stage.value at h
  split at h
  · cases h
    rfl
  · cases h

/-- A call of `get` for a key. -/
def lookup (key : String) : Action := .call (getArgs key.toList)

/-- The reply of a server that has the value. -/
def found (val : String) : Reply := .bulk (some (Str.bytes val.toList))

/-- A lookup that is answered, and one that is answered behind a reconnection. -/
def twoLookups : List Action :=
  [lookup "k1", .send 0 .received, .answer (found "v1"), .read 0 8 false 4096,
    lookup "k2", .send 1 .received, .read 1 0 false 4096, .reconnect 1 true, .send 1 .received,
    .answer (found "v2"), .read 1 8 false 4096]

theorem twoLookups_run : (Runs.run State.step State.start twoLookups).map
    (fun s => s.calls.map fun c => c.stage.value) =
      some [some (.bulk (some (Str.bytes "v1".toList))),
        some (.bulk (some (Str.bytes "v2".toList)))] := by
  decide +kernel

/-- Each of the two lookups returns the reply to its own command, the second one over a
new connection. -/
theorem paired_twoLookups : ∃ s, Runs.run State.step State.start twoLookups = some s ∧
    s.calls.length = 2 ∧
    (∀ i args v, s.calls[i]? = some ⟨args, .returned (.ok v)⟩ →
      ∃ r, (i, r) ∈ s.answers ∧ r.resp = some v) ∧
    ∀ i key result b, s.calls[i]? = some ⟨getArgs key, .returned result⟩ →
      gotten result = .ok (some b) → (i, Reply.bulk (some b)) ∈ s.answers := by
  obtain ⟨s, hRun, hValues⟩ := Option.map_eq_some_iff.mp twoLookups_run
  have hLength := congrArg List.length hValues
  rw [List.length_map] at hLength
  exact ⟨s, hRun, hLength, paired_run (by decide +kernel) hRun⟩

/-- A lookup that times out, cannot reconnect and reads the late reply to its first
attempt, and the lookup behind it. -/
def lateReply : List Action :=
  [lookup "k1", .send 0 .received, .read 0 0 false 4096, .reconnect 0 false, .send 0 .received,
    .answer (found "v1"), .answer (found "v1"), .read 0 16 false 4096,
    lookup "k2", .send 1 .received, .answer (found "v2"), .read 1 24 false 4096]

theorem lateReply_run : (Runs.run State.step State.start lateReply).map
    (fun s => (s.calls[1]?.bind fun c => c.stage.value,
      s.answers.filter fun answer => answer.1 = 1)) =
      some (some (.bulk (some (Str.bytes "v1".toList))), [(1, found "v2")]) := by
  decide +kernel

/-- The second lookup returns what the server has answered to the first: the reply was
left on the connection that could not be replaced. -/
theorem crossed_lateReply : ¬∀ actions s, Runs.run State.step State.start actions = some s →
    (∀ i args v, s.calls[i]? = some ⟨args, .returned (.ok v)⟩ →
      ∃ r, (i, r) ∈ s.answers ∧ r.resp = some v) ∧
    ∀ i key result b, s.calls[i]? = some ⟨getArgs key, .returned result⟩ →
      gotten result = .ok (some b) → (i, Reply.bulk (some b)) ∈ s.answers := by
  intro hAll
  obtain ⟨s, hRun, hEnd⟩ := Option.map_eq_some_iff.mp lateReply_run
  obtain ⟨hSecond, hAnswers⟩ := Prod.mk.inj hEnd
  obtain ⟨⟨args, stage⟩, hCall, hValue⟩ := Option.bind_eq_some_iff.mp hSecond
  obtain rfl : stage = .returned (.ok _) := Stage.eq_of_value hValue
  obtain ⟨r, hAnswer, hResp⟩ := (hAll lateReply s hRun).1 1 args _ hCall
  have hMem : (1, r) ∈ s.answers.filter fun answer => answer.1 = 1 :=
    List.mem_filter.mpr ⟨hAnswer, by simp⟩
  rw [hAnswers, List.mem_singleton, Prod.mk.injEq] at hMem
  rw [hMem.2] at hResp
  cases hResp

end Dnsd.Cache.RedisClient
