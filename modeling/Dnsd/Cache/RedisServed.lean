import Dnsd.Cache.RedisWire
import Dnsd.Cache.Tiers

/-! The client of Redis and a server that behaves as documented. Whatever the calls, the
network and the server do in whatever order, what the server holds and what the calls
return is what the third level of the cache expects of the commands in the order in which
they were served. -/

namespace Dnsd.Cache.RedisClient

open Resp

/-! ## What a server does -/

/-- A server of Redis: what it does with the arguments of a command that it gets at a time,
what a lookup of a key finds in it from then on, and the times to live that it takes, with
the text that refuses the others. -/
structure Server (σ : Type) where
  execute : σ → Nat → List Bytes → σ × Reply
  value : σ → Nat → Bytes → Option Bytes
  accepts : Nat → Int64 → Bool
  refusal : Str

/-- What a string of the server may have: 512 MB. -/
def stringLimit : Nat := 2 ^ 29

/-- The documented behaviour of GET, SET with EX and DEL in a server that evicts nothing and
that nobody else writes to: a lookup is answered with the value and changes nothing, a value
is there for as many seconds as its time to live has, and a key that is deleted is gone. -/
structure Server.Documented {σ : Type} (srv : Server σ) : Prop where
  get_reply (s : σ) (ms : Nat) (key : Bytes) :
    (srv.execute s ms [word "GET", key]).2 = .bulk (srv.value s ms key)
  get_value (s : σ) {ms ms' : Nat} (hLater : ms ≤ ms') (key other : Bytes) :
    srv.value (srv.execute s ms [word "GET", key]).1 ms' other = srv.value s ms' other
  set_reply (s : σ) {ms : Nat} (key val : Bytes) {ttl : Int64} (hVal : val.length ≤ stringLimit)
    (hAccepts : srv.accepts ms ttl = true) :
    (srv.execute s ms [word "SET", key, val, word "EX", (Str.signed ttl.toInt).bytes]).2 =
      .simple (word "OK")
  set_value (s : σ) {ms ms' : Nat} (hLater : ms ≤ ms') (key other val : Bytes) {ttl : Int64}
    (hVal : val.length ≤ stringLimit) (hAccepts : srv.accepts ms ttl = true) :
    srv.value (srv.execute s ms [word "SET", key, val, word "EX", (Str.signed ttl.toInt).bytes]).1 ms' other =
      if other = key then if ms' < ms + ttl.toInt.toNat * 1000 then some val else none
      else srv.value s ms' other
  set_refused (s : σ) {ms : Nat} (key val : Bytes) {ttl : Int64} (hVal : val.length ≤ stringLimit)
    (hRefused : srv.accepts ms ttl = false) :
    srv.execute s ms [word "SET", key, val, word "EX", (Str.signed ttl.toInt).bytes] =
      (s, .error srv.refusal.bytes)
  del_reply (s : σ) (ms : Nat) (key : Bytes) :
    (srv.execute s ms [word "DEL", key]).2 =
      .integer (if (srv.value s ms key).isSome then 1 else 0)
  del_value (s : σ) {ms ms' : Nat} (hLater : ms ≤ ms') (key other : Bytes) :
    srv.value (srv.execute s ms [word "DEL", key]).1 ms' other =
      if other = key then none else srv.value s ms' other
  refusal_line : newline ∉ srv.refusal.bytes ∧ 13 ∉ srv.refusal.bytes
  refusal_trimmed : srv.refusal.trimEnd = srv.refusal

/-! ## Calls -/

/-- `{:?}` of a reply. -/
def debug : Resp → String
  | .simple s => "Simple(" ++ (String.ofList s).quote ++ ")"
  | .error s => "Error(" ++ (String.ofList s).quote ++ ")"
  | .integer n => "Integer(" ++ toString n ++ ")"
  | .bulk none => "Bulk(None)"
  | .bulk (some b) => "Bulk(Some([" ++ ", ".intercalate (b.map fun x => toString x.toNat) ++ "]))"

/-- A call of `get`, `set` or `del`, with its arguments. -/
inductive Op where
  | get (key : Str)
  | set (key : Str) (val : Bytes) (ttlSecs : Int64)
  | del (key : Str)

namespace Op

/-- The arguments that the call passes to `cmd`. -/
def args : Op → List Bytes
  | .get key => getArgs key
  | .set key val ttlSecs => setArgs key val ttlSecs
  | .del key => delArgs key

/-- What the call makes of a reply; those without a value return `none`. -/
def result : Op → Resp → Exec String (Option Bytes)
  | .get _, .bulk b => .ok b
  | .get _, other => .err ("unexpected GET reply " ++ debug other)
  | .set _ _ _, .simple s =>
      if s = "OK".toList then .ok none else .err ("unexpected SET reply " ++ debug (.simple s))
  | .set _ _ _, other => .err ("unexpected SET reply " ++ debug other)
  | .del _, _ => .ok none

/-- A value that the server takes, if the operation has one. -/
def Sized : Op → Prop
  | .set _ val _ => val.length ≤ stringLimit
  | .get _ | .del _ => True

instance (op : Op) : Decidable op.Sized := by
  unfold Sized
  split <;> infer_instance

/-! What the third level of the cache expects of a command that is served at a time. -/

variable {σ : Type} (srv : Server σ)

/-- What the command does to the map. A time to live that the server refuses does nothing.
-/
def effect (r : Redis) (ms : Nat) : Op → Redis
  | .get _ => r
  | .set key val ttlSecs => if srv.accepts ms ttlSecs then r.set ms key val ttlSecs else r
  | .del key => r.del key

/-- What the call returns for the map as it is. -/
def outcome (r : Redis) (ms : Nat) : Op → Exec String (Option Bytes)
  | .get key => .ok (r.get ms key)
  | .set _ _ ttlSecs =>
      if srv.accepts ms ttlSecs then .ok none
      else .err ("unexpected SET reply " ++ debug (.error srv.refusal))
  | .del _ => .ok none

end Op

/-! ## Client and server -/

/-- A command that the server has executed: the call that it is of, and when. -/
structure Service where
  call : Nat
  op : Op
  ms : Nat

/-- The client with the calls that it was asked for, the server with its clock and the
bytes that have arrived there, and what it has served so far, which no program holds. -/
structure Served (σ : Type) where
  client : State := State.start
  ops : List Op := []
  server : σ
  now : Nat := 0
  input : Bytes := []
  log : List Service := []

/-- The bytes at the server behind a step of the client: with the command that it has got,
or none on a new connection. -/
def State.wire (s : State) (input : Bytes) : Action → Bytes
  | .send i .received =>
      match s.calls[i]?, s.conn with
      | some call, some _ => if s.poisoned then input else input ++ request call.args
      | _, _ => input
  | .reconnect _ true => if s.poisoned then input else []
  | _ => input

namespace Served

variable {σ : Type}

/-- A call is made, the client or the network takes a step, or the server executes a
command that it has read. -/
inductive Event where
  | call (op : Op)
  | client (a : Action)
  | serve (ms : Nat)

/-- The clock of the server does not go back. -/
def serve (srv : Server σ) (s : Served σ) (ms : Nat) : Option (Served σ) :=
  match s.client.conn, readCommand s.input with
  | some ⟨i :: _, _, _⟩, some (args, input) =>
      match s.ops[i]? with
      | some op =>
          if ms < s.now then none
          else
            let (server, reply) := srv.execute s.server ms args
            (s.client.step (.answer reply)).map fun client =>
              { s with client, server, now := ms, input, log := s.log ++ [⟨i, op, ms⟩] }
      | none => none
  | _, _ => none

/-- One step of the whole: a call is made, the client or the network does something, or
the server executes the next command that has arrived. -/
def step (srv : Server σ) (s : Served σ) : Event → Option (Served σ)
  | .call op =>
      (s.client.step (.call op.args)).map fun client => { s with client, ops := s.ops ++ [op] }
  -- calls and answers are steps of their own
  | .client (.call _) | .client (.answer _) => none
  | .client a =>
      (s.client.step a).map fun client => { s with client, input := s.client.wire s.input a }
  | .serve ms => s.serve srv ms

/-- The values fit the server, and the network is orderly. -/
def Orderly (s : Served σ) : Event → Prop
  | .call op => op.Sized
  | .client a => s.client.Orderly a
  | .serve _ => True

instance (s : Served σ) (e : Event) : Decidable (s.Orderly e) := by
  cases e <;> unfold Orderly <;> infer_instance

end Served

/-- The map that commands leave behind when they are served one after the other. -/
def replay {σ : Type} (srv : Server σ) (log : List Service) : Redis :=
  log.foldl (fun r x => x.op.effect srv r x.ms) ∅

/-! ## The server holds what the commands say -/

/-- From now on a lookup finds in the server what the map has, and no value that is too
long for a reply. -/
structure Represents {σ : Type} (srv : Server σ) (s : σ) (now : Nat) (r : Redis) : Prop where
  same : ∀ ms, now ≤ ms → ∀ key : Str, srv.value s ms key.bytes = r.get ms key
  sizes : ∀ ms, now ≤ ms → ∀ key v, srv.value s ms key = some v → v.length ≤ stringLimit

/-- A value that is set is there until its time is up, and other keys are as they were. -/
theorem Redis.get_set (r : Redis) (ms ms' : Nat) (key other : Str) (val : Bytes) (ttlSecs : Int64) :
    (r.set ms key val ttlSecs).get ms' other =
      if other = key then if ms' < ms + ttlSecs.toInt.toNat * 1000 then some val else none
      else r.get ms' other := by
  rw [Redis.get, Redis.set, HashMap.get_insert]
  split_ifs with hKey hLive
  · exact if_pos hLive
  · exact if_neg hLive
  · rw [Redis.get]

/-- A key that is deleted is gone, and other keys are as they were. -/
theorem Redis.get_del (r : Redis) (ms : Nat) (key other : Str) :
    (r.del key).get ms other = if other = key then none else r.get ms other := by
  rw [Redis.get, Redis.del, HashMap.get_erase]
  split_ifs with hKey
  · rfl
  · rw [Redis.get]

/-- A reply that the client reads as a value. -/
structure Reads (reply : Reply) (v : Resp) : Prop where
  well : reply.WellFormed
  plain : reply.Plain
  value : reply.resp = some v

theorem fromUtf8_ok : Str.fromUtf8 (word "OK") = some "OK".toList :=
  Str.fromUtf8_eq_some_iff.mpr rfl

theorem reads_ok : Reads (.simple (word "OK")) (.simple "OK".toList) where
  well := (by decide : newline ∉ word "OK" ∧ 13 ∉ word "OK")
  plain s hs := by
    rw [fromUtf8_ok] at hs
    cases hs
    decide
  value := by rw [Reply.resp, fromUtf8_ok, Option.map_some]

section Execute

variable {σ : Type} {srv : Server σ} {s : σ} {now ms : Nat} {r : Redis}

theorem Server.Documented.reads_refusal (hServer : srv.Documented) :
    Reads (.error srv.refusal.bytes) (.error srv.refusal) where
  well := hServer.refusal_line
  plain text hText := by
    rw [Str.fromUtf8_eq_some_iff.mpr rfl] at hText
    cases hText
    exact hServer.refusal_trimmed
  value := by rw [Reply.resp, Str.fromUtf8_eq_some_iff.mpr rfl, Option.map_some]

/-- Time passes, and nothing else happens. -/
theorem Represents.later (h : Represents srv s now r) (hLater : now ≤ ms) : Represents srv s ms r where
  same ms' hMs := h.same ms' (hLater.trans hMs)
  sizes ms' hMs := h.sizes ms' (hLater.trans hMs)

/-- A lookup changes nothing, and its reply is what the map has for the key. -/
theorem Represents.execute_get (h : Represents srv s now r) (hServer : srv.Documented)
    (hLater : now ≤ ms) (key : Str) :
    Represents srv (srv.execute s ms [word "GET", key.bytes]).1 ms r ∧
      Reads (srv.execute s ms [word "GET", key.bytes]).2 (.bulk (r.get ms key)) := by
  have hValue {ms' : Nat} (hMs : ms ≤ ms') (other : Bytes) :
      srv.value (srv.execute s ms [word "GET", key.bytes]).1 ms' other = srv.value s ms' other :=
    hServer.get_value s hMs key.bytes other
  refine ⟨⟨fun ms' hMs other => ?_, fun ms' hMs other v hOther => ?_⟩, ?_⟩
  · rw [hValue hMs]
    exact h.same ms' (hLater.trans hMs) other
  · rw [hValue hMs] at hOther
    exact h.sizes ms' (hLater.trans hMs) other v hOther
  · rw [hServer.get_reply, h.same ms hLater]
    refine ⟨?_, trivial, rfl⟩
    cases hGet : r.get ms key with
    | none => trivial
    | some v =>
        rw [← h.same ms hLater] at hGet
        have hSize := h.sizes ms hLater key.bytes v hGet
        show v.length + 2 < 2 ^ 63
        rw [stringLimit] at hSize
        omega

/-- A deletion takes the key out of the map, and its reply is the number of keys that
were there. -/
theorem Represents.execute_del (h : Represents srv s now r) (hServer : srv.Documented)
    (hLater : now ≤ ms) (key : Str) :
    Represents srv (srv.execute s ms [word "DEL", key.bytes]).1 ms (r.del key) ∧
      Reads (srv.execute s ms [word "DEL", key.bytes]).2
        (.integer (if (srv.value s ms key.bytes).isSome then 1 else 0)) := by
  refine ⟨⟨fun ms' hMs other => ?_, fun ms' hMs other v hOther => ?_⟩, ?_⟩
  · rw [hServer.del_value s hMs, Redis.get_del]
    simp only [Str.bytes_injective.eq_iff]
    split_ifs
    · rfl
    · exact h.same ms' (hLater.trans hMs) other
  · rw [hServer.del_value s hMs] at hOther
    split_ifs at hOther
    exact h.sizes ms' (hLater.trans hMs) other v hOther
  · rw [hServer.del_reply]
    refine ⟨?_, trivial, rfl⟩
    split_ifs
    · exact (by decide : (Reply.integer 1).WellFormed)
    · exact (by decide : (Reply.integer 0).WellFormed)

/-- A value whose time to live the server accepts is in the map until its time is up. -/
theorem Represents.execute_set (h : Represents srv s now r) (hServer : srv.Documented)
    (hLater : now ≤ ms) (key : Str) {val : Bytes} {ttlSecs : Int64}
    (hSized : val.length ≤ stringLimit) (hAccepts : srv.accepts ms ttlSecs = true) :
    Represents srv (srv.execute s ms (Op.set key val ttlSecs).args).1 ms
        (r.set ms key val ttlSecs) ∧
      Reads (srv.execute s ms (Op.set key val ttlSecs).args).2 (.simple "OK".toList) := by
  have hArgs : (Op.set key val ttlSecs).args =
      [word "SET", key.bytes, val, word "EX", (Str.signed ttlSecs.toInt).bytes] := rfl
  rw [hArgs]
  refine ⟨⟨fun ms' hMs other => ?_, fun ms' hMs other v hOther => ?_⟩, ?_⟩
  · rw [hServer.set_value s hMs key.bytes other.bytes val hSized hAccepts, Redis.get_set]
    simp only [Str.bytes_injective.eq_iff]
    split_ifs
    · rfl
    · rfl
    · exact h.same ms' (hLater.trans hMs) other
  · rw [hServer.set_value s hMs key.bytes other val hSized hAccepts] at hOther
    split_ifs at hOther
    · cases hOther
      exact hSized
    · exact h.sizes ms' (hLater.trans hMs) other v hOther
  · rw [hServer.set_reply s key.bytes val hSized hAccepts]
    exact reads_ok

/-- What the server does with the arguments of a call. -/
theorem Represents.execute (h : Represents srv s now r) (hServer : srv.Documented) {op : Op}
    (hSized : op.Sized) (hLater : now ≤ ms) :
    Represents srv (srv.execute s ms op.args).1 ms (op.effect srv r ms) ∧
      ∃ v, Reads (srv.execute s ms op.args).2 v ∧ op.result v = op.outcome srv r ms := by
  cases op with
  | get key =>
      obtain ⟨hMap, hReply⟩ := h.execute_get hServer hLater key
      exact ⟨hMap, _, hReply, rfl⟩
  | del key =>
      obtain ⟨hMap, hReply⟩ := h.execute_del hServer hLater key
      exact ⟨hMap, _, hReply, rfl⟩
  | set key val ttlSecs =>
      rw [Op.effect, Op.outcome]
      cases hAccepts : srv.accepts ms ttlSecs with
      | false =>
          have hArgs : (Op.set key val ttlSecs).args =
              [word "SET", key.bytes, val, word "EX", (Str.signed ttlSecs.toInt).bytes] := rfl
          rw [hArgs, hServer.set_refused s key.bytes val hSized hAccepts]
          exact ⟨h.later hLater, _, hServer.reads_refusal, rfl⟩
      | true =>
          obtain ⟨hMap, hReply⟩ := h.execute_set hServer hLater key hSized hAccepts
          exact ⟨hMap, _, hReply, rfl⟩

end Execute

/-! ## Runs -/

/-- What a call returns for this value is what the map says of it at a place of the log. -/
def Explained {σ : Type} (srv : Server σ) (log : List Service) (i : Nat) (op : Op) (v : Resp) : Prop :=
  ∃ before x after, log = before ++ x :: after ∧ x.call = i ∧ x.op = op ∧
    op.result v = op.outcome srv (replay srv before) x.ms

/-- The attempts that a call has left. -/
def Stage.attempts : Stage → Nat
  | .ready => 2
  | .reading false | .failed | .retries => 1
  | .reading true | .returned _ | .unwound => 0

/-- The commands of these calls, as they are on the connection. -/
def Wired (ops : List Op) (asked : List Nat) (input : Bytes) : Prop :=
  (∀ i ∈ asked, i < ops.length) ∧
    input = asked.flatMap fun i => request ((ops[i]?.map Op.args).getD [])

namespace Served

variable {σ : Type}

/-- What holds of client and server in every run: the calls are those asked for, the
commands on the connection are theirs, the server holds what was served, and every answer
is one that the map explains. -/
structure Faithful (srv : Server σ) (s : Served σ) : Prop where
  sound : Sound s.client
  calls : s.client.calls.map Call.args = s.ops.map Op.args
  sized : ∀ op ∈ s.ops, op.Sized
  wired : ∀ c ∈ s.client.conn, Wired s.ops c.asked s.input
  represents : Represents srv s.server s.now (replay srv s.log)
  answers : ∀ i r, (i, r) ∈ s.client.answers →
    ∃ op v, s.ops[i]? = some op ∧ Reads r v ∧ Explained srv s.log i op v

/-- No call is served more often than it has made attempts. -/
def Counted (s : Served σ) : Prop :=
  ∀ i, s.log.countP (·.call = i) + (s.client.conn.elim 0 fun c => c.asked.count i) +
    (s.client.calls[i]?.elim 2 fun call => call.stage.attempts) ≤ 2

end Served

section Steps

variable {s s' : State} {i : Nat} {args : List Bytes} {old : Stage}

theorem args_set (hCall : s.calls[i]? = some ⟨args, old⟩) (stage : Stage) :
    (s.calls.set i ⟨args, stage⟩).map Call.args = s.calls.map Call.args := by
  refine List.ext_getElem? fun j => ?_
  rw [List.getElem?_map, List.getElem?_map, Parties.set_get hCall]
  split_ifs with hSame
  · rw [hSame, hCall]
    rfl
  · rfl

/-- What a step of the client or of the network leaves alone, and what it leaves on the
connection. -/
structure Frame (s : State) (a : Action) (s' : State) : Prop where
  args : s'.calls.map Call.args = s.calls.map Call.args
  answers : s'.answers = s.answers
  wired : ∀ ops input, ops.map Op.args = s.calls.map Call.args →
    (∀ c ∈ s.conn, Wired ops c.asked input) → ∀ c ∈ s'.conn, Wired ops c.asked (s.wire input a)
  counted : ∀ i, (s'.conn.elim 0 fun c => c.asked.count i) +
      (s'.calls[i]?.elim 2 fun call => call.stage.attempts) ≤
    (s.conn.elim 0 fun c => c.asked.count i) +
      (s.calls[i]?.elim 2 fun call => call.stage.attempts)

/-- A step of one call, by what it does to the connection. -/
theorem Frame.call {a : Action} (hCall : s.calls[i]? = some ⟨args, old⟩) {stage : Stage}
    (hCalls : s'.calls = s.calls.set i ⟨args, stage⟩) (hAnswers : s'.answers = s.answers)
    (hWired : ∀ ops input, ops.map Op.args = s.calls.map Call.args →
      (∀ c ∈ s.conn, Wired ops c.asked input) → ∀ c ∈ s'.conn, Wired ops c.asked (s.wire input a))
    (hOthers : ∀ j, j ≠ i → (s'.conn.elim 0 fun c => c.asked.count j) ≤
      s.conn.elim 0 fun c => c.asked.count j)
    (hOwn : (s'.conn.elim 0 fun c => c.asked.count i) + stage.attempts ≤
      (s.conn.elim 0 fun c => c.asked.count i) + old.attempts) : Frame s a s' := by
  refine ⟨hCalls ▸ args_set hCall stage, hAnswers, hWired, fun j => ?_⟩
  rw [hCalls, Parties.set_get hCall]
  by_cases hSame : j = i
  · rw [if_pos hSame, hSame, hCall]
    exact hOwn
  · rw [if_neg hSame]
    exact Nat.add_le_add_right (hOthers j hSame) _

/-- A step of one call that leaves the connection alone, and the bytes on it. -/
theorem Frame.move {a : Action} (hCall : s.calls[i]? = some ⟨args, old⟩) {stage : Stage}
    (hCalls : s'.calls = s.calls.set i ⟨args, stage⟩) (hAnswers : s'.answers = s.answers)
    (hConn : s'.conn.map Conn.asked = s.conn.map Conn.asked)
    (hWire : ∀ input, (∃ c, c ∈ s.conn) → s.wire input a = input)
    (hAttempts : stage.attempts ≤ old.attempts) : Frame s a s' := by
  have hAsked (j : Nat) : (s'.conn.elim 0 fun c => c.asked.count j) =
      s.conn.elim 0 fun c => c.asked.count j := by
    have hCount (conn : Option Conn) : (conn.elim 0 fun c => c.asked.count j) =
        (conn.map Conn.asked).elim 0 fun asked => asked.count j := by cases conn <;> rfl
    rw [hCount, hCount, hConn]
  refine .call hCall hCalls hAnswers (fun ops input _ hWired c hc => ?_) (fun j _ => (hAsked j).le)
    (Nat.add_le_add (hAsked i).le hAttempts)
  obtain ⟨c', hc', hSame⟩ : ∃ c' ∈ s.conn, c'.asked = c.asked := by
    have hBoth := (hConn ▸ congrArg (Option.map Conn.asked) hc : s.conn.map Conn.asked = some c.asked)
    exact Option.map_eq_some_iff.mp hBoth
  rw [hWire input ⟨c', hc'⟩, ← hSame]
  exact hWired c' hc'

/-- The stage behind an attempt that has failed has one attempt left if it was the first. -/
theorem failed_attempts (retry : Bool) (e : String) {stage : Stage}
    (hNext : stage = .reading retry ∨ stage.next = some retry) :
    (if retry then Stage.returned (.error e) else .failed).attempts ≤ stage.attempts := by
  cases retry with
  | true => exact Nat.zero_le _
  | false =>
      rcases hNext with rfl | hNext
      · exact Nat.le_refl 1
      · cases stage with
        | ready => exact Nat.le_succ 1
        | retries => exact Nat.le_refl 1
        | _ => cases hNext

/-- An attempt that is under way has been taken from those that were left. -/
theorem reading_attempts {retry : Bool} {stage : Stage} (hNext : stage.next = some retry) :
    (Stage.reading retry).attempts + 1 ≤ stage.attempts := by
  cases stage with
  | ready | retries =>
      cases hNext
      decide
  | _ => cases hNext

/-- A call that sends its command changes nothing of the other calls. -/
theorem frame_send {retry : Bool} (hCall : s.calls[i]? = some ⟨args, old⟩)
    (hNext : old.next = some retry) (hWhole : s.poisoned = false) (write : Write) :
    Frame s (.send i write) (s.send i args retry write) := by
  rw [State.send]
  split
  · rename_i hConn
    refine .move hCall rfl rfl rfl (fun input hSome => ?_) (failed_attempts retry _ (.inr hNext))
    obtain ⟨c, hc⟩ := hSome
    rw [hConn] at hc
    cases hc
  · rename_i c hConn
    have hReading := reading_attempts hNext
    cases write with
    | received =>
        refine .call hCall rfl rfl (fun ops input hOps hWired c' hc' => ?_) (fun j hj => ?_) ?_
        · cases hc'
          obtain ⟨hAsked, hInput⟩ := hWired c hConn
          have hLook : ops[i]?.map Op.args = some args := by
            rw [← List.getElem?_map, hOps, List.getElem?_map, hCall]
            rfl
          obtain ⟨op, hOp, rfl⟩ := Option.map_eq_some_iff.mp hLook
          refine ⟨fun j hj => ?_, ?_⟩
          · rcases List.mem_append.mp hj with hOld | hNew
            · exact hAsked j hOld
            · rw [List.mem_singleton.mp hNew]
              exact (List.getElem?_eq_some_iff.mp hOp).1
          · have hWire : s.wire input (.send i .received) = input ++ request op.args := by
              rw [State.wire, hCall, hConn]
              dsimp only
              rw [if_neg (by simp [hWhole])]
            rw [hWire, List.flatMap_append, ← hInput, List.flatMap_singleton, hOp]
            rfl
        · rw [hConn]
          dsimp only [Option.elim]
          rw [List.count_append, List.count_singleton, if_neg (by simpa using Ne.symm hj), Nat.add_zero]
        · rw [hConn]
          dsimp only [Option.elim]
          rw [List.count_append, List.count_singleton_self]
          omega
    | lost =>
        exact .move hCall rfl rfl rfl (fun _ _ => rfl) (by omega)
    | error e =>
        refine .move hCall rfl rfl ?_ (fun _ _ => rfl) (failed_attempts retry e (.inr hNext))
        rw [hConn]
        rfl

/-- Nor does one that reads its reply, or the lack of one. -/
theorem frame_read {retry : Bool} (hCall : s.calls[i]? = some ⟨args, .reading retry⟩) {c : Conn}
    (hConn : s.conn = some c) (n : Nat) (closed : Bool) (memory : Nat) :
    Frame s (.read i n closed memory) (s.read i args retry c n closed memory) := by
  rw [State.read]
  rcases Resp.read memory ⟨c.unread.take n, closed⟩ with _ | ⟨v | e | _, rest⟩
  · exact ⟨rfl, rfl, fun _ _ _ hWired => hWired, fun _ => Nat.le_refl _⟩
  all_goals refine .move hCall rfl rfl (by rw [hConn]; rfl) (fun _ _ => rfl) ?_
  · exact Nat.zero_le _
  · exact failed_attempts retry e (.inl rfl)
  · exact Nat.zero_le _

/-- A step of the client or of the network. -/
theorem frame_step {a : Action} (hStep : s.step a = some s') (hCalls : ∀ args, a ≠ .call args)
    (hAnswers : ∀ r, a ≠ .answer r) : Frame s a s' := by
  cases State.steps_of_step hStep with
  | call args => exact absurd rfl (hCalls args)
  | answer hConn hWell => exact absurd rfl (hAnswers _)
  | sendUnwound write hCall hPoisoned =>
      refine .move hCall rfl rfl rfl (fun input hSome => ?_) (Nat.zero_le _)
      obtain ⟨c, hConn⟩ := hSome
      cases write with
      | received =>
          rw [State.wire, hCall, hConn]
          exact if_pos hPoisoned
      | lost | error e => rfl
  | send retry write hCall hNext hFree hWhole => exact frame_send hCall hNext hWhole write
  | read n closed memory hCall hConn => exact frame_read hCall hConn n closed memory
  | reconnectFailed hCall => exact .move hCall rfl rfl rfl (fun _ _ => rfl) (Nat.le_refl 1)
  | reconnectUnwound hCall hPoisoned =>
      refine .move hCall rfl rfl rfl (fun input _ => ?_) (Nat.zero_le _)
      rw [State.wire, if_pos hPoisoned]
  | reconnect hCall hFree hWhole =>
      refine .call hCall rfl rfl (fun ops input _ _ c hc => ?_) (fun j _ => Nat.zero_le _) ?_
      · cases hc
        rw [State.wire, if_neg (by simp [hWhole])]
        exact ⟨by simp, rfl⟩
      · exact Nat.add_le_add_right (Nat.zero_le _) 1

end Steps

namespace Served

section Faithful

variable {σ : Type} {srv : Server σ} {s s' : Served σ}

/-- A call that is made is one more among those that were asked for. -/
theorem wired_push {ops : List Op} {asked : List Nat} {input : Bytes} (h : Wired ops asked input)
    (op : Op) : Wired (ops ++ [op]) asked input := by
  obtain ⟨hAsked, hInput⟩ := h
  refine ⟨fun i hi => ?_, hInput.trans (List.flatMap_congr fun i hi => ?_)⟩
  · have hLess := hAsked i hi
    rw [List.length_append]
    omega
  · rw [List.getElem?_append_left (hAsked i hi)]

/-- A call that begins keeps the run faithful, with an operation that fits. -/
theorem Faithful.call (h : Faithful srv s) {op : Op} (hSized : op.Sized)
    (hStep : s.step srv (.call op) = some s') : Faithful srv s' := by
  obtain ⟨client, hClient, rfl⟩ := Option.map_eq_some_iff.mp hStep
  have hSound : Sound client := sound_step h.sound (a := .call op.args) trivial hClient
  cases State.steps_of_step hClient
  refine ⟨hSound, ?_, ?_, fun c hc => wired_push (h.wired c hc) op, h.represents, fun i r hAnswer => ?_⟩
  · rw [List.map_append, List.map_append, h.calls]
    rfl
  · intro other hOther
    rcases List.mem_append.mp hOther with hOld | hNew
    · exact h.sized other hOld
    · rw [List.mem_singleton.mp hNew]
      exact hSized
  · obtain ⟨other, v, hOp, hRest⟩ := h.answers i r hAnswer
    exact ⟨other, v, (List.getElem?_append_left (List.getElem?_eq_some_iff.mp hOp).1).trans hOp, hRest⟩

/-- A step of the client or of the network is one of the client alone. -/
theorem client_step {a : Action} (hStep : s.step srv (.client a) = some s') :
    ∃ client, s.client.step a = some client ∧ (∀ args, a ≠ .call args) ∧ (∀ r, a ≠ .answer r) ∧
      s' = { s with client, input := s.client.wire s.input a } := by
  cases a with
  | call args | answer r => cases hStep
  | send | read | reconnect =>
      obtain ⟨client, hClient, rfl⟩ := Option.map_eq_some_iff.mp hStep
      exact ⟨client, hClient, by simp, by simp, rfl⟩

/-- A step of the client keeps it faithful, if the client is orderly. -/
theorem Faithful.client (h : Faithful srv s) {a : Action} (hOrderly : s.client.Orderly a)
    (hStep : s.step srv (.client a) = some s') : Faithful srv s' := by
  obtain ⟨client, hClient, hCall, hAnswer, rfl⟩ := client_step hStep
  have hFrame := frame_step hClient hCall hAnswer
  exact {
    sound := sound_step h.sound hOrderly hClient
    calls := hFrame.args.trans h.calls
    sized := h.sized
    wired := hFrame.wired s.ops s.input h.calls.symm h.wired
    represents := h.represents
    answers := fun i r hMem => h.answers i r (hFrame.answers ▸ hMem) }

/-- A service is one of the oldest command on the connection, of which the server has
read the arguments. -/
theorem serve_step (h : Faithful srv s) {ms : Nat} (hStep : s.serve srv ms = some s') :
    ∃ i rest unread failed op, s.client.conn = some ⟨i :: rest, unread, failed⟩ ∧
      s.ops[i]? = some op ∧ s.now ≤ ms ∧
      (srv.execute s.server ms op.args).2.WellFormed ∧
      s' = { s with
        client := { s.client with
          conn := some ⟨rest, unread ++ (srv.execute s.server ms op.args).2.encode, failed⟩
          answers := (i, (srv.execute s.server ms op.args).2) :: s.client.answers }
        server := (srv.execute s.server ms op.args).1
        now := ms
        input := rest.flatMap fun i => request ((s.ops[i]?.map Op.args).getD [])
        log := s.log ++ [⟨i, op, ms⟩] } := by
  rw [serve] at hStep
  split at hStep
  · rename_i i rest unread failed args input hConn hRead
    split at hStep
    · rename_i op hOp
      split_ifs at hStep with hClock
      obtain ⟨client, hClient, rfl⟩ := Option.map_eq_some_iff.mp hStep
      obtain ⟨-, hInput⟩ := h.wired _ hConn
      dsimp only at hInput
      rw [hInput, List.flatMap_cons, hOp, Option.map_some, Option.getD_some, readCommand_request] at hRead
      obtain ⟨rfl, rfl⟩ := Prod.mk.inj (Option.some.inj hRead)
      cases State.steps_of_step hClient with
      | answer hConn' hWell =>
          rw [hConn] at hConn'
          cases hConn'
          exact ⟨i, rest, unread, failed, op, hConn, hOp, by omega, hWell, rfl⟩
    · cases hStep
  · cases hStep

/-- What explains a value stays in the log when the server serves more. -/
theorem explained_push {log : List Service} {i : Nat} {op : Op} {v : Resp}
    (h : Explained srv log i op v) (x : Service) : Explained srv (log ++ [x]) i op v := by
  obtain ⟨before, y, after, rfl, hRest⟩ := h
  exact ⟨before, y, after ++ [x], by simp, hRest⟩

/-- The replay of a longer log is one more effect on the store. -/
theorem replay_push (srv : Server σ) (log : List Service) (x : Service) :
    replay srv (log ++ [x]) = x.op.effect srv (replay srv log) x.ms := by
  rw [replay, List.foldl_append]
  rfl

/-- The server takes the next command, does what it says and sends its reply; the run
stays faithful. -/
theorem Faithful.serve (h : Faithful srv s) (hServer : srv.Documented) {ms : Nat}
    (hStep : s.serve srv ms = some s') : Faithful srv s' := by
  obtain ⟨i, rest, unread, failed, op, hConn, hOp, hLater, hWell, rfl⟩ := serve_step h hStep
  obtain ⟨hRepresents, v, hReads, hResult⟩ := h.represents.execute hServer
    (h.sized op (List.mem_of_getElem? hOp)) hLater
  refine ⟨h.sound.answer hConn hWell hReads.plain, h.calls, h.sized, fun c hc => ?_, ?_,
    fun j r hAnswer => ?_⟩
  · cases hc
    exact ⟨fun j hj => (h.wired _ hConn).1 j (List.mem_cons_of_mem i hj), rfl⟩
  · rw [replay_push]
    exact hRepresents
  · rcases List.mem_cons.mp hAnswer with hNew | hOld
    · obtain ⟨rfl, rfl⟩ := Prod.mk.inj hNew
      exact ⟨op, v, hOp, hReads, s.log, ⟨j, op, ms⟩, [], rfl, rfl, rfl, hResult⟩
    · obtain ⟨other, v', hOther, hReads', hExplained⟩ := h.answers j r hOld
      exact ⟨other, v', hOther, hReads', explained_push hExplained _⟩

/-- Every event keeps the run faithful. -/
theorem Faithful.step (h : Faithful srv s) (hServer : srv.Documented) {e : Event}
    (hOrderly : s.Orderly e) (hStep : s.step srv e = some s') : Faithful srv s' := by
  cases e with
  | call op => exact h.call hOrderly hStep
  | client a => exact h.client hOrderly hStep
  | serve ms => exact h.serve hServer hStep

/-- Every event keeps the count: no call is served more often than it has made attempts.
-/
theorem Counted.step (hCounted : Counted s) (h : Faithful srv s) {e : Event}
    (hStep : s.step srv e = some s') : Counted s' := by
  intro i
  have hBefore := hCounted i
  cases e with
  | call op =>
      obtain ⟨client, hClient, rfl⟩ := Option.map_eq_some_iff.mp hStep
      cases State.steps_of_step hClient
      dsimp only
      rw [Parties.push_get]
      split_ifs with hNew
      · rw [hNew, List.getElem?_eq_none (Nat.le_refl _)] at hBefore
        exact hNew ▸ hBefore
      · exact hBefore
  | client a =>
      obtain ⟨client, hClient, hCall, hAnswer, rfl⟩ := client_step hStep
      have hFrame := (frame_step hClient hCall hAnswer).counted i
      dsimp only
      omega
  | serve ms =>
      obtain ⟨j, rest, unread, failed, op, hConn, -, -, -, rfl⟩ := serve_step h hStep
      rw [hConn] at hBefore
      dsimp only [Option.elim] at hBefore ⊢
      rw [List.count_cons] at hBefore
      rw [List.countP_append, List.countP_singleton]
      by_cases hSame : j = i
      · rw [if_pos (by simpa using hSame)] at hBefore ⊢
        omega
      · rw [if_neg (by simpa using hSame)] at hBefore ⊢
        omega

/-- The two invariants of a run together. -/
structure Kept (srv : Server σ) (s : Served σ) : Prop where
  faithful : Faithful srv s
  counted : Counted s

/-- Every event keeps all that is said of a run. -/
theorem Kept.step (h : Kept srv s) (hServer : srv.Documented) {e : Event}
    (hOrderly : s.Orderly e) (hStep : s.step srv e = some s') : Kept srv s' :=
  ⟨h.faithful.step hServer hOrderly hStep, h.counted.step h.faithful hStep⟩

/-- A call that waits with all of its reply there ends with the value of it. -/
theorem Faithful.progress (h : Faithful srv s) {i : Nat} {args : List Bytes} {retry : Bool} {c : Conn}
    (hCall : s.client.calls[i]? = some ⟨args, .reading retry⟩) (hConn : s.client.conn = some c)
    (hUnfailed : c.failed = false) (hUnread : c.unread ≠ []) {n memory : Nat}
    (hArrived : c.unread.length ≤ n) (hMemory : c.unread.length ≤ memory) (closed : Bool) :
    ∃ op v, s.ops[i]? = some op ∧ Explained srv s.log i op v ∧
      (s.client.read i args retry c n closed memory).calls[i]? = some ⟨args, .returned (.ok v)⟩ := by
  have hOutstanding := h.sound.conn c hConn hUnfailed
  rw [Outstanding, h.sound.reading i args retry hCall] at hOutstanding
  rcases hOutstanding with ⟨hNone, _⟩ | ⟨-, r, hAnswer, -, -, hReply⟩
  · exact absurd hNone hUnread
  · obtain ⟨op, v, hOp, hReads, hExplained⟩ := h.answers i r hAnswer
    refine ⟨op, v, hOp, hExplained, ?_⟩
    have hRead := read_reply hReads.well hReads.plain hReads.value (hReply ▸ hMemory) closed
    rw [State.read, List.take_of_length_le hArrived, hReply, hRead]
    dsimp only [State.move]
    rw [Parties.set_get hCall, if_pos rfl]

end Faithful

/-- In every run of calls, network and server in which the network is orderly, a lookup
finds in the server what the map has behind the commands that were served, in their order;
every call that returns a value returns what the map says of it at a place of that order
at which it was served; none is served more than twice; and a call whose reply has all
arrived, over a connection on which nothing has failed, ends with it. -/
theorem served_run {σ : Type} {srv : Server σ} (hServer : srv.Documented) {server : σ}
    (hEmpty : ∀ ms key, srv.value server ms key = none) {events : List Event} {s : Served σ}
    (hOrderly : Runs.Meets (step srv) Orderly { server } events)
    (hRun : Runs.run (step srv) { server } events = some s) :
    (∀ ms key, s.now ≤ ms → srv.value s.server ms (Str.bytes key) = (replay srv s.log).get ms key) ∧
    (∀ i op args v, s.ops[i]? = some op → s.client.calls[i]? = some ⟨args, .returned (.ok v)⟩ →
      Explained srv s.log i op v) ∧
    (∀ i, s.log.countP (·.call = i) ≤ 2) ∧
    ∀ i args retry c, s.client.calls[i]? = some ⟨args, .reading retry⟩ → s.client.conn = some c →
      c.failed = false → c.unread ≠ [] → ∀ n closed memory, c.unread.length ≤ n →
        c.unread.length ≤ memory → ∃ op v, s.ops[i]? = some op ∧ Explained srv s.log i op v ∧
          (s.client.read i args retry c n closed memory).calls[i]? =
            some ⟨args, .returned (.ok v)⟩ := by
  have hStart : Faithful srv { server } := {
    sound := sound_start
    calls := rfl
    sized := by simp
    wired := by
      rintro c ⟨⟩
      exact ⟨by simp, rfl⟩
    represents := ⟨fun ms _ key => hEmpty ms key.bytes, fun ms _ key v hValue => by
      rw [hEmpty] at hValue
      cases hValue⟩
    answers := by simp [State.start] }
  have hCounted : Counted { server } := fun i => by simp [State.start]
  obtain ⟨h, hCount⟩ := hOrderly.invariant (fun _ _ _ hKept hAction => hKept.step hServer hAction)
    (Kept.mk hStart hCounted) hRun
  refine ⟨fun ms key hLater => h.represents.same ms hLater key, fun i op args v hOp hCall => ?_,
    fun i => (Nat.le_add_right _ _).trans ((Nat.le_add_right _ _).trans (hCount i)),
    fun i args retry c hCall hConn hUnfailed hUnread n closed memory hArrived hMemory =>
      h.progress hCall hConn hUnfailed hUnread hArrived hMemory closed⟩
  obtain ⟨r, hAnswer, hValue⟩ := h.sound.returned i args v hCall
  obtain ⟨other, v', hOther, hReads, hExplained⟩ := h.answers i r hAnswer
  cases hOp.symm.trans hOther
  cases hValue.symm.trans hReads.value
  exact hExplained

end Served

/-! ## A server -/

/-- A server that keeps its entries in a map and the time at which each ends. -/
def mapServer : Server (HashMap Bytes RedisEntry) where
  execute s ms args :=
    match args with
    | [name, key] =>
        let value := ((HashMap.get s key).filter fun e => ms < e.expireAtMs).map RedisEntry.val
        if name = word "GET" then (s, .bulk value)
        else if name = word "DEL" then (AList.erase key s, .integer (if value.isSome then 1 else 0))
        else (s, .error (word "ERR unknown command"))
    | [_, key, val, _, ttl] =>
        match (Str.fromUtf8 ttl).bind (Str.parseSigned (2 ^ 63)) with
        | none => (s, .error (word "ERR value is not an integer or out of range"))
        | some n =>
            if 0 < n then (AList.insert key ⟨val, ms + n.toNat * 1000⟩ s, .simple (word "OK"))
            else (s, .error (word "ERR invalid expire time in 'set' command"))
    | _ => (s, .error (word "ERR unknown command"))
  value s ms key := ((HashMap.get s key).filter fun e => ms < e.expireAtMs).map RedisEntry.val
  accepts _ ttl := 0 < ttl.toInt
  refusal := "ERR invalid expire time in 'set' command".toList

theorem mapServer_set (s : HashMap Bytes RedisEntry) (ms : Nat) (key val : Bytes) (ttl : Int64) :
    mapServer.execute s ms [word "SET", key, val, word "EX", (Str.signed ttl.toInt).bytes] =
      if 0 < ttl.toInt then
        (AList.insert key ⟨val, ms + ttl.toInt.toNat * 1000⟩ s, .simple (word "OK"))
      else (s, .error (word "ERR invalid expire time in 'set' command")) := by
  have hTtl : (Str.fromUtf8 (Str.signed ttl.toInt).bytes).bind (Str.parseSigned (2 ^ 63)) =
      some ttl.toInt := by
    rw [Str.fromUtf8_eq_some_iff.mpr rfl, Option.bind_some]
    exact Str.parseSigned_signed ttl.le_toInt ttl.toInt_lt
  rw [mapServer]
  dsimp only
  rw [hTtl]

/-- A map from keys to values with their times is such a server. -/
theorem mapServer_documented : mapServer.Documented where
  get_reply _ _ _ := rfl
  get_value _ _ _ _ _ _ := rfl
  set_reply s ms key val ttl _ hAccepts := by
    rw [mapServer_set, if_pos (of_decide_eq_true hAccepts)]
  set_value s ms ms' _ key other val ttl _ hAccepts := by
    rw [mapServer_set, if_pos (of_decide_eq_true hAccepts)]
    show Option.map RedisEntry.val ((HashMap.get (AList.insert key _ s) other).filter _) = _
    rw [HashMap.get_insert]
    split_ifs with hKey hLive
    · rw [Option.filter_some, if_pos (decide_eq_true hLive), Option.map_some]
    · rw [Option.filter_some, if_neg (by simpa using hLive), Option.map_none]
    · rfl
  set_refused s ms key val ttl _ hRefused := by
    rw [mapServer_set, if_neg (of_decide_eq_false hRefused)]
    rfl
  del_reply _ _ _ := rfl
  del_value s ms ms' _ key other := by
    show Option.map RedisEntry.val ((HashMap.get (AList.erase key s) other).filter _) = _
    rw [HashMap.get_erase]
    split_ifs
    · rfl
    · rfl
  refusal_line := by decide
  refusal_trimmed := by decide

/-- A value with an end of a line in it, set twice because the first reply is lost; a lookup
of it; one that times out, cannot reconnect and times out again; a time to live that the
server refuses, once the dead connection has been replaced; and a lookup when the value has
expired. -/
def resent : List Served.Event :=
  [.call (.set ['k'] [13, 10] 60), .client (.send 0 .received), .serve 0,
    .client (.read 0 0 false 4096), .client (.reconnect 0 true), .client (.send 0 .received),
    .serve 3000, .client (.read 0 5 false 4096),
    .call (.get ['k']), .client (.send 1 .received), .serve 62999, .client (.read 1 8 false 4096),
    .call (.get ['k']), .client (.send 2 .lost), .client (.read 2 0 false 4096),
    .client (.reconnect 2 false), .client (.send 2 .received), .serve 62999,
    .client (.read 2 0 false 4096),
    .call (.set ['k'] [] 0), .client (.send 3 (.error "Broken pipe (os error 32)")),
    .client (.reconnect 3 true), .client (.send 3 .received), .serve 62999,
    .client (.read 3 64 false 4096),
    .call (.get ['k']), .client (.send 4 .received), .serve 63000, .client (.read 4 5 false 4096)]

theorem resent_run : (Runs.run (Served.step mapServer) { server := ∅ } resent).map
    (fun s => (s.client.calls.map fun call => call.stage.value, s.log.map fun x => (x.call, x.ms))) =
      some ([some (.simple "OK".toList), some (.bulk (some [13, 10])), none,
        some (.error "ERR invalid expire time in 'set' command".toList), some (.bulk none)],
        [(0, 0), (0, 3000), (1, 62999), (2, 62999), (3, 62999), (4, 63000)]) := by
  decide +kernel

/-- The run with the calls above: six commands are served, one call has two of them, and
what is left in the store is what the log says. -/
theorem served_resent : ∃ s, Runs.run (Served.step mapServer) { server := ∅ } resent = some s ∧
    s.log.map (fun x => (x.call, x.ms)) =
      [(0, 0), (0, 3000), (1, 62999), (2, 62999), (3, 62999), (4, 63000)] ∧
    (∀ ms key, s.now ≤ ms →
      mapServer.value s.server ms (Str.bytes key) = (replay mapServer s.log).get ms key) ∧
    ∀ i op args v, s.ops[i]? = some op → s.client.calls[i]? = some ⟨args, .returned (.ok v)⟩ →
      Explained mapServer s.log i op v := by
  obtain ⟨s, hRun, hEnd⟩ := Option.map_eq_some_iff.mp resent_run
  obtain ⟨hMap, hCalls, -, -⟩ := Served.served_run mapServer_documented (fun _ _ => rfl)
    (by decide +kernel) hRun
  exact ⟨s, hRun, (Prod.mk.inj hEnd).2, hMap, hCalls⟩

end Dnsd.Cache.RedisClient
