import Dnsd.Base.Frames
import Dnsd.Base.Runs
import Dnsd.Proto.EncodeSafety
import Dnsd.Proto.ParseSafety
import Dnsd.Proto.Sizes
import Dnsd.Resolve.Pipeline

/-! The TCP listener: a connection that carries frames both ways, and the size of
the replies that its length field has to hold. -/

namespace Dnsd.Server

open Proto Resolve Cache

/-- Two bytes, big-endian; `as u16` keeps the low bits of a length. -/
def wordField : Frames.LengthField UInt8 where
  width := 2
  bound := 65536
  put n := (UInt16.ofNat n).toBeBytes
  get bs := (UInt16.fromBeBytes bs).toNat
  width_pos := by decide
  bound_pos := by decide
  put_length n := UInt16.toBeBytes_length _
  get_put n := by rw [UInt16.fromBeBytes_toBeBytes, UInt16.toNat_ofNat']

/-- A connection: what the client has sent and is not read yet, what is written, the
replies written in full, and one whose write has failed. -/
structure Conn where
  input : Bytes
  output : Bytes := []
  replies : List Bytes := []
  cut : Option Bytes := none
  alive : Bool := true

/-- One turn of the loop. Other threads change the pipeline between two turns, so
that each turn finds its own. A write that fails gets a part of the frame out. -/
structure Turn where
  pipeline : Pipeline
  around : Surroundings
  failsAfter : Option Nat := none

namespace Conn

/-- The end of a turn that has a reply. -/
def send (c : Conn) (input reply : Bytes) (failsAfter : Option Nat) : Conn :=
  match failsAfter with
  | none =>
      { c with
        input := input
        output := c.output ++ Frames.frame wordField reply
        replies := c.replies ++ [reply] }
  | some n =>
      { c with
        input := input
        output := c.output ++ (Frames.frame wordField reply).dropLast.take n
        cut := some reply
        alive := false }

/-- A turn of `handle_conn`, with the pipeline that it leaves. It returns when the input
ends early and on an empty reply, and unwinds with `handle`; it does not end if `handle`
does not return. -/
def turn (client : IpAddr) (c : Conn) (t : Turn) : Option (Pipeline × Conn) :=
  if c.alive then
    match Frames.split wordField c.input with
    | none => some (t.pipeline, { c with alive := false })
    | some (query, input) =>
        match t.pipeline.handle query client "tcp" t.around with
        | some (.ok (p, reply)) =>
            if reply = [] then some (p, { c with input := input, alive := false })
            else some (p, c.send input reply t.failsAfter)
        | some _ => some (t.pipeline, { c with input := input, alive := false })
        | none => none
  else none

/-- The connection behind a turn; the next turn finds its own pipeline. -/
def step (client : IpAddr) (c : Conn) (t : Turn) : Option Conn := (c.turn client t).map Prod.snd

/-- The client reads the replies off its frames, and none of them is too long. -/
def Framed (c : Conn) : Prop :=
  Frames.bodies wordField c.output = c.replies ∧
    ∀ reply ∈ c.replies ++ c.cut.toList, reply.length ≤ 65535

end Conn

/-- A frame has room for the message that the query echoes, that the zones answer
with, or that is relayed, by the size of its names and its data; and for the bytes
that are in the cache or that are relayed as they are. -/
def Fits (p : Pipeline) (client : IpAddr) (query : Bytes) (u : Surroundings) : Prop :=
  match judge p.settings ⟨query, client, u.allowed, u.mapViaApi⟩ with
  | .ok (.echo resp, _) | .ok (.zone resp, _) => resp.wireSize.getD 0 ≤ 65535
  | .ok (.lookup l, _) =>
      match (p.cache.get u.env.getMs u.env.redisAnswers l.key).1 with
      | some hit => MessageOverrun (patchId hit l.id) ∨ hit.length ≤ 65535
      | none =>
          match p.resolver.publish u.net u.nesting l.asked 0 with
          | some (.ok (.ok bytes), _) =>
              MessageOverrun bytes ∨ (relayedFrom l bytes).wireSize.getD bytes.length ≤ 65535
          | _ => True
  | _ => True

/-! ## The size of a reply -/

theorem encodeOr_length {m : Message} {other out : Bytes} (h : encodeOr m other = .ok out) :
    out.length = m.wireSize.getD other.length := by
  have hSize := encode_size m
  rw [encodeOr] at h
  cases hEncode : m.encode with
  | ok b =>
      rw [hEncode] at h hSize
      cases h
      cases hWire : m.wireSize with
      | some n =>
          rw [hWire] at hSize
          exact hSize
      | none =>
          rw [hWire] at hSize
          exact hSize.elim
  | err e =>
      rw [hEncode] at h hSize
      cases h
      cases hWire : m.wireSize with
      | some n =>
          rw [hWire] at hSize
          exact hSize.elim
      | none => rfl
  | panicked => exact absurd hEncode (encode_ne_panicked m)

theorem patchId_length (bytes : Bytes) (id : UInt16) : (patchId bytes id).length = bytes.length := by
  unfold patchId
  split
  · rw [List.length_append, UInt16.toBeBytes_length, List.length_cons, List.length_cons]
    omega
  · rfl

/-- A name that passes the check of `process` is short however it is written. -/
theorem canonicalName_len {name : Str} (h : name.len ≤ 253) : (canonicalName name).len ≤ 2028 := by
  have hChars := Str.length_le_len name
  have hCanonical := canonicalName_length name
  have hBytes := Str.len_le (canonicalName name)
  omega

theorem servfail_fits {l : Lookup} (h : l.q.name.len ≤ 253) : (servfail l).wireSize.getD 0 ≤ 65535 := by
  have hName := canonicalName_len h
  cases hWire : (servfail l).wireSize with
  | none => exact Nat.zero_le _
  | some n =>
      have hLe := wireSize_le hWire
      simp only [servfail, Extent.questionRoom, List.map_cons, List.map_nil, List.sum_cons,
        List.sum_nil, List.append_nil] at hLe
      rw [Option.getD_some]
      omega

/-- The reply to a blocked question repeats its name at most once. -/
theorem blocked_fits {q : Question} (h : q.name.len ≤ 253) (client : IpAddr) (mode : BlockMode) :
    (BlockList.respond q client mode).wireSize.getD 0 ≤ 65535 := by
  have hName := canonicalName_len h
  cases hWire : (BlockList.respond q client mode).wireSize with
  | none => exact Nat.zero_le _
  | some n =>
      have hLe := wireSize_le hWire
      have hAnswers : ((BlockList.respond q client mode).answers.map Extent.recordRoom).sum ≤
          (canonicalName q.name).len + 29 := by
        unfold BlockList.respond
        dsimp only
        split_ifs
        · rw [List.map_singleton, List.sum_singleton]
          exact Nat.add_le_add_left (by decide : 13 + 4 ≤ 29) _
        · rw [List.map_singleton, List.sum_singleton]
          exact Nat.le_refl _
        · exact Nat.zero_le _
      have hQuestions : ((BlockList.respond q client mode).questions.map Extent.questionRoom).sum =
          (canonicalName q.name).len + 7 := rfl
      have hRecords : (BlockList.respond q client mode).answers ++
          (BlockList.respond q client mode).authority ++
            (BlockList.respond q client mode).additional =
          (BlockList.respond q client mode).answers := by simp [BlockList.respond]
      rw [hQuestions, hRecords] at hLe
      rw [Option.getD_some]
      omega

/-- A blocked name has passed the check of its length. -/
theorem judge_blocked {s : Settings} {call : Call} {resp : Message} {info : RespMeta}
    (h : judge s call = .ok (.blocked resp, info)) : resp.wireSize.getD 0 ≤ 65535 := by
  rw [judge] at h
  split at h
  · cases h
  · rw [refuse] at h
    split at h <;> cases h
  · split at h
    · cases h
    · split at h
      · rw [refuse] at h
        split at h <;> cases h
      · rename_i q _
        dsimp only at h
        split_ifs at h with hLong hVersion hAllowed
        · rw [refuse] at h
          split at h <;> cases h
        · cases h
        · cases h
        · rw [applyPolicy] at h
          dsimp only at h
          split at h
          · cases h
            exact blocked_fits (Nat.not_lt.mp hLong) _ _
          · split at h <;> cases h

theorem judge_lookup {s : Settings} {call : Call} {l : Lookup} {info : RespMeta}
    (h : judge s call = .ok (.lookup l, info)) : l.q.name.len ≤ 253 := by
  cases judge_judged h with
  | lookup req q hParse hQuestion hPasses => exact hPasses.name

section Reply

variable {p p' : Pipeline} {client : IpAddr} {query reply : Bytes} {u : Surroundings}

/-- A reply is within the bound of a frame exactly if what it is made of fits. -/
theorem handle_fits {via : String} (h : p.handle query client via u = some (.ok (p', reply))) :
    reply.length ≤ 65535 ↔ Fits p client query u := by
  obtain ⟨info, hHandled⟩ := Pipeline.handle_handled h
  rw [Fits]
  cases hHandled with
  | silent hJudge =>
      rw [hJudge]
      exact iff_of_true (by decide) trivial
  | @written v resp _ _ hJudge hVerdict hEncode =>
      rw [hJudge, encodeOr_length hEncode]
      rcases hVerdict with rfl | rfl | rfl
      · exact Iff.rfl
      · exact iff_of_true (judge_blocked hJudge) trivial
      · exact Iff.rfl
  | hit hJudge hGet hReply =>
      rw [hJudge]
      dsimp only
      rw [hGet]
      dsimp only
      obtain ⟨hSame, hReadable, -⟩ := replyFromCache_eq_ok hReply
      rw [hSame] at hReadable ⊢
      rw [patchId_length, or_iff_right]
      exact fun hOverrun => hReadable ((parse_eq_panicked_iff _).mpr hOverrun)
  | @settled l info outcome asked r hJudge hGet hPublish hSettle =>
      rw [hJudge]
      dsimp only
      rw [hGet]
      dsimp only
      rw [hPublish]
      cases outcome with
      | ok bytes =>
          obtain ⟨hReadable, hEncode, -⟩ := settle_eq_ok hSettle
          dsimp only
          rw [encodeOr_length hEncode, or_iff_right]
          exact fun hOverrun => hReadable ((parse_eq_panicked_iff _).mpr hOverrun)
      | error e =>
          obtain ⟨hEncode, -⟩ := settle_error_eq_ok hSettle
          rw [encodeOr_length hEncode]
          exact iff_of_true (servfail_fits (judge_lookup hJudge)) trivial

theorem encodeOr_returns (m : Message) (other : Bytes) : ∃ out, encodeOr m other = .ok out := by
  rw [encodeOr]
  cases hEncode : m.encode with
  | ok b => exact ⟨b, rfl⟩
  | err e => exact ⟨other, rfl⟩
  | panicked => exact absurd hEncode (encode_ne_panicked m)

theorem settle_returns {bytes : Bytes} (h : ¬MessageOverrun bytes) (cfg : Config) (l : Lookup)
    (info : RespMeta) : ∃ r, settle cfg l (.ok bytes) info = .ok r := by
  rw [settle]
  cases hParse : Message.parse bytes with
  | panicked => exact absurd ((parse_eq_panicked_iff _).mp hParse) h
  | ok m =>
      obtain ⟨out, hOut⟩ := encodeOr_returns (relayed l m) bytes
      dsimp only [Exec.ok_bind]
      rw [hOut]
      exact ⟨_, rfl⟩
  | err e =>
      obtain ⟨out, hOut⟩ := encodeOr_returns (relayed l {}) bytes
      dsimp only [Exec.ok_bind]
      rw [hOut]
      exact ⟨_, rfl⟩

/-- What does not fit is in a reply. -/
theorem fits_of_unwound {via : String} {outcome : Result (Pipeline × Bytes)}
    (h : p.handle query client via u = some outcome) (hUnwound : ∀ r, outcome ≠ .ok r) :
    Fits p client query u := by
  obtain ⟨handled, hHandle, rfl⟩ := Option.map_eq_some_iff.mp h
  obtain ⟨processed, hProcess, rfl⟩ := Option.map_eq_some_iff.mp hHandle
  have hFailed (r : Processed) : processed ≠ .ok r := by
    rintro rfl
    exact hUnwound _ rfl
  clear hUnwound h hHandle
  have hEncoded (resp : Message) (info : RespMeta)
      (h : some (encodeOr resp [] >>= fun out => Exec.ok ⟨out, info, p.cache⟩) = some processed) :
      False := by
    obtain ⟨out, hOut⟩ := encodeOr_returns resp []
    rw [hOut] at h
    exact hFailed _ (Option.some.inj h).symm
  rw [process] at hProcess
  rw [Fits]
  split at hProcess
  · rename_i hJudge
    rw [hJudge]
    trivial
  · rename_i hJudge
    rw [hJudge]
    trivial
  · rename_i hJudge
    rw [hJudge]
    trivial
  · exact (hEncoded _ _ hProcess).elim
  · exact (hEncoded _ _ hProcess).elim
  · exact (hEncoded _ _ hProcess).elim
  · rename_i l info hJudge
    rw [hJudge]
    dsimp only
    split at hProcess
    · rename_i hit cache hGet
      rw [hGet]
      dsimp only
      rw [replyFromCache] at hProcess
      dsimp only at hProcess
      cases hParse : Message.parse (patchId hit l.id) with
      | panicked => exact Or.inl ((parse_eq_panicked_iff _).mp hParse)
      | ok m | err e =>
          rw [hParse] at hProcess
          exact absurd (Option.some.inj hProcess).symm (hFailed _)
    · rename_i cache hGet
      rw [hGet]
      dsimp only
      split at hProcess
      · cases hProcess
      · rename_i outcome asked hPublish
        rw [hPublish]
        rcases outcome with ((e | bytes) | e | _)
        · trivial
        · left
          by_contra hReadable
          obtain ⟨r, hSettle⟩ := settle_returns hReadable p.settings.cfg l info
          have hProcess := Option.some.inj hProcess
          rw [Exec.ok_bind, hSettle] at hProcess
          exact hFailed _ hProcess.symm
        · trivial
        · trivial

end Reply

namespace Conn

/-! ## Turns -/

/-- What a client query of the next turn needs. -/
def Room (client : IpAddr) (c : Conn) (t : Turn) : Prop :=
  ∀ query input, Frames.split wordField c.input = some (query, input) →
    Fits t.pipeline client query t.around

/-- Every reply is within the bound of a frame. -/
def Short (c : Conn) : Prop := ∀ reply ∈ c.replies ++ c.cut.toList, reply.length ≤ 65535

/-- The output is that of the replies, and an open connection has nothing cut. -/
structure Shape (c : Conn) : Prop where
  output : ∃ tail, c.output = c.replies.flatMap (Frames.frame wordField) ++ tail ∧
    match c.cut with
    | none => tail = []
    | some reply => tail <+: Frames.frame wordField reply ∧
        tail.length < (Frames.frame wordField reply).length
  whole : c.alive = true → c.cut = none

variable {client : IpAddr} {c c' : Conn} {t : Turn}

theorem room_iff {query input : Bytes} (h : Frames.split wordField c.input = some (query, input)) :
    Room client c t ↔ Fits t.pipeline client query t.around := by
  refine ⟨fun hRoom => hRoom query input h, fun hFits query' input' hSplit => ?_⟩
  obtain ⟨rfl, rfl⟩ := Prod.mk.inj (Option.some.inj (h.symm.trans hSplit))
  exact hFits

theorem Shape.framed_iff_short (h : c.Shape) : c.Framed ↔ c.Short := by
  obtain ⟨tail, hOutput, hTail⟩ := h.output
  refine ⟨fun hFramed => hFramed.2, fun hShort => ⟨?_, hShort⟩⟩
  have hNoFrame : Frames.split wordField tail = none := by
    cases hCut : c.cut with
    | none =>
        rw [hCut] at hTail
        rw [hTail]
        rfl
    | some reply =>
        rw [hCut] at hTail
        have hRoom := hShort reply (by simp [hCut])
        exact Frames.split_cut (Nat.lt_succ_of_le hRoom) hTail.1 hTail.2
  rw [hOutput]
  refine (Frames.bodies_frames_iff hNoFrame).mpr fun reply hReply => ?_
  exact Nat.lt_succ_of_le (hShort reply (List.mem_append_left _ hReply))

theorem send_shape (h : c.Shape) (hAlive : c.alive = true) (input reply : Bytes)
    (failsAfter : Option Nat) : (c.send input reply failsAfter).Shape := by
  obtain ⟨tail, hOutput, hTail⟩ := h.output
  rw [h.whole hAlive] at hTail
  dsimp only at hTail
  rw [hTail, List.append_nil] at hOutput
  cases failsAfter with
  | none =>
      refine ⟨⟨[], ?_, ?_⟩, fun _ => h.whole hAlive⟩
      · simp [send, hOutput]
      · simp [send, h.whole hAlive]
  | some n =>
      have hWidth := wordField.width_pos
      refine ⟨⟨(Frames.frame wordField reply).dropLast.take n, by simp [send, hOutput], ?_, ?_⟩, ?_⟩
      · exact (List.take_prefix _ _).trans (List.dropLast_prefix _)
      · have hPos : 0 < (Frames.frame wordField reply).length := by
          rw [Frames.frame, List.length_append, wordField.put_length]
          omega
        rw [List.length_take, List.length_dropLast]
        omega
      · simp [send]

theorem send_short (hWhole : c.cut = none) (input reply : Bytes) (failsAfter : Option Nat) :
    (c.send input reply failsAfter).Short ↔ c.Short ∧ reply.length ≤ 65535 := by
  cases failsAfter <;> simp [send, Short, hWhole, or_imp, forall_and]

/-- What one turn keeps, and what it needs for a short reply. -/
theorem turn_spec (h : c.Shape) (hStep : c.step client t = some c') :
    c'.Shape ∧ (c'.Short ↔ c.Short ∧ Room client c t) := by
  obtain ⟨⟨p', _⟩, hTurn, rfl⟩ := Option.map_eq_some_iff.mp hStep
  rw [turn] at hTurn
  split_ifs at hTurn with hAlive
  split at hTurn
  · rename_i hEnd
    cases hTurn
    refine ⟨⟨h.output, fun hAlive => by cases hAlive⟩, ?_⟩
    refine (and_iff_left fun query input hSplit => ?_).symm
    rw [hEnd] at hSplit
    cases hSplit
  · rename_i query input hSplit
    have hRoom : Room client c t ↔ Fits t.pipeline client query t.around := room_iff hSplit
    split at hTurn
    · rename_i p reply hHandle
      have hFits := handle_fits hHandle
      split_ifs at hTurn with hEmpty
      · cases hTurn
        refine ⟨⟨h.output, fun hAlive => by cases hAlive⟩, ?_⟩
        rw [hRoom, ← hFits, hEmpty]
        exact (and_iff_left (Nat.zero_le _)).symm
      · cases hTurn
        exact ⟨send_shape h hAlive _ _ _, by rw [send_short (h.whole hAlive), hRoom, hFits]⟩
    · rename_i outcome hUnwound hHandle
      cases hTurn
      refine ⟨⟨h.output, fun hAlive => by cases hAlive⟩, ?_⟩
      refine (and_iff_left (hRoom.mpr (fits_of_unwound hHandle fun r hr => ?_))).symm
      exact hUnwound r.1 r.2 hr
    · cases hTurn

/-! ## Runs -/

theorem run_spec {turns : List Turn} (h : c.Shape) (hRun : Runs.run (step client) c turns = some c') :
    c'.Shape ∧ (c'.Short ↔ c.Short ∧ Runs.Meets (step client) (Room client) c turns) := by
  induction turns generalizing c with
  | nil =>
      cases hRun
      exact ⟨h, (and_iff_left trivial).symm⟩
  | cons t rest ih =>
      rw [Runs.run_cons] at hRun
      obtain ⟨middle, hFirst, hRest⟩ := Option.bind_eq_some_iff.mp hRun
      obtain ⟨hShape, hShort⟩ := turn_spec h hFirst
      obtain ⟨hEnd, hAll⟩ := ih hShape hRest
      refine ⟨hEnd, ?_⟩
      rw [hAll, hShort, Runs.Meets, hFirst, and_assoc]

/-- Whatever a client sends, and however often the pipeline changes: it reads the
replies off their frames, and none of them is too long, exactly if each turn finds
room for what it replies. -/
theorem framed_iff (client : IpAddr) (input : Bytes) (turns : List Turn)
    (hRun : Runs.run (step client) { input := input } turns = some c) :
    c.Framed ↔ Runs.Meets (step client) (Room client) { input := input } turns := by
  have hStart : Shape { input := input } := ⟨⟨[], rfl, rfl⟩, fun _ => rfl⟩
  obtain ⟨hShape, hShort⟩ := run_spec hStart hRun
  rw [hShape.framed_iff_short, hShort]
  exact and_iff_right fun reply hReply => by simp at hReply

/-- A zone with some TXT records of the largest size at its apex. -/
def txtZone (n : Nat) : ZoneIndex :=
  .new [⟨['1'], "lab.example".toList⟩]
    (List.replicate n ⟨['1'], ['@'], "TXT", List.replicate 255 'x', 60, 0⟩)

/-- A turn of the pipeline that serves the zone and reaches nobody else. -/
def txtTurn (n : Nat) : Turn where
  pipeline :=
    { settings := { plainSettings with policy := { zones := txtZone n } }
      resolver := Resolver.new plainSettings.cfg
      cache := TieredCache.new 0 0 false }
  around :=
    { allowed := true
      mapViaApi := fun _ _ => none
      net := ⟨fun _ => true, fun _ _ _ => .err (.io "timed out"), fun _ _ _ => .err (.io "timed out")⟩
      nesting := 0
      env := ⟨0, 0, false⟩
      tsMs := 0
      rttMs := 0 }

/-- A question for the TXT records of the zone. -/
def txtQuery : Bytes :=
  [0, 7, 1, 0, 0, 1, 0, 0, 0, 0, 0, 0, 3, 0x6C, 0x61, 0x62, 7, 0x65, 0x78, 0x61, 0x6D, 0x70, 0x6C,
    0x65, 0, 0, 16, 0, 1]

/-- The peer of the connections. -/
def lab : IpAddr := .v4 Ipv4Addr.localhost

/-- The size of the answer of a zone. -/
def zoneSize (n : Nat) : Option Nat :=
  match judge (txtTurn n).pipeline.settings ⟨txtQuery, lab, true, fun _ _ => none⟩ with
  | .ok (.zone resp, _) => resp.wireSize
  | _ => none

theorem room_txtTurn {n size : Nat} (hSize : zoneSize n = some size) :
    Room lab { input := Frames.frame wordField txtQuery } (txtTurn n) ↔ size ≤ 65535 := by
  have hSplit : Frames.split wordField (Frames.frame wordField txtQuery) = some (txtQuery, []) := by
    decide
  rw [room_iff hSplit]
  rw [zoneSize] at hSize
  split at hSize
  · rename_i resp info hJudge
    have hJudge' : judge (txtTurn n).pipeline.settings
        ⟨txtQuery, lab, (txtTurn n).around.allowed, (txtTurn n).around.mapViaApi⟩ =
          .ok (.zone resp, info) := hJudge
    rw [Fits, hJudge']
    dsimp only
    rw [hSize, Option.getD_some]
  · cases hSize

/-- The turn ends. -/
theorem run_txtTurn {n size : Nat} (hSize : zoneSize n = some size) :
    ∃ c, Runs.run (step lab) { input := Frames.frame wordField txtQuery } [txtTurn n] = some c := by
  have hSplit : Frames.split wordField (Frames.frame wordField txtQuery) = some (txtQuery, []) := by
    decide
  obtain ⟨outcome, hHandle⟩ : ∃ outcome,
      (txtTurn n).pipeline.handle txtQuery lab "tcp" (txtTurn n).around = some outcome := by
    rw [zoneSize] at hSize
    split at hSize
    · rename_i resp info hJudge
      have hJudge' : judge (txtTurn n).pipeline.settings
          ⟨txtQuery, lab, (txtTurn n).around.allowed, (txtTurn n).around.mapViaApi⟩ =
            .ok (.zone resp, info) := hJudge
      rw [Pipeline.handle, Resolve.handle, process, hJudge']
      exact ⟨_, rfl⟩
    · cases hSize
  have hTurn : (step lab { input := Frames.frame wordField txtQuery } (txtTurn n)).isSome := by
    rw [step, turn, if_pos rfl, hSplit]
    dsimp only
    rw [hHandle]
    rcases outcome with ⟨p, reply⟩ | e | _
    · dsimp only
      split_ifs <;> rfl
    · rfl
    · rfl
  obtain ⟨c, hTurn⟩ := Option.isSome_iff_exists.mp hTurn
  exact ⟨c, by rw [Runs.run_cons, hTurn]; rfl⟩

/-- One query for one record of text: the reply goes out in one frame, which the client
reads back. -/
theorem framed_oneRecord : ∃ c,
    Runs.run (step lab) { input := Frames.frame wordField txtQuery } [txtTurn 1] = some c ∧
      c.Framed := by
  have hSize : zoneSize 1 = some 297 := by decide +kernel
  obtain ⟨c, hRun⟩ := run_txtTurn hSize
  have hRoom := (room_txtTurn hSize).mpr (by decide)
  exact ⟨c, hRun, (framed_iff lab _ _ hRun).mpr (Runs.meets_singleton.mpr hRoom)⟩

theorem garbled_of_large {n : Nat} (h : (zoneSize n).any (65535 < ·) = true) :
    ¬∀ client input turns c,
      Runs.run (step client) { input := input } turns = some c → c.Framed := by
  intro hAll
  cases hSize : zoneSize n with
  | none =>
      rw [hSize] at h
      cases h
  | some size =>
      rw [hSize] at h
      obtain ⟨c, hRun⟩ := run_txtTurn hSize
      have hRoom := Runs.meets_singleton.mp ((framed_iff lab _ _ hRun).mp (hAll lab _ _ c hRun))
      exact absurd ((room_txtTurn hSize).mp hRoom) (Nat.not_le.mpr (of_decide_eq_true h))

/-- Three hundred records of 268 bytes each are more than a frame has room for: the length
in front of the reply is cut to sixteen bits, and the client loses track. -/
theorem garbled_zoneReply : ¬∀ client input turns c,
    Runs.run (step client) { input := input } turns = some c → c.Framed :=
  garbled_of_large (show (zoneSize 300).any (65535 < ·) = true by decide +kernel)

end Conn

end Dnsd.Server
