import Dnsd.Cache.RedisRuns

/-! Which replies make the reader unwind, and with it the caller that holds the
lock of the connection. -/

namespace Dnsd.Cache

namespace Resp

/-- The text that `read_line` gives, if there is any and it is UTF-8. -/
def lineText (a : Arrival) : Option Str :=
  match readLine a with
  | (.ok raw, _) => (Str.fromUtf8 raw).filter (· ≠ [])
  | (.error _, _) => none

/-- The length in the line of a bulk reply. -/
def announced (a : Arrival) : Option Int :=
  (lineText a).bind fun line =>
    match line.trimEnd with
    | '$' :: body => Str.parseSigned (2 ^ 63) body
    | _ => none

/-- The size of the buffer that is asked for. -/
def requested (a : Arrival) : Option Nat :=
  ((announced a).filter (· ≠ -1)).map bulkSize

/-- What a length of a bulk reply may be: -1, or a length that with two more is neither
above `isize::MAX` nor above what the allocator grants. -/
def LengthFits (memory : Nat) (len : Int) : Prop :=
  len = -1 ∨ 0 ≤ len ∧ len + 2 < 2 ^ 63 ∧ len + 2 ≤ memory

instance (memory : Nat) (len : Int) : Decidable (LengthFits memory len) :=
  inferInstanceAs (Decidable (_ ∨ _))

/-- A line that is not blank, of which the first character is of ASCII and a length that
it announces fits. -/
def SaneLine (memory : Nat) (line : Str) : Prop :=
  match line.trimEnd with
  | [] => False
  | tag :: body => tag.toNat < 0x80 ∧
      (tag = '$' → ∀ len ∈ Str.parseSigned (2 ^ 63) body, LengthFits memory len)

instance (memory : Nat) (line : Str) : Decidable (SaneLine memory line) := by
  unfold SaneLine
  split <;> infer_instance

/-- There is no text to split, or a sane line. -/
def Sane (memory : Nat) (a : Arrival) : Prop := ∀ line ∈ lineText a, SaneLine memory line

instance (memory : Nat) (a : Arrival) : Decidable (Sane memory a) :=
  inferInstanceAs (Decidable (∀ line ∈ _, _))

/-- What the reader and the caller around it owe to whatever has arrived: a value or an
error, no arithmetic that wraps, no buffer beyond what was announced, and neither a
poisoned lock nor an aborted process. -/
structure Robust (memory : Nat) (a : Arrival) : Prop where
  returns : ∃ result rest, read memory a = some (result, rest) ∧ result ≠ .panicked
  exact : ∀ len ∈ announced a, len ≠ -1 → 0 ≤ len ∧ (bulkSize len : Int) = len + 2
  bounded : ∀ size ∈ requested a, ∃ len : Nat, announced a = some (len : Int) ∧ size ≤ len + 2
  lock : ∀ (s : RedisClient.State) i args retry c n closed, ⟨c.unread.take n, closed⟩ = a →
    (s.read i args retry c n closed memory).poisoned = s.poisoned ∧
      (s.read i args retry c n closed memory).aborted = s.aborted

/-! ## The reader -/

/-- The reader comes back with a value or an error. -/
def Returns (ending : Ending) : Prop := ∃ result rest, ending = some (result, rest) ∧ result ≠ .panicked

/-- Without a text the reader ends with an error. -/
theorem read_of_no_text {memory : Nat} {a : Arrival} (h : lineText a = none) :
    Returns (read memory a) := by
  rw [lineText] at h
  rw [read]
  split
  · exact ⟨_, _, rfl, by simp⟩
  · next raw rest hLine =>
      rw [hLine] at h
      dsimp only at h ⊢
      split
      · exact ⟨_, _, rfl, by simp⟩
      · next line hText =>
          by_cases hNil : line = []
          · rw [if_pos hNil]
            exact ⟨_, _, rfl, by simp⟩
          · rw [hText, Option.filter_some, if_pos (by simpa using hNil)] at h
            cases h

/-- With a text the reader splits it. -/
theorem read_of_text (memory : Nat) {a : Arrival} {line : Str} (h : lineText a = some line) :
    ∃ rest, read memory a = readBody memory line rest a.closed := by
  rw [lineText] at h
  rw [read]
  split at h
  · next raw rest hLine =>
      obtain ⟨hText, hNe⟩ := Option.filter_eq_some_iff.mp h
      rw [hLine]
      dsimp only
      rw [hText]
      dsimp only
      rw [if_neg (by simpa using hNe)]
      exact ⟨rest, rfl⟩
  · cases h

/-- A buffer is had when it is none, or when its size is one that the allocator grants. -/
theorem returns_readBulk_iff {memory : Nat} {len : Int} {rest : Bytes} {closed : Bool} :
    Returns (readBulk memory len rest closed) ↔
      (len ≠ -1 → bulkSize len < 2 ^ 63 ∧ bulkSize len ≤ memory) := by
  rw [readBulk]
  split_ifs with hNone hLarge hRefused hShort
  · exact iff_of_true ⟨_, _, rfl, by simp⟩ fun hSome => absurd hNone hSome
  · refine iff_of_false ?_ fun h => by have := (h hNone).1; omega
    rintro ⟨result, left, hEnd, hReturned⟩
    cases hEnd
    exact hReturned rfl
  · refine iff_of_false ?_ fun h => by have := (h hNone).2; omega
    rintro ⟨result, left, hEnd, _⟩
    cases hEnd
  all_goals exact iff_of_true ⟨_, _, rfl, by simp⟩ fun _ => by omega

theorem returns_readTagged_iff {memory : Nat} {tag : Char} {body : Str} {rest : Bytes}
    {closed : Bool} :
    Returns (readTagged memory tag body rest closed) ↔
      (tag = '$' → ∀ len ∈ Str.parseSigned (2 ^ 63) body, len ≠ -1 →
        bulkSize len < 2 ^ 63 ∧ bulkSize len ≤ memory) := by
  by_cases hBulk : tag = '$'
  · subst hBulk
    rw [readTagged, parseI64, forall_prop_of_true rfl]
    cases Str.parseSigned (2 ^ 63) body with
    | none => exact iff_of_true ⟨_, _, rfl, by simp⟩ (by simp)
    | some len => simpa using returns_readBulk_iff
  · refine iff_of_true ?_ fun h => absurd h hBulk
    rw [readTagged.eq_def]
    split
    · exact ⟨_, _, rfl, by simp⟩
    · exact ⟨_, _, rfl, by simp⟩
    · refine ⟨_, _, rfl, ?_⟩
      rw [parseI64]
      cases Str.parseSigned (2 ^ 63) body <;> simp
    · exact absurd rfl hBulk
    · exact ⟨_, _, rfl, by simp⟩
    · exact ⟨_, _, rfl, by simp⟩

/-- The size does not wrap for a length that fits. -/
theorem bulkSize_of_fits {memory : Nat} {len : Int} (h : LengthFits memory len) (hSome : len ≠ -1) :
    0 ≤ len ∧ (bulkSize len : Int) = len + 2 ∧ bulkSize len < 2 ^ 63 ∧ bulkSize len ≤ memory := by
  obtain ⟨hLow, hHigh, hGranted⟩ := h.resolve_left hSome
  rw [bulkSize]
  omega

theorem announced_of_line {a : Arrival} {line body : Str} (hText : lineText a = some line)
    (hLine : line.trimEnd = '$' :: body) : announced a = Str.parseSigned (2 ^ 63) body := by
  rw [announced, hText, Option.bind_some, hLine]
  rfl

/-- The line that announces a length. -/
theorem line_of_announced {a : Arrival} {len : Int} (h : announced a = some len) :
    ∃ line body, lineText a = some line ∧ line.trimEnd = '$' :: body ∧
      Str.parseSigned (2 ^ 63) body = some len := by
  rw [announced] at h
  obtain ⟨line, hText, hLine⟩ := Option.bind_eq_some_iff.mp h
  split at hLine
  · next body hBulk => exact ⟨line, body, hText, hBulk, hLine⟩
  · cases hLine

/-- The buffer that a read asks for is the one of its announced length. -/
theorem read_of_announced (memory : Nat) {a : Arrival} {len : Int} (h : announced a = some len) :
    ∃ rest, read memory a = readBulk memory len rest a.closed := by
  obtain ⟨line, body, hText, hLine, hParse⟩ := line_of_announced h
  obtain ⟨rest, hRead⟩ := read_of_text memory hText
  refine ⟨rest, ?_⟩
  rw [hRead, readBody, hLine]
  dsimp only
  rw [if_neg (by decide), readTagged, parseI64, hParse]

theorem Sane.fits {memory : Nat} {a : Arrival} (h : Sane memory a) {len : Int}
    (hLength : announced a = some len) : LengthFits memory len := by
  obtain ⟨line, body, hText, hLine, hParse⟩ := line_of_announced hLength
  have hSane := h line hText
  rw [SaneLine, hLine] at hSane
  exact hSane.2 rfl len hParse

/-- A reply that is sane is read to a value or an error. -/
theorem Sane.returns {memory : Nat} {a : Arrival} (h : Sane memory a) : Returns (read memory a) := by
  cases hText : lineText a with
  | none => exact read_of_no_text hText
  | some line =>
      obtain ⟨rest, hRead⟩ := read_of_text memory hText
      have hSane := h line hText
      rw [SaneLine] at hSane
      rw [hRead, readBody]
      cases hLine : line.trimEnd with
      | nil =>
          rw [hLine] at hSane
          exact hSane.elim
      | cons tag body =>
          rw [hLine] at hSane
          obtain ⟨hTag, hFits⟩ := hSane
          dsimp only
          rw [if_neg (by omega), returns_readTagged_iff]
          intro hBulk len hLength hSome
          exact (bulkSize_of_fits (hFits hBulk len hLength) hSome).2.2

/-- No caller unwinds under the lock, and the process goes on, when the read returns. -/
theorem Returns.spares {s : RedisClient.State} {i n memory : Nat} {args : List Bytes}
    {retry closed : Bool} {c : RedisClient.Conn}
    (h : Returns (read memory ⟨c.unread.take n, closed⟩)) :
    (s.read i args retry c n closed memory).poisoned = s.poisoned ∧
      (s.read i args retry c n closed memory).aborted = s.aborted := by
  obtain ⟨result, rest, hRead, hReturned⟩ := h
  rw [RedisClient.State.read, hRead]
  cases result with
  | ok v => exact ⟨rfl, rfl⟩
  | err e => exact ⟨rfl, rfl⟩
  | panicked => exact absurd rfl hReturned

theorem Sane.robust {memory : Nat} {a : Arrival} (h : Sane memory a) : Robust memory a := by
  refine ⟨h.returns, fun len hLength hSome => ?_, fun size hSize => ?_, fun s i args retry c n
    closed hArrival => (hArrival ▸ h.returns : Returns _).spares⟩
  · obtain ⟨hLow, hSize, _⟩ := bulkSize_of_fits (h.fits hLength) hSome
    exact ⟨hLow, hSize⟩
  · obtain ⟨len, hFilter, rfl⟩ := Option.map_eq_some_iff.mp hSize
    obtain ⟨hLength, hSome⟩ := Option.filter_eq_some_iff.mp hFilter
    obtain ⟨hLow, hSize, _⟩ := bulkSize_of_fits (h.fits hLength) (by simpa using hSome)
    refine ⟨len.toNat, ?_, by omega⟩
    rw [hLength, Int.toNat_of_nonneg hLow]

theorem Robust.sane {memory : Nat} {a : Arrival} (h : Robust memory a) : Sane memory a := by
  intro line hText
  obtain ⟨rest, hRead⟩ := read_of_text memory hText
  have hReturns : Returns (read memory a) := h.returns
  rw [hRead, readBody] at hReturns
  rw [SaneLine]
  cases hLine : line.trimEnd with
  | nil =>
      rw [hLine] at hReturns
      obtain ⟨result, left, hEnd, hReturned⟩ := hReturns
      cases hEnd
      exact absurd rfl hReturned
  | cons tag body =>
      rw [hLine] at hReturns
      dsimp only at hReturns
      by_cases hTag : 0x80 ≤ tag.toNat
      · rw [if_pos hTag] at hReturns
        obtain ⟨result, left, hEnd, hReturned⟩ := hReturns
        cases hEnd
        exact absurd rfl hReturned
      · rw [if_neg hTag, returns_readTagged_iff] at hReturns
        refine ⟨by omega, ?_⟩
        rintro rfl len hLength
        rcases eq_or_ne len (-1) with hNone | hSome
        · exact Or.inl hNone
        · have hAnnounced := (announced_of_line hText hLine).trans hLength
          obtain ⟨hLow, hSize⟩ := h.exact len hAnnounced hSome
          obtain ⟨hSmall, hGranted⟩ := hReturns rfl len hLength hSome
          exact Or.inr ⟨hLow, by omega, by omega⟩

end Resp

/-! ## A server that sends what it likes -/

namespace RedisClient

open Resp

/-- A step of the calls and of a server that keeps to the protocol, or bytes of
one that does not. -/
inductive Event where
  | act (a : Action)
  | bytes (b : Bytes)

namespace State

/-- The client beside a server that sends whatever bytes it likes. -/
def exposed (s : State) : Event → Option State
  | .act a => s.step a
  | .bytes b => s.conn.map fun c => { s with conn := some { c with unread := c.unread ++ b } }

/-- What a read meets is sane. -/
def SaneRead (s : State) : Event → Prop
  | .act (.read _ n closed memory) => ∀ c ∈ s.conn, Sane memory ⟨c.unread.take n, closed⟩
  | .act (.call _) | .act (.send _ _) | .act (.answer _) | .act (.reconnect _ _) | .bytes _ => True

instance (s : State) (e : Event) : Decidable (s.SaneRead e) := by
  unfold SaneRead
  split <;> infer_instance

end State

/-- No call has unwound under the lock, none because of one that had, and the process
has not been aborted. -/
structure Quiet (s : State) : Prop where
  lock : s.poisoned = false
  alive : s.aborted = false
  calls : ∀ call ∈ s.calls, call.stage ≠ .unwound

section Quiet

variable {s s' : State} {i : Nat} {args : List Bytes} {stage : Stage}

/-- A step of one call to a stage at which it has not unwound. -/
theorem Quiet.set (h : Quiet s) (hLock : s'.poisoned = false) (hAlive : s'.aborted = false)
    (hCalls : s'.calls = s.calls.set i ⟨args, stage⟩) (hStage : stage ≠ .unwound) : Quiet s' := by
  refine ⟨hLock, hAlive, fun call hCall => ?_⟩
  rw [hCalls] at hCall
  rcases List.mem_or_eq_of_mem_set hCall with hOld | rfl
  · exact h.calls call hOld
  · exact hStage

theorem Quiet.send (h : Quiet s) (retry : Bool) (write : Write) :
    Quiet (s.send i args retry write) := by
  have hFailed (e : String) : (if retry then Stage.returned (.error e) else .failed) ≠ .unwound := by
    cases retry <;> simp
  rw [State.send]
  split
  · exact h.set h.lock h.alive rfl (hFailed _)
  · cases write with
    | received => exact h.set h.lock h.alive rfl (by simp)
    | lost => exact h.set h.lock h.alive rfl (by simp)
    | error e => exact h.set h.lock h.alive rfl (hFailed e)

theorem Quiet.read (h : Quiet s) {retry closed : Bool} {c : Conn} {n memory : Nat}
    (hSane : Sane memory ⟨c.unread.take n, closed⟩) :
    Quiet (s.read i args retry c n closed memory) := by
  obtain ⟨result, rest, hRead, hReturned⟩ := hSane.returns
  rw [State.read, hRead]
  cases result with
  | ok v => exact h.set h.lock h.alive rfl (by simp)
  | err e => exact h.set h.lock h.alive rfl (by cases retry <;> simp)
  | panicked => exact absurd rfl hReturned

theorem Quiet.exposed {e : Event} (h : Quiet s) (hSane : s.SaneRead e)
    (hStep : s.exposed e = some s') : Quiet s' := by
  have hLocked (hPoisoned : s.poisoned = true) : False := by
    rw [h.lock] at hPoisoned
    cases hPoisoned
  cases e with
  | bytes b =>
      obtain ⟨c, hConn, rfl⟩ := Option.map_eq_some_iff.mp hStep
      exact ⟨h.lock, h.alive, h.calls⟩
  | act a =>
      cases State.steps_of_step hStep with
      | call args =>
          refine ⟨h.lock, h.alive, fun call hCall => ?_⟩
          rcases List.mem_append.mp hCall with hOld | hNew
          · exact h.calls call hOld
          · rw [List.mem_singleton.mp hNew]
            simp
      | sendUnwound write hCall hPoisoned => exact (hLocked hPoisoned).elim
      | send retry write hCall hNext hFree hWhole => exact h.send retry write
      | answer hConn hWell => exact ⟨h.lock, h.alive, h.calls⟩
      | read n closed memory hCall hConn => exact h.read (hSane _ hConn)
      | reconnectFailed hCall => exact h.set h.lock h.alive rfl (by simp)
      | reconnectUnwound hCall hPoisoned => exact (hLocked hPoisoned).elim
      | reconnect hCall hFree hWhole => exact h.set h.lock h.alive rfl (by simp)

end Quiet

/-- Whatever the allocator grants, the reader is robust against just what is sane, and in a
run of the client in which every read meets something sane no call unwinds and the process
is not aborted, whatever the server sends. -/
theorem robust_iff_sane (memory : Nat) (a : Arrival) (events : List Event) (s : State) :
    (Robust memory a ↔ Sane memory a) ∧
      (Runs.Meets State.exposed State.SaneRead State.start events →
        Runs.run State.exposed State.start events = some s → Quiet s) := by
  refine ⟨⟨Robust.sane, Sane.robust⟩, fun hSane hRun => ?_⟩
  exact hSane.invariant (fun _ _ _ hQuiet hMeets hStep => hQuiet.exposed hMeets hStep)
    ⟨rfl, rfl, by simp [State.start]⟩ hRun

/-- A lookup of which the reply is a bulk length that is no number, and one that is
answered behind a reconnection. -/
def noisy : List Event :=
  [.act (lookup "k1"), .act (.send 0 .received), .bytes (Str.bytes "$x\r\n".toList),
    .act (.read 0 8 false 4096), .act (.reconnect 0 true), .act (.send 0 .received),
    .bytes (Str.bytes "$5\r\nhello\r\n".toList), .act (.read 0 11 false 7)]

/-- A buffer of seven bytes is enough for a value of five. -/
theorem robust_noisy : Robust 7 ⟨Str.bytes "$5\r\nhello\r\n".toList, false⟩ ∧
    ∃ s, Runs.run State.exposed State.start noisy = some s ∧ Quiet s := by
  have hLaw := robust_iff_sane 7 ⟨Str.bytes "$5\r\nhello\r\n".toList, false⟩ noisy
  refine ⟨(hLaw State.start).1.mpr (by decide +kernel), ?_⟩
  cases hRun : Runs.run State.exposed State.start noisy with
  | none => exact absurd (congrArg Option.isSome hRun) (by decide +kernel)
  | some s => exact ⟨s, rfl, (hLaw s).2 (by decide +kernel) hRun⟩

/-- A reply in place of the one to a lookup, read with memory of 47 bits. -/
def answeredWith (line : String) : List Event :=
  [.act (lookup "k1"), .act (.send 0 .received), .bytes (Str.bytes line.toList),
    .act (.read 0 24 false (2 ^ 47))]

/-- A blank line, a first character of two bytes and lengths below -1 are too much
for the reader; the caller that has met one leaves a poisoned lock behind. A length that
is within 64 bits and above all memory ends the process. -/
theorem reader_unwinds :
    (Resp.read (2 ^ 47) ⟨Str.bytes "\r\n".toList, false⟩).map Prod.fst = some .panicked ∧
      (Resp.read (2 ^ 47) ⟨Str.bytes "é\r\n".toList, false⟩).map Prod.fst = some .panicked ∧
      (Resp.read (2 ^ 47) ⟨Str.bytes "$-3\r\n".toList, false⟩).map Prod.fst = some .panicked ∧
      announced ⟨Str.bytes "$-2\r\n".toList, false⟩ = some (-2) ∧ bulkSize (-2) = 0 ∧
      (Runs.run State.exposed State.start (answeredWith "\r\n")).map
        (fun s => (s.poisoned, s.aborted)) = some (true, false) ∧
      (Runs.run State.exposed State.start (answeredWith "$4611686018427387904\r\n")).map
        (fun s => (s.poisoned, s.aborted)) = some (false, true) := by
  decide +kernel

end RedisClient

end Dnsd.Cache
