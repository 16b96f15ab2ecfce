import Dnsd.Rust.NetParse

/-! Replies of Redis: how a server writes them, and how the client reads one from
the bytes that have arrived. -/

namespace Dnsd.Cache

/-- A reply as the client keeps it. It has no arrays. -/
inductive Resp where
  | simple (s : Str)
  | error (s : Str)
  | integer (n : Int)
  | bulk (b : Option Bytes)
  deriving DecidableEq

namespace Resp

/-- What a read of a connection meets: the bytes that arrive before it gives up,
and whether the server has closed the connection behind them. -/
structure Arrival where
  bytes : Bytes
  closed : Bool

/-- The byte that ends a line. -/
def newline : UInt8 := 10

/-- The text of a read that waits longer than the connection allows. -/
def timedOut : String := "Resource temporarily unavailable (os error 11)"

/-- `read_line`; a read that times out has taken what was there. -/
def readLine (a : Arrival) : Except String Bytes × Bytes :=
  match a.bytes.span (· ≠ newline) with
  | (line, nl :: rest) => (.ok (line ++ [nl]), rest)
  | (line, []) => (if a.closed then .ok line else .error timedOut, [])

/-- The elements of the buffer of a bulk reply, `len as usize + 2` in 64 bits. -/
def bulkSize (len : Int) : Nat := ((len + 2) % 2 ^ 64).toNat

/-- How a read ends, with the bytes that it leaves. It is `none` when the allocator has
refused a buffer: that ends the process, and nobody sees a result. -/
abbrev Ending := Option (Exec String Resp × Bytes)

/-- A bulk reply behind its line. A buffer of more than `isize::MAX` bytes unwinds, one
of more than the `memory` that the allocator grants is refused, and reading to the end
of the buffer takes all there is if that is too little. -/
def readBulk (memory : Nat) (len : Int) (rest : Bytes) (closed : Bool) : Ending :=
  if len = -1 then some (.ok (.bulk none), rest)
  else if 2 ^ 63 ≤ bulkSize len then some (.panicked, rest)
  else if memory < bulkSize len then none
  else if rest.length < bulkSize len then
    some (.err (if closed then "failed to fill whole buffer" else timedOut), [])
  else some (.ok (.bulk (some ((rest.take (bulkSize len)).take (len % 2 ^ 64).toNat))),
    rest.drop (bulkSize len))

/-- The text of the standard library for a number that is none. -/
def invalidDigit : String := "invalid digit found in string"

/-- `parse::<i64>`; one text stands for its kinds of failure. -/
def parseI64 (s : Str) : Exec String Int :=
  match Str.parseSigned (2 ^ 63) s with
  | some n => .ok n
  | none => .err invalidDigit

/-- A reply behind the first character of its line. -/
def readTagged (memory : Nat) (tag : Char) (body : Str) (rest : Bytes) (closed : Bool) : Ending :=
  match tag with
  | '+' => some (.ok (.simple body), rest)
  | '-' => some (.ok (.error body), rest)
  | ':' => some (parseI64 body >>= fun n => .ok (.integer n), rest)
  | '$' =>
      match parseI64 body with
      | .ok len => readBulk memory len rest closed
      | .err e => some (.err e, rest)
      | .panicked => some (.panicked, rest)
  -- the elements of an array stay where they are
  | '*' => some (.ok (.error "unexpected array".toList), rest)
  | _ => some (.err ("bad RESP prefix " ++ (String.singleton tag).quote), rest)

/-- What follows once the line has been read. The split behind the first byte
unwinds when there is no such byte or when a character goes on behind it. -/
def readBody (memory : Nat) (line : Str) (rest : Bytes) (closed : Bool) : Ending :=
  match line.trimEnd with
  | [] => some (.panicked, rest)
  | tag :: body =>
      if 0x80 ≤ tag.toNat then some (.panicked, rest) else readTagged memory tag body rest closed

/-- `read_resp`, with the bytes that it leaves. The line, whose bytes have all arrived,
is taken to fit the memory. -/
def read (memory : Nat) (a : Arrival) : Ending :=
  match readLine a with
  | (.error e, rest) => some (.err e, rest)
  | (.ok raw, rest) =>
      match Str.fromUtf8 raw with
      | none => some (.err "stream did not contain valid UTF-8", rest)
      | some line =>
          if line = [] then some (.err "empty response", rest)
          else readBody memory line rest a.closed

/-! ## The server -/

/-- What a server may reply; an array with the number in its line and its elements
as they are written. -/
inductive Reply where
  | simple (text : Bytes)
  | error (text : Bytes)
  | integer (n : Int)
  | bulk (b : Option Bytes)
  | array (count : Int) (elements : Bytes)
  deriving DecidableEq

namespace Reply

/-- What the protocol puts at the end of a line. -/
def crlf : Bytes := [13, newline]

/-- The line of a reply without its newline, and what is behind it. -/
def parts : Reply → Bytes × Bytes
  | .simple text => (43 :: text ++ [13], [])
  | .error text => (45 :: text ++ [13], [])
  | .integer n => (58 :: (Str.signed n).bytes ++ [13], [])
  | .bulk none => (36 :: (Str.signed (-1)).bytes ++ [13], [])
  | .bulk (some b) => (36 :: (Str.signed b.length).bytes ++ [13], b ++ crlf)
  | .array count elements => (42 :: (Str.signed count).bytes ++ [13], elements)

/-- The bytes of a reply on the wire. -/
def encode (r : Reply) : Bytes := r.parts.1 ++ newline :: r.parts.2

/-- What the protocol asks of a reply, at every depth of it. -/
def WellFormed : Reply → Prop
  | .simple text | .error text => newline ∉ text ∧ 13 ∉ text
  | .integer n => -2 ^ 63 ≤ n ∧ n < 2 ^ 63
  | .bulk (some b) => b.length + 2 < 2 ^ 63
  | .bulk none | .array _ _ => True

instance (r : Reply) : Decidable r.WellFormed := by
  unfold WellFormed
  split <;> infer_instance

/-- The reply as a value of the client; it has none for arrays. -/
def resp : Reply → Option Resp
  | .simple text => (Str.fromUtf8 text).map .simple
  | .error text => (Str.fromUtf8 text).map .error
  | .integer n => some (.integer n)
  | .bulk b => some (.bulk b)
  | .array _ _ => none

/-- No array, and no text that ends in white space. -/
def Plain : Reply → Prop
  | .simple text | .error text => ∀ s ∈ Str.fromUtf8 text, s.trimEnd = s
  | .integer _ | .bulk _ => True
  | .array _ _ => False

instance (r : Reply) : Decidable r.Plain := by
  unfold Plain
  split <;> infer_instance

end Reply

/-! ## Reading a reply back -/

/-- The server does not close the connection within a line. -/
def Arrival.Uncut (a : Arrival) : Prop := a.closed = true → a.bytes = [] ∨ newline ∈ a.bytes

instance (a : Arrival) : Decidable a.Uncut := inferInstanceAs (Decidable (_ → _))

/-- Bytes that begin with a line without a newline in it. -/
theorem readLine_of_line {a : Arrival} {line rest : Bytes} (h : a.bytes = line ++ newline :: rest)
    (hLine : newline ∉ line) : readLine a = (.ok (line ++ [newline]), rest) := by
  have hSpan : a.bytes.span (· ≠ newline) = (line, newline :: rest) := by
    rw [List.span_eq_takeWhile_dropWhile, h]
    have hAll : ∀ b ∈ line, decide (b ≠ newline) = true := fun b hb =>
      decide_eq_true fun hEq => hLine (hEq ▸ hb)
    rw [List.takeWhile_append_of_pos hAll, List.dropWhile_append_of_pos hAll]
    simp
  rw [readLine, hSpan]

theorem readLine_of_no_newline {a : Arrival} (h : newline ∉ a.bytes) :
    readLine a = (if a.closed then .ok a.bytes else .error timedOut, []) := by
  have hSpan : a.bytes.span (· ≠ newline) = (a.bytes, []) := by
    rw [List.span_eq_takeWhile_dropWhile]
    have hAll : ∀ b ∈ a.bytes, decide (b ≠ newline) = true := fun b hb =>
      decide_eq_true fun hEq => h (hEq ▸ hb)
    rw [List.takeWhile_eq_self_iff.mpr hAll, List.dropWhile_eq_nil_iff.mpr hAll]
  rw [readLine, hSpan]

/-- Nothing gives no value. -/
theorem read_nil {memory : Nat} {a : Arrival} (h : a.bytes = []) (v : Resp) (rest : Bytes) :
    read memory a ≠ some (.ok v, rest) := by
  rw [read, readLine_of_no_newline (by simp [h]), h]
  cases a.closed <;> simp [Str.fromUtf8, Str.fromUtf8Lossy]

/-- A read that gets a value from the beginning of a line and what is behind it has
got the whole line. -/
theorem read_prefix {memory : Nat} {a : Arrival} {line body rest : Bytes} {v : Resp}
    (hLine : newline ∉ line) (hPrefix : a.bytes <+: line ++ newline :: body) (hUncut : a.Uncut)
    (h : read memory a = some (.ok v, rest)) :
    ∃ got text, a.bytes = line ++ newline :: got ∧ got <+: body ∧ line ++ [newline] = text.bytes ∧
      readBody memory text got a.closed = some (.ok v, rest) := by
  by_cases hWhole : newline ∈ a.bytes
  · obtain ⟨got, hBytes, hGot⟩ : ∃ got, a.bytes = line ++ newline :: got ∧ got <+: body := by
      obtain ⟨later, hLater⟩ := hPrefix
      rcases List.append_eq_append_iff.mp hLater with ⟨more, hMore, _⟩ | ⟨more, hMore, hRest⟩
      · exact absurd (hMore ▸ List.mem_append_left more hWhole) hLine
      · cases more with
        | nil =>
            rw [List.append_nil] at hMore
            exact absurd (hMore ▸ hWhole) hLine
        | cons b more =>
            rw [List.cons_append, List.cons.injEq] at hRest
            exact ⟨more, by rw [hMore, hRest.1], later, hRest.2.symm⟩
    rw [read, readLine_of_line hBytes hLine] at h
    dsimp only at h
    split at h
    · cases h
    · rename_i text hText
      split_ifs at h with hNil
      · cases h
      · exact ⟨got, text, hBytes, hGot, Str.fromUtf8_eq_some_iff.mp hText, h⟩
  · rw [read, readLine_of_no_newline hWhole] at h
    by_cases hClosed : a.closed = true
    · have hNil : a.bytes = [] := (hUncut hClosed).resolve_right hWhole
      simp [hClosed, hNil, Str.fromUtf8, Str.fromUtf8Lossy] at h
    · simp [hClosed] at h

theorem text_of_line {c : Char} (hChar : c.toNat < 0x80) {t : Bytes} {text : Str}
    (h : UInt8.ofNat c.toNat :: t ++ [13] ++ [newline] = text.bytes) :
    ∃ s : Str, text = c :: (s ++ ['\r', '\n']) ∧ t = s.bytes := by
  have hByte : (UInt8.ofNat c.toNat).toNat = c.toNat := by
    rw [UInt8.toNat_ofNat']
    exact Nat.mod_eq_of_lt (by omega)
  obtain ⟨s1, hText, hFirst⟩ := Str.bytes_eq_concat_ascii (by decide) h.symm
  obtain ⟨s2, hLine, hSecond⟩ := Str.bytes_eq_concat_ascii (by decide) hFirst
  obtain ⟨s3, hCons, hThird⟩ := Str.bytes_eq_cons_ascii (by omega) hSecond
  rw [hByte, Char.ofNat_toNat] at hCons
  refine ⟨s3, ?_, hThird.symm⟩
  rw [hText, hLine, hCons]
  simp [newline]

theorem trimEnd_line {c : Char} (hChar : Unicode.whiteSpace c = false) (s : Str) :
    Str.trimEnd (c :: (s ++ ['\r', '\n'])) = c :: s.trimEnd := by
  rw [Str.trimEnd_cons hChar]
  congr 1
  have hSplit : s ++ ['\r', '\n'] = (s ++ ['\r']) ++ ['\n'] := by simp
  rw [hSplit, Str.trimEnd_append_space (by decide), Str.trimEnd_append_space (by decide)]

theorem whiteSpace_signed {n : Int} {c : Char} (h : c ∈ Str.signed n) :
    Unicode.whiteSpace c = false := by
  rcases Str.signed_chars h with rfl | hDigit
  · decide
  · rw [Char.isDigit, Bool.and_eq_true, decide_eq_true_eq, decide_eq_true_eq] at hDigit
    have hLow : 48 ≤ c.toNat := hDigit.1
    have hHigh : c.toNat ≤ 57 := hDigit.2
    simp [Unicode.whiteSpace, Unicode.inRuns]
    omega

theorem signed_trimEnd (n : Int) : (Str.signed n).trimEnd = Str.signed n := by
  rcases (Str.signed n).eq_nil_or_concat with hNil | ⟨before, c, hEq⟩
  · exact absurd hNil (Str.signed_ne_nil n)
  · rw [List.concat_eq_append] at hEq
    have hSpace := whiteSpace_signed (n := n) (c := c) (by simp [hEq])
    rw [hEq, Str.trimEnd_append_of_not_space hSpace]

theorem newline_not_mem_signed (n : Int) : newline ∉ (Str.signed n).bytes := by
  have hRange {c : Char} (hc : c ∈ Str.signed n) : 45 ≤ c.toNat ∧ c.toNat ≤ 57 := by
    rcases Str.signed_chars hc with rfl | hDigit
    · decide
    · rw [Char.isDigit, Bool.and_eq_true, decide_eq_true_eq, decide_eq_true_eq] at hDigit
      have hLow : 48 ≤ c.toNat := hDigit.1
      exact ⟨by omega, hDigit.2⟩
  rw [Str.bytes_ascii fun c hc => by have := hRange hc; omega, List.mem_map]
  rintro ⟨c, hc, hByte⟩
  have hToNat := congrArg UInt8.toNat hByte
  have hBounds := hRange hc
  rw [UInt8.toNat_ofNat', Nat.mod_eq_of_lt (by omega)] at hToNat
  have hNewline : newline.toNat = 10 := rfl
  omega

/-- A value that comes from a line with the tag of a reply. -/
theorem read_tagged (tag : Char) (hTag : tag.toNat < 0x80) (hSpace : Unicode.whiteSpace tag = false)
    {t body rest : Bytes} (hLine : newline ∉ UInt8.ofNat tag.toNat :: t ++ [13]) {a : Arrival}
    (hPrefix : a.bytes <+: (UInt8.ofNat tag.toNat :: t ++ [13]) ++ newline :: body)
    (hUncut : a.Uncut) {memory : Nat} {v : Resp} (h : read memory a = some (.ok v, rest)) :
    ∃ (s : Str) (got : Bytes), t = s.bytes ∧ got <+: body ∧
      a.bytes = (UInt8.ofNat tag.toNat :: t ++ [13]) ++ newline :: got ∧
      readTagged memory tag s.trimEnd got a.closed = some (.ok v, rest) := by
  obtain ⟨got, line, hBytes, hGot, hText, hBody⟩ := read_prefix hLine hPrefix hUncut h
  obtain ⟨s, rfl, hs⟩ := text_of_line hTag hText
  rw [readBody, trimEnd_line hSpace] at hBody
  dsimp only at hBody
  rw [if_neg (by omega)] at hBody
  exact ⟨s, got, hs, hGot, hBytes, hBody⟩

theorem newline_not_mem_numbered {b : UInt8} (hb : b ≠ newline) (n : Int) :
    newline ∉ b :: (Str.signed n).bytes ++ [13] := by
  simp only [List.cons_append, List.mem_cons, List.mem_append, List.not_mem_nil, or_false, not_or]
  exact ⟨fun h => hb h.symm, newline_not_mem_signed n, by decide⟩

theorem newline_not_mem_text {b : UInt8} (hb : b ≠ newline) {text : Bytes} (h : newline ∉ text) :
    newline ∉ b :: text ++ [13] := by
  simp only [List.cons_append, List.mem_cons, List.mem_append, List.not_mem_nil, or_false, not_or]
  exact ⟨fun hEq => hb hEq.symm, h, by decide⟩

theorem readBulk_length {memory : Nat} {b got rest : Bytes} (hSmall : b.length + 2 < 2 ^ 63)
    (hGot : got <+: b ++ Reply.crlf) {closed : Bool} {v : Resp}
    (h : readBulk memory b.length got closed = some (.ok v, rest)) :
    v = .bulk (some b) ∧ rest = [] ∧ got = b ++ Reply.crlf := by
  have hSize : bulkSize b.length = b.length + 2 := by
    rw [bulkSize]
    omega
  have hLen : ((b.length : Int) % 2 ^ 64).toNat = b.length := by omega
  rw [readBulk, hSize, hLen, if_neg (by omega), if_neg (by omega)] at h
  by_cases hRefused : memory < b.length + 2
  · rw [if_pos hRefused] at h
    cases h
  rw [if_neg hRefused] at h
  by_cases hShort : got.length < b.length + 2
  · rw [if_pos hShort] at h
    cases h
  · rw [if_neg hShort] at h
    replace h := Option.some.inj h
    have hTotal : (b ++ Reply.crlf).length = b.length + 2 := by simp [Reply.crlf]
    have hWhole : got = b ++ Reply.crlf := hGot.eq_of_length (by
      have hLe := hGot.length_le
      omega)
    subst hWhole
    obtain ⟨hValue, hRest⟩ := Prod.mk.inj h
    rw [← hTotal, List.drop_length] at hRest
    rw [← hTotal, List.take_length, List.take_left] at hValue
    cases hValue
    exact ⟨rfl, hRest.symm, rfl⟩

/-- A value that comes from a line of text. -/
theorem read_text (tag : Char) (hTag : tag.toNat < 0x80) (hSpace : Unicode.whiteSpace tag = false)
    (hNewline : UInt8.ofNat tag.toNat ≠ newline) {text : Bytes} (hText : newline ∉ text)
    (hPlain : ∀ s ∈ Str.fromUtf8 text, s.trimEnd = s) {a : Arrival}
    (hPrefix : a.bytes <+: (UInt8.ofNat tag.toNat :: text ++ [13]) ++ [newline]) (hUncut : a.Uncut)
    {memory : Nat} {v : Resp} {rest : Bytes} (h : read memory a = some (.ok v, rest)) :
    ∃ s, Str.fromUtf8 text = some s ∧
      a.bytes = (UInt8.ofNat tag.toNat :: text ++ [13]) ++ [newline] ∧
      readTagged memory tag s [] a.closed = some (.ok v, rest) := by
  obtain ⟨s, got, rfl, hGot, hBytes, hRead⟩ := read_tagged tag hTag hSpace
    (newline_not_mem_text hNewline hText) hPrefix hUncut h
  have hDecode := Str.fromUtf8_eq_some_iff.mpr (rfl : s.bytes = s.bytes)
  rw [List.prefix_nil.mp hGot] at hRead hBytes
  rw [hPlain s hDecode] at hRead
  exact ⟨s, hDecode, hBytes, hRead⟩

/-- A value that comes from a line with a number, and what has arrived behind it. -/
theorem read_number (tag : Char) (hTag : tag.toNat < 0x80) (hSpace : Unicode.whiteSpace tag = false)
    (hNewline : UInt8.ofNat tag.toNat ≠ newline) (n : Int) {body : Bytes} {a : Arrival}
    (hPrefix : a.bytes <+: (UInt8.ofNat tag.toNat :: (Str.signed n).bytes ++ [13]) ++ newline :: body)
    (hUncut : a.Uncut) {memory : Nat} {v : Resp} {rest : Bytes}
    (h : read memory a = some (.ok v, rest)) :
    ∃ got, got <+: body ∧
      a.bytes = (UInt8.ofNat tag.toNat :: (Str.signed n).bytes ++ [13]) ++ newline :: got ∧
      readTagged memory tag (Str.signed n) got a.closed = some (.ok v, rest) := by
  obtain ⟨s, got, hText, hGot, hBytes, hRead⟩ := read_tagged tag hTag hSpace
    (newline_not_mem_numbered hNewline n) hPrefix hUncut h
  rw [← Str.bytes_injective hText, signed_trimEnd] at hRead
  exact ⟨got, hGot, hBytes, hRead⟩

theorem parseI64_signed {n : Int} (hLow : -2 ^ 63 ≤ n) (hHigh : n < 2 ^ 63) :
    parseI64 (Str.signed n) = .ok n := by
  rw [parseI64, Str.parseSigned_signed (by omega) (by omega)]

/-- A client that gets a value while some of a reply has arrived has got that reply,
all of it, and nothing is left. -/
theorem read_encode {r : Reply} (hWell : r.WellFormed) (hPlain : r.Plain) {a : Arrival}
    (hPrefix : a.bytes <+: r.encode) (hUncut : a.Uncut) {memory : Nat} {v : Resp} {rest : Bytes}
    (h : read memory a = some (.ok v, rest)) :
    r.resp = some v ∧ rest = [] ∧ a.bytes = r.encode := by
  cases r with
  | simple text =>
      obtain ⟨s, hDecode, hBytes, hRead⟩ := read_text '+' (by decide) (by decide) (by decide)
        hWell.1 hPlain hPrefix hUncut h
      cases hRead
      exact ⟨by rw [Reply.resp, hDecode, Option.map_some], rfl, hBytes⟩
  | error text =>
      obtain ⟨s, hDecode, hBytes, hRead⟩ := read_text '-' (by decide) (by decide) (by decide)
        hWell.1 hPlain hPrefix hUncut h
      cases hRead
      exact ⟨by rw [Reply.resp, hDecode, Option.map_some], rfl, hBytes⟩
  | integer n =>
      obtain ⟨got, hGot, hBytes, hRead⟩ := read_number ':' (by decide) (by decide) (by decide) n
        hPrefix hUncut h
      rw [List.prefix_nil.mp hGot] at hRead hBytes
      rw [readTagged, parseI64_signed hWell.1 hWell.2] at hRead
      cases hRead
      exact ⟨rfl, rfl, hBytes⟩
  | bulk b =>
      cases b with
      | none =>
          obtain ⟨got, hGot, hBytes, hRead⟩ := read_number '$' (by decide) (by decide) (by decide)
            (-1) hPrefix hUncut h
          rw [List.prefix_nil.mp hGot] at hRead hBytes
          rw [readTagged, parseI64_signed (by decide) (by decide)] at hRead
          cases hRead
          exact ⟨rfl, rfl, hBytes⟩
      | some b =>
          obtain ⟨got, hGot, hBytes, hRead⟩ := read_number '$' (by decide) (by decide) (by decide)
            b.length hPrefix hUncut h
          have hSmall : b.length + 2 < 2 ^ 63 := hWell
          rw [readTagged, parseI64_signed (by omega) (by omega)] at hRead
          obtain ⟨rfl, rfl, rfl⟩ := readBulk_length hSmall hGot hRead
          exact ⟨rfl, rfl, hBytes⟩
  | array count elements => exact hPlain.elim

end Resp

end Dnsd.Cache
