import Dnsd.Cache.RedisRuns

/-! Commands to Redis as bytes on a connection: what the client writes, how a server reads
it, and how the client reads a reply that has arrived whole. -/

namespace Dnsd.Cache.RedisClient

open Resp

/-! ## Commands -/

/-- The beginning of a line with a number, and its end. -/
def numberLine (tag : UInt8) (n : Nat) : Bytes := tag :: (Str.decimal n).bytes ++ Reply.crlf

/-- One argument of a command, with its length in front and a line end behind each of the
two. -/
def argument (a : Bytes) : Bytes := numberLine 36 a.length ++ a ++ Reply.crlf

/-- The bytes that `cmd_inner` writes: the number of arguments, then each of them. -/
def request (args : List Bytes) : Bytes := numberLine 42 args.length ++ args.flatMap argument

/-- A word of the protocol. -/
def word (s : String) : Bytes := Str.bytes s.toList

/-- The words of `SET key val EX ttl`. -/
def setArgs (key : Str) (val : Bytes) (ttlSecs : Int64) : List Bytes :=
  [word "SET", key.bytes, val, word "EX", (Str.signed ttlSecs.toInt).bytes]

/-- The words of `DEL key`. -/
def delArgs (key : Str) : List Bytes := [word "DEL", key.bytes]

/-! ## What a server reads -/

/-- The number of a line, and what is behind the line. -/
def readNumber (tag : UInt8) (b : Bytes) : Option (Nat × Bytes) :=
  match b with
  | t :: b =>
      match b.span (· ≠ 13) with
      | (digits, cr :: nl :: rest) =>
          if t = tag ∧ [cr, nl] = Reply.crlf then
            ((Str.fromUtf8 digits).bind (Str.number 10)).map fun n => (n, rest)
          else none
      | _ => none
  | [] => none

/-- So many arguments; the bytes of one are as many as its length says. -/
def readArguments : Nat → Bytes → Option (List Bytes × Bytes)
  | 0, b => some ([], b)
  | n + 1, b =>
      (readNumber 36 b).bind fun (len, b) =>
        if (b.drop len).take 2 = Reply.crlf then
          (readArguments n (b.drop (len + 2))).map fun (args, rest) => (b.take len :: args, rest)
        else none

/-- A command, and what has arrived behind it. -/
def readCommand (b : Bytes) : Option (List Bytes × Bytes) :=
  (readNumber 42 b).bind fun (n, b) => readArguments n b

theorem carriage_not_mem_decimal (n : Nat) : 13 ∉ (Str.decimal n).bytes := by
  have hAscii : ∀ c ∈ Str.decimal n, 48 ≤ c.toNat ∧ c.toNat ≤ 57 := by
    intro c hc
    have hDigit := Str.decimal_isDigit hc
    rw [Char.isDigit, Bool.and_eq_true, decide_eq_true_eq, decide_eq_true_eq] at hDigit
    exact hDigit
  rw [Str.bytes_ascii fun c hc => by have := hAscii c hc; omega, List.mem_map]
  rintro ⟨c, hc, hByte⟩
  have hToNat := congrArg UInt8.toNat hByte
  have hBounds := hAscii c hc
  rw [UInt8.toNat_ofNat', Nat.mod_eq_of_lt (by omega)] at hToNat
  have hCarriage : (13 : UInt8).toNat = 13 := rfl
  omega

theorem readNumber_numberLine (tag : UInt8) (n : Nat) (rest : Bytes) :
    readNumber tag (numberLine tag n ++ rest) = some (n, rest) := by
  have hDigits : ∀ b ∈ (Str.decimal n).bytes, decide (b ≠ 13) = true := fun b hb =>
    decide_eq_true fun hEq => carriage_not_mem_decimal n (hEq ▸ hb)
  have hSpan : ((Str.decimal n).bytes ++ 13 :: newline :: rest).span (· ≠ 13) =
      ((Str.decimal n).bytes, 13 :: newline :: rest) := by
    rw [List.span_eq_takeWhile_dropWhile, List.takeWhile_append_of_pos hDigits,
      List.dropWhile_append_of_pos hDigits]
    simp
  have hLine : numberLine tag n ++ rest = tag :: ((Str.decimal n).bytes ++ 13 :: newline :: rest) := by
    simp [numberLine, Reply.crlf]
  have hText : Str.fromUtf8 (Str.decimal n).bytes = some (Str.decimal n) := Str.fromUtf8_eq_some_iff.mpr rfl
  rw [hLine, readNumber, hSpan]
  dsimp only
  rw [if_pos ⟨rfl, rfl⟩, hText, Option.bind_some, Str.number_decimal, Option.map_some]

theorem readArguments_flatMap (args : List Bytes) (rest : Bytes) :
    readArguments args.length (args.flatMap argument ++ rest) = some (args, rest) := by
  induction args with
  | nil => rfl
  | cons a args ih =>
      have hSplit : (a :: args).flatMap argument ++ rest =
          numberLine 36 a.length ++ (a ++ (Reply.crlf ++ (args.flatMap argument ++ rest))) := by
        simp [argument]
      have hEnd : (a ++ (Reply.crlf ++ (args.flatMap argument ++ rest))).drop (a.length + 2) =
          args.flatMap argument ++ rest := by
        rw [← List.drop_drop, List.drop_left]
        rfl
      have hCrlf : (Reply.crlf ++ (args.flatMap argument ++ rest)).take 2 = Reply.crlf := rfl
      rw [List.length_cons, readArguments, hSplit, readNumber_numberLine, Option.bind_some]
      dsimp only
      rw [List.drop_left, hCrlf, if_pos rfl, hEnd, ih, List.take_left, Option.map_some]

/-- The server gets the arguments of a command whatever bytes they have. -/
theorem readCommand_request (args : List Bytes) (rest : Bytes) :
    readCommand (request args ++ rest) = some (args, rest) := by
  rw [readCommand, request, List.append_assoc, readNumber_numberLine, Option.bind_some]
  exact readArguments_flatMap args rest

/-! ## A reply that arrives whole -/

/-- A line of text behind its tag, which the client reads as it is. -/
theorem read_line (memory : Nat) (tag : Char) (hTag : tag.toNat < 0x80) (hSpace : Unicode.whiteSpace tag = false)
    {body : Str} (hTrim : body.trimEnd = body)
    (hLine : newline ∉ UInt8.ofNat tag.toNat :: body.bytes ++ [13]) (rest : Bytes) (closed : Bool) :
    Resp.read memory ⟨(UInt8.ofNat tag.toNat :: body.bytes ++ [13]) ++ newline :: rest, closed⟩ =
      readTagged memory tag body rest closed := by
  have hText : UInt8.ofNat tag.toNat :: body.bytes ++ [13] ++ [newline] =
      Str.bytes (tag :: (body ++ ['\r', '\n'])) := by
    rw [Str.bytes_cons, Str.utf8EncodeChar_ascii hTag, Str.bytes_append]
    simp [newline]
    rfl
  rw [Resp.read, readLine_of_line rfl hLine]
  dsimp only
  rw [hText, Str.fromUtf8_eq_some_iff.mpr rfl]
  dsimp only
  rw [if_neg (List.cons_ne_nil _ _), readBody, trimEnd_line hSpace, hTrim]
  dsimp only
  rw [if_neg (by omega)]

/-- A reply that arrives whole and fits the memory is read as its value. -/
theorem read_reply {r : Reply} (hWell : r.WellFormed) (hPlain : r.Plain) {v : Resp}
    (hValue : r.resp = some v) {memory : Nat} (hMemory : r.encode.length ≤ memory) (closed : Bool) :
    Resp.read memory ⟨r.encode, closed⟩ = some (.ok v, []) := by
  cases r with
  | simple text =>
      obtain ⟨s, hText, rfl⟩ := Option.map_eq_some_iff.mp hValue
      rw [Str.fromUtf8_eq_some_iff.mp hText] at hWell hPlain ⊢
      exact read_line memory '+' (by decide) (by decide) (hPlain s (Str.fromUtf8_eq_some_iff.mpr rfl))
        (newline_not_mem_text (by decide) hWell.1) [] closed
  | error text =>
      obtain ⟨s, hText, rfl⟩ := Option.map_eq_some_iff.mp hValue
      rw [Str.fromUtf8_eq_some_iff.mp hText] at hWell hPlain ⊢
      exact read_line memory '-' (by decide) (by decide) (hPlain s (Str.fromUtf8_eq_some_iff.mpr rfl))
        (newline_not_mem_text (by decide) hWell.1) [] closed
  | integer n =>
      cases hValue
      refine (read_line memory ':' (by decide) (by decide) (signed_trimEnd n)
        (newline_not_mem_numbered (by decide) n) [] closed).trans ?_
      rw [readTagged, parseI64_signed hWell.1 hWell.2]
      rfl
  | bulk b =>
      cases hValue
      cases b with
      | none =>
          refine (read_line memory '$' (by decide) (by decide) (signed_trimEnd (-1))
            (newline_not_mem_numbered (by decide) (-1)) [] closed).trans ?_
          rw [readTagged, parseI64_signed (by decide) (by decide)]
          rfl
      | some b =>
          have hSmall : b.length + 2 < 2 ^ 63 := hWell
          refine (read_line memory '$' (by decide) (by decide) (signed_trimEnd b.length)
            (newline_not_mem_numbered (by decide) b.length) (b ++ Reply.crlf) closed).trans ?_
          have hSize : bulkSize b.length = b.length + 2 := by
            rw [bulkSize]
            omega
          have hLen : ((b.length : Int) % 2 ^ 64).toNat = b.length := by omega
          have hTotal : (b ++ Reply.crlf).length = b.length + 2 := by simp [Reply.crlf]
          rw [readTagged, parseI64_signed (by omega) (by omega)]
          dsimp only
          have hEncode : (Reply.bulk (some b)).encode =
              36 :: (Str.signed b.length).bytes ++ [13, newline] ++ (b ++ Reply.crlf) := by
            simp [Reply.encode, Reply.parts]
          have hBody := (List.suffix_append (36 :: (Str.signed b.length).bytes ++ [13, newline])
            (b ++ Reply.crlf)).length_le
          rw [← hEncode] at hBody
          rw [readBulk, hSize, hLen, if_neg (by omega), if_neg (by omega), if_neg (by omega),
            if_neg (by omega), ← hTotal, List.take_length, List.drop_length, List.take_left]
  | array count elements => cases hValue

end Dnsd.Cache.RedisClient
