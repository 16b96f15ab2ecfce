import Dnsd.Cache.Resp
import Dnsd.Rust.Split
import Dnsd.Server.PercentDecode

/-! HTTP/1.1 for DNS over HTTPS and the management API: a request as it is read from
a connection, a response as it is written. -/

namespace Dnsd.Server

open Cache.Resp (Arrival readLine newline timedOut)

/-- A request as the handlers get it. Of headers of one name the last one counts. -/
structure HttpRequest where
  method : Str
  path : Str
  query : HashMap Str Str
  headers : HashMap Str Str
  body : Bytes

/-- `read_line` into a `String`: up to the line end, an error where the bytes are no
UTF-8. -/
def readText (a : Arrival) : Except String Str × Bytes :=
  match readLine a with
  | (.error e, rest) => (.error e, rest)
  | (.ok raw, rest) =>
      match Str.fromUtf8 raw with
      | some line => (.ok line, rest)
      | none => (.error "stream did not contain valid UTF-8", rest)

/-- What `readLine` takes and what it leaves is what was there. -/
theorem readLine_length {a : Arrival} {raw rest : Bytes} (h : readLine a = (.ok raw, rest)) :
    raw.length + rest.length = a.bytes.length := by
  have hSpan := congrArg List.length (List.takeWhile_append_dropWhile (p := (· ≠ newline)) (l := a.bytes))
  rw [List.length_append] at hSpan
  rw [readLine, List.span_eq_takeWhile_dropWhile] at h
  cases hDrop : a.bytes.dropWhile (· ≠ newline) with
  | nil =>
      rw [hDrop] at h hSpan
      dsimp only at h
      split_ifs at h
      · cases h
        exact hSpan
      · cases h
  | cons b after =>
      rw [hDrop] at h hSpan
      cases h
      rw [List.length_append, List.length_singleton]
      rw [List.length_cons] at hSpan
      omega

/-- A line that is not empty takes a byte at least. -/
theorem readText_shorter {a : Arrival} {line : Str} {rest : Bytes}
    (h : readText a = (.ok line, rest)) (hLine : line ≠ []) : rest.length < a.bytes.length := by
  rw [readText] at h
  cases hRead : readLine a with
  | mk read left =>
      rw [hRead] at h
      cases read with
      | error e => cases h
      | ok raw =>
          dsimp only at h
          cases hText : Str.fromUtf8 raw with
          | none =>
              rw [hText] at h
              cases h
          | some text =>
              rw [hText] at h
              cases h
              have hLength := readLine_length hRead
              rw [Str.fromUtf8_eq_some_iff.mp hText] at hLength
              have hPos : 0 < line.bytes.length := Str.len_pos hLine
              omega

/-- A line without a colon is passed over. -/
def insertHeader (headers : HashMap Str Str) (h : Str) : HashMap Str Str :=
  match h.splitOnce ':' with
  | some (k, v) => headers.insert k.trim.toLowercase v.trim
  | none => headers

/-- The loop over the header lines, with what is behind them. -/
def readHeaders (bytes : Bytes) (closed : Bool) (headers : HashMap Str Str) :
    Exec String (HashMap Str Str × Bytes) :=
  match hRead : readText ⟨bytes, closed⟩ with
  | (.error e, _) => .err e
  | (.ok line, rest) =>
      if hEnd : line = [] then .ok (headers, rest)
      else
        have := readText_shorter hRead hEnd
        if line.trimEnd = [] then .ok (headers, rest)
        else readHeaders rest closed (insertHeader headers line.trimEnd)
termination_by bytes.length

/-- A line that trims to nothing ends the headers, as the end of the connection does. -/
theorem readHeaders_eq (bytes : Bytes) (closed : Bool) (headers : HashMap Str Str) :
    readHeaders bytes closed headers =
      match readText ⟨bytes, closed⟩ with
      | (.error e, _) => .err e
      | (.ok line, rest) =>
          if line.trimEnd = [] then .ok (headers, rest)
          else readHeaders rest closed (insertHeader headers line.trimEnd) := by
  rw [readHeaders]
  split
  · next hRead => rw [hRead]
  · next line rest hRead =>
      simp only [hRead]
      by_cases hEnd : line = []
      · rw [dif_pos hEnd, hEnd]
        rfl
      · rw [dif_neg hEnd]

/-- The length that is announced, as a `usize` of 64 bits. -/
def contentLen (headers : HashMap Str Str) : Nat :=
  ((headers.get "content-length".toList).bind (Str.parseUnsigned (2 ^ 64))).getD 0

/-- A buffer of more than `isize::MAX` bytes unwinds. One of more than the `memory` that
the allocator grants ends the process: that is `none`. -/
def readBody (memory : Nat) (length : Nat) (rest : Bytes) (closed : Bool) :
    Option (Exec String Bytes) :=
  if 2 ^ 63 ≤ length then some .panicked
  else if memory < length then none
  else if rest.length < length then
    some (.err (if closed then "failed to fill whole buffer" else timedOut))
  else some (.ok (rest.take length))

/-- Path and query of a request target, at the first question mark. Without one the query
is empty. -/
def splitTarget (target : Str) : Exec Empty (Str × HashMap Str Str) :=
  match target.splitOnce '?' with
  | some (p, q) => do return (p, ← parseQuery q)
  | none => return (target, ∅)

/-- A computation that cannot fail, among those that can. It may still unwind. -/
def infallible {α : Type} : Exec Empty α → Exec String α
  | .ok a => .ok a
  | .err e => e.elim
  | .panicked => .panicked

/-- The target in a request line, which is its second word, or "/" where there is none. -/
def targetOf (line : Str) : Str := line.trimEnd.splitWhitespace.getD 1 ['/']

/-- The method in a request line, whatever it is. -/
def methodOf (line : Str) : Str := line.trimEnd.splitWhitespace.getD 0 []

/-- The path, the query and the headers behind the first line, and the bytes behind them. -/
def readHead (line : Str) (rest : Bytes) (closed : Bool) :
    Exec String ((Str × HashMap Str Str) × HashMap Str Str × Bytes) := do
  let target ← infallible (splitTarget (targetOf line))
  let headers ← readHeaders rest closed ∅
  return (target, headers)

/-- `read_request`. The buffered reader is dropped with what it has read ahead. -/
def readRequest (memory : Nat) (a : Arrival) : Option (Exec String (Option HttpRequest)) :=
  match readText a with
  | (.error e, _) => some (.err e)
  | (.ok line, rest) =>
      if line = [] then some (.ok none)
      else
        match readHead line rest a.closed with
        | .err e => some (.err e)
        | .panicked => some .panicked
        | .ok ((path, query), headers, rest) =>
            (readBody memory (contentLen headers) rest a.closed).map fun body => do
              return some ⟨methodOf line, path, query, headers, ← body⟩

/-! ## Responses -/

/-- A response, without the headers that every response has. -/
structure HttpResponse where
  status : Nat
  reason : Str
  contentType : Str
  body : Bytes
  extraHeaders : List (Str × Str) := []

/-- The end of a line, as it is written. -/
def crlf : Str := ['\r', '\n']

/-- `{}: {}\r\n`, of the name and the value of a header. -/
def headerLine (header : Str × Str) : Str := header.1 ++ ": ".toList ++ header.2 ++ crlf

namespace HttpResponse

/-- The header lines in their order: three of the server, and behind them those of the
handler. -/
def headers (r : HttpResponse) : List (Str × Str) :=
  [("Content-Type".toList, r.contentType), ("Content-Length".toList, Str.decimal r.body.length),
    ("Connection".toList, "close".toList)] ++ r.extraHeaders

/-- The first line of a response, without its end. -/
def statusLine (r : HttpResponse) : Str :=
  "HTTP/1.1 ".toList ++ Str.decimal r.status ++ [' '] ++ r.reason

/-- `write_response`: the bytes that are written when no write fails. -/
def bytes (r : HttpResponse) : Bytes :=
  Str.bytes (r.statusLine ++ crlf ++ r.headers.flatMap headerLine ++ crlf) ++ r.body

end HttpResponse

end Dnsd.Server
