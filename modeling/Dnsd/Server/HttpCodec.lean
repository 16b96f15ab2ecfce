import Dnsd.Base.LastWrite
import Dnsd.Server.Http

/-! What one side of a connection writes, the other side reads. -/

namespace Dnsd.Server

open Cache.Resp (Arrival readLine readLine_of_line newline timedOut)

/-! ## Lines -/

/-- A text without a line break has none in its encoding. -/
theorem newline_not_mem_bytes {s : Str} (h : '\n' ∉ s) : newline ∉ s.bytes := fun hByte =>
  h (Str.mem_of_mem_bytes (c := '\n') (by decide) hByte)

/-- A line that ends as HTTP ends it. -/
theorem readText_line {line : Str} (h : '\n' ∉ line) (rest : Bytes) (closed : Bool) :
    readText ⟨(line ++ crlf).bytes ++ rest, closed⟩ = (.ok (line ++ crlf), rest) := by
  have hWhole : (line ++ crlf).bytes = (line ++ ['\r']).bytes ++ [newline] := by
    have hSplit : line ++ crlf = (line ++ ['\r']) ++ ['\n'] := by simp [crlf]
    rw [hSplit, Str.bytes_append]
    rfl
  have hLine : newline ∉ (line ++ ['\r']).bytes := newline_not_mem_bytes (by simp [h])
  rw [readText, readLine_of_line (by rw [hWhole, List.append_assoc]; rfl) hLine]
  dsimp only
  rw [← hWhole, Str.fromUtf8_eq_some_iff.mpr rfl]
  rfl

/-- The end of a line is trimmed away. -/
theorem trimEnd_crlf (s : Str) : (s ++ crlf).trimEnd = s.trimEnd := by
  have hSplit : s ++ crlf = (s ++ ['\r']) ++ ['\n'] := by simp [crlf]
  rw [hSplit, Str.trimEnd_append_space (by decide), Str.trimEnd_append_space (by decide)]

/-! ## Header lines -/

/-- A header line ends with its line, and its name at the first colon. -/
structure HeaderFits (header : Str × Str) : Prop where
  name : ':' ∉ header.1 ∧ '\n' ∉ header.1
  value : '\n' ∉ header.2

/-- What the headers of a request are kept as: the last one of a name counts. -/
def headerMap (headers : List (Str × Str)) : HashMap Str Str :=
  headers.foldl (fun map header => map.insert header.1.trim.toLowercase header.2.trim) ∅

/-- A header line is read as its name in lower case and its value, and the reader goes on
behind it. -/
theorem readHeaders_line {header : Str × Str} (h : HeaderFits header) (rest : Bytes) (closed : Bool)
    (map : HashMap Str Str) :
    readHeaders ((headerLine header).bytes ++ rest) closed map =
      readHeaders rest closed (map.insert header.1.trim.toLowercase header.2.trim) := by
  obtain ⟨name, value⟩ := header
  have hColon : ": ".toList = [':', ' '] := rfl
  have hLine : '\n' ∉ name ++ ": ".toList ++ value := by
    rw [hColon]
    simp [h.name.2, h.value]
  have hTrim : (headerLine (name, value)).trimEnd = name ++ ':' :: Str.trimEnd (' ' :: value) := by
    have hSplit : name ++ ": ".toList ++ value = name ++ ':' :: ' ' :: value := by
      rw [hColon]
      simp
    rw [headerLine, trimEnd_crlf, hSplit, Str.trimEnd_append (by decide)]
  have hKey : insertHeader map (name ++ ':' :: Str.trimEnd (' ' :: value)) =
      map.insert name.trim.toLowercase value.trim := by
    rw [insertHeader, Str.splitOnce_append h.name.1]
    dsimp only
    rw [Str.trim_trimEnd, Str.trim_cons_space (by decide)]
  rw [readHeaders_eq, headerLine, readText_line hLine]
  dsimp only
  rw [headerLine] at hTrim
  rw [hTrim, if_neg (by simp), hKey]

/-- The whole block of headers, with the empty line behind it. -/
theorem readHeaders_block {headers : List (Str × Str)} (h : ∀ header ∈ headers, HeaderFits header)
    (rest : Bytes) (closed : Bool) (map : HashMap Str Str) :
    readHeaders (Str.bytes (headers.flatMap headerLine ++ crlf) ++ rest) closed map =
      .ok (headers.foldl (fun map header => map.insert header.1.trim.toLowercase header.2.trim) map,
        rest) := by
  induction headers generalizing map with
  | nil =>
      rw [readHeaders_eq]
      have hRead : readText ⟨Str.bytes ([] ++ crlf) ++ rest, closed⟩ = (.ok ([] ++ crlf), rest) :=
        readText_line List.not_mem_nil rest closed
      rw [List.nil_append] at hRead
      rw [List.flatMap_nil, List.nil_append, hRead]
      rfl
  | cons header headers ih =>
      rw [List.flatMap_cons, List.append_assoc, Str.bytes_append, List.append_assoc,
        readHeaders_line (h header List.mem_cons_self), List.foldl_cons]
      exact ih (fun other hOther => h other (List.mem_cons_of_mem header hOther)) _

/-! ## Query strings -/

/-- A character that stands for itself in the value of a parameter. -/
def PlainChar (c : Char) : Prop :=
  c.toNat < 0x80 ∧ c ≠ '%' ∧ c ≠ '+' ∧ c ≠ '&' ∧ Unicode.whiteSpace c = false

instance (c : Char) : Decidable (PlainChar c) := inferInstanceAs (Decidable (_ ∧ _))

theorem plainChar_alphanum {c : Char} (h : c.isAlphanum = true) : PlainChar c := by
  have hAscii : c.toNat < 0x80 := by
    have hRanges : ((decide ('A'.val ≤ c.val ∧ c.val ≤ 'Z'.val) ||
        ('a'.val ≤ c.val && c.val ≤ 'z'.val)) || ('0'.val ≤ c.val && c.val ≤ '9'.val)) = true := h
    simp only [Bool.or_eq_true, Bool.and_eq_true, decide_eq_true_eq] at hRanges
    rcases hRanges with (⟨-, hTop⟩ | ⟨-, hTop⟩) | ⟨-, hTop⟩
    all_goals exact Nat.lt_of_le_of_lt (UInt32.le_iff_toNat_le.mp hTop) (by decide)
  have hAll : ∀ n : Fin 128, (Char.ofNat n.val).isAlphanum = true → PlainChar (Char.ofNat n.val) := by
    decide +kernel
  have hPlain : c.isAlphanum = true → PlainChar c :=
    Unicode.forall_ascii (P := fun c => c.isAlphanum = true → PlainChar c) hAll hAscii
  exact hPlain h

/-- A text of such characters is a percent-encoding of itself. -/
theorem encodes_self {text : Str} (h : ∀ c ∈ text, PlainChar c) : Encodes text.bytes text.bytes := by
  induction text with
  | nil => exact .nil
  | cons c text ih =>
      obtain ⟨hAscii, hPercent, hPlus, -⟩ := h c List.mem_cons_self
      have hByte {d : Char} (hd : d.toNat < 0x80) (hNe : c ≠ d) :
          UInt8.ofNat c.toNat ≠ UInt8.ofNat d.toNat := fun hEq => by
        have hNat := congrArg UInt8.toNat hEq
        rw [UInt8.toNat_ofNat', UInt8.toNat_ofNat', Nat.mod_eq_of_lt (by omega),
          Nat.mod_eq_of_lt (by omega)] at hNat
        exact hNe (Char.toNat_inj.mp hNat)
      rw [Str.bytes_cons, Str.utf8EncodeChar_ascii hAscii]
      exact .literal (hByte (d := '%') (by decide) hPercent) (hByte (d := '+') (by decide) hPlus)
        (ih fun d hd => h d (List.mem_cons_of_mem c hd))

/-- A parameter of a query string, with a percent-encoding of its value. -/
structure Param where
  key : Str
  value : Str
  coded : Str
  key_fits : '=' ∉ key ∧ '&' ∉ key ∧ ∀ c ∈ key, Unicode.whiteSpace c = false
  coded_fits : '&' ∉ coded ∧ ∀ c ∈ coded, Unicode.whiteSpace c = false
  encodes : Encodes value.bytes coded.bytes

/-- The parameter as it is written: the key as it is, the value in its encoding. -/
def Param.text (p : Param) : Str := p.key ++ '=' :: p.coded

/-- The parameters between ampersands, in the order in which they are given. -/
def queryText (params : List Param) : Str := ['&'].intercalate (params.map Param.text)

/-- What a query string is kept as: the last parameter of a name counts. -/
def queryMap (params : List Param) : HashMap Str Str :=
  params.foldl (fun map p => map.insert p.key p.value) ∅

/-- A parameter as it is written is read as its key and value. -/
theorem insertPair_text (p : Param) (map : HashMap Str Str) :
    insertPair map p.text = .ok (map.insert p.key p.value) := by
  have hSplit : splitPair p.text = some (p.key, p.coded) := Str.splitOnce_append p.key_fits.1 p.coded
  rw [insertPair, hSplit]
  dsimp only
  rw [p.encodes.percentDecode_eq]
  rfl

/-- And all of them are, one after the other. -/
theorem foldlM_params (params : List Param) (map : HashMap Str Str) :
    (params.map Param.text).foldlM insertPair map =
      .ok (params.foldl (fun map p => map.insert p.key p.value) map) := by
  induction params generalizing map with
  | nil => rfl
  | cons p params ih =>
      rw [List.map_cons, List.foldlM_cons, insertPair_text, Exec.ok_bind, ih, List.foldl_cons]

/-- The query text is parsed to the map of its parameters. -/
theorem parseQuery_params (params : List Param) :
    parseQuery (queryText params) = .ok (queryMap params) := by
  cases params with
  | nil => rfl
  | cons p params =>
      have hSep : ∀ text ∈ (p :: params).map Param.text, '&' ∉ text := by
        intro text hText
        obtain ⟨other, -, rfl⟩ := List.mem_map.mp hText
        simp [Param.text, other.key_fits.2.1, other.coded_fits.1]
      rw [parseQuery, queryText, List.splitOn_intercalate '&' hSep (by simp)]
      exact foldlM_params _ ∅

/-- There is no white space in a query text. -/
theorem queryText_not_space {params : List Param} {c : Char} (h : c ∈ queryText params) :
    Unicode.whiteSpace c = false := by
  rcases Str.mem_intercalate h with rfl | ⟨text, hText, hc⟩
  · decide
  · obtain ⟨p, -, rfl⟩ := List.mem_map.mp hText
    rw [Param.text, List.mem_append, List.mem_cons] at hc
    rcases hc with hKey | rfl | hCoded
    · exact p.key_fits.2.2 c hKey
    · decide
    · exact p.coded_fits.2 c hCoded

/-! ## Requests -/

/-- A request as a client writes it, which announces the length of its body. -/
structure Sent where
  method : Str
  path : Str
  params : Option (List Param)
  headers : List (Str × Str)
  body : Bytes
  method_fits : method ≠ [] ∧ ∀ c ∈ method, Unicode.whiteSpace c = false
  path_fits : path ≠ [] ∧ '?' ∉ path ∧ ∀ c ∈ path, Unicode.whiteSpace c = false
  headers_fit : ∀ header ∈ headers, HeaderFits header
  length : contentLen (headerMap headers) = body.length
  small : body.length < 2 ^ 63

theorem get_fits : "GET".toList ≠ [] ∧ ∀ c ∈ "GET".toList, Unicode.whiteSpace c = false := by
  decide

theorem nil_small : ([] : Bytes).length < 2 ^ 63 := by decide

namespace Sent

variable (r : Sent)

/-- Path and query, with a question mark between them, if there is a query. -/
def target : Str :=
  match r.params with
  | some params => r.path ++ '?' :: queryText params
  | none => r.path

/-- The first line of the request, without its end. -/
def requestLine : Str := r.method ++ ' ' :: r.target ++ " HTTP/1.1".toList

/-- The request as the client writes it: the head, a blank line and the body. -/
def bytes : Bytes :=
  (r.requestLine ++ crlf).bytes ++ (Str.bytes (r.headers.flatMap headerLine ++ crlf) ++ r.body)

/-- What the server is meant to get of the request. -/
def request : HttpRequest where
  method := r.method
  path := r.path
  query := r.params.elim ∅ queryMap
  headers := headerMap r.headers
  body := r.body

theorem target_ne_nil : r.target ≠ [] := by
  rw [target]
  split
  · simp
  · exact r.path_fits.1

theorem target_not_space {c : Char} (h : c ∈ r.target) : Unicode.whiteSpace c = false := by
  rw [target] at h
  split at h
  · rw [List.mem_append, List.mem_cons] at h
    rcases h with hPath | rfl | hQuery
    · exact r.path_fits.2.2 c hPath
    · decide
    · exact queryText_not_space hQuery
  · exact r.path_fits.2.2 c h

/-- A request line has three words: the method, the target and the version. -/
theorem requestLine_words : (r.requestLine ++ crlf).trimEnd.splitWhitespace =
    [r.method, r.target, "HTTP/1.1".toList] := by
  have hVersion : " HTTP/1.1".toList = ' ' :: "HTTP/1.1".toList := rfl
  have hTrim : (r.requestLine ++ crlf).trimEnd = r.method ++ ' ' :: (r.target ++ ' ' :: "HTTP/1.1".toList) := by
    have hLast : r.requestLine = (r.method ++ ' ' :: r.target ++ " HTTP/1.".toList) ++ ['1'] := by
      rw [requestLine]
      simp
    rw [trimEnd_crlf, hLast, Str.trimEnd_append_of_not_space (by decide)]
    simp
  rw [hTrim, Str.splitWhitespace_word r.method_fits.1 r.method_fits.2 (by decide),
    Str.splitWhitespace_word r.target_ne_nil (fun _ => r.target_not_space) (by decide),
    Str.splitWhitespace_last (by decide) (by decide)]

theorem newline_not_mem_requestLine : '\n' ∉ r.requestLine := by
  have hSpace : Unicode.whiteSpace '\n' = true := by decide
  intro h
  rw [requestLine, List.mem_append, List.mem_append, List.mem_cons] at h
  rcases h with (hMethod | hBlank | hTarget) | hVersion
  · rw [r.method_fits.2 _ hMethod] at hSpace
    cases hSpace
  · cases hBlank
  · rw [r.target_not_space hTarget] at hSpace
    cases hSpace
  · exact absurd hVersion (by decide)

/-- The target is split into the path and the map of its parameters. -/
theorem splitTarget_target : splitTarget r.target = .ok (r.path, r.params.elim ∅ queryMap) := by
  rw [splitTarget, target]
  cases r.params with
  | none =>
      dsimp only
      rw [Str.splitOnce_of_not_mem r.path_fits.2.1]
      rfl
  | some params =>
      dsimp only
      rw [Str.splitOnce_append r.path_fits.2.1]
      dsimp only
      rw [parseQuery_params]
      rfl

/-- The server reads what the client has written, and nothing of what is behind it. A body
that does not fit the memory ends it. -/
theorem readRequest_bytes_eq (memory : Nat) (more : Bytes) (closed : Bool) :
    readRequest memory ⟨r.bytes ++ more, closed⟩ =
      if r.body.length ≤ memory then some (.ok (some r.request)) else none := by
  have hLine := readText_line r.newline_not_mem_requestLine
    (Str.bytes (r.headers.flatMap headerLine ++ crlf) ++ (r.body ++ more)) closed
  have hBytes : r.bytes ++ more = (r.requestLine ++ crlf).bytes ++
      (Str.bytes (r.headers.flatMap headerLine ++ crlf) ++ (r.body ++ more)) := by
    rw [bytes, List.append_assoc, List.append_assoc]
  have hSmall := r.small
  rw [readRequest, hBytes, hLine]
  dsimp only
  rw [if_neg (by simp [crlf]), readHead, targetOf, methodOf, r.requestLine_words]
  simp only [List.getD_cons_succ, List.getD_cons_zero]
  rw [r.splitTarget_target, infallible, Exec.ok_bind, readHeaders_block r.headers_fit, Exec.ok_bind]
  have hLength : contentLen (headerMap r.headers) = r.body.length := r.length
  rw [headerMap] at hLength
  dsimp only [Exec.pure_eq]
  rw [hLength, readBody, if_neg (by omega)]
  by_cases hMemory : r.body.length ≤ memory
  · rw [if_neg (by omega), if_neg (by simp), if_pos hMemory, List.take_left]
    rfl
  · rw [if_pos (by omega), if_neg hMemory]
    rfl

/-- A request that is written whole is read back, whatever follows on the connection, if
there is memory for its body. -/
theorem readRequest_bytes {memory : Nat} (hMemory : r.body.length ≤ memory) (more : Bytes)
    (closed : Bool) :
    readRequest memory ⟨r.bytes ++ more, closed⟩ = some (.ok (some r.request)) := by
  rw [readRequest_bytes_eq, if_pos hMemory]

end Sent

/-! ## Responses -/

/-- The client's side of a response: status, reason, headers and body. -/
structure Delivered where
  status : Nat
  reason : Str
  headers : HashMap Str Str
  body : Bytes

/-- How a client takes a response apart: the status line at its first two spaces,
header lines as in a request, and the number of bytes that is announced. -/
def readResponse (a : Arrival) : Exec String (Option Delivered) :=
  match readText a with
  | (.error e, _) => .err e
  | (.ok line, rest) =>
      match (line.trimEnd.splitOnce ' ').bind fun parts => parts.2.splitOnce ' ' with
      | none => .ok none
      | some (code, reason) =>
          match Str.number 10 code with
          | none => .ok none
          | some status => do
              let (headers, rest) ← readHeaders rest a.closed ∅
              match (headers.get "content-length".toList).bind (Str.number 10) with
              | none => return none
              | some length =>
                  if rest.length < length then .err "unexpected end of file"
                  else return some ⟨status, reason, headers, rest.take length⟩

/-- A response that can be told apart from what is behind it. -/
structure HttpResponse.Fits (r : HttpResponse) : Prop where
  reason : '\n' ∉ r.reason ∧ r.reason ≠ [] ∧ r.reason.trimEnd = r.reason
  contentType : '\n' ∉ r.contentType
  extra : ∀ header ∈ r.extraHeaders, HeaderFits header ∧
    header.1.trim.toLowercase ≠ "content-length".toList

namespace HttpResponse

variable {r : HttpResponse}

theorem decimal_not_space {n : Nat} {c : Char} (h : c ∈ Str.decimal n) : c ≠ ' ' ∧ c ≠ '\n' := by
  have hDigit := Str.decimal_isDigit h
  constructor
  · rintro rfl
    cases hDigit
  · rintro rfl
    cases hDigit

/-- Every header that a response is written with fits on a line. -/
theorem headers_fit (h : r.Fits) : ∀ header ∈ r.headers, HeaderFits header := by
  have hName (name : String) (hName : ':' ∉ name.toList ∧ '\n' ∉ name.toList) {value : Str}
      (hValue : '\n' ∉ value) : HeaderFits (name.toList, value) := ⟨hName, hValue⟩
  intro header hHeader
  rw [headers, List.mem_append] at hHeader
  rcases hHeader with hOwn | hExtra
  · simp only [List.mem_cons, List.not_mem_nil, or_false] at hOwn
    rcases hOwn with rfl | rfl | rfl
    · exact hName _ (by decide) h.contentType
    · exact hName _ (by decide) fun hDigit => (decimal_not_space hDigit).2 rfl
    · exact hName _ (by decide) (by decide)
  · exact (h.extra header hExtra).1

/-- The announced length is that of the body, whatever other headers there are. -/
theorem get_length (h : r.Fits) :
    (headerMap r.headers).get "content-length".toList = some (Str.decimal r.body.length).trim := by
  rw [headerMap, HashMap.get_foldl_insert, HashMap.get_empty, Option.or_none, headers,
    List.map_append, LastWrite.lastWrite_append, LastWrite.lastWrite_eq_none_iff.mpr]
  · rw [Option.none_or]
    rfl
  · intro entry hEntry
    obtain ⟨header, hHeader, rfl⟩ := List.mem_map.mp hEntry
    exact (h.extra header hHeader).2

theorem decimal_trim (n : Nat) : (Str.decimal n).trim = Str.decimal n := by
  have hDigit (c : Char) (hc : c ∈ Str.decimal n) : Unicode.whiteSpace c = false := by
    refine Cache.Resp.whiteSpace_signed (n := n) ?_
    rwa [Str.signed, if_neg (by omega), Int.natAbs_natCast]
  refine Str.trim_of_ends (fun c hc => ?_) (fun c hc => ?_)
  · exact hDigit c (List.mem_of_mem_head? hc)
  · exact hDigit c (List.mem_of_mem_getLast? hc)

theorem newline_not_mem_statusLine (h : r.Fits) : '\n' ∉ r.statusLine := by
  intro hMem
  unfold statusLine at hMem
  simp only [List.mem_append, List.mem_singleton] at hMem
  rcases hMem with ((hVersion | hStatus) | hBlank) | hReason
  · exact absurd hVersion (by decide)
  · exact (decimal_not_space hStatus).2 rfl
  · cases hBlank
  · exact h.reason.1 hReason

/-- A status line is read as its code and its reason. -/
theorem statusLine_parts (h : r.Fits) :
    ((r.statusLine ++ crlf).trimEnd.splitOnce ' ').bind (fun parts => parts.2.splitOnce ' ') =
      some (Str.decimal r.status, r.reason) := by
  have hTrim : (r.statusLine ++ crlf).trimEnd =
      "HTTP/1.1".toList ++ ' ' :: (Str.decimal r.status ++ ' ' :: r.reason) := by
    rw [trimEnd_crlf]
    unfold statusLine
    rw [Str.trimEnd_append_trimmed h.reason.2.1 h.reason.2.2]
    simp
  have hVersion : ' ' ∉ "HTTP/1.1".toList := by decide
  rw [hTrim, Str.splitOnce_append hVersion, Option.bind_some]
  exact Str.splitOnce_append (fun hBlank => (decimal_not_space hBlank).1 rfl) r.reason

/-- A client reads the status, the headers and the body that the server has
written, and nothing of what is behind them. -/
theorem readResponse_bytes (h : r.Fits) (more : Bytes) (closed : Bool) :
    readResponse ⟨r.bytes ++ more, closed⟩ =
      .ok (some ⟨r.status, r.reason, headerMap r.headers, r.body⟩) := by
  have hLine := readText_line (newline_not_mem_statusLine h)
    (Str.bytes (r.headers.flatMap headerLine ++ crlf) ++ (r.body ++ more)) closed
  have hBytes : r.bytes ++ more = Str.bytes (r.statusLine ++ crlf) ++
      (Str.bytes (r.headers.flatMap headerLine ++ crlf) ++ (r.body ++ more)) := by
    rw [bytes]
    simp [Str.bytes_append]
  rw [readResponse, hBytes, hLine]
  dsimp only
  rw [statusLine_parts h]
  dsimp only
  rw [Str.number_decimal]
  dsimp only
  rw [readHeaders_block (headers_fit h), Exec.ok_bind]
  dsimp only
  have hLength := get_length h
  rw [headerMap] at hLength
  rw [hLength, Option.bind_some, decimal_trim, Str.number_decimal]
  dsimp only
  rw [if_neg (by simp), List.take_left]
  rfl

end HttpResponse

/-- A connection carries the request to the server, if its body fits the memory there, and
the response to the client as they are, whatever the server makes of the one and whatever
follows either. -/
theorem exchange_transparent (r : Sent) {memory : Nat} (hMemory : r.body.length ≤ memory)
    {answer : HttpRequest → HttpResponse} (h : (answer r.request).Fits) (more more' : Bytes)
    (closed closed' : Bool) :
    ∃ req, readRequest memory ⟨r.bytes ++ more, closed⟩ = some (.ok (some req)) ∧ req = r.request ∧
      readResponse ⟨(answer req).bytes ++ more', closed'⟩ =
        .ok (some ⟨(answer r.request).status, (answer r.request).reason,
          headerMap (answer r.request).headers, (answer r.request).body⟩) :=
  ⟨r.request, r.readRequest_bytes hMemory more closed, rfl,
    HttpResponse.readResponse_bytes h more' closed'⟩

/-- A parameter with an escaped blank in its value. -/
def reasonParam : Param where
  key := "reason".toList
  value := "a b".toList
  coded := "a%20b".toList
  key_fits := by decide
  coded_fits := by decide
  encodes := (.literal (by decide) (by decide) (.escape (by decide)
    (.literal (by decide) (by decide) .nil)) : Encodes [97, 32, 98] [97, 37, 50, 48, 98])

/-- The JSON of a domain that is to be blocked. -/
def blockEntry : Bytes := Str.bytes "\x7b\"domain\":\"ads.example\"\x7d".toList

theorem blockEntry_small : blockEntry.length < 2 ^ 63 := by decide

theorem post_fits : "POST".toList ≠ [] ∧ ∀ c ∈ "POST".toList, Unicode.whiteSpace c = false := by
  decide

/-- A request with a query, a header of its own and a body. -/
def blockRequest : Sent where
  method := "POST".toList
  path := "/api/blocked".toList
  params := some [reasonParam]
  headers := [("Host".toList, "ns.example".toList), ("Content-Length".toList, "24".toList)]
  body := blockEntry
  method_fits := post_fits
  path_fits := by decide
  headers_fit header hHeader := by
    rcases List.mem_cons.mp hHeader with rfl | hLast
    · exact ⟨by decide, by decide⟩
    · rw [List.mem_singleton.mp hLast]
      exact ⟨by decide, by decide⟩
  length := by decide
  small := blockEntry_small

/-- An answer that repeats the reason that it was given. -/
def blocked (req : HttpRequest) : HttpResponse where
  status := 200
  reason := "OK".toList
  contentType := "text/plain".toList
  body := Str.bytes ((req.query.get "reason".toList).getD [])

/-- The beginning of another request is behind it, and the memory just holds its body. -/
theorem exchange_blockRequest : ∃ req,
    readRequest 24 ⟨blockRequest.bytes ++ Str.bytes "GET /".toList, true⟩ = some (.ok (some req)) ∧
      req = blockRequest.request ∧ req.query.get "reason".toList = some "a b".toList ∧
      readResponse ⟨(blocked req).bytes ++ [], true⟩ =
        .ok (some ⟨200, "OK".toList, headerMap (blocked blockRequest.request).headers,
          Str.bytes "a b".toList⟩) := by
  have hFits : (blocked blockRequest.request).Fits :=
    ⟨by decide, by decide, fun header hHeader => by cases hHeader⟩
  obtain ⟨req, hRead, rfl, hBack⟩ := exchange_transparent blockRequest
    (by decide : blockRequest.body.length ≤ 24) hFits
    (Str.bytes "GET /".toList) [] true true
  exact ⟨_, hRead, rfl, rfl, hBack⟩

end Dnsd.Server
