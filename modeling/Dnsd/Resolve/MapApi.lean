import Dnsd.Resolve.Dualstack
import Dnsd.Rust.Json
import Dnsd.Rust.NetText
import Dnsd.Server.HttpCodec

/-! The mapping service: the client that asks it for the address behind an IPv6
client, and what the client makes of the answers of a server like this program's. -/

namespace Dnsd.Resolve

open Proto Server

/-! ## The client -/

/-- The parts of `http://host[:port]/path`; a port that is left out is 80. -/
structure Url where
  host : Str
  port : UInt16
  hostPort : Str
  path : Str

/-- The port is behind the last colon in front of the path. -/
def Url.parse (url : Str) : Option Url := do
  let rest ← url.dropPrefix? "http://".toList
  let hostPort := rest.takeWhile (· ≠ '/')
  let path := match rest.dropWhile (· ≠ '/') with
    | [] => ['/']
    | path => path
  match hostPort.reverse.span (· ≠ ':') with
  | (port, _ :: host) =>
      (Str.parseUnsigned (2 ^ 16) port.reverse).map fun port =>
        ⟨host.reverse, UInt16.ofNat port, hostPort, path⟩
  | (_, []) => some ⟨hostPort, 80, hostPort, path⟩

/-- The text that `http_get` sends: the request line, three headers and a blank line. -/
def httpRequest (u : Url) : Str :=
  "GET ".toList ++ u.path ++ " HTTP/1.1\r\nHost: ".toList ++ u.hostPort ++
    "\r\nConnection: close\r\nUser-Agent: dnsd-rs\r\n\r\n".toList

/-- `exchange` is the connection to a host and a port, with all bytes that come back
for those that are sent. The status is not looked at. -/
def httpGet (exchange : Str → UInt16 → Bytes → Option Bytes) (url : Str) : Option Str := do
  let u ← Url.parse url
  let resp ← exchange u.host u.port (httpRequest u).bytes
  let text := Str.fromUtf8Lossy resp
  let found ← (Str.fromFirst "\r\n\r\n".toList text).or (Str.fromFirst "\n\n".toList text)
  return found.trim

/-- `fromStr` is serde_json's; a body that is no JSON object with an address may be one
itself. -/
def mapViaApi (fromStr : Str → Option Json) (exchange : Str → UInt16 → Bytes → Option Bytes)
    (url : Str) (ipv6 : Ipv6Addr) : Option Ipv4Addr := do
  let body ← httpGet exchange (Str.replace "\x7bip\x7d".toList ipv6.text url)
  let body := body.trim
  let ofJson := (fromStr body).bind fun v =>
    ((v.get "ipv4").bind Json.asStr).bind fun ip => Ipv4Addr.parse ip.trim
  match ofJson with
  | some ip => some ip
  | none => Ipv4Addr.parse body

/-! ## Responses -/

/-- A response whose lines hold no carriage return of their own. -/
structure Unfolded (r : HttpResponse) : Prop where
  reason : '\r' ∉ r.reason
  contentType : '\r' ∉ r.contentType
  extra : ∀ header ∈ r.extraHeaders, '\r' ∉ header.1 ∧ '\r' ∉ header.2

/-- A line that is not empty follows. -/
theorem fromFirst_crlf {s : Str} (h : s.head? ≠ some '\r') :
    Str.fromFirst "\r\n\r\n".toList (crlf ++ s) = Str.fromFirst "\r\n\r\n".toList s := by
  have hFirst : ¬['\r', '\n', '\r', '\n'] <+: '\r' :: '\n' :: s := fun hPrefix => by
    obtain ⟨-, hPrefix⟩ := List.cons_prefix_cons.mp hPrefix
    obtain ⟨-, rest, hRest⟩ := List.cons_prefix_cons.mp hPrefix
    exact h (by rw [← hRest]; rfl)
  have hSecond : ¬['\r', '\n', '\r', '\n'] <+: '\n' :: s := fun hPrefix => by
    have hSame := (List.cons_prefix_cons.mp hPrefix).1
    exact absurd hSame (by decide)
  change Str.fromFirst ['\r', '\n', '\r', '\n'] ('\r' :: '\n' :: s) = _
  rw [Str.fromFirst, if_neg hFirst, Str.fromFirst, if_neg hSecond]
  rfl

/-- The empty line behind the headers is the first one. -/
theorem fromFirst_headers {front : Str} (hFront : '\r' ∉ front) {headers : List (Str × Str)}
    (h : ∀ header ∈ headers, '\r' ∉ header.1 ∧ '\r' ∉ header.2) (body : Str) :
    Str.fromFirst "\r\n\r\n".toList (front ++ (crlf ++ (headers.flatMap headerLine ++ (crlf ++ body)))) =
      some ("\r\n\r\n".toList ++ body) := by
  have hHead : "\r\n\r\n".toList.head? = some '\r' := rfl
  induction headers generalizing front with
  | nil =>
      rw [Str.fromFirst_append hHead hFront]
      exact Str.fromFirst_self hHead body
  | cons header headers ih =>
      obtain ⟨hName, hValue⟩ := h header List.mem_cons_self
      have hRest : ∀ header ∈ headers, '\r' ∉ header.1 ∧ '\r' ∉ header.2 :=
        fun other hOther => h other (List.mem_cons_of_mem header hOther)
      have hLine : '\r' ∉ header.1 ++ ": ".toList ++ header.2 := by simp [hName, hValue]
      have hNext := ih hLine hRest
      have hText : (header :: headers).flatMap headerLine ++ (crlf ++ body) =
          (header.1 ++ ": ".toList ++ header.2) ++
            (crlf ++ (headers.flatMap headerLine ++ (crlf ++ body))) := by
        simp [headerLine]
      rw [hText, Str.fromFirst_append hHead hFront, fromFirst_crlf, hNext]
      rw [List.append_assoc, List.append_assoc]
      cases hFirst : header.1 with
      | nil =>
          intro hHead
          cases hHead
      | cons c name =>
          intro hHead
          cases hHead
          exact hName (hFirst ▸ List.mem_cons_self)

section Responses

variable {r : HttpResponse} {text : Str}

theorem return_not_mem_statusLine (h : Unfolded r) : '\r' ∉ r.statusLine := by
  unfold HttpResponse.statusLine
  simp only [List.mem_append, List.mem_singleton, not_or]
  refine ⟨⟨⟨by decide, fun hDigit => ?_⟩, by decide⟩, h.reason⟩
  exact absurd (Str.decimal_isDigit hDigit) (by decide)

theorem return_not_mem_headers (h : Unfolded r) :
    ∀ header ∈ r.headers, '\r' ∉ header.1 ∧ '\r' ∉ header.2 := by
  intro header hHeader
  rw [HttpResponse.headers, List.mem_append] at hHeader
  rcases hHeader with hOwn | hExtra
  · simp only [List.mem_cons, List.not_mem_nil, or_false] at hOwn
    rcases hOwn with rfl | rfl | rfl
    · exact ⟨show '\r' ∉ "Content-Type".toList by decide, h.contentType⟩
    · exact ⟨show '\r' ∉ "Content-Length".toList by decide,
        fun hDigit => absurd (Str.decimal_isDigit hDigit) (by decide)⟩
    · exact ⟨by decide, by decide⟩
  · exact h.extra header hExtra

/-- A text that is sent as a body is what the client gets, without the white space
around it. -/
theorem found_response (h : Unfolded r) (hBody : r.body = Str.bytes text) :
    ((Str.fromFirst "\r\n\r\n".toList (Str.fromUtf8Lossy r.bytes)).or
      (Str.fromFirst "\n\n".toList (Str.fromUtf8Lossy r.bytes))).map Str.trim = some text.trim := by
  have hText : r.bytes = Str.bytes (r.statusLine ++ (crlf ++ (r.headers.flatMap headerLine ++
      (crlf ++ text)))) := by
    rw [HttpResponse.bytes, hBody, ← Str.bytes_append]
    simp only [List.append_assoc]
  rw [hText, Str.fromUtf8Lossy_bytes, fromFirst_headers (return_not_mem_statusLine h)
    (return_not_mem_headers h), Option.some_or, Option.map_some]
  change some (Str.trim ('\r' :: '\n' :: '\r' :: '\n' :: text)) = _
  rw [Str.trim_cons_space (by decide), Str.trim_cons_space (by decide),
    Str.trim_cons_space (by decide), Str.trim_cons_space (by decide)]

end Responses

/-! ## A service -/

/-- A service that maps the text of a client's address. It reads its requests as this
program's server does, with so much memory. -/
structure MapService where
  host : Str
  port : UInt16
  path : Str
  address : Str → Option Ipv4Addr
  asJson : Bool
  memory : Nat
  host_fits : '/' ∉ host ∧ '\x7b' ∉ host ∧ '\n' ∉ host
  path_fits : path.head? = some '/' ∧ '?' ∉ path ∧ '\x7b' ∉ path ∧
    ∀ c ∈ path, Unicode.whiteSpace c = false

namespace MapService

variable (m : MapService)

/-- The authority of the URL, which is the host and its port. -/
def hostPort : Str := m.host ++ ':' :: Str.decimal m.port.toNat

/-- What is configured as the URL of the service. -/
def url : Str :=
  "http://".toList ++ m.hostPort ++ m.path ++ "?ip=".toList ++ "\x7bip\x7d".toList

/-- An answer of the service in JSON, with the address as a text. -/
def jsonText (ip : Ipv4Addr) : Str := "\x7b\"ipv4\":\"".toList ++ ip.text ++ "\"\x7d".toList

/-- The body of the answer, in the form that the service has chosen. -/
def bodyText (found : Option Ipv4Addr) : Str :=
  match found with
  | some ip => if m.asJson then jsonText ip else ip.text
  | none => "not found".toList

/-- The response of the service, which is a 404 where it knows no address. -/
def response (found : Option Ipv4Addr) : HttpResponse where
  status := if found.isSome then 200 else 404
  reason := if found.isSome then "OK".toList else "Not Found".toList
  contentType := if m.asJson then "application/json".toList else "text/plain".toList
  body := Str.bytes (m.bodyText found)

/-- What the service makes of a request: it reads the address from the query. -/
def reply (req : HttpRequest) : HttpResponse :=
  m.response ((HashMap.get req.query "ip".toList).bind m.address)

/-- The connection to the service: it reads one request and writes one response. -/
def exchange (host : Str) (port : UInt16) (sent : Bytes) : Option Bytes :=
  if host = m.host ∧ port = m.port then
    match readRequest m.memory ⟨sent, false⟩ with
    | some (.ok (some req)) => some (m.reply req).bytes
    | _ => none
  else none

end MapService

/-- What serde_json makes of the bodies of a service. -/
structure ReadsBodies (fromStr : Str → Option Json) : Prop where
  json : ∀ ip : Ipv4Addr,
    fromStr (MapService.jsonText ip) = some (.object [("ipv4".toList, .string ip.text)])
  address : ∀ ip : Ipv4Addr, fromStr ip.text = none
  refusal : fromStr "not found".toList = none

namespace MapService

variable (m : MapService) (ipv6 : Ipv6Addr)

theorem plainChar_ipv6 {c : Char} (h : c ∈ ipv6.text) : PlainChar c := by
  rcases ipv6.text_chars h with hLetter | rfl | rfl
  · exact plainChar_alphanum hLetter
  · decide
  · decide

/-- The address as a parameter of the request. -/
def param : Param where
  key := "ip".toList
  value := ipv6.text
  coded := ipv6.text
  key_fits := by decide
  coded_fits := ⟨fun hc => (plainChar_ipv6 ipv6 hc).2.2.2.1 rfl,
    fun _ hc => (plainChar_ipv6 ipv6 hc).2.2.2.2⟩
  encodes := encodes_self fun _ hc => plainChar_ipv6 ipv6 hc

theorem newline_not_mem_hostPort : '\n' ∉ m.hostPort := by
  rw [hostPort, List.mem_append, List.mem_cons, not_or, not_or]
  refine ⟨m.host_fits.2.2, by decide, fun hDigit => ?_⟩
  exact absurd (Str.decimal_isDigit hDigit) (by decide)

/-- What the client sends, as a server reads it. -/
def sent : Sent where
  method := "GET".toList
  path := m.path
  params := some [param ipv6]
  headers := [("Host".toList, m.hostPort), ("Connection".toList, "close".toList),
    ("User-Agent".toList, "dnsd-rs".toList)]
  body := []
  method_fits := get_fits
  path_fits := by
    refine ⟨fun hNil => ?_, m.path_fits.2.1, m.path_fits.2.2.2⟩
    have hHead := m.path_fits.1
    rw [hNil] at hHead
    cases hHead
  headers_fit header hHeader := by
    simp only [List.mem_cons, List.not_mem_nil, or_false] at hHeader
    rcases hHeader with rfl | rfl | rfl
    · exact ⟨show ':' ∉ "Host".toList ∧ '\n' ∉ "Host".toList by decide, m.newline_not_mem_hostPort⟩
    · exact ⟨by decide, by decide⟩
    · exact ⟨by decide, by decide⟩
  length := rfl
  small := nil_small

/-- Path and query that the program asks for. -/
def target : Str := m.path ++ "?ip=".toList ++ ipv6.text

theorem replace_url :
    Str.replace "\x7bip\x7d".toList ipv6.text m.url =
      "http://".toList ++ (m.hostPort ++ m.target ipv6) := by
  have hFront : '\x7b' ∉ "http://".toList ++ m.hostPort ++ m.path ++ "?ip=".toList := by
    simp only [List.mem_append, hostPort, List.mem_cons, not_or]
    refine ⟨⟨⟨by decide, m.host_fits.2.1, by decide, fun hDigit => ?_⟩, m.path_fits.2.2.1⟩, by decide⟩
    exact absurd (Str.decimal_isDigit hDigit) (by decide)
  have hHead : "\x7bip\x7d".toList.head? = some '\x7b' := by decide
  have hPlace : Str.replace "\x7bip\x7d".toList ipv6.text m.url =
      "http://".toList ++ m.hostPort ++ m.path ++ "?ip=".toList ++
        Str.replace "\x7bip\x7d".toList ipv6.text "\x7bip\x7d".toList :=
    Str.replace_append hHead hFront ipv6.text _
  have hParts (a b c d e : Str) : a ++ b ++ c ++ d ++ e = a ++ (b ++ (c ++ d ++ e)) := by
    simp only [List.append_assoc]
  rw [Str.replace_pattern hHead] at hPlace
  exact hPlace.trans (hParts _ _ _ _ _)

theorem parse_url {target : Str} (hTarget : target.head? = some '/') :
    Url.parse ("http://".toList ++ (m.hostPort ++ target)) =
      some ⟨m.host, m.port, m.hostPort, target⟩ := by
  have hSlash : ∀ c ∈ m.hostPort, decide (c ≠ '/') = true := by
    intro c hc
    refine decide_eq_true ?_
    rintro rfl
    rw [hostPort, List.mem_append, List.mem_cons] at hc
    rcases hc with hHost | hColon | hDigit
    · exact m.host_fits.1 hHost
    · cases hColon
    · exact absurd (Str.decimal_isDigit hDigit) (by decide)
  have hColon : ∀ c ∈ (Str.decimal m.port.toNat).reverse, decide (c ≠ ':') = true := by
    intro c hc
    refine decide_eq_true ?_
    rintro rfl
    exact absurd (Str.decimal_isDigit (List.mem_reverse.mp hc)) (by decide)
  obtain ⟨rest, rfl⟩ : ∃ rest, target = '/' :: rest := by
    cases target with
    | nil => cases hTarget
    | cons c rest =>
        cases hTarget
        exact ⟨rest, rfl⟩
  have hReverse : m.hostPort.reverse =
      (Str.decimal m.port.toNat).reverse ++ ':' :: m.host.reverse := by
    simp [hostPort]
  have hDrop : ("http://".toList ++ (m.hostPort ++ '/' :: rest)).dropPrefix? "http://".toList =
      some (m.hostPort ++ '/' :: rest) :=
    List.dropPrefix?_eq_some_iff.mpr ⟨_, rfl, by decide⟩
  rw [Url.parse, hDrop]
  simp only [Option.bind_eq_bind, Option.bind_some]
  rw [List.takeWhile_append_of_pos hSlash, List.dropWhile_append_of_pos hSlash,
    List.takeWhile_cons_of_neg (by simp), List.dropWhile_cons_of_neg (by simp), List.append_nil,
    hReverse, List.span_eq_takeWhile_dropWhile, List.takeWhile_append_of_pos hColon,
    List.dropWhile_append_of_pos hColon, List.takeWhile_cons_of_neg (by simp),
    List.dropWhile_cons_of_neg (by simp), List.append_nil]
  dsimp only
  rw [List.reverse_reverse, List.reverse_reverse, Str.parseUnsigned_decimal m.port.toNat_lt,
    Option.map_some, UInt16.ofNat_toNat]

/-- The lines behind the path, and what a server takes them for. -/
theorem httpRequest_lines (target hostPort : Str) :
    httpRequest ⟨m.host, m.port, hostPort, target⟩ =
      ("GET".toList ++ ' ' :: target ++ " HTTP/1.1".toList ++ crlf) ++
        ([("Host".toList, hostPort), ("Connection".toList, "close".toList),
          ("User-Agent".toList, "dnsd-rs".toList)].flatMap headerLine ++ crlf) := by
  have hGet : "GET ".toList = "GET".toList ++ [' '] := by decide
  have hHost : " HTTP/1.1\r\nHost: ".toList =
      " HTTP/1.1".toList ++ (crlf ++ ("Host".toList ++ ": ".toList)) := by decide
  have hEnd : "\r\nConnection: close\r\nUser-Agent: dnsd-rs\r\n\r\n".toList =
      crlf ++ ([("Connection".toList, "close".toList), ("User-Agent".toList, "dnsd-rs".toList)].flatMap
        headerLine ++ crlf) := by decide
  have hSame {a a' b b' c c' : Str} (hA : a = a') (hB : b = b') (hC : c = c') :
      a ++ target ++ b ++ hostPort ++ c = a' ++ target ++ b' ++ hostPort ++ c' := by
    rw [hA, hB, hC]
  have hMoved (get version host colon line rest : Str) :
      get ++ [' '] ++ target ++ (version ++ (line ++ (host ++ colon))) ++ hostPort ++ (line ++ rest) =
        (get ++ ' ' :: target ++ version ++ line) ++ (host ++ colon ++ hostPort ++ line ++ rest) := by
    simp only [List.append_assoc, List.cons_append, List.nil_append]
  refine (hSame hGet hHost hEnd).trans ((hMoved _ _ _ _ _ _).trans (congrArg _ ?_))
  exact (List.append_assoc (headerLine ("Host".toList, hostPort)) _ _).symm

theorem sent_target : (m.sent ipv6).target = m.target ipv6 := by
  have hMark : "?ip=".toList = '?' :: ("ip".toList ++ ['=']) := by decide
  have hText (name : Str) : name ++ '=' :: ipv6.text = name ++ ['='] ++ ipv6.text := by
    rw [List.append_assoc, List.singleton_append]
  calc
    (m.sent ipv6).target = m.path ++ '?' :: (param ipv6).text :=
      congrArg (fun query => m.path ++ '?' :: query) List.intercalate_singleton
    _ = m.path ++ ('?' :: ("ip".toList ++ ['=']) ++ ipv6.text) :=
      congrArg (fun query => m.path ++ '?' :: query) (hText _)
    _ = m.path ++ ("?ip=".toList ++ ipv6.text) := by rw [← hMark]
    _ = m.target ipv6 := (List.append_assoc _ _ _).symm

theorem httpRequest_eq :
    (httpRequest ⟨m.host, m.port, m.hostPort, m.target ipv6⟩).bytes = (m.sent ipv6).bytes := by
  have hLine : (m.sent ipv6).requestLine = "GET".toList ++ ' ' :: m.target ipv6 ++ " HTTP/1.1".toList := by
    rw [← sent_target]
    rfl
  have hBytes : (m.sent ipv6).bytes = Str.bytes ((m.sent ipv6).requestLine ++ crlf) ++
      (Str.bytes ((m.sent ipv6).headers.flatMap headerLine ++ crlf) ++ []) := rfl
  rw [httpRequest_lines, Str.bytes_append, hBytes, hLine, List.append_nil]
  rfl

theorem exchange_sent :
    m.exchange m.host m.port (m.sent ipv6).bytes = some (m.response (m.address ipv6.text)).bytes := by
  have hRead := (m.sent ipv6).readRequest_bytes (Nat.zero_le m.memory) [] false
  rw [List.append_nil] at hRead
  have hGet : HashMap.get (m.sent ipv6).request.query "ip".toList = some ipv6.text :=
    HashMap.get_insert_self ∅ "ip".toList ipv6.text
  rw [exchange, if_pos ⟨rfl, rfl⟩, hRead]
  dsimp only
  rw [reply, hGet, Option.bind_some]

theorem unfolded_response (found : Option Ipv4Addr) : Unfolded (m.response found) where
  reason := by
    dsimp only [response]
    split_ifs <;> decide
  contentType := by
    dsimp only [response]
    split_ifs <;> decide
  extra header hHeader := by cases hHeader

theorem ipv4_text_trim (ip : Ipv4Addr) : ip.text.trim = ip.text := by
  have hPlain {c : Char} (hc : c ∈ ip.text) : Unicode.whiteSpace c = false := by
    rcases ip.text_chars hc with hDigit | rfl
    · have hLetter : c.isAlphanum = true := by rw [Char.isAlphanum, hDigit, Bool.or_true]
      exact (plainChar_alphanum hLetter).2.2.2.2
    · decide
  exact Str.trim_of_ends (fun c hc => hPlain (List.mem_of_mem_head? hc))
    (fun c hc => hPlain (List.mem_of_mem_getLast? hc))

theorem jsonText_trim (ip : Ipv4Addr) : (jsonText ip).trim = jsonText ip := by
  refine Str.trim_of_ends (fun c hc => ?_) (fun c hc => ?_)
  · cases hc
    decide
  · have hEnd (front : Str) : (front ++ ['"', '\x7d']).getLast? = some '\x7d' := by simp
    have hLast : (jsonText ip).getLast? = some '\x7d' := hEnd _
    rw [hLast] at hc
    cases hc
    decide

theorem bodyText_trim (found : Option Ipv4Addr) : (m.bodyText found).trim = m.bodyText found := by
  have hRefusal : Str.trim "not found".toList = "not found".toList := by decide
  cases found with
  | none => exact hRefusal
  | some ip =>
      cases hJson : m.asJson with
      | true =>
          have hBody : m.bodyText (some ip) = jsonText ip := if_pos hJson
          rw [hBody, jsonText_trim]
      | false =>
          have hBody : m.bodyText (some ip) = ip.text := if_neg (by simp [hJson])
          rw [hBody, ipv4_text_trim]

theorem httpGet_service :
    httpGet m.exchange (Str.replace "\x7bip\x7d".toList ipv6.text m.url) =
      some (m.bodyText (m.address ipv6.text)) := by
  have hTarget : (m.target ipv6).head? = some '/' := by
    rw [target, List.append_assoc, List.head?_append, m.path_fits.1, Option.some_or]
  have hFound := found_response (m.unfolded_response (m.address ipv6.text)) rfl
  rw [bodyText_trim] at hFound
  rw [httpGet, replace_url, m.parse_url hTarget]
  simp only [Option.bind_eq_bind, Option.bind_some]
  rw [httpRequest_eq, exchange_sent]
  simp only [Option.bind_some]
  rw [← hFound, Option.map_eq_bind]
  rfl

end MapService

/-- What a service says is what the client gets, whichever of the two forms it says it in. -/
theorem mapViaApi_service {fromStr : Str → Option Json} (h : ReadsBodies fromStr) (m : MapService)
    (ipv6 : Ipv6Addr) : mapViaApi fromStr m.exchange m.url ipv6 = m.address ipv6.text := by
  rw [mapViaApi, m.httpGet_service]
  simp only [Option.bind_eq_bind, Option.bind_some]
  rw [m.bodyText_trim]
  cases m.address ipv6.text with
  | none =>
      have hBody : fromStr (m.bodyText none) = none := h.refusal
      have hParse : Ipv4Addr.parse (m.bodyText none) = none :=
        show Ipv4Addr.parse "not found".toList = none by decide
      rw [hBody, Option.bind_none, hParse]
  | some ip =>
      cases hJson : m.asJson with
      | true =>
          have hBody : m.bodyText (some ip) = MapService.jsonText ip := if_pos hJson
          have hGet : ((Json.object [("ipv4".toList, .string ip.text)]).get "ipv4").bind Json.asStr =
              some ip.text := rfl
          rw [hBody, h.json, Option.bind_some, hGet, Option.bind_some, MapService.ipv4_text_trim,
            ip.parse_text]
      | false =>
          have hBody : m.bodyText (some ip) = ip.text := if_neg (by simp [hJson])
          rw [hBody, h.address, Option.bind_none]
          exact ip.parse_text

/-! ## Derivation -/

section Derivation

variable (d : Dualstack) (cfg : Config)

/-- Only what the configured service answers counts. -/
theorem mapToIpv4_congr {f g : Str → Ipv6Addr → Option Ipv4Addr} {url : Str} {ipv6 : Ipv6Addr}
    (hUrl : cfg.mapApiUrl = some url) (h : f url ipv6 = g url ipv6) :
    d.mapToIpv4 cfg f ipv6 = d.mapToIpv4 cfg g ipv6 := by
  rw [Dualstack.mapToIpv4, Dualstack.mapToIpv4, hUrl]
  dsimp only
  rw [h]

/-- What is derived through the service's HTTP is what its map alone would give. -/
theorem deriveEcs_service {fromStr : Str → Option Json} (h : ReadsBodies fromStr) (m : MapService)
    (hUrl : cfg.mapApiUrl = some m.url) (ipv6 : Ipv6Addr) :
    d.deriveEcs cfg (mapViaApi fromStr m.exchange) ipv6 =
      d.deriveEcs cfg (fun _ client => m.address client.text) ipv6 := by
  have hMap : d.mapToIpv4 cfg (mapViaApi fromStr m.exchange) ipv6 =
      d.mapToIpv4 cfg (fun _ client => m.address client.text) ipv6 :=
    mapToIpv4_congr d cfg hUrl (mapViaApi_service h m ipv6)
  have hVerified : d.verified cfg (mapViaApi fromStr m.exchange) ipv6 =
      d.verified cfg (fun _ client => m.address client.text) ipv6 := by
    rw [Dualstack.verified, Dualstack.verified, hMap]
  rw [Dualstack.deriveEcs, Dualstack.deriveEcs, hVerified]

end Derivation

/-! ### One service -/

/-- A service that answers in JSON and knows the address of one client. -/
def labService : MapService where
  host := "10.0.0.5".toList
  port := 8080
  path := "/map".toList
  address text := if text = "2001:db8::1".toList then some ⟨198, 51, 100, 7⟩ else none
  asJson := true
  memory := 65536
  host_fits := by decide
  path_fits := by decide

/-- Reads the one kind of object that the service sends. -/
def labFromStr (s : Str) : Option Json :=
  (s.dropPrefix? "\x7b\"ipv4\":\"".toList).map fun rest =>
    .object [("ipv4".toList, .string (rest.takeWhile (· ≠ '"')))]

theorem labFromStr_reads : ReadsBodies labFromStr where
  json ip := by
    have hDigits : ∀ c ∈ ip.text, decide (c ≠ '"') = true := by
      intro c hc
      refine decide_eq_true ?_
      rintro rfl
      rcases ip.text_chars hc with hDigit | hDot
      · exact absurd hDigit (by decide)
      · exact absurd hDot (by decide)
    have hValue : (ip.text ++ ['"', '\x7d']).takeWhile (· ≠ '"') = ip.text := by
      rw [List.takeWhile_append_of_pos hDigits, List.takeWhile_cons_of_neg (by simp),
        List.append_nil]
    have hDrop : (MapService.jsonText ip).dropPrefix? "\x7b\"ipv4\":\"".toList =
        some (ip.text ++ ['"', '\x7d']) :=
      (congrArg (List.dropPrefix? · _) (List.append_assoc _ _ _)).trans
        (List.dropPrefix?_append_of_beq _ (by decide))
    rw [labFromStr, hDrop, Option.map_some, hValue]
  address ip := by
    have hDrop : ip.text.dropPrefix? "\x7b\"ipv4\":\"".toList = none := by
      refine Option.eq_none_iff_forall_ne_some.mpr fun rest hRest => ?_
      obtain ⟨front, hText, hFront⟩ := List.dropPrefix?_eq_some_iff.mp hRest
      have hBrace : '\x7b' ∈ ip.text := by
        rw [hText, eq_of_beq hFront]
        exact List.mem_append_left rest (by decide)
      rcases ip.text_chars hBrace with hDigit | hDot
      · exact absurd hDigit (by decide)
      · exact absurd hDot (by decide)
    rw [labFromStr, hDrop, Option.map_none]
  refusal := by decide

theorem deriveEcs_labService :
    ({} : Dualstack).deriveEcs { mapApiUrl := some labService.url, ecsDeriveMask := 24 }
        (mapViaApi labFromStr labService.exchange)
        ⟨[0x20, 0x01, 0x0d, 0xb8] ++ List.replicate 11 0 ++ [1], rfl⟩ =
      some ⟨1, 24, 0, some (.v4 ⟨198, 51, 100, 0⟩)⟩ :=
  (deriveEcs_service {} { mapApiUrl := some labService.url, ecsDeriveMask := 24 }
    labFromStr_reads labService rfl _).trans (by decide +kernel)

end Dnsd.Resolve
