import Dnsd.Server.HttpCodec
import Dnsd.Server.Tcp
import Dnsd.Server.Udp

/-! DNS over HTTPS: a query in a request, a reply in a response; and what the three
listeners have in common. -/

namespace Dnsd.Server

open Cache.Resp (Arrival)
open Resolve

/-- The query that a request carries; `decode` is the engine of the base64 crate. -/
def dnsBytes (decode : Str → Option Bytes) (req : HttpRequest) : Option Bytes :=
  if req.method = "GET".toList then (req.query.get "dns".toList).bind decode
  else if req.method = "POST".toList then some req.body
  else none

/-- The response that carries a reply. It is never to be cached. -/
def dohAnswer (reply : Bytes) : HttpResponse where
  status := 200
  reason := "OK".toList
  contentType := "application/dns-message".toList
  body := reply
  extraHeaders := [("Cache-Control".toList, "max-age=0".toList)]

/-- The response to a request without a query. -/
def dohRefusal : HttpResponse where
  status := 400
  reason := "Bad Request".toList
  contentType := "text/plain".toList
  body := Str.bytes "bad request".toList

/-- `handle_doh`, with what it writes: nothing when there is no request, and when it
unwinds. There is no state behind it when the read of the body ends the process. -/
def handleDoh (decode : Str → Option Bytes) (p : Pipeline) (client : IpAddr) (memory : Nat)
    (a : Arrival) (u : Surroundings) : Option (Pipeline × Option Bytes) :=
  match readRequest memory a with
  | none => none
  | some (.ok (some req)) =>
      match dnsBytes decode req with
      | some query =>
          match p.handle query client "doh" u with
          | some (.ok (p, reply)) => some (p, some (dohAnswer reply).bytes)
          | some _ => some (p, none)
          | none => none
      | none => some (p, some dohRefusal.bytes)
  | some _ => some (p, none)

/-- What is written is a response with this status and this body, whatever follows. -/
def Carries (out : Bytes) (status : Nat) (body : Bytes) : Prop :=
  ∀ more closed, ∃ received, readResponse ⟨out ++ more, closed⟩ = .ok (some received) ∧
    received.status = status ∧ received.body = body

theorem HttpResponse.Fits.carries {r : HttpResponse} (h : r.Fits) :
    Carries r.bytes r.status r.body := fun more closed =>
  ⟨_, HttpResponse.readResponse_bytes h more closed, rfl, rfl⟩

theorem dohAnswer_fits (reply : Bytes) : (dohAnswer reply).Fits where
  reason := show '\n' ∉ "OK".toList ∧ "OK".toList ≠ [] ∧ Str.trimEnd "OK".toList = "OK".toList by
    decide
  contentType := show '\n' ∉ "application/dns-message".toList by decide
  extra header hHeader := by
    rw [List.mem_singleton.mp hHeader]
    exact ⟨⟨by decide, by decide⟩, by decide⟩

theorem dohRefusal_fits : dohRefusal.Fits where
  reason := by decide
  contentType := by decide
  extra header hHeader := by cases hHeader

section Exchange

variable {decode : Str → Option Bytes} {p : Pipeline} {client : IpAddr} {u : Surroundings}

/-- What becomes of a request. -/
def Answered (decode : Str → Option Bytes) (p : Pipeline) (client : IpAddr) (u : Surroundings)
    (req : HttpRequest) (outcome : Option (Pipeline × Option Bytes)) : Prop :=
  match dnsBytes decode req with
  | none => ∃ out, outcome = some (p, some out) ∧ Carries out 400 (Str.bytes "bad request".toList)
  | some query =>
      match p.handle query client "doh" u with
      | some (.ok (p', reply)) => ∃ out, outcome = some (p', some out) ∧ Carries out 200 reply
      | some _ => outcome = some (p, none)
      | none => outcome = none

theorem handleDoh_request {memory : Nat} {a : Arrival} {req : HttpRequest}
    (h : readRequest memory a = some (.ok (some req))) :
    Answered decode p client u req (handleDoh decode p client memory a u) := by
  rw [Answered, handleDoh, h]
  dsimp only
  cases dnsBytes decode req with
  | none => exact ⟨_, rfl, dohRefusal_fits.carries⟩
  | some query =>
      dsimp only
      rcases p.handle query client "doh" u with _ | ⟨p', reply⟩ | e | _
      · rfl
      · exact ⟨_, rfl, (dohAnswer_fits reply).carries⟩
      · rfl
      · rfl

end Exchange

/-! ## Two ways to send a query -/

/-- The alphabet of base64 for URLs, without padding. -/
def UrlSafe (text : Str) : Prop := ∀ c ∈ text, c.isAlphanum = true ∨ c = '-' ∨ c = '_'

instance (text : Str) : Decidable (UrlSafe text) := List.decidableBAll _ text

theorem UrlSafe.plain {text : Str} (h : UrlSafe text) {c : Char} (hc : c ∈ text) : PlainChar c := by
  rcases h c hc with hLetter | rfl | rfl
  · exact plainChar_alphanum hLetter
  · decide
  · decide

theorem UrlSafe.encodes {text : Str} (h : UrlSafe text) : Encodes text.bytes text.bytes :=
  encodes_self fun _ hc => h.plain hc

/-- A path that a request line can hold. -/
def IsPath (path : Str) : Prop :=
  path ≠ [] ∧ '?' ∉ path ∧ ∀ c ∈ path, Unicode.whiteSpace c = false

instance (path : Str) : Decidable (IsPath path) := inferInstanceAs (Decidable (_ ∧ _ ∧ _))

/-- A query as the body of a request. -/
def postRequest (path : Str) (hPath : IsPath path) (query : Bytes) (hSmall : query.length < 2 ^ 63) :
    Sent where
  method := "POST".toList
  path := path
  params := none
  headers := [("Content-Length".toList, Str.decimal query.length)]
  body := query
  method_fits := by decide
  path_fits := hPath
  headers_fit header hHeader := by
    rw [List.mem_singleton.mp hHeader]
    exact ⟨show ':' ∉ "Content-Length".toList ∧ '\n' ∉ "Content-Length".toList by decide,
      fun hDigit => (HttpResponse.decimal_not_space hDigit).2 rfl⟩
  length := by
    have hGet : (headerMap [("Content-Length".toList, Str.decimal query.length)]).get
        "content-length".toList = some (Str.decimal query.length).trim := rfl
    rw [contentLen, hGet, Option.bind_some, HttpResponse.decimal_trim,
      Str.parseUnsigned_decimal (by omega), Option.getD_some]
  small := hSmall

/-- A query as a parameter of a request, in an encoding that needs no escapes. -/
def getRequest (path : Str) (hPath : IsPath path) (text : Str) (hText : UrlSafe text) : Sent where
  method := "GET".toList
  path := path
  params := some [⟨"dns".toList, text, text, by decide,
    ⟨fun hMem => (hText.plain hMem).2.2.2.1 rfl, fun _ hc => (hText.plain hc).2.2.2.2⟩,
    hText.encodes⟩]
  headers := []
  body := []
  method_fits := get_fits
  path_fits := hPath
  headers_fit := by simp
  length := rfl
  small := nil_small

theorem dnsBytes_postRequest (decode : Str → Option Bytes) {path : Str} (hPath : IsPath path)
    {query : Bytes} (hSmall : query.length < 2 ^ 63) :
    dnsBytes decode (postRequest path hPath query hSmall).request = some query := rfl

theorem dnsBytes_getRequest (decode : Str → Option Bytes) {path : Str} (hPath : IsPath path)
    {text : Str} (hText : UrlSafe text) :
    dnsBytes decode (getRequest path hPath text hText).request = decode text := rfl

/-! ## The listeners -/

/-- The listener is only written down. -/
theorem handle_via (p : Pipeline) (raw : Bytes) (client : IpAddr) (via via' : String)
    (u : Surroundings) : p.handle raw client via u = p.handle raw client via' u := by
  rw [Pipeline.handle, Pipeline.handle, Resolve.handle, Resolve.handle, Option.map_map,
    Option.map_map]
  congr 1
  funext outcome
  cases outcome <;> rfl

/-- A datagram, a frame on a connection and a request of either kind get the same
reply to the same query, and leave the same pipeline behind. -/
theorem listeners_agree {decode : Str → Option Bytes} {p p' : Pipeline} {client : IpAddr}
    {u : Surroundings} {query reply : Bytes} (hQuery : query.length ≤ 4096)
    (hHandle : p.handle query client "udp" u = some (.ok (p', reply))) (hReply : reply ≠ [])
    (hFrame : reply.length ≤ 65535) {path : Str} (hPath : IsPath path) {memory : Nat}
    (hMemory : query.length ≤ memory) :
    serveUdp p client query u = some (p', some reply) ∧
      (∀ (c : Conn) input, c.alive = true → c.input = Frames.frame wordField query ++ input →
        ∃ c', c.turn client { pipeline := p, around := u } = some (p', c') ∧ c'.input = input ∧
          c'.output = c.output ++ Frames.frame wordField reply ∧
          ∀ more, Frames.split wordField (Frames.frame wordField reply ++ more) =
            some (reply, more)) ∧
      (∀ hSmall closed, ∃ out,
        handleDoh decode p client memory ⟨(postRequest path hPath query hSmall).bytes, closed⟩ u =
          some (p', some out) ∧ Carries out 200 reply) ∧
      ∀ text (hText : UrlSafe text) closed, decode text = some query → ∃ out,
        handleDoh decode p client memory ⟨(getRequest path hPath text hText).bytes, closed⟩ u =
          some (p', some out) ∧ Carries out 200 reply := by
  have hDoh (r : Sent) (closed : Bool) (hBytes : dnsBytes decode r.request = some query)
      (hBody : r.body.length ≤ memory) :
      ∃ out, handleDoh decode p client memory ⟨r.bytes, closed⟩ u = some (p', some out) ∧
        Carries out 200 reply := by
    have hRead := r.readRequest_bytes hBody [] closed
    rw [List.append_nil] at hRead
    have hAnswered : Answered decode p client u r.request
        (handleDoh decode p client memory ⟨r.bytes, closed⟩ u) := handleDoh_request hRead
    rw [Answered, hBytes] at hAnswered
    dsimp only at hAnswered
    rw [handle_via p query client "doh" "udp", hHandle] at hAnswered
    exact hAnswered
  refine ⟨?_, fun c input hAlive hInput => ?_, fun hSmall closed => ?_,
    fun text hText closed hDecode => ?_⟩
  · rw [serveUdp, received, List.take_of_length_le hQuery, hHandle]
  · have hSplit : Frames.split wordField c.input = some (query, input) := by
      rw [hInput]
      exact Frames.split_frame_of_lt (Nat.lt_of_le_of_lt hQuery (by decide)) input
    refine ⟨c.send input reply none, ?_, rfl, rfl, fun more => ?_⟩
    · rw [Conn.turn, if_pos hAlive, hSplit]
      dsimp only
      rw [handle_via p query client "tcp" "udp", hHandle]
      dsimp only
      rw [if_neg hReply]
    · exact Frames.split_frame_of_lt (Nat.lt_succ_of_le hFrame) more
  · exact hDoh _ closed (dnsBytes_postRequest decode hPath hSmall) hMemory
  · exact hDoh _ closed ((dnsBytes_getRequest decode hPath hText).trans hDecode) (Nat.zero_le _)

/-- The query for the TXT records of the zone, in base64. -/
def txtText : Str := "AAcBAAABAAAAAAAAA2xhYgdleGFtcGxlAAAQAAE".toList

/-- An engine that decodes this one text. -/
def txtDecode (text : Str) : Option Bytes := if text = txtText then some Conn.txtQuery else none

/-- The id and the question of the query, with the code for REFUSED. -/
def refusedReply : Bytes := [0, 7, 0x81, 0x85] ++ Conn.txtQuery.drop 4

theorem listeners_agree_refused : ∃ p' out c',
    serveUdp (Conn.txtTurn 0).pipeline Conn.lab Conn.txtQuery Link.refusing =
      some (p', some refusedReply) ∧
    Conn.turn Conn.lab { input := Frames.frame wordField Conn.txtQuery }
        { pipeline := (Conn.txtTurn 0).pipeline, around := Link.refusing } = some (p', c') ∧
    handleDoh txtDecode (Conn.txtTurn 0).pipeline Conn.lab 4096
      ⟨(getRequest "/dns-query".toList (by decide) txtText (by decide)).bytes, false⟩ Link.refusing =
        some (p', some out) ∧
    Carries out 200 refusedReply := by
  have hReply : ((Conn.txtTurn 0).pipeline.handle Conn.txtQuery Conn.lab "udp" Link.refusing).map
      (fun outcome => outcome.toOption.map Prod.snd) = some (some refusedReply) := by
    decide +kernel
  obtain ⟨outcome, hHandle, hOutcome⟩ := Option.map_eq_some_iff.mp hReply
  obtain ⟨⟨p', reply⟩, hOk, rfl⟩ := Option.map_eq_some_iff.mp hOutcome
  cases outcome with
  | ok processed =>
      cases hOk
      have hPath : IsPath "/dns-query".toList := by decide
      obtain ⟨hUdp, hTcp, -, hGet⟩ := @listeners_agree txtDecode _ _ _ _ _ _ (by decide) hHandle
        (by decide) (by decide) _ hPath 4096 (by decide)
      obtain ⟨c', hTurn, -⟩ := hTcp { input := Frames.frame wordField Conn.txtQuery } [] rfl
        (List.append_nil _).symm
      obtain ⟨out, hDoh, hCarries⟩ := hGet txtText (by decide) false rfl
      exact ⟨p', out, c', hUdp, hTurn, hDoh, hCarries⟩
  | err e => cases hOk
  | panicked => cases hOk

end Dnsd.Server
