import Dnsd.Api.Reload
import Dnsd.Rust.Json
import Dnsd.Server.Http
import Dnsd.Store.Audit

/-! The routes of the management API: what a request asks for, the record that it
leaves in the audit log, and the answers. -/

namespace Dnsd.Api

open Resolve Server Store

/-! ## Bodies -/

/-- The functions of serde_json: a body as a value, rows as a text. -/
structure Serde where
  fromSlice : Bytes → Option Json
  zones : List Zone → Str
  blocked : List BlockedDomain → Str

section Bodies

variable (fromSlice : Bytes → Option Json) (body : Bytes)

/-- `parse_json_field`: the text of one field of a JSON object. -/
def parseJsonField (field : String) : Option Str := do
  let v ← fromSlice body
  (← v.get field).asStr

/-- Larger numbers are cut to the width of their field. -/
def parseRecord : Option ZoneRecord := do
  let v ← fromSlice body
  let text (field : String) : Option Str := (v.get field).bind Json.asStr
  let number (field : String) (default : UInt64) : UInt64 :=
    ((v.get field).bind Json.asU64).getD default
  return {
    zoneId := ← text "zone_id"
    name := ← text "name"
    rtype := String.ofList (← text "rtype")
    value := ← text "value"
    ttl := (number "ttl" 300).toUInt32
    priority := (number "priority" 0).toUInt16 }

end Bodies

/-! ## Answers -/

/-- An answer of the management interface, which sets no header of its own. -/
def answer (status : Nat) (reason contentType : String) (body : Str) : HttpResponse where
  status := status
  reason := reason.toList
  contentType := contentType.toList
  body := Str.bytes body

/-- An answer with a JSON text as its body. -/
def json (body : Str) : HttpResponse := answer 200 "OK" "application/json" body

/-- An answer that carries an error, as an object with this one field. -/
def errorAnswer (status : Nat) (reason : String) (error : Str) : HttpResponse :=
  answer status reason "application/json" ("\x7b\"error\":\"".toList ++ error ++ "\"\x7d".toList)

/-- The answer for a path that no route has. -/
def notFound : HttpResponse := errorAnswer 404 "Not Found" "not found".toList

def badRequest (error : String) : HttpResponse := errorAnswer 400 "Bad Request" error.toList

/-- The answer when the statement, the reload or the audit record has failed. -/
def internalError (error : String) : HttpResponse := errorAnswer 500 "Internal Error" error.toList

/-- The answer of all requests that end in `reload_all`. -/
def done : HttpResponse := json "\x7b\"ok\":true\x7d".toList

/-! ## Requests -/

/-- What a request wants changed, with the texts that it gives for it. -/
inductive Change where
  | reload
  | createZone (name : Str)
  | createRecord (zr : ZoneRecord)
  | block (domain mode : Str)
  | unblock (domain : Str)

/-- What `record` is called with besides the time; the actor is always `api`. -/
structure AuditCall where
  action : Str
  target : Str
  detail : Str
  clientIp : Str
deriving DecidableEq

namespace AuditCall

/-- Who the audit log names for every change: the interface knows no users. -/
def actor : Str := "api".toList

/-- The entry of the audit log for a call at some time. -/
def entry (c : AuditCall) (tsMs : Int) : Entry :=
  ⟨tsMs, actor, c.action, c.target, c.detail, c.clientIp⟩

/-- The call that a row of the log comes from, by its fields. -/
def ofRow (row : AuditRow) : AuditCall := ⟨row.action, row.target, row.detail, row.clientIp⟩

end AuditCall

namespace Change

/-- The operation, the target and the detail under which the change is recorded. -/
def call (client : IpAddr) : Change → AuditCall
  | .reload => ⟨"reload".toList, "policy".toList, "{}".toList, client.text⟩
  | .createZone name => ⟨"zone.create".toList, name, "{}".toList, client.text⟩
  | .createRecord zr => ⟨"record.create".toList, zr.name, "{}".toList, client.text⟩
  | .block domain mode =>
      ⟨"block.add".toList, domain, "\x7b\"mode\":\"".toList ++ mode ++ "\"\x7d".toList, client.text⟩
  | .unblock domain => ⟨"block.remove".toList, domain, "{}".toList, client.text⟩

/-- The statements for a change; the place of a row and a new id are not the request's. -/
def route (place : Nat) (id : Str) : Change → Route
  | .reload => .reload
  | .createZone name => .createZone place id name
  | .createRecord zr => .createRecord place zr
  | .block domain mode => .block place domain mode
  | .unblock domain => .unblock domain

end Change

/-- What the request asks for, without the place and the number that the database gives.
-/
def Route.change : Route → Change
  | .reload => .reload
  | .createZone _ _ name => .createZone name
  | .createRecord _ zr => .createRecord zr
  | .block _ domain mode => .block domain mode
  | .unblock domain => .unblock domain

theorem change_route (place : Nat) (id : Str) (c : Change) : (c.route place id).change = c := by
  cases c <;> rfl

/-- What becomes of a request: an answer at once, a look at the state, or a change. -/
inductive Routed where
  | answered (r : HttpResponse)
  | readiness
  | stats
  | zones
  | blocked
  | change (c : Change)

/-- `Api::route`, up to the first thing that it asks of the store or the pipeline. -/
def route (serde : Serde) (req : HttpRequest) : Routed :=
  let is (method path : String) : Bool :=
    req.method == method.toList && req.path == path.toList
  let field (name : String) : Option Str := parseJsonField serde.fromSlice req.body name
  if is "GET" "/healthz" then .answered (answer 200 "OK" "text/plain" "ok".toList)
  else if is "GET" "/readyz" then .readiness
  else if is "GET" "/api/v1/stats" then .stats
  else if is "POST" "/api/v1/reload" then .change .reload
  else if is "POST" "/api/v1/zones" then
    let name := (field "name").getD []
    if name = [] then .answered (badRequest "name required") else .change (.createZone name)
  else if is "POST" "/api/v1/zones/records" then
    match parseRecord serde.fromSlice req.body with
    | some zr => .change (.createRecord zr)
    | none => .answered (badRequest "bad record")
  else if is "GET" "/api/v1/zones" then .zones
  else if is "POST" "/api/v1/blocked" then
    let domain := (field "domain").getD []
    let mode := (field "mode").getD "loopback".toList
    if domain = [] then .answered (badRequest "domain required") else .change (.block domain mode)
  else if is "DELETE" "/api/v1/blocked" then
    .change (.unblock ((HashMap.get req.query "domain".toList).getD []))
  else if is "GET" "/api/v1/blocked" then .blocked
  else .answered notFound

/-- What is seen from outside the tables: whether the database answers, and the
sizes of the caches. -/
structure Sight where
  answers : Bool
  l1 : Nat
  l2 : Nat

/-- The answers that depend on the state. Without a database nothing is loaded, and
that does not fail. -/
def look (serde : Serde) (available : Bool) (t : Tables) (sight : Sight) :
    Routed → Option HttpResponse
  | .readiness =>
      some (if available && sight.answers then answer 200 "OK" "text/plain" "ready".toList
        else answer 503 "Unavailable" "text/plain" "not ready".toList)
  | .stats =>
      some (json ("\x7b\"l1_entries\":".toList ++ Str.decimal sight.l1 ++
        ",\"l2_entries\":".toList ++ Str.decimal sight.l2 ++ "\x7d".toList))
  | .zones =>
      some (if available && !sight.answers then internalError "db"
        else json (serde.zones t.loadZones.rows))
  | .blocked =>
      some (if available && !sight.answers then internalError "db"
        else json (serde.blocked t.loadBlocked.rows))
  | .answered _ | .change _ => none

end Dnsd.Api
