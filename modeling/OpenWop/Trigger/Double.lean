import OpenWop.Core.Reachable
import OpenWop.Identity.BoundId
import OpenWop.Js.NumberOrder
import OpenWop.Webhook.Standard

/-!
# A scratch double of the trigger bridge

The double registers subscriptions, takes signed posts, serves the logs of the runs it started and
the dead letters of a subscription, page by page. One defect may be on. Its state changes with each
request; a request whose handler throws gets no response.
-/

namespace OpenWop.Trigger

open OpenWop.Js OpenWop.Identity OpenWop.Webhook

section Values

/-- `TriggerDefect`. -/
inductive Defect where
  | none
  | dedupNewRun
  | refusedStartsRun
  | refusedChangesState
  | noCausation
  | recordLeaksCanary
  | refusedNotRecorded
  | refusedRecordsStateChange
  | wrongRetention
  | limitIgnored
  | cursorNotBound
  | tenantLeak
  | tenant404
  | skewAccepted
  | rereadLeaksSecret
  deriving DecidableEq, Repr

/-- HMAC-SHA256, and `new Date(ms).toISOString()`. -/
structure Env where
  hmac : KeyedHmac
  iso : Nat → JsString

/-- `standardWebhooksSignature`. -/
def standardWebhooksSignature (hmac : KeyedHmac) (secret id ts body : JsString) : JsString :=
  let key := if startsWith secret whsecPrefix then secret.drop whsecPrefix.length else secret
  js "v1," ++ base64Text
    (hmac (bytesOfBase64 key) (utf8 (id ++ js "." ++ ts ++ js "." ++ body))).toList

/-- `OTHER_TENANT_KEY`. -/
def otherTenantKey : JsString := js "tenant-b-key"

/-- `String(k).padStart(16, '0')`. -/
def padded (k : Nat) : JsString :=
  List.replicate (16 - (decimal k).length) (unit '0') ++ decimal k

/-- `DoubleSub`. -/
structure Sub where
  id : JsString
  n : Nat
  mode : Json
  secret : JsString
  state : JsString
  /-- The run of each `webhook-id` that was delivered. -/
  seen : Map JsString JsString
  dead : List Json

/-- The state of the double. -/
structure Double where
  defect : Defect
  url : JsString
  subs : Map JsString Sub
  runs : Map JsString (List Json)
  seq : Nat

/-- An HTTP request. -/
structure Request where
  method : JsString
  path : JsString
  query : Record JsString JsString
  headers : Record JsString JsString
  body : JsString
  /-- `JSON.parse(body || '{}')`, none where it throws. -/
  json : Option Json
  /-- `Date.now()`. -/
  now : Nat

/-- A response. -/
structure Response where
  status : Nat
  body : Json

/-- `String(req.headers[name] ?? '')`. -/
def Request.header (req : Request) (name : JsString) : JsString :=
  (Record.get? req.headers name).getD []

/-- The response to a post that is taken. -/
def Response.run (status : Nat) (outcome runId : JsString) : Response :=
  ⟨status, .obj [(js "outcome", .str outcome), (js "runId", .str runId)]⟩

/-- A response with an error envelope. -/
def refusal (status : Nat) (error message : JsString) (more : List (JsString × Json)) : Response :=
  ⟨status, .obj ([(js "error", .str error), (js "message", .str message)] ++ more)⟩

/-- `array.slice(start, end)` at the position a Number stands for. -/
def toIndex (length : Nat) : JsNumber → Nat
  | .nan | .infinity true => 0
  | .infinity false => length
  | .finite d =>
    let whole : Int := if d.value < 0 then -⌊-d.value⌋ else ⌊d.value⌋
    if whole < 0 then (length + whole).toNat else Nat.min whole.toNat length

/-- `items.slice(from, to)`. -/
def sliceItems {α : Type} (items : List α) (start stop : JsNumber) : List α :=
  (items.take (toIndex items.length stop)).drop (toIndex items.length start)

/-- `discovery`. -/
def discovery : Json :=
  .obj [(js "triggerBridge", .obj [(js "status", .str (js "experimental")),
    (js "since", .str (js "2.45")), (js "witness", .str (js "self")),
    (js "ingestion", .obj [(js "inboundSigning", .arr [.str (js "standard-webhooks-1")])]),
    (js "deadLetter", .obj [(js "retentionDays", .num (.ofNat 7)),
      (js "maxPageSize", .num (.ofNat 100))])])]

end Values

section Runs

/-- `this.id(prefix)` with the next number. -/
def mintedId (kind : JsString) (k : Nat) : JsString := js "acme/" ++ kind ++ js "-" ++ padded k

/-- An event id with that number. -/
def eventId (k : Nat) : JsString := js "evt" ++ padded k

/-- `this.startRun(sub)`. -/
def startRun (s : Double) (sub : Sub) : Double × JsString :=
  let runId := mintedId (js "run") (s.seq + 1)
  let attempt := eventId (s.seq + 2)
  let events := [
    .obj [(js "eventId", .str attempt), (js "type", .str (js "trigger.delivery-attempted")),
      (js "payload", .obj [(js "subscriptionId", .str sub.id), (js "dedupKey", .str (js "opaque")),
        (js "attempt", .num (.ofNat 1)), (js "outcome", .str (js "delivered")),
        (js "runId", .str runId)]),
      (js "sequence", .num (.ofNat 1))],
    .obj ([(js "eventId", .str (eventId (s.seq + 3))), (js "type", .str (js "run.started"))] ++
      (if s.defect = .noCausation then [] else [(js "causationId", .str attempt)]) ++
      [(js "payload", .obj []), (js "sequence", .num (.ofNat 2))])]
  ({ s with runs := s.runs.set runId events, seq := s.seq + 3 }, runId)

end Runs

section Routes

/-- What a request asks for. -/
inductive Route where
  | discovery
  | register
  | ingest (digits : JsString)
  | poll (segment : JsString)
  | read (segment : JsString) (deadLetters : Bool)
  | unknown

/-- The route of a `POST`. -/
def postRoute (path : JsString) : Route :=
  if path = js "/trigger-subscriptions" then .register
  else match splitOn path (unit '/') with
    | [[], name, digits] =>
      if name = js "ingest" ∧ digits ≠ [] ∧ digits.all isDigit then .ingest digits else .unknown
    | _ => .unknown

/-- The route of a `GET`. -/
def getRoute (path : JsString) : Route :=
  if path = js "/.well-known/openwop" then .discovery
  else match splitOn path (unit '/') with
    | [[], name, segment] =>
      if name = js "trigger-subscriptions" ∧ segment ≠ [] then .read segment false else .unknown
    | [[], name, segment, page] =>
      if name = js "trigger-subscriptions" ∧ segment ≠ [] ∧ page = js "dead-letters" then
        .read segment true
      else .unknown
    | [[], name, segment, events, poll] =>
      if name = js "runs" ∧ segment ≠ [] ∧ events = js "events" ∧ poll = js "poll" then .poll segment
      else .unknown
    | _ => .unknown

/-- The branch of the handler a request takes. -/
def Request.route (req : Request) : Route :=
  if req.method = js "GET" then getRoute req.path
  else if req.method = js "POST" then postRoute req.path
  else .unknown

end Routes

section Handlers

/-- `body.verification?.mode ?? 'none'`; none where reading it throws. -/
def modeOf : Json → Option Json
  | .null => none
  | body =>
    let mode := Json.read? (body.member? (js "verification")) (js "mode")
    some (if Json.isNullish mode then .str (js "none") else mode.getD .null)

/-- The secret of the subscription with that number. -/
def secretOf (n : Nat) : JsString :=
  whsecPrefix ++ base64Text (utf8 (js "secret-" ++ decimal n ++ js "-bytes"))

/-- `POST /trigger-subscriptions`. -/
def register (s : Double) (req : Request) : Double × Option Response :=
  match req.json.bind modeOf with
  | none => (s, none)
  | some mode =>
    let n := s.subs.entries.length + 1
    let sub : Sub := { id := mintedId (js "sub") (s.seq + 1), n, mode, secret := secretOf n
                       state := js "active", seen := .empty, dead := [] }
    ({ s with subs := s.subs.set sub.id sub, seq := s.seq + 1 }, some ⟨201, .obj [
      (js "subscription", .obj [(js "subscriptionId", .str sub.id), (js "source", .str (js "webhook")),
        (js "state", .str (js "active"))]),
      (js "binding", .obj [(js "ingestUrl", .str (s.url ++ js "/ingest/" ++ decimal n)),
        (js "signingSecret", .str sub.secret)])]⟩)

/-- `Math.abs(Date.now() / 1000 - Number(ts)) <= 300`. -/
def isFresh (now : Nat) (ts : JsString) : Bool :=
  (((nearestNumber false (now / 1000)).sub (stringToNumber ts)).abs).le (.ofNat 300)

/-- The timestamp and the signature of a post are good. -/
def isGood (env : Env) (s : Double) (sub : Sub) (req : Request) : Bool :=
  (isFresh req.now (req.header (js "webhook-timestamp")) || s.defect = .skewAccepted) &&
    Record.get? req.headers (js "webhook-signature") =
      some (standardWebhooksSignature env.hmac sub.secret (req.header (js "webhook-id"))
        (req.header (js "webhook-timestamp")) req.body)

/-- The record of a refused post. -/
def deadLetter (env : Env) (s : Double) (sub : Sub) (req : Request) : Json :=
  let days := if s.defect = .wrongRetention then 1 else 7
  .obj ([(js "subscriptionId", .str sub.id), (js "attemptEventId", .str (eventId (s.seq + 1))),
    (js "attempt", .obj [(js "subscriptionId", .str sub.id), (js "dedupKey", .str (js "opaque")),
      (js "attempt", .num (.ofNat 1)), (js "outcome", .str (js "dead-lettered"))]),
    (js "reason", .str (js "verification_failed")),
    (js "deadLetteredAt", .str (env.iso req.now)),
    (js "expiresAt", .str (env.iso (req.now + days * 86400000)))] ++
    (if s.defect = .recordLeaksCanary then [(js "body", .str req.body)] else []) ++
    (if s.defect = .refusedRecordsStateChange then
      [(js "stateChange", .obj [(js "subscriptionId", .str sub.id), (js "source", .str (js "webhook")),
        (js "fromState", .str (js "active")), (js "toState", .str (js "failed")),
        (js "reason", .str (js "signature-invalid"))])]
    else []))

/-- The subscription after a refused post. -/
def refusedSub (env : Env) (s : Double) (sub : Sub) (req : Request) : Sub :=
  { sub with
    dead := if s.defect = .refusedNotRecorded then sub.dead else deadLetter env s sub req :: sub.dead
    state := if s.defect = .refusedChangesState then js "failed" else sub.state }

/-- The state after a refused post. -/
def refusedState (env : Env) (s : Double) (sub : Sub) (req : Request) : Double :=
  { s with
    subs := s.subs.set sub.id (refusedSub env s sub req)
    seq := if s.defect = .refusedNotRecorded then s.seq else s.seq + 1 }

/-- A post that fails the required check. -/
def refuse (env : Env) (s : Double) (sub : Sub) (req : Request) : Double × Option Response :=
  if s.defect = .refusedStartsRun then
    let (s', runId) := startRun (refusedState env s sub req) sub
    (s', some (refusal 401 (js "signature_invalid") (js "bad signature") [(js "runId", .str runId)]))
  else (refusedState env s sub req,
    some (refusal 401 (js "signature_invalid") (js "bad signature") []))

/-- A run for a `webhook-id`. -/
def startFor (s : Double) (sub : Sub) (id : JsString) : Double × Option Response :=
  let (s', runId) := startRun s sub
  ({ s' with subs := s'.subs.set sub.id { sub with seen := sub.seen.set id runId } },
    some (.run 202 (js "delivered") runId))

/-- A post that is taken. -/
def deliver (s : Double) (sub : Sub) (id : JsString) : Double × Option Response :=
  match sub.seen.get? id with
  | some prior =>
    if s.defect = .dedupNewRun then startFor s sub id
    else (s, some (.run 200 (js "duplicate") prior))
  | none => startFor s sub id

/-- `POST /ingest/<n>`. -/
def ingest (env : Env) (s : Double) (req : Request) (digits : JsString) : Double × Option Response :=
  match s.subs.values.find? fun sub => sub.n = digitsValue digits with
  | none => (s, some (refusal 404 (js "not_found") (js "no ingest") []))
  | some sub =>
    if isGood env s sub req = false ∧ sub.mode = .str (js "required") then refuse env s sub req
    else deliver s sub (req.header (js "webhook-id"))

/-- `GET /runs/<segment>/events/poll`. -/
def poll (s : Double) (segment : JsString) : Option Response :=
  match unprojectBoundId segment with
  | .error _ => none
  | .ok runId =>
    match s.runs.get? runId with
    | some events => some ⟨200, .obj [(js "events", .arr events)]⟩
    | none => some (refusal 404 (js "not_found") (js "no run") [])

/-- Where a cursor continues: the offset, or none where it is for another subscription. -/
def offsetOf (s : Double) (sub : Sub) : Option JsString → Option JsNumber
  | none => some (.ofNat 0)
  | some cursor =>
    match splitOn (utf8Text (bytesOfBase64 cursor)) (unit '|') with
    | cid :: rest =>
      if cid ≠ sub.id ∧ s.defect ≠ .cursorNotBound then none
      else some ((rest.head?.map stringToNumber).getD .nan)
    | [] => none

/-- The cursor of the page that begins there. -/
def cursorAt (sub : Sub) (offset : JsNumber) : JsString :=
  base64UrlText (utf8 (sub.id ++ js "|" ++ offset.text))

/-- A page of dead letters. -/
def deadLetters (s : Double) (sub : Sub) (req : Request) : Response :=
  let limit := JsNumber.min
    (stringToNumber ((Record.get? req.query (js "limit")).getD (js "100"))) (.ofNat 100)
  match offsetOf s sub (Record.get? req.query (js "cursor")) with
  | none => refusal 400 (js "validation_error") (js "cursor is for another subscription") []
  | some offset =>
    let size := if s.defect = .limitIgnored then .ofNat sub.dead.length else limit
    let stop := offset.add size
    ⟨200, .obj ([(js "deliveries", .arr (sliceItems sub.dead offset stop))] ++
      if stop.lt (.ofNat sub.dead.length) then [(js "nextCursor", .str (cursorAt sub stop))] else [])⟩

/-- `GET /trigger-subscriptions/<segment>`, with or without `/dead-letters`. -/
def read (s : Double) (req : Request) (segment : JsString) (dead : Bool) : Option Response :=
  match unprojectBoundId segment with
  | .error _ => none
  | .ok id =>
    let other := Record.get? req.headers (js "authorization") = some (js "Bearer " ++ otherTenantKey)
    if other ∧ s.defect = .tenant404 then
      some (refusal 404 (js "not_found") (js "no such subscription") [])
    else if other ∧ s.defect ≠ .tenantLeak then
      some (refusal 403 (js "id_tenant_mismatch") (js "tenant segment is not the caller's") [])
    else
      match s.subs.get? id with
      | none => some (refusal 404 (js "not_found") (js "no such subscription") [])
      | some sub =>
        some (if dead then deadLetters s sub req
          else ⟨200, .obj [(js "subscription", .obj ([(js "subscriptionId", .str sub.id),
            (js "source", .str (js "webhook")), (js "state", .str sub.state)] ++
            if s.defect = .rereadLeaksSecret then [(js "signingSecret", .str sub.secret)] else []))]⟩)

/-- `handle(req, res)`; no response where it throws. -/
def handle (env : Env) (s : Double) (req : Request) : Double × Option Response :=
  match req.route with
  | .discovery => (s, some ⟨200, discovery⟩)
  | .register => register s req
  | .ingest digits => ingest env s req digits
  | .poll segment => (s, poll s segment)
  | .read segment dead => (s, read s req segment dead)
  | .unknown => (s, some (refusal 404 (js "not_found")
      (js "no route " ++ req.method ++ js " " ++ req.path) []))

/-- `reset(defect)`. -/
def Double.reset (s : Double) (defect : Defect) : Double :=
  { s with defect, subs := .empty, runs := .empty }

/-- The state after a request. -/
def next (env : Env) (s : Double) (req : Request) : Double := (handle env s req).1

/-- The states a double reaches, whatever requests come. -/
abbrev Later (env : Env) (s : Double) : Double → Prop := Core.Reachable (next env) (fun _ _ => True) s

/-- The states of a double after a reset. -/
abbrev Reached (env : Env) (before : Double) (defect : Defect) : Double → Prop :=
  Later env (before.reset defect)

end Handlers

end OpenWop.Trigger
