import OpenWop.Core.Reachable
import OpenWop.Js.Json

/-!
# An authorization server

The double answers authorization requests at once. A token request waits for its body, and other
requests come in between; when the body has ended, it is recorded and answered in one turn. Codes
and refresh tokens are kept in tables that all requests share.
-/

namespace OpenWop.OAuth

open OpenWop.Js OpenWop.Core

section Data

/-- The parameters of a request, by their names. -/
abbrev Params := Record JsString JsString

/-- `Object.fromEntries(entries)`. -/
def fromEntries (entries : List (JsString × JsString)) : Params :=
  entries.foldl (fun out e => Record.set out e.1 e.2) []

/-- What is read of a request's URL. -/
structure RequestUrl where
  pathname : JsString
  search : List (JsString × JsString)
  deriving DecidableEq, Repr

/-- What the runtime does with URLs, forms and digests. -/
structure Web where
  /-- `new URL(url, 'http://double')`. -/
  parseUrl : JsString → Option RequestUrl
  /-- `new URL(url)` with these search parameters set, as a string. -/
  withSearch : JsString → List (JsString × JsString) → Option JsString
  /-- `new URLSearchParams(body).entries()`. -/
  urlForm : JsString → List (JsString × JsString)
  /-- The entries of `JSON.parse(body)`, with their values as strings. -/
  jsonForm : JsString → Option (List (JsString × JsString))
  /-- `createHash('sha256').update(verifier).digest('base64url')`. -/
  S256 : JsString → JsString

structure Request where
  method : JsString
  url : Option JsString
  contentType : Option JsString
  deriving DecidableEq, Repr

inductive Answer where
  | json (status : Nat) (body : Json)
  | redirect (location : JsString)
  deriving DecidableEq, Repr

def Answer.status : Answer → Nat
  | .json status _ => status
  | .redirect _ => 302

/-- The member of an answer's body. -/
def Answer.member? : Answer → JsString → Option Json
  | .json _ body, name => body.member? name
  | .redirect _, _ => none

/-- `TokenRequest`. -/
structure TokenRequest where
  grantType : JsString
  params : Params
  time : Nat
  status : Nat
  refused : Option JsString
  deriving DecidableEq, Repr

/-- `AuthorizeRequest`. -/
structure AuthorizeRequest where
  params : Params
  time : Nat
  deriving DecidableEq, Repr

/-- `CodeRecord`. -/
structure CodeRecord where
  clientId : JsString
  redirectUri : JsString
  challenge : Option JsString
  method : Option JsString
  resource : Option JsString
  used : Bool
  scope : JsString
  deriving DecidableEq, Repr

/-- The server's tables and settings. -/
structure State where
  tokenRequests : List TokenRequest
  authorizeRequests : List AuthorizeRequest
  metadataHits : List JsString
  codes : Map JsString CodeRecord
  refresh : List JsString
  issParameterSupported : Bool
  codeChallengeMethods : Option (List JsString)
  metadataOverride : Record JsString Json
  refreshRevoked : Bool
  /-- The token requests whose body is awaited, with their content types. -/
  awaited : Record Nat (Option JsString)
  /-- How many requests have come. -/
  received : Nat

def State.initial : State where
  tokenRequests := []
  authorizeRequests := []
  metadataHits := []
  codes := .empty
  refresh := []
  issParameterSupported := true
  codeChallengeMethods := some [js "S256"]
  metadataOverride := []
  refreshRevoked := false
  awaited := []
  received := 0

/-- What happens next. The random texts are those the handler draws in that turn. -/
inductive Action where
  /-- A request comes. -/
  | request (req : Request) (now : Nat) (random : JsString)
  /-- The body of a token request has ended. -/
  | bodyEnds (id : Nat) (body : JsString) (now : Nat) (randomRefresh randomAccess : JsString)
  | setIssParameterSupported (v : Bool)
  | setCodeChallengeMethods (v : Option (List JsString))
  | setMetadataOverride (v : Record JsString Json)
  | setRefreshRevoked (v : Bool)

/-- What a handler has done in its turn. -/
inductive Event where
  /-- It threw, and the request is not answered. -/
  | failed (id : Nat)
  | replied (id : Nat) (answer : Answer)
  /-- It issued the code, and redirected if it could. -/
  | authorized (id : Nat) (params : Params) (code : JsString) (answer : Option Answer)
  /-- It awaits the body of a token request. -/
  | arrived (id : Nat)
  /-- It answered a token request. -/
  | token (id : Nat) (params : Params) (answer : Answer)
  deriving DecidableEq

end Data

section Handlers

variable (web : Web) (issuer : JsString)

/-- A unit of a text that is compared without regard to case, in ASCII. -/
def lowerAscii (u : UInt16) : UInt16 := if 65 ≤ u ∧ u ≤ 90 then u + 32 else u

/-- `formOf(body, contentType)`. -/
def formOf (body : JsString) (contentType : Option JsString) : Params :=
  if contentType.any fun type => includes (type.map lowerAscii) (js "json") then
    fromEntries ((web.jsonForm body).getD [])
  else fromEntries (web.urlForm body)

/-- The metadata of the server. -/
def metadata (s : State) : Json :=
  let members : Record JsString Json :=
    [(js "issuer", .str issuer),
     (js "authorization_endpoint", .str (issuer ++ js "/authorize")),
     (js "token_endpoint", .str (issuer ++ js "/token")),
     (js "response_types_supported", .arr [.str (js "code")]),
     (js "grant_types_supported",
      .arr [.str (js "authorization_code"), .str (js "refresh_token")]),
     (js "authorization_response_iss_parameter_supported", .bool s.issParameterSupported)] ++
    match s.codeChallengeMethods with
    | none => []
    | some methods => [(js "code_challenge_methods_supported", .arr (methods.map .str))]
  .obj (s.metadataOverride.foldl (fun out m => Record.set out m.1 m.2) members)

/-- `json(res, status, { error })`. -/
def errorAnswer (status : Nat) (error : JsString) : Answer :=
  .json status (.obj [(js "error", .str error)])

/-- The record of a code. -/
def codeRecord (params : Params) (redirectUri : JsString) : CodeRecord where
  clientId := (Record.get? params (js "client_id")).getD []
  redirectUri := redirectUri
  challenge := Record.get? params (js "code_challenge")
  method := Record.get? params (js "code_challenge_method")
  resource := Record.get? params (js "resource")
  used := false
  scope := (Record.get? params (js "scope")).getD []

/-- `GET /authorize`. -/
def authorize (s : State) (id : Nat) (params : Params) (now : Nat) (random : JsString) :
    State × Event :=
  let s := { s with authorizeRequests := s.authorizeRequests ++ [⟨params, now⟩] }
  match Record.get? params (js "redirect_uri") with
  | none => (s, .replied id (errorAnswer 400 (js "invalid_request")))
  | some redirectUri =>
    if Record.get? params (js "response_type") ≠ some (js "code") then
      (s, .replied id (errorAnswer 400 (js "invalid_request")))
    else
      let code := js "code-" ++ random
      let s := { s with codes := s.codes.set code (codeRecord params redirectUri) }
      let search := (js "code", code) ::
        (((Record.get? params (js "state")).map fun v => (js "state", v)).toList ++
          [(js "iss", issuer)])
      (s, .authorized id params code ((web.withSearch redirectUri search).map .redirect))

/-- `record(status, refused)`. -/
def State.record (s : State) (params : Params) (now status : Nat) (refused : Option JsString) :
    State :=
  { s with tokenRequests := s.tokenRequests ++
      [⟨(Record.get? params (js "grant_type")).getD [], params, now, status, refused⟩] }

/-- The request is recorded with the reason, and refused. -/
def refuse (s : State) (params : Params) (now : Nat) (reason error : JsString) : State × Answer :=
  (s.record params now 400 (some reason), errorAnswer 400 error)

/-- The verifier matches the challenge of the code, if it has one. -/
def verifies (c : CodeRecord) (params : Params) : Bool :=
  match c.challenge with
  | none => true
  | some challenge =>
    let verifier := (Record.get? params (js "code_verifier")).getD []
    if c.method = some (js "S256") then web.S256 verifier = challenge else verifier = challenge

/-- The grant `authorization_code`. -/
def exchange (s : State) (params : Params) (now : Nat) (randomRefresh randomAccess : JsString) :
    State × Answer :=
  let code := (Record.get? params (js "code")).getD []
  match s.codes.get? code with
  | none => refuse s params now (js "unknown or used code") (js "invalid_grant")
  | some c =>
    if c.used then refuse s params now (js "unknown or used code") (js "invalid_grant")
    else
      let s := { s with codes := s.codes.set code { c with used := true } }
      if Record.get? params (js "redirect_uri") ≠ some c.redirectUri then
        refuse s params now (js "redirect_uri mismatch") (js "invalid_grant")
      else if !verifies web c params then
        refuse s params now (js "PKCE verifier does not match") (js "invalid_grant")
      else
        let rt := js "rt-" ++ randomRefresh
        let s := { s with refresh := s.refresh ++ [rt] }
        (s.record params now 200 none,
          .json 200 (.obj [(js "access_token", .str (js "at-" ++ randomAccess)),
            (js "token_type", .str (js "Bearer")), (js "expires_in", .num (.ofNat 3600)),
            (js "refresh_token", .str rt), (js "scope", .str c.scope)]))

/-- The grant `refresh_token`. -/
def refreshGrant (s : State) (params : Params) (now : Nat) (randomAccess : JsString) :
    State × Answer :=
  let token := (Record.get? params (js "refresh_token")).getD []
  if s.refreshRevoked || !decide (token ∈ s.refresh) then
    refuse s params now (js "refresh token revoked") (js "invalid_grant")
  else
    (s.record params now 200 none,
      .json 200 (.obj [(js "access_token", .str (js "at-" ++ randomAccess)),
        (js "token_type", .str (js "Bearer")), (js "expires_in", .num (.ofNat 3600))]))

/-- `POST /token`, from the end of its body. -/
def token (s : State) (params : Params) (now : Nat) (randomRefresh randomAccess : JsString) :
    State × Answer :=
  let grantType := (Record.get? params (js "grant_type")).getD []
  if grantType = js "authorization_code" then exchange web s params now randomRefresh randomAccess
  else if grantType = js "refresh_token" then refreshGrant s params now randomAccess
  else refuse s params now (js "unsupported grant") (js "unsupported_grant_type")

/-- A request, up to its answer or its first await. -/
def handle (s : State) (req : Request) (now : Nat) (random : JsString) : State × Event :=
  let id := s.received
  let s := { s with received := s.received + 1 }
  match web.parseUrl (req.url.getD (js "/")) with
  | none => (s, .failed id)
  | some url =>
    if req.method = js "GET" ∧
        startsWith url.pathname (js "/.well-known/oauth-authorization-server") then
      let s := { s with metadataHits := s.metadataHits ++ [url.pathname] }
      (s, .replied id (.json 200 (metadata issuer s)))
    else if req.method = js "GET" ∧ url.pathname = js "/authorize" then
      authorize web issuer s id (fromEntries url.search) now random
    else if req.method = js "POST" ∧ url.pathname = js "/token" then
      ({ s with awaited := s.awaited ++ [(id, req.contentType)] }, .arrived id)
    else (s, .replied id (errorAnswer 404 (js "not_found")))

/-- One turn of the server. -/
def step (s : State) : Action → State × Option Event
  | .request req now random =>
    let out := handle web issuer s req now random
    (out.1, some out.2)
  | .bodyEnds id body now randomRefresh randomAccess =>
    match Record.get? s.awaited id with
    | none => (s, none)
    | some contentType =>
      let params := formOf web body contentType
      let s := { s with awaited := Record.erase s.awaited id }
      let out := token web s params now randomRefresh randomAccess
      (out.1, some (.token id params out.2))
  | .setIssParameterSupported v => ({ s with issParameterSupported := v }, none)
  | .setCodeChallengeMethods v => ({ s with codeChallengeMethods := v }, none)
  | .setMetadataOverride v => ({ s with metadataOverride := v }, none)
  | .setRefreshRevoked v => ({ s with refreshRevoked := v }, none)

end Handlers

section Runs

/-- The server with what its handlers have done so far. -/
structure Run where
  state : State
  events : List Event

def Run.initial : Run := ⟨.initial, []⟩

def Run.next (web : Web) (issuer : JsString) (r : Run) (a : Action) : Run :=
  ⟨(step web issuer r.state a).1, r.events ++ (step web issuer r.state a).2.toList⟩

/-- The code an event issued, with the parameters of its request. -/
def Event.issued? : Event → Option (JsString × Params)
  | .authorized _ params code _ => some (code, params)
  | _ => none

/-- The codes issued, with the parameters of the requests they were issued for. -/
def issued (events : List Event) : Record JsString Params := events.filterMap Event.issued?

/-- The code that is drawn was not drawn before. -/
def FreshCode (web : Web) (issuer : JsString) (r : Run) (a : Action) : Prop :=
  (Record.keys (issued (r.next web issuer a).events)).Nodup

/-- The runs in which no code is drawn twice. -/
def Runs (web : Web) (issuer : JsString) : Run → Prop :=
  Reachable (Run.next web issuer) (FreshCode web issuer) .initial

end Runs

end OpenWop.OAuth
