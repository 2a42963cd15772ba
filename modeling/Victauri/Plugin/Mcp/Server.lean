import Victauri.Core.Json.Text
import Victauri.Core.Middleware
import Victauri.Core.RateLimiter.Credits
import Victauri.Plugin.Database.ScanSql
import Victauri.Plugin.Mcp.GhostReport

/-!
# The HTTP server

`build_app_full_inner` of `server.rs` with the middleware of `hardening.rs`: the routes, in the
guards that every request passes first.  What the MCP transport, the REST handlers and `/info` do
is a parameter, a program over calls to the application; so are URL and JSON parsing.

Requests are served together: each takes one step after another, a guard's or one of its handler's,
in any order with the steps of the others.
-/

namespace Victauri.Plugin.Mcp.Server

open Victauri.Core.Middleware Victauri.Library

/-! ## The state -/

inductive Bucket where
  /-- `public`. -/
  | shared
  | authenticated
  deriving DecidableEq

/-- What a guard does with the state. -/
inductive GuardOp : Type → Type where
  | refused (kind : Refusals) : GuardOp Unit
  | tryAcquire (bucket : Bucket) : GuardOp Bool

/-- What is done with the state: `ApiOp` are the calls of the handlers. -/
abbrev Op (ApiOp : Type → Type) (β : Type) : Type := GuardOp β ⊕ ApiOp β

/-- The time on the clocks: since each bucket was made, and since the Unix epoch. -/
structure Clock where
  sharedMs : UInt64
  authenticatedMs : UInt64
  unixMs : UInt64
  deriving DecidableEq

/-- What the requests share.  `lines` are the refusals that were logged, each with how many it
covers. -/
structure Env (τ : Type) where
  clock : Clock
  shared : Core.RateLimiter
  authenticated : Core.RateLimiter
  authRefusals : Core.RefusalLog
  hostRefusals : Core.RefusalLog
  originRefusals : Core.RefusalLog
  lines : List (Refusals × UInt64)
  api : τ

section

variable {τ : Type} {ApiOp : Type → Type}

def Env.refusals (env : Env τ) : Refusals → Core.RefusalLog
  | .auth => env.authRefusals
  | .host => env.hostRefusals
  | .origin => env.originRefusals

def Env.setRefusals (env : Env τ) (kind : Refusals) (log : Core.RefusalLog) : Env τ :=
  match kind with
  | .auth => { env with authRefusals := log }
  | .host => { env with hostRefusals := log }
  | .origin => { env with originRefusals := log }

def GuardOp.perform {β : Type} (op : GuardOp β) (env : Env τ) : β × Env τ :=
  match op with
  | .refused kind =>
      let admitted := (env.refusals kind).admitted env.clock.unixMs
      ((), { env.setRefusals kind admitted.2 with
        lines := (admitted.1.map fun suppressed => (kind, suppressed)).toList ++ env.lines })
  | .tryAcquire .shared =>
      let acquired := env.shared.tryAcquire env.clock.sharedMs
      (acquired.2, { env with shared := acquired.1 })
  | .tryAcquire .authenticated =>
      let acquired := env.authenticated.tryAcquire env.clock.authenticatedMs
      (acquired.2, { env with authenticated := acquired.1 })

variable (performApi : {β : Type} → ApiOp β → τ → β × τ)

def perform {β : Type} (op : Op ApiOp β) (env : Env τ) : β × Env τ :=
  match op with
  | .inl op => op.perform env
  | .inr op => ((performApi op env.api).1, { env with api := (performApi op env.api).2 })

/-- Time passes, and the application goes on. -/
def Drift (driftApi : τ → τ → Prop) (env env' : Env τ) : Prop :=
  ∃ clock api, driftApi env.api api ∧ env' = { env with clock := clock, api := api }

end

/-! ## The middleware of the server -/

section

variable {ApiOp : Type → Type}

def refused (kind : Refusals) : Op ApiOp Unit := .inl (.refused kind)

def maxRequestBodyBytes : Nat := 2 * 1024 * 1024

def maxRecordingBodyBytes : Nat := 64 * 1024 * 1024

def bodyLimit (path : String) : Nat :=
  if path == "/api/tools/recording" then maxRecordingBodyBytes else maxRequestBodyBytes

def jsonError (status : Nat) (message : String) : Response :=
  .ofJson status (.object [("error", .string message)])

/-- `read_body_with_deadline`. -/
def readBodyWithDeadline (next : Next (Op ApiOp)) : Next (Op ApiOp) := fun request =>
  let limit := bodyLimit request.path
  let tooLarge := jsonError StatusCode.payloadTooLarge
    s!"request body exceeds the {limit / (1024 * 1024)} MiB limit"
  if limit < request.body.bytes.length then .done tooLarge
  else
    match request.body.ending with
    | .complete => next request
    | .broken error =>
        if contains error "length limit" then .done tooLarge
        else .done (jsonError StatusCode.badRequest s!"failed to read request body: {error}")
    | .late => .done (jsonError StatusCode.requestTimeout "request body was not received in time")

/-- `refuse_non_object_tool_arguments`: what is wrong with the message of a request, if anything. -/
def argumentsProblem (call : Core.Json.Value) : Option String :=
  let index (value : Core.Json.Value) (key : String) : Core.Json.Value := (value.get key).getD .null
  let kind (value : Core.Json.Value) : String :=
    match value with
    | .string _ => "a string"
    | .array _ => "an array"
    | .number _ => "a number"
    | _ => "a boolean"
  let isObjectOrNull (value : Core.Json.Value) : Bool :=
    match value with
    | .object _ | .null => true
    | _ => false
  if (index call "method").asStr = some "tools/call" then
    let params := index call "params"
    if !isObjectOrNull params then
      some ("tools/call: `params` must be an object, not " ++ kind params)
    else if !isObjectOrNull (index params "arguments") then
      some ("tools/call: `arguments` must be an object holding the tool's parameters, not " ++
        kind (index params "arguments"))
    else none
  else none

def refuseNonObjectToolArguments (fromSlice : List UInt8 → Option Core.Json.Value)
    (next : Next (Op ApiOp)) : Next (Op ApiOp) := fun request =>
  if maxRequestBodyBytes < request.body.bytes.length then
    .done (.ofStatus StatusCode.payloadTooLarge)
  else
    match fromSlice request.body.bytes with
    | none => next request
    | some call =>
        match argumentsProblem call with
        | none => next request
        | some message =>
            .done (.ofJson StatusCode.ok (.object
              [("jsonrpc", .string "2.0"), ("id", (call.get "id").getD .null),
                ("error", .object
                  [("code", .number (.negInt (-32602))), ("message", .string message)])]))

/-- `backfill_stateless_session_id`. -/
def backfillStatelessSessionId (next : Next (Op ApiOp)) : Next (Op ApiOp) := fun request =>
  (next request).map fun response =>
    { response with
      headers := response.headers.orInsert "mcp-session-id" (Utf8.bytes "stateless") }

/-- A method with a body, and the header that only browsers send. -/
def requireJsonFromBrowsers (next : Next (Op ApiOp)) : Next (Op ApiOp) := fun request =>
  let hasBodyMethod := decide (request.method ∉ ["GET", "HEAD", "OPTIONS"])
  if hasBodyMethod && request.headers.containsKey "origin" then
    let isJson := ((request.headers.get "content-type").bind toStr).any fun ct =>
      Core.Localhost.eqIgnoreAsciiCase (Database.trim (ct.takeWhile (· ≠ ';')))
        "application/json".toList
    if !isJson then
      .done (.ofText StatusCode.unsupportedMediaType
        "browser-originated requests must send Content-Type: application/json")
    else next request
  else next request

/-- The bucket a request draws from. -/
def bucketOf (token : Option (List Char)) (request : Request) : Bucket :=
  match token with
  | some token => if bearerMatches request.headers token then .authenticated else .shared
  | none => .shared

def splitRateLimit (token : Option (List Char)) (next : Next (Op ApiOp)) : Next (Op ApiOp) :=
  fun request =>
    .call (.inl (.tryAcquire (bucketOf token request))) fun acquired =>
      if acquired then next request
      else .done { Response.ofStatus StatusCode.tooManyRequests with
        headers := [("retry-after", Utf8.bytes "1")] }

def isRejection (status : Nat) : Bool :=
  [StatusCode.unauthorized, StatusCode.forbidden, StatusCode.unsupportedMediaType,
    StatusCode.tooManyRequests].contains status

def closeOnRejection (next : Next (Op ApiOp)) : Next (Op ApiOp) := fun request =>
  (next request).map fun response =>
    if isRejection response.status then
      { response with headers := response.headers.insert "connection" (Utf8.bytes "close") }
    else response

end

/-! ## The application -/

def normalizeAuthToken (authToken : Option (List Char)) : Option (List Char) :=
  match authToken with
  | some t => if (Database.trim t).isEmpty then none else some t
  | none => none

/-- What the server is built from. -/
structure Config (ApiOp : Type → Type) where
  authToken : Option (List Char)
  stateful : Bool
  parseUrl : List Char → Option Url
  fromSlice : List UInt8 → Option Core.Json.Value
  /-- The MCP transport. -/
  mcp : Request → Program ApiOp Response
  /-- The handlers below `/api/tools`. -/
  rest : Request → Program ApiOp Response
  info : Request → Program ApiOp Response

section

variable {ApiOp : Type → Type} (config : Config ApiOp)

def Config.token : Option (List Char) := normalizeAuthToken config.authToken

/-- The program of a handler. -/
def handler (service : Request → Program ApiOp Response) : Next (Op ApiOp) := fun request =>
  (service request).lift Sum.inr

def mcpRouter : Next (Op ApiOp) :=
  let service := refuseNonObjectToolArguments config.fromSlice (handler config.mcp)
  if config.stateful then service else backfillStatelessSessionId service

def apiRoutes : Next (Op ApiOp) := fun request =>
  if request.path = "/mcp" then mcpRouter config request
  else if request.path = "/api/tools" ∨ "/api/tools/".toList <+: request.path.toList then
    handler config.rest request
  else if request.path = "/info" then handler config.info request
  else .done (.ofStatus StatusCode.notFound)

def health : Next (Op ApiOp) := fun request =>
  if request.method = "GET" ∨ request.method = "HEAD" then
    .done (.ofJson StatusCode.ok (.object [("status", .string "ok")]))
  else
    .done { Response.ofStatus StatusCode.methodNotAllowed with
      headers := [("allow", Utf8.bytes "GET,HEAD")] }

/-- The routes: all but `/health` are behind the token, if there is one. -/
def routes : Next (Op ApiOp) :=
  let api := readBodyWithDeadline (apiRoutes config)
  let gated :=
    match config.token with
    | some token => requireAuth refused token api
    | none => api
  fun request => if request.path = "/health" then health request else gated request

def buildApp : Next (Op ApiOp) :=
  closeOnRejection <| dnsRebindingGuard refused <| originGuard refused config.parseUrl <|
    securityHeaders <| requireJsonFromBrowsers <| splitRateLimit config.token <| routes config

end

end Victauri.Plugin.Mcp.Server
