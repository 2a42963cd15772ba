import Victauri.Core.Json.Text
import Victauri.Library.Program

/-!
# The stdio bridge

What `bridge.rs` does with one line of the client, as a program that calls discovery, the backend
and the session state the bridge's tasks share.  A line is the JSON value it holds, and so is a
payload line of a backend.  `serde_json`'s `Value::eq` is the parameter `same`, and the baked list
of tools the parameter `fallbackTools`.  Delays and what goes to stderr are left out.
-/

namespace Victauri.Cli.Bridge

open Core.Json Library

/-! ## Messages -/

/-- The method's name, empty where there is none. -/
def method (msg : Value) : String := ((msg.get "method").bind Value.asStr).getD ""

/-- `msg.get("id").cloned().unwrap_or(Value::Null)`. -/
def id (msg : Value) : Value := (msg.get "id").getD .null

def expectsReply (msg : Value) : Bool := (msg.get "method").isSome && (msg.get "id").isSome

def isClientResponse (msg : Value) : Bool :=
  (msg.get "method").isNone && ((msg.get "result").isSome || (msg.get "error").isSome)

def integer (n : Int) : Value :=
  .number (if 0 ≤ n then .posInt (UInt64.ofNat n.toNat) else .negInt (Int64.ofInt n))

def errorReply (id : Value) (code : Int) (message : String) : Value :=
  .object [("jsonrpc", .string "2.0"), ("id", id),
    ("error", .object [("code", integer code), ("message", .string message)])]

def resultReply (id result : Value) : Value :=
  .object [("jsonrpc", .string "2.0"), ("id", id), ("result", result)]

def notification (method : String) : Value :=
  .object [("jsonrpc", .string "2.0"), ("method", .string method)]

def errorForRequest (msg : Value) (code : Int) (message : String) : Value :=
  errorReply (id msg) code message

/-- `INVALID_REQUEST`. -/
def invalidRequest : Int := -32600

/-- `BATCH_UNSUPPORTED`. -/
def batchUnsupported : String :=
  "batch requests are not supported: MCP removed JSON-RPC batching in protocol revision " ++
    "2025-06-18; send each message as its own line"

/-- The reply to one element of a batch. -/
def batchElement (item : Value) : Option Value :=
  match item with
  | .object _ =>
      if (item.get "method").isSome && (item.get "id").isNone || isClientResponse item then none
      else some (errorReply (id item) invalidRequest batchUnsupported)
  | _ => some (errorReply .null invalidRequest batchUnsupported)

def batchRejection (items : List Value) : Option Value :=
  if items = [] then some (errorReply .null invalidRequest batchUnsupported)
  else
    let replies := items.filterMap batchElement
    if replies = [] then none else some (.array replies)

/-- `DEFAULT_PROTOCOL_VERSION`. -/
def defaultProtocolVersion : String := "2025-06-18"

/-- `LOCAL_INIT_INSTRUCTIONS`. -/
def localInitInstructions : String :=
  "Victauri MCP bridge. Tools act on a running Tauri app (debug build). While no app is running " ++
    "the tool list is a static fallback and tool calls report the backend as unreachable; start " ++
    "the app and the bridge connects automatically — the tool list refreshes to the live set " ++
    "with no reconnect."

def localInitializeResponse (msg : Value) : Value :=
  let version := (((msg.get "params").bind fun params => params.get "protocolVersion").bind
    Value.asStr).getD defaultProtocolVersion
  let listChanged : Value := .object [("listChanged", .bool true)]
  resultReply (id msg) (.object [
    ("protocolVersion", .string version),
    ("capabilities", .object [("tools", listChanged), ("resources", listChanged)]),
    ("serverInfo", .object [("name", .string "victauri-bridge"), ("version", .string "0.10.3")]),
    ("instructions", .string localInitInstructions)])

def fallbackToolsResponse (fallbackTools : List Value) (msg : Value) : Value :=
  resultReply (id msg) (.object [("tools", .array fallbackTools)])

def emptyListResponse (msg : Value) : Value :=
  let key :=
    if method msg = "resources/list" then "resources"
    else if method msg = "resources/templates/list" then "resourceTemplates"
    else if method msg = "prompts/list" then "prompts"
    else "items"
  resultReply (id msg) (.object [(key, .array [])])

/-! ## Discovery and posts -/

structure ServerInfo where
  port : Nat
  token : Option String
  deriving DecidableEq

/-- What one pass of discovery finds (`scan_once`). -/
inductive Selection where
  | one (info : ServerInfo)
  | none
  | ambiguous (labels : List String)
  | pinDown (port : Nat)
  | refused (why : String)
  deriving DecidableEq

structure PostOutcome where
  status : Nat
  sessionId : Option String
  payloads : List Value

/-- The session is unknown, terminated or not initialized. -/
def PostOutcome.staleSession (out : PostOutcome) : Bool :=
  out.status == 404 || out.status == 409 || out.status == 422

def PostOutcome.accepted (out : PostOutcome) : Bool := out.status == 202

/-- A post that brought no answer; `isConnect` where it failed before anything was sent. -/
structure PostError where
  isConnect : Bool
  isTimeout : Bool
  text : String
  deriving DecidableEq

abbrev PostResult := Except PostError PostOutcome

/-- What `cached_init` holds: only an `initialize` line is ever stored there. -/
structure InitMessage where
  msg : Value
  isInitialize : method msg = "initialize"

/-- The calls: discovery, the backend, and the session state that the tasks share. -/
inductive Op : Type → Type where
  | scan : Op Selection
  | rediscover : Op (Option ServerInfo)
  | post (info : ServerInfo) (session : Option String) (msg : Value) : Op PostResult
  | stateless : Op Bool
  | setStateless : Op Unit
  | session : Op (Option String)
  | setSession (session : String) : Op Unit
  | clearSessionIf (used : Option String) : Op Unit
  | cachedInit : Op (Option InitMessage)
  | cacheInit (init : InitMessage) : Op Unit

/-! ## Texts -/

def ambiguousMessage (labels : List String) : String :=
  "Multiple Victauri apps are running:\n  " ++ "\n  ".intercalate labels ++
    "\nSelect one with `--app <bundle-identifier>` or the VICTAURI_APP env var (an exact bundle " ++
    "identifier or product name). If two apps share that identifier, stop one or pin the port " ++
    "with VICTAURI_PORT."

def pinDownMessage (port : Nat) : String :=
  "Victauri backend not reachable: no running Victauri app answers on VICTAURI_PORT=" ++
    toString port ++ ". The pin is honoured, so no other running app was used. Start or restart " ++
    "that app, or unset VICTAURI_PORT."

def unreachableMessage : String :=
  "Victauri backend not reachable: no running Tauri app with the Victauri plugin (debug build) " ++
    "was found. Start the app (e.g. `npm run tauri dev` / `pnpm tauri dev`); the bridge connects " ++
    "automatically when it comes up — no reconnect needed. If the app gates Victauri behind a " ++
    "Cargo feature (`victauri init --optional`), start it with that feature (`npm run tauri dev " ++
    "-- --features victauri` / `pnpm tauri dev --features victauri`). If several Victauri apps " ++
    "run, select one with `--app <bundle-identifier>` or the VICTAURI_APP env var."

/-- `/params/arguments/timeout_ms` of a message, as an unsigned integer. -/
def timeoutMs (msg : Value) : Option Nat :=
  match ((msg.get "params").bind fun params => params.get "arguments").bind
    fun arguments => arguments.get "timeout_ms" with
  | some (.number (.posInt ms)) => some ms.toNat
  | _ => none

/-- `request_timeout_for`, in milliseconds. -/
def requestTimeoutFor (msg : Value) : Nat :=
  match timeoutMs msg with
  | some ms => max 120000 (min ms 300000 + 40000)
  | none => if method msg = "tools/call" then 330000 else 120000

def undeliveredResponseMessage (msg : Value) (err : PostError) (appStillUp : Bool) : String :=
  let what :=
    if err.isTimeout then
      "the tool call was sent to the app but no response arrived before the bridge's " ++
        toString (requestTimeoutFor msg / 1000) ++ "s timeout"
    else if appStillUp then
      "the tool call was sent to the app but the connection closed before a response arrived " ++
        "(the app is still running — it may have restarted or reloaded while handling the call)"
    else
      "the tool call was sent to the app, and the app exited before responding. This is the " ++
        "expected outcome for a command that quits or restarts the app (e.g. a `quit_app` " ++
        "command) — it most likely ran"
  what ++ ". It was NOT retried, because it may already have taken effect and replaying it " ++
    "could run it twice. Check the app's state (or its log) before calling it again. " ++
    "(transport error: " ++ err.text ++ ")"

/-! ## Forwarding -/

/-- `MAX_RETRIES`. -/
def maxRetries : Nat := 4

def mayReplay (msg : Value) (err : PostError) : Bool :=
  method msg != "tools/call" || err.isConnect

inductive ForwardResult where
  | payloads (lines : List Value)
  | accepted
  | unreachable (why : String)

section Forwarding

variable {α : Type} (same : Value → Value → Bool)

/-- `v.get("id") == msg.get("id")`. -/
def sameId (v msg : Value) : Bool :=
  match v.get "id", msg.get "id" with
  | some a, some b => same a b
  | none, none => true
  | _, _ => false

def answersRequest (payloads : List Value) (msg : Value) : Bool :=
  payloads.any fun v => (v.get "method").isNone && sameId same v msg

/-- Whether a handshake is needed, as `ensure_backend_session` asks it. -/
def needed (next : Bool → Program Op α) : Program Op α :=
  .call .stateless fun stateless =>
    if stateless then next false
    else .call .session fun session => next session.isNone

def handshake (info : ServerInfo) (init : Value) (next : Program Op α) : Program Op α :=
  .call (.post info none init) fun
    | .error _ => next
    | .ok out =>
        let note : Program Op α :=
          .call (.post info out.sessionId (notification "notifications/initialized")) fun _ => next
        match out.sessionId with
        | some session => .call (.setSession session) fun _ => note
        | none => if out.staleSession then note else .call .setStateless fun _ => note

/-- `ensure_backend_session`: asked again once the handshake lock is held. -/
def ensureBackendSession (info : ServerInfo) (next : Program Op α) : Program Op α :=
  needed fun first =>
    if !first then next
    else needed fun second =>
      if !second then next
      else .call .cachedInit fun
        | none => next
        | some init => handshake info init.msg next

/-- What a post that was no failure and found its session leads to. -/
def answered (msg : Value) (out : PostOutcome) : ForwardResult :=
  if out.accepted then
    if !expectsReply msg then .accepted
    else .payloads [errorForRequest msg (-32603)
      "backend accepted the request with no response (HTTP 202)"]
  else if expectsReply msg && out.payloads.isEmpty then
    .payloads [errorForRequest msg (-32603) "backend returned an empty or non-JSON response"]
  else if expectsReply msg && !answersRequest same out.payloads msg then
    .payloads (out.payloads ++ [errorForRequest msg (-32603)
      ("backend ended the response without answering this request; a tool call may already " ++
        "have taken effect")])
  else .payloads out.payloads

/-- The attempts that are left. -/
def attempts (msg : Value) : Nat → ServerInfo → Program Op ForwardResult
  | 0, _ => .done (.unreachable unreachableMessage)
  | left + 1, info =>
      ensureBackendSession info <|
        .call .session fun session =>
          .call (.post info session msg) fun
            | .ok out =>
                if out.staleSession then
                  .call (.clearSessionIf session) fun _ =>
                    if 0 < left then
                      .call .rediscover fun found => attempts msg left (found.getD info)
                    else attempts msg left info
                else
                  match out.sessionId with
                  | some fresh => .call (.setSession fresh) fun _ => .done (answered same msg out)
                  | none => .done (answered same msg out)
            | .error err =>
                .call (.clearSessionIf session) fun _ =>
                  if !mayReplay msg err then
                    .call .scan fun found =>
                      let stillUp := match found with
                        | .one _ => true
                        | _ => false
                      .done (.payloads [errorForRequest msg (-32000)
                        (undeliveredResponseMessage msg err stillUp)])
                  else if 0 < left then
                    .call .rediscover fun
                      | some found => attempts msg left found
                      | none => .done (.unreachable unreachableMessage)
                  else attempts msg left info

def forwardWithRetries (msg : Value) : Program Op ForwardResult :=
  .call .scan fun
    | .one info => attempts same msg maxRetries info
    | .ambiguous labels => .done (.unreachable (ambiguousMessage labels))
    | .none => .done (.unreachable unreachableMessage)
    | .pinDown port => .done (.unreachable (pinDownMessage port))
    | .refused why => .done (.unreachable why)

/-! ## Lines -/

variable (fallbackTools : List Value)

/-- `handle_request`: the reply lines that a forward's result leads to. -/
def requestReplies (msg : Value) (result : ForwardResult) : List Value :=
  if method msg = "tools/list" then
    match result with
    | .payloads lines => lines
    | _ => [fallbackToolsResponse fallbackTools msg]
  else if method msg = "resources/list" ∨ method msg = "resources/templates/list" ∨
      method msg = "prompts/list" then
    match result with
    | .payloads lines => lines
    | _ => [emptyListResponse msg]
  else
    match result with
    | .payloads lines => lines
    | .accepted => [errorForRequest msg (-32603)
        "backend accepted the request with no response (HTTP 202)"]
    | .unreachable why => [errorForRequest msg (-32000) why]

/-- What `handle_line` does with a line: lines it writes at once, or an `initialize` to remember
and answer, or a message for the one-way forwarder, or a request for a task of its own. -/
inductive Handling where
  | write (lines : List Value)
  | localInit (init : InitMessage)
  | oneWay (msg : Value)
  | request (msg : Value)

/-- `backendUp` is the poller's flag; `permit` says whether fewer than `MAX_IN_FLIGHT` requests are
in flight. -/
def handleLine (backendUp permit : Bool) (msg : Value) : Handling :=
  match msg with
  | .array items => .write (batchRejection items).toList
  | msg =>
      if (msg.get "method").isNone then
        if isClientResponse msg then .oneWay msg
        else .write [errorReply (id msg) invalidRequest
          "invalid request: a JSON-RPC request needs a `method`"]
      else if (method msg = "initialize" ∨ method msg = "ping") ∧ expectsReply msg = false then
        .write []
      else if hinit : method msg = "initialize" then .localInit ⟨msg, hinit⟩
      else if method msg = "notifications/initialized" then
        .write (if backendUp then [notification "notifications/tools/list_changed",
          notification "notifications/resources/list_changed"] else [])
      else if method msg = "ping" then .write [resultReply (id msg) (.object [])]
      else if expectsReply msg = false then .oneWay msg
      else if permit then .request msg
      else .write [errorReply (id msg) (-32000)
        "victauri bridge: 32 requests are already in flight; retry when one completes"]

/-- All that becomes of a line, with the lines written for it; `queued` says whether the one-way
queue had room. -/
def lineProgram (backendUp permit queued : Bool) (msg : Value) : Program Op (List Value) :=
  let written (result : ForwardResult) : List Value := requestReplies fallbackTools msg result
  match handleLine backendUp permit msg with
  | .write lines => .done lines
  | .localInit init =>
      .call (.cacheInit init) fun _ => .done [localInitializeResponse init.msg]
  | .oneWay msg => if queued then (forwardWithRetries same msg).map fun _ => [] else .done []
  | .request msg => (forwardWithRetries same msg).map written

end Forwarding

end Victauri.Cli.Bridge
