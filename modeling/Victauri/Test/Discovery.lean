import Mathlib.Data.List.Dedup

/-!
# Discovery

`discovery.rs` of `victauri-test`: the live servers of the discovery directories, and the endpoint
that a client connects to.  What the scan finds on the disk and what a server answers to `GET /info`
are given to it.
-/

namespace Victauri.Test.Discovery

/-! ## Text for a terminal -/

/-- `char::is_control`. -/
def isControl (c : Char) : Bool := c.toNat < 0x20 || (0x7f ≤ c.toNat && c.toNat < 0xa0)

def isBidiControl (c : Char) : Bool :=
  c.toNat = 0x061c || c.toNat = 0x200e || c.toNat = 0x200f ||
    (0x202a ≤ c.toNat && c.toNat ≤ 0x202e) || (0x2066 ≤ c.toNat && c.toNat ≤ 0x2069)

def escapeChar (c : Char) : List Char :=
  if c = '\n' then ['\\', 'n']
  else if c = '\r' then ['\\', 'r']
  else if c = '\t' then ['\\', 't']
  else if isControl c || isBidiControl c then
    ['\\', 'u', '\x7b'] ++ Nat.toDigits 16 c.toNat ++ ['\x7d']
  else [c]

def singleLine (text : String) : String := String.ofList (text.toList.flatMap escapeChar)

/-! ## Servers -/

structure DiscoveredServer where
  pid : UInt32
  port : UInt16
  token : Option String
  identifier : Option String
  productName : Option String
  deriving DecidableEq

/-- The two names are compared without regard to the case of ASCII letters. -/
def identityMatches (identifier productName : Option String) (app : String) : Bool :=
  let same (v : String) := v.toList.map Char.toLower == app.toList.map Char.toLower
  identifier.any same || productName.any same

namespace DiscoveredServer

def matchesApp (server : DiscoveredServer) (app : String) : Bool :=
  identityMatches server.identifier server.productName app

def label (server : DiscoveredServer) : String :=
  let name := (server.identifier.or server.productName).getD "<unknown app>"
  s!"{singleLine name} (port {server.port}, pid {server.pid})"

end DiscoveredServer

/-! ## The scan -/

inductive Liveness where
  | own
  | otherUser
  | unverified
  | dead
  | unknown
  deriving DecidableEq

/-- What the files of `<root>/<pid>/` say; `port` is `none` where its file does not parse. -/
structure Entry where
  pid : UInt32
  trusted : Bool
  port : Option UInt16
  token : Option String
  identifier : Option String
  productName : Option String

/-- The entries whose owner lives and is ours, and whose port answers. -/
def findLiveServersIn (liveness : UInt32 → Liveness) (isReachable : UInt16 → Bool)
    (entries : List Entry) : List DiscoveredServer :=
  entries.filterMap fun entry =>
    if entry.trusted && liveness entry.pid = .own then
      entry.port.bind fun port =>
        if isReachable port then
          some
            { pid := entry.pid
              port
              token := entry.token.filter (· ≠ "")
              identifier := entry.identifier.filter (· ≠ "")
              productName := entry.productName.filter (· ≠ "") }
        else none
    else none

inductive InfoAnswer where
  | accepted (pid : Option UInt32)
  | refused
  | unknown
  deriving DecidableEq

def realPortClaims (answers : List (UInt32 × InfoAnswer)) : List UInt32 :=
  let reported := answers.findSome? fun a =>
    match a.2 with
    | .accepted pid => pid
    | _ => none
  let isAccepted (answer : InfoAnswer) : Bool :=
    match answer with
    | .accepted _ => true
    | _ => false
  let accepted := answers.any fun a => isAccepted a.2
  (answers.filter fun a =>
    match reported, accepted with
    | some server, _ => a.1 = server
    | none, true => isAccepted a.2
    | none, false => true).map Prod.fst

/-- The pids of one port that are not its server's; `askInfo` is asked for each claim. -/
def droppedClaims (askInfo : UInt16 → Option String → InfoAnswer)
    (servers : List DiscoveredServer) (port : UInt16) : List UInt32 :=
  let claims := servers.filter fun server => server.port = port
  let real := realPortClaims (claims.map fun server => (server.pid, askInfo port server.token))
  (claims.map DiscoveredServer.pid).filter fun pid => !real.contains pid

def settlePortClaims (askInfo : UInt16 → Option String → InfoAnswer)
    (servers : List DiscoveredServer) : List DiscoveredServer :=
  let contested := (servers.map DiscoveredServer.port).filter fun port =>
    1 < (servers.filter fun s => s.port = port).length
  let dropped := contested.dedup.flatMap (droppedClaims askInfo servers)
  servers.filter fun server => !dropped.contains server.pid

/-- What a scan of the discovery roots depends on. -/
structure World where
  roots : List (List Entry)
  liveness : UInt32 → Liveness
  isReachable : UInt16 → Bool
  askInfo : UInt16 → Option String → InfoAnswer

/-- A pid that was found under an earlier root counts once. -/
def addNew (servers : List DiscoveredServer) (server : DiscoveredServer) :
    List DiscoveredServer :=
  if servers.any fun seen => seen.pid = server.pid then servers else servers ++ [server]

def findLiveServers (w : World) : List DiscoveredServer :=
  settlePortClaims w.askInfo
    ((w.roots.flatMap (findLiveServersIn w.liveness w.isReachable)).foldl addNew [])

/-! ## The endpoint -/

def uniqueServerOnPort (servers : List DiscoveredServer) (port : UInt16) :
    Option DiscoveredServer :=
  match servers.filter fun server => server.port = port with
  | [server] => some server
  | _ => none

def uniqueTokenForPort (servers : List DiscoveredServer) (port : UInt16) : Option String :=
  (uniqueServerOnPort servers port).bind DiscoveredServer.token

def ambiguousPrefix : String := "Multiple Victauri apps are running"

def nothingDiscovered : String := "No Victauri app is running"

def portAppMismatch (port : UInt16) (found app : String) : String :=
  s!"VICTAURI_PORT={port} is app {singleLine found}, but the app selector (--app / VICTAURI_APP) " ++
    s!"is '{singleLine app}'. Unset one of them, or point VICTAURI_PORT at that app's port."

def joinLabels (servers : List DiscoveredServer) : String :=
  "\n  ".intercalate (servers.map DiscoveredServer.label)

def ambiguityMessage (servers : List DiscoveredServer) : String :=
  s!"{ambiguousPrefix}:\n  {joinLabels servers}\nSelect one with `--app <bundle-identifier>` " ++
    "(victauri CLI) or the VICTAURI_APP env var, or pin the port with VICTAURI_PORT."

def tokenNotFound : String :=
  "VICTAURI_AUTH_TOKEN is set, but no running Victauri app's discovery entry carries that token, " ++
    "so it was not sent anywhere (without VICTAURI_PORT it would have gone to whatever process " ++
    "holds the default port). Set VICTAURI_PORT to the app's port to use this token explicitly, " ++
    "or unset VICTAURI_AUTH_TOKEN to use the discovered one."

def noSuchApp (app : String) (servers : List DiscoveredServer) : String :=
  let running :=
    if servers.isEmpty then " No Victauri app is running."
    else s!" Running apps:\n  {joinLabels servers}"
  s!"No running Victauri app matches the app selector '{singleLine app}' (VICTAURI_APP / --app: " ++
    s!"an exact bundle identifier or product name).{running}"

def noApp : String :=
  s!"{nothingDiscovered}. Start the app in a debug build, or set VICTAURI_PORT to name its " ++
    "endpoint explicitly."

/-- The error of an explicit port whose app is not the one that is asked for. -/
def portConflict (port : UInt16) (app : Option String) (servers : List DiscoveredServer) :
    Option String :=
  match app, uniqueServerOnPort servers port with
  | some app, some entry =>
      if (entry.identifier.isSome || entry.productName.isSome) && !entry.matchesApp app then
        some (portAppMismatch port entry.label app)
      else none
  | _, _ => none

def resolveFrom (explicitPort : Option UInt16) (explicitToken app : Option String)
    (servers : List DiscoveredServer) : Except String (UInt16 × Option String) :=
  match explicitPort with
  | some port =>
      match portConflict port app servers with
      | some why => .error why
      | none => .ok (port, explicitToken.or (uniqueTokenForPort servers port))
  | none =>
      let candidates := servers.filter fun server => app.all server.matchesApp
      match explicitToken with
      | some token =>
          match candidates.filter fun server => server.token = some token with
          | [owner] => .ok (owner.port, some token)
          | [] => .error tokenNotFound
          | many => .error (ambiguityMessage many)
      | none =>
          match candidates, app with
          | [one], _ => .ok (one.port, one.token)
          | [], some app => .error (noSuchApp app servers)
          | [], none => .error noApp
          | many, _ => .error (ambiguityMessage many)

/-- `manifestIdentifier` is the identifier in the `tauri.conf.json` of the crate under test. -/
def resolveInCrate (explicitPort : Option UInt16) (explicitToken app : Option String)
    (servers : List DiscoveredServer) (manifestIdentifier : Option String) :
    Except String (UInt16 × Option String) :=
  let resolved := resolveFrom explicitPort explicitToken app servers
  match resolved, app, manifestIdentifier with
  | .error why, none, some id =>
      if ambiguousPrefix.toList.isPrefixOf why.toList then
        resolveFrom explicitPort explicitToken (some id) servers
      else resolved
  | _, _, _ => resolved

/-- The scan is left out where nothing depends on it. -/
def tryResolveConnection (w : World) (port : Option UInt16) (token app : Option String)
    (manifestIdentifier : Option String) : Except String (UInt16 × Option String) :=
  let servers := if port.isSome && token.isSome && app.isNone then [] else findLiveServers w
  resolveInCrate port token app servers manifestIdentifier

end Victauri.Test.Discovery
