import Victauri.Library.Run

/-!
# The watchdog

`main.rs` of `victauri-watchdog`: a loop that polls an app, follows it when it restarts elsewhere,
and runs a recovery action when it stays down.  What a round of the loop finds (whether processes
live, what `/health` answers, what the discovery directories hold) is given to it.
-/

namespace Victauri.Watchdog

/-! ## Configuration -/

/-- `MIN_MAX_FAILURES`. -/
def minMaxFailures : UInt32 := 1

/-- `DEFAULT_MAX_FAILURES`. -/
def defaultMaxFailures : UInt32 := 3

/-- `DEFAULT_PORT`. -/
def defaultPort : UInt16 := 7373

structure Config where
  port : UInt16
  portExplicit : Bool
  app : Option String
  maxFailures : UInt32
  maxFailures_ge : minMaxFailures ≤ maxFailures

/-- `raw` is what `VICTAURI_MAX_FAILURES` parses to. -/
def clampMaxFailures (raw : Option UInt32) : UInt32 :=
  let value := raw.getD defaultMaxFailures
  if value < minMaxFailures then minMaxFailures else value

theorem le_clampMaxFailures (raw : Option UInt32) : minMaxFailures ≤ clampMaxFailures raw := by
  rw [clampMaxFailures]
  split_ifs with hlt
  · exact UInt32.le_refl _
  · exact UInt32.not_lt.mp hlt

def explicitPort (env arg : Option UInt16) : Option UInt16 :=
  (env.filter (· ≠ 0)).or (arg.filter (· ≠ 0))

def Config.fromEnv (envPort argPort : Option UInt16) (app : Option String)
    (maxFailures : Option UInt32) : Config :=
  { port := (explicitPort envPort argPort).getD defaultPort
    portExplicit := (explicitPort envPort argPort).isSome
    app := app
    maxFailures := clampMaxFailures maxFailures
    maxFailures_ge := le_clampMaxFailures maxFailures }

/-! ## Discovery -/

/-- The fields of `metadata.json` that are strings. -/
structure Metadata where
  identifier : Option String
  productName : Option String

/-- A field that is not empty. -/
def nonempty (field : Option String) : Option String := field.filter (· ≠ "")

/-- `eq_ignore_ascii_case`. -/
def eqIgnoreAsciiCase (a b : String) : Bool :=
  a.toList.map Char.toLower == b.toList.map Char.toLower

structure DiscoveredApp where
  pid : UInt32
  port : UInt16
  identity : Option String
  deriving DecidableEq

inductive Selector where
  | any
  | app (want : String)
  | pinned (identity : String)
  | pid (pid : UInt32)
  deriving DecidableEq

def same (value : Option String) (want : String) : Bool :=
  value.any fun v => eqIgnoreAsciiCase v want

namespace Selector

def accepts (selector : Selector) (pid : UInt32) (metadata : Metadata) : Bool :=
  match selector with
  | any => true
  | app want => same (nonempty metadata.identifier) want || same (nonempty metadata.productName) want
  | pinned identity =>
      match nonempty metadata.identifier with
      | some identifier => eqIgnoreAsciiCase identifier identity
      | none => same (nonempty metadata.productName) identity
  | Selector.pid p => p == pid

def pin (selector : Selector) (app : DiscoveredApp) : Selector :=
  match selector with
  | pinned identity => pinned identity
  | _ => app.identity.elim (Selector.pid app.pid) pinned

end Selector

/-- A directory under a root: the pid its name is, whether it is trusted, and what its files hold. -/
structure Entry where
  pid : Option UInt32
  trusted : Bool
  port : Option UInt16
  metadata : Metadata

structure Root where
  trusted : Bool
  entries : List Entry

/-- The identifier, else the product name. -/
def Metadata.identity (metadata : Metadata) : Option String :=
  (nonempty metadata.identifier).or (nonempty metadata.productName)

/-- What the loop of `discover_in` takes an entry for. -/
def Entry.app (entry : Entry) (selector : Selector) (isAlive : UInt32 → Bool) :
    Option DiscoveredApp :=
  match entry.pid, entry.port.filter (· ≠ 0) with
  | some pid, some port =>
      if entry.trusted && selector.accepts pid entry.metadata && isAlive pid then
        some { pid := pid, port := port, identity := entry.metadata.identity }
      else none
  | _, _ => none

inductive Discovery where
  | found (app : DiscoveredApp)
  | none
  | ambiguous (apps : List (UInt32 × UInt16))

/-- `sort_unstable`. -/
def sortApps (apps : List (UInt32 × UInt16)) : List (UInt32 × UInt16) :=
  apps.mergeSort fun a b => decide (a.1 < b.1) || a.1 == b.1 && decide (a.2 ≤ b.2)

def discoverIn (root : Root) (selector : Selector) (isAlive : UInt32 → Bool) : Discovery :=
  if root.trusted then
    match root.entries.filterMap fun entry => entry.app selector isAlive with
    | [] => .none
    | [app] => .found app
    | apps => .ambiguous (sortApps (apps.map fun app => (app.pid, app.port)))
  else .none

/-- The apps seen so far, each pid once, and those a root had to itself. -/
structure Merged where
  apps : List (UInt32 × UInt16)
  found : List DiscoveredApp

def Merged.has (merged : Merged) (pid : UInt32) : Bool := merged.apps.any fun app => app.1 == pid

def Merged.add (merged : Merged) : Discovery → Merged
  | .found app =>
      if merged.has app.pid then merged
      else { apps := merged.apps ++ [(app.pid, app.port)], found := merged.found ++ [app] }
  | .ambiguous more =>
      more.foldl (fun merged app =>
        if merged.has app.1 then merged else { merged with apps := merged.apps ++ [app] }) merged
  | .none => merged

def discoverInRoots (roots : List Root) (selector : Selector) (isAlive : UInt32 → Bool) :
    Discovery :=
  let merged : Merged := roots.foldl
    (fun (merged : Merged) root => merged.add (discoverIn root selector isAlive))
    { apps := [], found := [] }
  match merged.apps, merged.found with
  | [], _ => .none
  | [_], [app] => .found app
  | apps, _ => .ambiguous (sortApps apps)

/-- `process::Liveness`. -/
inductive Liveness where
  | own
  | otherUser
  | unverified
  | dead
  | unknown
  deriving DecidableEq

def isGone (liveness : Liveness) : Bool := liveness == .dead || liveness == .otherUser

def discoverApp (roots : List Root) (selector : Selector) (liveness : UInt32 → Liveness) :
    Option DiscoveredApp :=
  match discoverInRoots roots selector fun pid => !isGone (liveness pid) with
  | .found app => some app
  | _ => none

/-! ## The target -/

structure Target where
  port : UInt16
  pid : Option UInt32
  deriving DecidableEq

def DiscoveredApp.target (app : DiscoveredApp) : Target := { port := app.port, pid := some app.pid }

def initialTarget (config : Config) (selector : Selector) (discovered : Option DiscoveredApp) :
    Option Target × Selector :=
  if config.portExplicit then (some { port := config.port, pid := none }, selector)
  else
    match discovered with
    | some app => (some app.target, selector.pin app)
    | none =>
        if config.app.isSome then (none, selector)
        else (some { port := defaultPort, pid := none }, selector)

def followTarget (current : Option Target) (selector : Selector)
    (discovered : Option DiscoveredApp) : Option Target × Selector :=
  match discovered with
  | none => (none, selector)
  | some app =>
      if current = some app.target then (none, selector)
      else (some app.target, selector.pin app)

def healthStatusMeansAlive (status : UInt16) : Bool :=
  decide (200 ≤ status) && decide (status < 300) || status == 429

/-- `status` is what `/health` of the target answers, if it answers. -/
def pollHealth (target : Option Target) (liveness : UInt32 → Liveness) (status : Option UInt16) :
    Bool :=
  match target with
  | none => false
  | some target =>
      !(target.pid.any fun pid => isGone (liveness pid)) && status.any healthStatusMeansAlive

/-! ## The loop -/

/-- What one round of the loop finds: at the poll, and at the discovery after it. -/
structure Round where
  liveness : UInt32 → Liveness
  status : Option UInt16
  livenessAfter : UInt32 → Liveness
  roots : List Root

structure Watch where
  target : Option Target
  selector : Selector
  consecutiveFailures : UInt32
  actionFired : Bool
  deriving DecidableEq

/-- Whether the poll of a round failed, and whether the recovery action ran in it. -/
structure Outcome where
  failed : Bool
  acted : Bool
  deriving DecidableEq

def start (config : Config) (roots : List Root) (liveness : UInt32 → Liveness) : Watch :=
  let selector := config.app.elim .any .app
  let discovered := if config.portExplicit then none else discoverApp roots selector liveness
  let (target, selector) := initialTarget config selector discovered
  { target := target, selector := selector, consecutiveFailures := 0, actionFired := false }

def Watch.poll (w : Watch) (up : Bool) : Watch :=
  if up then
    if 0 < w.consecutiveFailures then { w with consecutiveFailures := 0, actionFired := false }
    else w
  else { w with consecutiveFailures := w.consecutiveFailures + 1 }

def Watch.follow (w : Watch) (config : Config) (roots : List Root)
    (liveness : UInt32 → Liveness) : Watch :=
  if 0 < w.consecutiveFailures ∧ config.portExplicit = false then
    match followTarget w.target w.selector (discoverApp roots w.selector liveness) with
    | (some next, selector) => { w with target := some next, selector := selector }
    | (none, _) => w
  else w

def Watch.turn (w : Watch) (config : Config) (round : Round) : Watch × Outcome :=
  let up := pollHealth w.target round.liveness round.status
  let w := (w.poll up).follow config round.roots round.livenessAfter
  let acts := decide (config.maxFailures ≤ w.consecutiveFailures) && !w.actionFired
  ({ w with actionFired := w.actionFired || acts }, { failed := !up, acted := acts })

/-- `Step config w (round, outcome) w'`: a round of the loop. -/
def Step (config : Config) (w : Watch) (a : Round × Outcome) (w' : Watch) : Prop :=
  w.turn config a.1 = (w', a.2)

end Victauri.Watchdog
