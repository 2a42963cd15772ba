import Victauri.Core.Json.Text
import Victauri.Core.Localhost
import Victauri.Plugin.Privacy

/-!
# Who may call what

`authz.rs`, which finds the capability a tool call needs, and the checks a call meets on its way:
that of the dispatcher (`execute_tool`, `call_tool`) and those its handler makes before it does
what they guard.
-/

namespace Victauri.Plugin.Mcp.Authz

open Victauri.Core

/-! ## Names -/

/-- The tools that carry an `action`. -/
def compoundTools : List String :=
  ["interact", "input", "window", "storage", "navigate", "recording", "inspect", "css", "route",
    "trace", "animation", "logs", "introspect", "fault", "explain"]

def standaloneTools : List String :=
  ["eval_js", "dom_snapshot", "find_elements", "invoke_command", "screenshot", "verify_state",
    "detect_ghost_commands", "check_ipc_integrity", "wait_for", "assert_semantic",
    "resolve_command", "get_registry", "app_state", "get_memory_stats", "get_plugin_info",
    "get_diagnostics", "app_info", "list_app_dir", "read_app_file", "query_db"]

/-- The actions of each compound tool, as its `action` is spelled. -/
def compoundActions : List (String × List String) :=
  [("interact", ["click", "double_click", "hover", "focus", "scroll_into_view", "select_option"]),
    ("input", ["fill", "type_text", "press_key"]),
    ("window", ["get_state", "list", "manage", "resize", "move_to", "set_title",
      "introspectability"]),
    ("storage", ["get", "set", "delete", "get_cookies"]),
    ("navigate", ["go_to", "go_back", "get_history", "set_dialog_response", "get_dialog_log"]),
    ("recording", ["start", "stop", "checkpoint", "list_checkpoints", "get_events",
      "events_between", "get_replay", "export", "import", "replay", "flush"]),
    ("inspect", ["get_styles", "get_bounding_boxes", "highlight", "clear_highlights",
      "audit_accessibility", "get_performance"]),
    ("css", ["inject", "remove"]),
    ("route", ["add", "list", "clear", "clear_all", "matches"]),
    ("trace", ["start", "stop", "status", "frames"]),
    ("animation", ["list", "scrub", "sample"]),
    ("logs", ["console", "network", "ipc", "navigation", "dialogs", "events", "slow_ipc",
      "clear", "backend", "backend_digest", "stdout"]),
    ("introspect", ["command_timings", "coverage", "command_catalog", "contract_record",
      "contract_check", "contract_list", "contract_clear", "startup_timing", "capabilities",
      "db_health", "plugin_state", "processes", "plugin_tasks", "event_bus",
      "event_bus_clear"]),
    ("fault", ["inject", "list", "clear", "clear_all"]),
    ("explain", ["summary", "last_action", "diff"])]

/-- Older names that some handlers still check. -/
def legacyNames : List String :=
  ["fill", "type_text", "set_storage", "delete_storage", "get_storage", "get_cookies",
    "inject_css", "set_dialog_response", "get_window_state", "list_windows"]

def isCompoundTool (tool : String) : Bool := compoundTools.contains tool

/-- Whether a name is something that `disabled_tools` can match. -/
def isKnownName (name : String) : Bool :=
  if standaloneTools.contains name || compoundTools.contains name || legacyNames.contains name ||
      (Plugin.PrivacyConfig.capabilityAlias name).isSome then true
  else
    match Localhost.splitOnce '.' name.toList with
    | none => false
    | some (tool, action) =>
        compoundActions.any fun p =>
          p.1.toList == tool && p.2.any fun known => known.toList == action

def unknownNames (names : List String) : List String := names.filter fun name => !isKnownName name

/-! ## Capabilities -/

/-- The branch of a tool whose capabilities are its actions' names after its own. -/
def qualified (tool : String) (actions : List String) (action : String) : Option String :=
  if actions.contains action then some (tool ++ "." ++ action) else none

def actionCapability (tool action : String) : Option String :=
  match tool with
  | "interact" =>
      qualified tool ["click", "double_click", "hover", "focus", "scroll_into_view",
        "select_option"] action
  | "input" => qualified tool ["fill", "type_text", "press_key"] action
  | "window" =>
      qualified tool ["get_state", "list", "manage", "resize", "move_to", "set_title",
        "introspectability"] action
  | "storage" => qualified tool ["get", "set", "delete", "get_cookies"] action
  | "navigate" =>
      qualified tool ["go_to", "go_back", "get_history", "set_dialog_response", "get_dialog_log"]
        action
  | "recording" =>
      qualified tool ["start", "stop", "checkpoint", "list_checkpoints", "get_events",
        "events_between", "get_replay", "export", "import", "replay", "flush"] action
  | "inspect" =>
      -- here the ids differ from the actions
      match action with
      | "get_styles" => some "inspect.styles"
      | "get_bounding_boxes" => some "inspect.bounds"
      | "highlight" => some "inspect.highlight"
      | "clear_highlights" => some "inspect.clear_highlights"
      | "audit_accessibility" => some "inspect.audit_a11y"
      | "get_performance" => some "inspect.performance"
      | _ => none
  | "css" => qualified tool ["inject", "remove"] action
  | "route" => qualified tool ["add", "list", "clear", "clear_all", "matches"] action
  | "trace" => qualified tool ["start", "stop", "status", "frames"] action
  | "animation" => qualified tool ["list", "scrub", "sample"] action
  | "logs" =>
      qualified tool ["console", "network", "ipc", "navigation", "dialogs", "events", "slow_ipc",
        "clear", "backend", "backend_digest", "stdout"] action
  | "introspect" =>
      qualified tool ["command_timings", "coverage", "command_catalog", "contract_record",
        "contract_check", "contract_list", "contract_clear", "startup_timing", "capabilities",
        "db_health", "plugin_state", "processes", "plugin_tasks", "event_bus",
        "event_bus_clear"] action
  | "fault" => qualified tool ["inject", "list", "clear", "clear_all"] action
  | "explain" => qualified tool ["summary", "last_action", "diff"] action
  | _ => none

def isObject : Json.Value → Bool
  | .object _ => true
  | _ => false

def resolveCapability (tool : String) (args : Json.Value) : Except String String :=
  if !isObject args then .error s!"arguments for '{tool}' must be a JSON object"
  else if !isCompoundTool tool then .ok tool
  else
    match args.get "action" with
    | some (.string action) => .ok ((actionCapability tool action).getD tool)
    | none => .ok tool
    | some _ => .error s!"`action` for tool '{tool}' must be a string"

/-! ## The dispatcher -/

inductive Decision where
  | dispatched
  | disabled (name : String)
  | invalid (message : String)
  deriving DecidableEq

/-- What `execute_tool` and `call_tool` decide before they dispatch. -/
def executeTool (config : Plugin.PrivacyConfig) (tool : String) (args : Json.Value) : Decision :=
  if config.disabledTools.contains tool then .disabled tool
  else
    match resolveCapability tool args with
    | .error message => .invalid message
    | .ok capability =>
        if !config.isCallAllowed tool capability then .disabled capability else .dispatched

/-! ## The handlers -/

/-- A check that a handler makes before it does what it guards. -/
inductive Gate where
  | toolEnabled (name : String)
  | callAllowed (tool capability : String)
  | invokeAllowed (command : String)
  | commandAllowed (command : String)
  | storageKeyAllowed (key : String)
  deriving DecidableEq

def Gate.passes (config : Plugin.PrivacyConfig) : Gate → Bool
  | .toolEnabled name => config.isToolEnabled name
  | .callAllowed tool capability => config.isCallAllowed tool capability
  | .invokeAllowed command => config.isInvokeAllowed command
  | .commandAllowed command => config.isCommandAllowed command
  | .storageKeyAllowed key => config.isStorageKeyAllowed key

def textArg (args : Json.Value) (key : String) : Option String :=
  (args.get key).bind Json.Value.asStr

def boolArg (args : Json.Value) (key : String) : Bool :=
  match args.get key with
  | some (.bool b) => b
  | _ => false

/-- An optional argument that is there. -/
def hasArg (args : Json.Value) (key : String) : Bool :=
  match args.get key with
  | none | some .null => false
  | some _ => true

/-- The command of a call is checked twice over. -/
def commandGates (command : Option String) : List Gate :=
  match command with
  | some command => [.invokeAllowed command, .commandAllowed command]
  | none => []

/-- The checks of each handler.  A wait for a log line needs what reading the log needs, which is
the captured output where that is the only source. -/
def gates (readsStdout : Bool) (tool : String) (args : Json.Value) : List Gate :=
  let action := (textArg args "action").getD ""
  match tool with
  | "eval_js" => [.toolEnabled "eval_js"]
  | "invoke_command" =>
      commandGates (textArg args "command") ++
        if boolArg args "with_logs" then [.callAllowed "logs" "logs.backend"] else []
  | "screenshot" => [.toolEnabled "screenshot"]
  | "verify_state" =>
      .toolEnabled "eval_js" ::
        if hasArg args "backend_state" then [] else commandGates (textArg args "backend_command")
  | "wait_for" =>
      match (textArg args "condition").getD "" with
      | "expression" => [.toolEnabled "eval_js"]
      | "log" => [.callAllowed "logs" (if readsStdout then "logs.stdout" else "logs.backend")]
      | _ => []
  | "assert_semantic" => [.toolEnabled "eval_js"]
  | "interact" => [.toolEnabled "interact", .toolEnabled ("interact." ++ action)]
  | "input" =>
      match action with
      | "press_key" => [.toolEnabled "input.press_key"]
      | _ => [.toolEnabled action]
  | "window" =>
      if ["manage", "resize", "move_to", "set_title"].contains action then
        [.toolEnabled ("window." ++ action)]
      else []
  | "storage" =>
      match action with
      | "set" => .toolEnabled "set_storage" ::
          ((textArg args "key").map Gate.storageKeyAllowed).toList
      | "delete" => [.toolEnabled "delete_storage"]
      | _ => []
  | "navigate" =>
      match action with
      | "go_to" => [.toolEnabled "navigate"]
      | "set_dialog_response" => [.toolEnabled "set_dialog_response"]
      | _ => []
  | "recording" => [.toolEnabled "recording"]
  | "inspect" =>
      match action with
      | "highlight" => [.toolEnabled "inspect.highlight"]
      | "clear_highlights" => [.toolEnabled "inspect.clear_highlights"]
      | _ => []
  | "css" =>
      match action with
      | "inject" => [.toolEnabled "inject_css"]
      | _ => [.toolEnabled "css.remove"]
  | "route" => if action == "add" then [.toolEnabled "route.add"] else []
  | "trace" => [.toolEnabled "trace", .toolEnabled "screenshot"]
  | "animation" =>
      .toolEnabled "animation" ::
        if action == "scrub" && boolArg args "capture" then [.toolEnabled "screenshot"] else []
  | "logs" => if action == "clear" then [.toolEnabled "logs.clear"] else []
  | "introspect" =>
      .toolEnabled "introspect" ::
        if action == "contract_record" then commandGates (textArg args "command") else []
  | "fault" => [.toolEnabled "fault"]
  | "explain" => [.toolEnabled "explain"]
  | _ => []

/-- The handler's parameters name an action it has. -/
def hasHandler (tool : String) (args : Json.Value) : Bool :=
  if isCompoundTool tool then
    (textArg args "action").any fun action =>
      compoundActions.any fun p => p.1 == tool && p.2.contains action
  else standaloneTools.contains tool

/-- The call is carried out. -/
def permitted (config : Plugin.PrivacyConfig) (readsStdout : Bool) (tool : String)
    (args : Json.Value) : Bool :=
  decide (executeTool config tool args = .dispatched) && hasHandler tool args &&
    (gates readsStdout tool args).all (Gate.passes config)

end Victauri.Plugin.Mcp.Authz
