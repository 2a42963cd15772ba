import Mathlib.Data.List.Basic

/-!
# The privacy configuration

`privacy.rs`: what a profile permits, and the names, commands and storage keys an operator takes
away.  A set is the list of its members.
-/

namespace Victauri.Plugin

inductive PrivacyProfile where
  | observe
  | test
  | fullControl
  deriving DecidableEq

structure PrivacyConfig where
  profile : PrivacyProfile
  commandAllowlist : Option (List String)
  commandBlocklist : List String
  disabledTools : List String
  storageKeyBlocklist : List String
  deriving DecidableEq

namespace PrivacyConfig

/-- The default but for the profile. -/
def ofProfile (profile : PrivacyProfile) : PrivacyConfig :=
  { profile
    commandAllowlist := none
    commandBlocklist := []
    disabledTools := []
    storageKeyBlocklist := [] }

/-! ## The matrix -/

/-- What `is_allowed_by_profile` lists for `Test`. -/
def testMatrix : List String :=
  ["dom_snapshot", "find_elements", "get_registry", "get_memory_stats", "get_plugin_info",
    "get_diagnostics", "detect_ghost_commands", "check_ipc_integrity", "resolve_command",
    "wait_for", "app_state", "interact", "interact.click", "interact.double_click",
    "interact.hover", "interact.focus", "interact.scroll_into_view", "interact.select_option",
    "fill", "input", "input.fill", "type_text", "input.type_text", "input.press_key", "storage",
    "set_storage", "storage.set", "delete_storage", "storage.delete", "storage.get",
    "storage.get_cookies", "get_storage", "get_cookies", "recording", "recording.start",
    "recording.stop", "recording.checkpoint", "recording.list_checkpoints", "recording.get_events",
    "recording.events_between", "recording.get_replay", "recording.export", "recording.import",
    "logs", "logs.console", "logs.network", "logs.ipc", "logs.navigation", "logs.dialogs",
    "logs.events", "logs.slow_ipc", "logs.backend", "logs.backend_digest", "logs.stdout",
    "logs.clear", "inspect", "inspect.styles", "inspect.bounds", "inspect.highlight",
    "inspect.clear_highlights", "inspect.audit_a11y", "inspect.performance", "list_windows",
    "window", "window.get_state", "window.list", "window.introspectability", "get_window_state",
    "navigate", "navigate.go_back", "navigate.get_history", "navigate.get_dialog_log"]

/-- What `is_allowed_by_profile` lists for `Observe`. -/
def observeMatrix : List String :=
  ["dom_snapshot", "find_elements", "get_registry", "get_memory_stats", "get_plugin_info",
    "get_diagnostics", "detect_ghost_commands", "check_ipc_integrity", "resolve_command",
    "app_state", "logs", "logs.console", "logs.network", "logs.ipc", "logs.navigation",
    "logs.dialogs", "logs.events", "logs.slow_ipc", "logs.backend", "logs.backend_digest",
    "logs.stdout", "inspect", "inspect.styles", "inspect.bounds", "inspect.audit_a11y",
    "inspect.performance", "list_windows", "window", "window.get_state", "window.list",
    "window.introspectability", "get_window_state", "wait_for"]

def isAllowedByProfile (profile : PrivacyProfile) (toolOrAction : String) : Bool :=
  match profile with
  | .fullControl => true
  | .test => testMatrix.contains toolOrAction
  | .observe => observeMatrix.contains toolOrAction

/-! ## The aliases of `authz.rs` -/

/-- Capability ids whose action is spelled differently: the id and the other spelling. -/
def capabilityAliases : List (String × String) :=
  [("inspect.styles", "inspect.get_styles"),
    ("inspect.bounds", "inspect.get_bounding_boxes"),
    ("inspect.audit_a11y", "inspect.audit_accessibility"),
    ("inspect.performance", "inspect.get_performance"),
    ("storage.get", "get_storage"),
    ("storage.get_cookies", "get_cookies"),
    ("window.get_state", "get_window_state"),
    ("window.list", "list_windows")]

/-- The other spelling of a capability whose id differs from its `tool.action` name. -/
def capabilityAlias (name : String) : Option String :=
  capabilityAliases.findSome? fun p =>
    if name = p.1 then some p.2 else if name = p.2 then some p.1 else none

/-! ## The checks -/

variable (config : PrivacyConfig)

def isCommandAllowed (command : String) : Bool :=
  if config.commandBlocklist.contains command then false
  else
    match config.commandAllowlist with
    | some allow => allow.contains command
    | none => true

def isStorageKeyAllowed (key : String) : Bool := !config.storageKeyBlocklist.contains key

def testProfileAllowlistsCommands : Bool :=
  config.profile == .test && config.commandAllowlist.any fun allow => !allow.isEmpty

def isDisabled (name : String) : Bool :=
  config.disabledTools.contains name ||
    (capabilityAlias name).any fun spelling => config.disabledTools.contains spelling

def isToolEnabled (toolOrAction : String) : Bool :=
  if config.isDisabled toolOrAction then false
  else
    isAllowedByProfile config.profile toolOrAction ||
      (toolOrAction == "invoke_command" && config.testProfileAllowlistsCommands)

def isCallAllowed (bareTool capability : String) : Bool :=
  if config.disabledTools.contains bareTool then false else config.isToolEnabled capability

def isInvokeAllowed (command : String) : Bool :=
  if config.disabledTools.contains "invoke_command" then false
  else
    match config.profile with
    | .fullControl => true
    | .test => config.commandAllowlist.any fun allow => allow.contains command
    | .observe => false

end PrivacyConfig

end Victauri.Plugin
