import Victauri.Core.Recording

/-!
# Tests written from a recording

`generate_test` of the core's `codegen.rs`, as a list of characters.  The date comes from the clock;
which characters `char::escape_debug` escapes as `\u` beyond those it names is a table of the
standard library.
-/

namespace Victauri.Core.Codegen

inductive CodegenStyle where
  | direct
  | locator
  deriving DecidableEq

structure CodegenOptions where
  testName : List Char
  includeIpcAssertions : Bool
  includeStateChecks : Bool
  includeTimingComments : Bool
  emitIpcAssertCalls : Bool
  style : CodegenStyle

def CodegenOptions.default : CodegenOptions where
  testName := "recorded_flow".toList
  includeIpcAssertions := true
  includeStateChecks := true
  includeTimingComments := true
  emitIpcAssertCalls := false
  style := .direct

/-- The characters that are not printable, or extend a grapheme; none is printable ASCII. -/
structure Unprintable where
  test : Char → Bool
  ascii : ∀ c, ' ' ≤ c → c ≤ '~' → test c = false

/-- A date as `%Y-%m-%d` writes it. -/
structure Date where
  text : List Char
  line : '\n' ∉ text

/-! ## Escaping -/

/-- Hexadecimal without leading zeros. -/
def hexText (n : Nat) : List Char :=
  if n < 16 then [Nat.digitChar n] else hexText (n / 16) ++ [Nat.digitChar (n % 16)]

/-- `char::escape_debug`. -/
def escapeDebug (unprintable : Unprintable) (c : Char) : List Char :=
  if c = '\x00' then ['\\', '0']
  else if c = '\t' then ['\\', 't']
  else if c = '\r' then ['\\', 'r']
  else if c = '\n' then ['\\', 'n']
  else if c = '\\' then ['\\', '\\']
  else if c = '"' then ['\\', '"']
  else if c = '\'' then ['\\', '\'']
  else if unprintable.test c then '\\' :: 'u' :: '\x7b' :: (hexText c.toNat ++ ['\x7d'])
  else [c]

/-- `escape_rust_str`. -/
def escapeRustStr (unprintable : Unprintable) (s : List Char) : List Char :=
  s.flatMap fun c => if c = '\'' then [c] else escapeDebug unprintable c

/-- `sanitize_comment`. -/
def sanitizeComment (unprintable : Unprintable) (s : List Char) : List Char :=
  s.flatMap fun c =>
    if c = '\n' ∨ c = '\r' then [' ']
    else if c = '"' ∨ c = '\'' ∨ c = '\\' then [c]
    else escapeDebug unprintable c

def rustKeywords : List String :=
  ["Self", "abstract", "as", "async", "await", "become", "box", "break", "const", "continue",
    "crate", "do", "dyn", "else", "enum", "extern", "false", "final", "fn", "for", "gen", "if",
    "impl", "in", "let", "loop", "macro", "match", "mod", "move", "mut", "override", "priv", "pub",
    "ref", "return", "self", "static", "struct", "super", "trait", "true", "try", "type", "typeof",
    "union", "unsafe", "unsized", "use", "virtual", "where", "while", "yield"]

/-- The characters of an identifier, from the index of the first. -/
def identifierChars : (index : Nat) → List Char → List Char
  | _, [] => []
  | index, c :: rest =>
      let valid := if index = 0 then c.isAlpha || c = '_' else c.isAlphanum || c = '_'
      let written :=
        if valid then [c] else if index = 0 ∧ c.isDigit then ['_', '_'] else ['_']
      written ++ identifierChars (index + 1) rest

/-- `sanitize_rust_identifier`. -/
def sanitizeRustIdentifier (s : List Char) : List Char :=
  let identifier := identifierChars 0 s
  if identifier = [] ∨ identifier = ['_'] then "recorded_flow".toList
  else if identifier ∈ rustKeywords.map String.toList then "recorded_".toList ++ identifier
  else identifier

/-! ## Recorded selectors -/

/-- `char::to_digit(16)`. -/
def toDigit16 (c : Char) : Option Nat :=
  if c.isDigit then some (c.toNat - '0'.toNat)
  else if 'a' ≤ c ∧ c ≤ 'f' then some (c.toNat - 'a'.toNat + 10)
  else if 'A' ≤ c ∧ c ≤ 'F' then some (c.toNat - 'A'.toNat + 10)
  else none

/-- Up to so many further hexadecimal digits. -/
def hexDigits : (left code : Nat) → List Char → Nat × List Char
  | left + 1, code, c :: rest =>
      match toDigit16 c with
      | some d => hexDigits left (code * 16 + d) rest
      | none => (code, c :: rest)
  | _, code, rest => (code, rest)

/-- `char::from_u32`, but for zero and what is no character. -/
def fromCode (code : Nat) : Char :=
  if code.isValidChar ∧ code ≠ 0 then Char.ofNat code else '\uFFFD'

/-- `css_escape`, behind the backslash: a character or a line continuation, and what follows. -/
def cssEscape : List Char → Option (Option Char × List Char)
  | [] => none
  | first :: rest =>
      if first = '\n' then some (none, rest)
      else
        match toDigit16 first with
        | none => some (some first, rest)
        | some code =>
            let (code, rest) := hexDigits 5 code rest
            let rest :=
              match rest with
              | c :: after => if c = ' ' ∨ c = '\t' ∨ c = '\n' then after else rest
              | [] => rest
            some (some (fromCode code), rest)

theorem length_hexDigits_le (left code : Nat) (cs : List Char) :
    (hexDigits left code cs).2.length ≤ cs.length := by
  induction cs generalizing left code with
  | nil => cases left <;> exact Nat.le_refl 0
  | cons c rest ih =>
    cases left with
    | zero => exact Nat.le_refl _
    | succ left =>
      rw [hexDigits]
      cases toDigit16 c with
      | none => exact Nat.le_refl _
      | some d => exact Nat.le_succ_of_le (ih left _)

theorem length_cssEscape_lt {cs : List Char} {out : Option Char × List Char}
    (h : cssEscape cs = some out) : out.2.length < cs.length := by
  cases cs with
  | nil => cases h
  | cons first rest =>
    rw [cssEscape] at h
    split_ifs at h
    · rw [← Option.some.inj h]
      exact Nat.lt_succ_self _
    · cases hfirst : toDigit16 first with
      | none =>
        rw [hfirst] at h
        rw [← Option.some.inj h]
        exact Nat.lt_succ_self _
      | some code =>
        rw [hfirst] at h
        have hle := length_hexDigits_le 5 code rest
        rw [← Option.some.inj h]
        apply Nat.lt_succ_of_le
        refine Nat.le_trans ?_ hle
        dsimp only
        split
        · next c after hcons =>
          split_ifs
          · rw [hcons]
            exact Nat.le_succ _
          · exact Nat.le_refl _
        · exact Nat.le_refl _

/-- `css_string`, behind the opening quote. -/
def cssStringBody (cs : List Char) : Option (List Char × List Char) :=
  match cs with
  | [] => none
  | c :: rest =>
      if c = '"' then some ([], rest)
      else if c = '\\' then
        match _h : cssEscape rest with
        | some (decoded, rest) =>
            (cssStringBody rest).map fun out => (decoded.toList ++ out.1, out.2)
        | none => none
      else (cssStringBody rest).map fun out => (c :: out.1, out.2)
termination_by cs.length
decreasing_by
  · exact Nat.lt_succ_of_lt (length_cssEscape_lt _h)
  · exact Nat.lt_succ_self _

/-- `str::strip_prefix`. -/
def stripPrefix (front : String) (s : List Char) : Option (List Char) :=
  if front.toList.isPrefixOf s then some (s.drop front.length) else none

/-- `css_string`. -/
def cssString (s : List Char) : Option (List Char × List Char) :=
  (stripPrefix "\"" s).bind cssStringBody

/-- The characters of a CSS identifier. -/
def cssIdentChars (cs : List Char) : Option (List Char) :=
  match cs with
  | [] => some []
  | c :: rest =>
      if c = '\\' then
        match _h : cssEscape rest with
        | some (some decoded, rest) => (cssIdentChars rest).map (decoded :: ·)
        | _ => none
      else if c.isAlphanum || c = '-' || c = '_' || 0x80 ≤ c.toNat then
        (cssIdentChars rest).map (c :: ·)
      else none
termination_by cs.length
decreasing_by
  · exact Nat.lt_succ_of_lt (length_cssEscape_lt _h)
  · exact Nat.lt_succ_self _

/-- `css_ident`. -/
def cssIdent (s : List Char) : Option (List Char) :=
  (cssIdentChars s).bind fun out => if out = [] then none else some out

/-- `has_text_suffix`. -/
def hasTextSuffix (s : List Char) : Option (List Char) :=
  (stripPrefix ":has-text(" s).bind fun s =>
    (cssString s).bind fun out => if out.2 = [')'] then some out.1 else none

inductive TextScope where
  | role (role : List Char)
  | tag (tag : List Char)
  deriving DecidableEq

inductive RecordedSelector where
  | testId (id : List Char)
  | id (id : List Char)
  | role (role : List Char)
  | text (scope : TextScope) (text : List Char)
  | css
  deriving DecidableEq

/-- The first of the shapes. -/
def parseTestId (selector : List Char) : Option RecordedSelector :=
  (stripPrefix "[data-testid=" selector).bind fun rest =>
    (cssString rest).bind fun out => if out.2 = [']'] then some (.testId out.1) else none

def parseId (selector : List Char) : Option RecordedSelector :=
  (stripPrefix "#" selector).bind fun rest => (cssIdent rest).map .id

/-- Once a role and its bracket are read, no other shape is tried. -/
def parseRole (selector : List Char) : Option RecordedSelector :=
  (stripPrefix "[role=" selector).bind fun rest =>
    (cssString rest).bind fun out =>
      (stripPrefix "]" out.2).map fun rest =>
        if rest = [] then .role out.1
        else
          match hasTextSuffix rest with
          | some text => .text (.role out.1) text
          | none => .css

def isTagChar (c : Char) : Bool := c.isAlphanum || c = '-'

def parseTag (selector : List Char) : Option RecordedSelector :=
  let tag := selector.takeWhile isTagChar
  if tag = [] then none
  else (hasTextSuffix (selector.drop tag.length)).map fun text => .text (.tag tag) text

/-- `parse_recorded_selector`. -/
def parseRecordedSelector (selector : List Char) : RecordedSelector :=
  match parseTestId selector with
  | some parsed => parsed
  | none =>
      match parseId selector with
      | some parsed => parsed
      | none =>
          match parseRole selector with
          | some parsed => parsed
          | none =>
              match parseTag selector with
              | some parsed => parsed
              | none => .css

inductive ResolvedSelector where
  | byId (id : List Char)
  | byText (text : List Char)
  | raw (selector : List Char)

/-- `resolve_selector`. -/
def resolveSelector (selector : List Char) : ResolvedSelector :=
  match parseRecordedSelector selector with
  | .id id => .byId id
  | .text _ text => .byText text
  | .testId _ => .raw selector
  | .role _ => .raw selector
  | .css => .raw selector

/-! ## Emission -/

section

variable (unprintable : Unprintable)

/-- `\"{…}\"` of a format string, with the text escaped. -/
def quoted (s : List Char) : List Char := '"' :: (escapeRustStr unprintable s ++ ['"'])

/-- The recorded value, or nothing. -/
def valueText (value : Option String) : List Char := (value.map String.toList).getD []

/-- `emit_resolved_call`. -/
def emitResolvedCall (baseMethod : String) (resolved : ResolvedSelector)
    (extraArg : Option (List Char)) : List Char :=
  let suffix := match extraArg with
    | some v => ", ".toList ++ quoted unprintable v
    | none => []
  match resolved with
  | .byId id =>
      "    client.".toList ++ baseMethod.toList ++ "_by_id(".toList ++ quoted unprintable id ++
        suffix ++ ").await.unwrap();\n".toList
  | .byText text =>
      "    client.".toList ++ baseMethod.toList ++ "_by_text(".toList ++ quoted unprintable text ++
        suffix ++ ").await.unwrap();\n".toList
  | .raw sel =>
      "    client.".toList ++ baseMethod.toList ++ "_by_selector(".toList ++
        quoted unprintable sel ++ suffix ++ ").await.unwrap();\n".toList

/-- `emit_resolved_select`. -/
def emitResolvedSelect (resolved : ResolvedSelector) (val : List Char) : List Char :=
  match resolved with
  | .byId id =>
      "    client.select_option_by_id(".toList ++ quoted unprintable id ++ ", &[".toList ++
        quoted unprintable val ++ "]).await.unwrap();\n".toList
  | .byText text =>
      "    client.select_option_by_text(".toList ++ quoted unprintable text ++ ", &[".toList ++
        quoted unprintable val ++ "]).await.unwrap();\n".toList
  | .raw sel =>
      "    client.select_option_by_selector(".toList ++ quoted unprintable sel ++ ", &[".toList ++
        quoted unprintable val ++ "]).await.unwrap();\n".toList

/-- `emit_resolved_scroll`. -/
def emitResolvedScroll (resolved : ResolvedSelector) : List Char :=
  let (method, arg) := match resolved with
    | .byId id => ("scroll_to_by_id", id)
    | .byText text => ("scroll_to_by_text", text)
    | .raw sel => ("scroll_to_by_selector", sel)
  "    client.".toList ++ method.toList ++ "(".toList ++ quoted unprintable arg ++
    ").await.unwrap();\n".toList

/-- `emit_interaction`. -/
def emitInteraction (action : InteractionKind) (selector : List Char) (value : Option String) :
    List Char :=
  let resolved := resolveSelector selector
  match action with
  | .click => emitResolvedCall unprintable "click" resolved none
  | .doubleClick => emitResolvedCall unprintable "double_click" resolved none
  | .fill => emitResolvedCall unprintable "fill" resolved (some (valueText value))
  | .keyPress =>
      "    client.press_key(".toList ++ quoted unprintable (valueText value) ++
        ").await.unwrap();\n".toList
  | .select => emitResolvedSelect unprintable resolved (valueText value)
  | .navigate =>
      "    client.navigate(".toList ++ quoted unprintable (valueText value) ++
        ").await.unwrap();\n".toList
  | .scroll => emitResolvedScroll unprintable resolved

/-- `selector_to_locator`. -/
def selectorToLocator (selector : List Char) : List Char :=
  let locator (factory : String) (arg : List Char) : List Char :=
    "Locator::".toList ++ factory.toList ++ "(".toList ++ quoted unprintable arg ++ ")".toList
  match parseRecordedSelector selector with
  | .testId id => locator "test_id" id
  | .role role => locator "role" role
  | .text (.role role) text =>
      "Locator::role(".toList ++ quoted unprintable role ++ ").and_text(".toList ++
        quoted unprintable text ++ ")".toList
  | .text (.tag tag) text =>
      "Locator::text(".toList ++ quoted unprintable text ++ ").and_tag(".toList ++
        quoted unprintable tag ++ ")".toList
  | .id _ => locator "css" selector
  | .css => locator "css" selector

/-- `emit_locator_interaction`. -/
def emitLocatorInteraction (action : InteractionKind) (selector : List Char)
    (value : Option String) : List Char :=
  let locator := selectorToLocator unprintable selector
  let val := quoted unprintable (valueText value)
  match action with
  | .click => "    ".toList ++ locator ++ ".click(&mut client).await.unwrap();\n".toList
  | .doubleClick =>
      "    ".toList ++ locator ++ ".double_click(&mut client).await.unwrap();\n".toList
  | .fill =>
      "    ".toList ++ locator ++ ".fill(&mut client, ".toList ++ val ++
        ").await.unwrap();\n".toList
  | .keyPress =>
      "    ".toList ++ locator ++ ".press_key(&mut client, ".toList ++ val ++
        ").await.unwrap();\n".toList
  | .select =>
      "    ".toList ++ locator ++ ".select_option(&mut client, &[".toList ++ val ++
        "]).await.unwrap();\n".toList
  | .navigate => "    client.navigate(".toList ++ val ++ ").await.unwrap();\n".toList
  | .scroll =>
      "    ".toList ++ locator ++ ".scroll_into_view(&mut client).await.unwrap();\n".toList

/-! ## The test -/

def intText (n : Int) : List Char :=
  if n < 0 then '-' :: Nat.toDigits 10 n.natAbs else Nat.toDigits 10 n.natAbs

/-- `signed_duration_since` in milliseconds. -/
def millisecondsSince (timestamp since : DateTime) : Int := (timestamp - since).tdiv 1000000

/-- The comment before an event that came more than half a second behind the one before. -/
def timingComment (options : CodegenOptions) (sessionStart : DateTime)
    (previous : Option DateTime) (timestamp : DateTime) : List Char :=
  if options.includeTimingComments ∧
      500 < millisecondsSince timestamp (previous.getD sessionStart) then
    "\n    // +".toList ++ intText (millisecondsSince timestamp sessionStart) ++ "ms\n".toList
  else []

/-- Commands of the plugin itself. -/
def isInternal (command : String) : Bool := "plugin:victauri|".toList.isPrefixOf command.toList

def isCompleted : IpcResult → Bool
  | .ok _ => true
  | _ => false

def emitEvent (options : CodegenOptions) (event : AppEvent) : List Char :=
  match event with
  | .domInteraction action selector value _ _ =>
      match options.style with
      | .direct => emitInteraction unprintable action selector.toList value
      | .locator => emitLocatorInteraction unprintable action selector.toList value
  | .ipc call =>
      if options.includeIpcAssertions ∧ ¬ isInternal call.command ∧ isCompleted call.result then
        "    // IPC: ".toList ++ sanitizeComment unprintable call.command.toList ++
          " completed successfully\n".toList
      else []
  | .stateChange key _ causedBy =>
      if options.includeStateChecks ∧ causedBy.isSome then
        "    // State changed: ".toList ++ sanitizeComment unprintable key.toList ++ "\n".toList
      else []
  | _ => []

/-- The command an event leaves in `ipc_commands_seen`. -/
def seenCommand (options : CodegenOptions) (event : AppEvent) : Option String :=
  match event with
  | .ipc call =>
      if options.includeIpcAssertions ∧ ¬ isInternal call.command ∧ isCompleted call.result ∧
          options.emitIpcAssertCalls then some call.command
      else none
  | _ => none

/-- The loop over the events, behind the one at `previous`. -/
def emitEvents (options : CodegenOptions) (sessionStart : DateTime) :
    (previous : Option DateTime) → List RecordedEvent → List Char
  | _, [] => []
  | previous, recorded :: rest =>
      timingComment options sessionStart previous recorded.timestamp ++
        (emitEvent unprintable options recorded.event ++
          emitEvents options sessionStart (some recorded.timestamp) rest)

def emitHeader (date : Date) (options : CodegenOptions) (session : RecordedSession) : List Char :=
  let imports := match options.style with
    | .direct =>
        "\nuse victauri_test::VictauriClient;\n".toList ++
          (if options.emitIpcAssertCalls then "use victauri_test::assert_ipc_called;\n".toList
          else [])
    | .locator => "\nuse victauri_test::prelude::*;\n".toList
  "// Generated by victauri record -- ".toList ++ date.text ++ "\n".toList ++
    "// Session: ".toList ++ sanitizeComment unprintable session.id.toList ++ "\n".toList ++
    imports ++ "\n".toList ++ "#[tokio::test]\n".toList ++ "async fn ".toList ++
    sanitizeRustIdentifier options.testName ++ "() \x7b\n".toList ++
    "    let mut client = VictauriClient::discover().await.expect(\"connect to Tauri app\");\n".toList

def emitAsserts (options : CodegenOptions) (seen : List String) : List Char :=
  if options.emitIpcAssertCalls ∧ seen ≠ [] then
    "\n    // Verify IPC calls\n".toList ++
      "    let log = client.get_ipc_log(Some(1000)).await.unwrap();\n".toList ++
      seen.flatMap fun command =>
        "    assert_ipc_called(&log, ".toList ++ quoted unprintable command.toList ++
          ");\n".toList
  else []

/-- `generate_test`. -/
def generateTest (date : Date) (session : RecordedSession) (options : CodegenOptions) :
    List Char :=
  emitHeader unprintable date options session ++
    emitEvents unprintable options session.startedAt none session.events ++
    emitAsserts unprintable options
      (session.events.filterMap fun recorded => seenCommand options recorded.event) ++
    "\x7d\n".toList

end

end Victauri.Core.Codegen
