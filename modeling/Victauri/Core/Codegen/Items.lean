import Victauri.Core.Codegen.Escaping

/-!
# The items of a recorded event

What the calls and comments of one event are as Rust text: their code, their literals with the
recorded texts, and their comments.
-/

namespace Victauri.Core.Codegen

open RustText

/-! ## Kinds -/

/-- A selector's shape: what is parsed of it, without its texts. -/
def RecordedSelector.shape : RecordedSelector → RecordedSelector
  | .testId _ => .testId []
  | .id _ => .id []
  | .role _ => .role []
  | .text (.role _) _ => .text (.role []) []
  | .text (.tag _) _ => .text (.tag []) []
  | .css => .css

/-- The kind of an event: of an interaction its action and its selector's shape, of a call whether
it is one of the plugin's own and whether it completed, of a state change whether it has a cause. -/
inductive EventKind where
  | interaction (action : InteractionKind) (shape : RecordedSelector)
  | ipc (internal completed : Bool)
  | stateChange (caused : Bool)
  | other

def eventKind : AppEvent → EventKind
  | .domInteraction action selector _ _ _ =>
      .interaction action (parseRecordedSelector selector.toList).shape
  | .ipc call => .ipc (isInternal call.command) (isCompleted call.result)
  | .stateChange _ _ causedBy => .stateChange causedBy.isSome
  | _ => .other

/-! ## What the literals and comments say -/

/-- What a literal says of a selector: the part that its shape decodes, or all of it. -/
def selectorTexts (style : CodegenStyle) (selector : List Char) : List (List Char) :=
  match style, parseRecordedSelector selector with
  | .direct, .id id => [id]
  | .direct, .text _ text => [text]
  | .direct, _ => [selector]
  | .locator, .testId id => [id]
  | .locator, .role role => [role]
  | .locator, .text (.role role) text => [role, text]
  | .locator, .text (.tag tag) text => [text, tag]
  | .locator, _ => [selector]

/-- The literals of an interaction, in their order. -/
def interactionTexts (style : CodegenStyle) (action : InteractionKind) (selector : List Char)
    (value : Option String) : List (List Char) :=
  match action with
  | .click => selectorTexts style selector
  | .doubleClick => selectorTexts style selector
  | .fill => selectorTexts style selector ++ [valueText value]
  | .keyPress =>
      match style with
      | .direct => [valueText value]
      | .locator => selectorTexts style selector ++ [valueText value]
  | .select => selectorTexts style selector ++ [valueText value]
  | .navigate => [valueText value]
  | .scroll => selectorTexts style selector

def eventTexts (options : CodegenOptions) : AppEvent → List (List Char)
  | .domInteraction action selector value _ _ =>
      interactionTexts options.style action selector.toList value
  | _ => []

section

variable (unprintable : Unprintable)

def eventComments (options : CodegenOptions) : AppEvent → List (List Char)
  | .ipc call =>
      if options.includeIpcAssertions ∧ ¬ isInternal call.command ∧ isCompleted call.result then
        [" IPC: ".toList ++ sanitizeComment unprintable call.command.toList ++
          " completed successfully".toList]
      else []
  | .stateChange key _ causedBy =>
      if options.includeStateChecks ∧ causedBy.isSome then
        [" State changed: ".toList ++ sanitizeComment unprintable key.toList]
      else []
  | _ => []

def headerComments (date : Date) (session : RecordedSession) : List (List Char) :=
  [" Generated by victauri record -- ".toList ++ date.text,
    " Session: ".toList ++ sanitizeComment unprintable session.id.toList]

def timingComments (options : CodegenOptions) (sessionStart : DateTime)
    (previous : Option DateTime) (timestamp : DateTime) : List (List Char) :=
  if options.includeTimingComments ∧
      500 < millisecondsSince timestamp (previous.getD sessionStart) then
    [" +".toList ++ intText (millisecondsSince timestamp sessionStart) ++ "ms".toList]
  else []

def bodyComments (options : CodegenOptions) (sessionStart : DateTime) :
    (previous : Option DateTime) → List RecordedEvent → List (List Char)
  | _, [] => []
  | previous, recorded :: rest =>
      timingComments options sessionStart previous recorded.timestamp ++
        (eventComments unprintable options recorded.event ++
          bodyComments options sessionStart (some recorded.timestamp) rest)

def assertComments (options : CodegenOptions) (seen : List String) : List (List Char) :=
  if options.emitIpcAssertCalls ∧ seen ≠ [] then [" Verify IPC calls".toList] else []

/-! ## Items -/

def codes (text : String) : List Item := text.toList.map .code

/-- The end of the method's name that `emit_resolved_call` picks. -/
def RecordedSelector.method : RecordedSelector → String
  | .id _ => "_by_id("
  | .text _ _ => "_by_text("
  | _ => "_by_selector("

/-- The text of `resolve_selector`. -/
def resolvedText (selector : List Char) : List Char :=
  match parseRecordedSelector selector with
  | .id id => id
  | .text _ text => text
  | _ => selector

/-- The items of `emit_resolved_call` and its kin, with what stands behind the selector. -/
def callItems (method : String) (parsed : RecordedSelector) (text : List Char)
    (extra : List Item) : List Item :=
  codes "    client." ++ (codes method ++ (codes parsed.method ++
    (.literal text :: (extra ++ codes ").await.unwrap();\n"))))

/-- The items of `emit_interaction`. -/
def directItems (action : InteractionKind) (parsed : RecordedSelector)
    (text value : List Char) : List Item :=
  match action with
  | .click => callItems "click" parsed text []
  | .doubleClick => callItems "double_click" parsed text []
  | .fill => callItems "fill" parsed text (codes ", " ++ [.literal value])
  | .keyPress =>
      codes "    client.press_key(" ++ (.literal value :: codes ").await.unwrap();\n")
  | .select =>
      callItems "select_option" parsed text (codes ", &[" ++ (.literal value :: codes "]"))
  | .navigate =>
      codes "    client.navigate(" ++ (.literal value :: codes ").await.unwrap();\n")
  | .scroll => callItems "scroll_to" parsed text []

/-- The items of `selector_to_locator`. -/
def locatorItems (parsed : RecordedSelector) (selector : List Char) : List Item :=
  let locator (factory : String) (arg : List Char) : List Item :=
    codes "Locator::" ++ (codes factory ++ (codes "(" ++ (.literal arg :: codes ")")))
  match parsed with
  | .testId id => locator "test_id" id
  | .role role => locator "role" role
  | .text (.role role) text =>
      codes "Locator::role(" ++ (.literal role :: (codes ").and_text(" ++
        (.literal text :: codes ")")))
  | .text (.tag tag) text =>
      codes "Locator::text(" ++ (.literal text :: (codes ").and_tag(" ++
        (.literal tag :: codes ")")))
  | .id _ => locator "css" selector
  | .css => locator "css" selector

/-- A call on a locator, with what stands behind the client. -/
def locatorCall (method : String) (parsed : RecordedSelector) (selector : List Char)
    (extra : List Item) : List Item :=
  codes "    " ++ (locatorItems parsed selector ++ (codes method ++
    (extra ++ codes ").await.unwrap();\n")))

/-- The items of `emit_locator_interaction`. -/
def locatorCallItems (action : InteractionKind) (parsed : RecordedSelector)
    (selector value : List Char) : List Item :=
  match action with
  | .click => locatorCall ".click(&mut client" parsed selector []
  | .doubleClick => locatorCall ".double_click(&mut client" parsed selector []
  | .fill => locatorCall ".fill(&mut client, " parsed selector [.literal value]
  | .keyPress => locatorCall ".press_key(&mut client, " parsed selector [.literal value]
  | .select =>
      locatorCall ".select_option(&mut client, &[" parsed selector (.literal value :: codes "]")
  | .navigate =>
      codes "    client.navigate(" ++ (.literal value :: codes ").await.unwrap();\n")
  | .scroll => locatorCall ".scroll_into_view(&mut client" parsed selector []

def interactionItems (style : CodegenStyle) (action : InteractionKind) (selector : List Char)
    (value : Option String) : List Item :=
  match style with
  | .direct =>
      directItems action (parseRecordedSelector selector) (resolvedText selector)
        (valueText value)
  | .locator =>
      locatorCallItems action (parseRecordedSelector selector) selector (valueText value)

/-- Comments on lines of their own. -/
def commentItems (indent : String) (texts : List (List Char)) : List Item :=
  texts.flatMap fun text => codes indent ++ (.comment text :: codes "\n")

def eventItems (options : CodegenOptions) (event : AppEvent) : List Item :=
  match event with
  | .domInteraction action selector value _ _ =>
      interactionItems options.style action selector.toList value
  | event => commentItems "    " (eventComments unprintable options event)

/-! ## The items of an event -/

theorem comments_codes (text : String) : comments (codes text) = [] := comments_code _

theorem literals_codes (text : String) : literals (codes text) = [] := literals_code _

theorem erase_codes (text : String) : (codes text).map Item.erase = codes text := by
  rw [codes, List.map_map]
  rfl

/-- Items without comments that are whole lines whatever their literals say. -/
theorem lines_of {text : List Char} {items : List Item}
    (htext : textOf (escapeRustStr unprintable) items = text)
    (hplaced : placed (some '\n') items = true)
    (hends : items.getLast? = some (.code '\n')) (hcomments : comments items = []) :
    Lines (escapeRustStr unprintable) text items where
  text_eq := htext
  placed := hplaced
  ends := Or.inr hends
  isLine := by
    intro comment hcomment
    rw [hcomments] at hcomment
    exact absurd hcomment List.not_mem_nil

theorem textOf_literal (value : List Char) (items : List Item) :
    textOf (escapeRustStr unprintable) (.literal value :: items) =
      quoted unprintable value ++ textOf (escapeRustStr unprintable) items := textOf_cons _ _ _

theorem textOf_codes (text : String) :
    textOf (escapeRustStr unprintable) (codes text) = text.toList := textOf_code _ _

theorem textOf_callItems (method : String) (parsed : RecordedSelector) (text : List Char)
    (extra : List Item) :
    textOf (escapeRustStr unprintable) (callItems method parsed text extra) =
      "    client.".toList ++ (method.toList ++ (parsed.method.toList ++ (quoted unprintable text ++
        (textOf (escapeRustStr unprintable) extra ++ ").await.unwrap();\n".toList)))) := by
  rw [callItems, textOf_append, textOf_append, textOf_append, textOf_literal, textOf_append,
    textOf_codes, textOf_codes, textOf_codes, textOf_codes]

theorem textOf_resolvedCall (method : String) (selector : List Char) :
    textOf (escapeRustStr unprintable)
        (callItems method (parseRecordedSelector selector) (resolvedText selector) []) =
      emitResolvedCall unprintable method (resolveSelector selector) none := by
  rw [textOf_callItems, show textOf (escapeRustStr unprintable) [] = [] from rfl]
  unfold emitResolvedCall resolveSelector resolvedText
  cases parseRecordedSelector selector <;>
    simp only [RecordedSelector.method, List.append_assoc]

theorem textOf_resolvedFill (selector value : List Char) :
    textOf (escapeRustStr unprintable)
        (callItems "fill" (parseRecordedSelector selector) (resolvedText selector)
          (codes ", " ++ [.literal value])) =
      emitResolvedCall unprintable "fill" (resolveSelector selector) (some value) := by
  rw [textOf_callItems, textOf_append, textOf_literal, textOf_codes,
    show textOf (escapeRustStr unprintable) [] = [] from rfl]
  unfold emitResolvedCall resolveSelector resolvedText
  cases parseRecordedSelector selector <;>
    simp only [RecordedSelector.method, List.append_assoc, List.nil_append]

/-- A call with a value only. -/
theorem textOf_value (front : String) (value : List Char) :
    textOf (escapeRustStr unprintable)
        (codes front ++ (.literal value :: codes ").await.unwrap();\n")) =
      front.toList ++ quoted unprintable value ++ ").await.unwrap();\n".toList := by
  rw [textOf_append, textOf_literal, textOf_codes, textOf_codes, List.append_assoc]

/-- A literal split in two. -/
theorem toList_split {whole front back : String} (h : whole = front ++ back) (rest : List Char) :
    whole.toList ++ rest = front.toList ++ (back.toList ++ rest) := by
  rw [h, String.toList_append, List.append_assoc]

theorem textOf_resolvedSelect (selector value : List Char) :
    textOf (escapeRustStr unprintable)
        (callItems "select_option" (parseRecordedSelector selector) (resolvedText selector)
          (codes ", &[" ++ (.literal value :: codes "]"))) =
      emitResolvedSelect unprintable (resolveSelector selector) value := by
  have hfront (suffix front : String)
      (h : front = "    client." ++ ("select_option" ++ suffix)) (rest : List Char) :
      front.toList ++ rest =
        "    client.".toList ++ ("select_option".toList ++ (suffix.toList ++ rest)) := by
    rw [toList_split h, toList_split rfl]
  have hid := hfront "_by_id(" "    client.select_option_by_id(" (by simp only [String.reduceAppend])
  have htext := hfront "_by_text(" "    client.select_option_by_text("
    (by simp only [String.reduceAppend])
  have hselector := hfront "_by_selector(" "    client.select_option_by_selector("
    (by simp only [String.reduceAppend])
  have hend : "]).await.unwrap();\n".toList = "]".toList ++ ").await.unwrap();\n".toList := by
    simp only [← String.toList_append, String.reduceAppend]
  rw [textOf_callItems, textOf_append, textOf_literal, textOf_codes, textOf_codes]
  unfold emitResolvedSelect resolveSelector resolvedText
  cases parseRecordedSelector selector <;>
    simp only [RecordedSelector.method, List.append_assoc, hid, htext, hselector, hend]

theorem textOf_resolvedScroll (selector : List Char) :
    textOf (escapeRustStr unprintable)
        (callItems "scroll_to" (parseRecordedSelector selector) (resolvedText selector) []) =
      emitResolvedScroll unprintable (resolveSelector selector) := by
  have hmethod (suffix method : String) (h : method ++ "(" = "scroll_to" ++ suffix)
      (rest : List Char) :
      method.toList ++ ("(".toList ++ rest) = "scroll_to".toList ++ (suffix.toList ++ rest) := by
    rw [← toList_split rfl, h, toList_split rfl]
  have hid := hmethod "_by_id(" "scroll_to_by_id" (by simp only [String.reduceAppend])
  have htext := hmethod "_by_text(" "scroll_to_by_text" (by simp only [String.reduceAppend])
  have hselector := hmethod "_by_selector(" "scroll_to_by_selector"
    (by simp only [String.reduceAppend])
  rw [textOf_callItems, show textOf (escapeRustStr unprintable) [] = [] from rfl]
  unfold emitResolvedScroll resolveSelector resolvedText
  cases parseRecordedSelector selector <;>
    simp only [RecordedSelector.method, List.append_assoc, List.nil_append, hid, htext, hselector]

theorem lines_direct (action : InteractionKind) (selector : List Char) (value : Option String) :
    Lines (escapeRustStr unprintable) (emitInteraction unprintable action selector value)
      (interactionItems .direct action selector value) := by
  have htext : textOf (escapeRustStr unprintable)
      (interactionItems .direct action selector value) =
        emitInteraction unprintable action selector value := by
    cases action with
    | click => exact textOf_resolvedCall unprintable "click" selector
    | doubleClick => exact textOf_resolvedCall unprintable "double_click" selector
    | fill => exact textOf_resolvedFill unprintable selector (valueText value)
    | keyPress => exact textOf_value unprintable "    client.press_key(" (valueText value)
    | select => exact textOf_resolvedSelect unprintable selector (valueText value)
    | navigate => exact textOf_value unprintable "    client.navigate(" (valueText value)
    | scroll => exact textOf_resolvedScroll unprintable selector
  unfold interactionItems at htext ⊢
  apply lines_of unprintable htext
  · unfold directItems callItems
    cases action <;> cases parseRecordedSelector selector <;>
      dsimp only [RecordedSelector.method] <;> rfl
  · unfold directItems callItems
    cases action <;> cases parseRecordedSelector selector <;>
      dsimp only [RecordedSelector.method] <;> rfl
  · unfold directItems callItems
    cases action <;> cases parseRecordedSelector selector <;>
      dsimp only [RecordedSelector.method] <;> rfl

theorem textOf_locatorItems (selector : List Char) :
    textOf (escapeRustStr unprintable)
        (locatorItems (parseRecordedSelector selector) selector) =
      selectorToLocator unprintable selector := by
  unfold locatorItems selectorToLocator
  cases parseRecordedSelector selector with
  | text scope text =>
    cases scope <;>
      simp only [textOf_append, textOf_literal, textOf_codes, List.append_assoc]
  | _ => simp only [textOf_append, textOf_literal, textOf_codes, List.append_assoc]

theorem textOf_locatorCall (method : String) (selector : List Char) (extra : List Item) :
    textOf (escapeRustStr unprintable)
        (locatorCall method (parseRecordedSelector selector) selector extra) =
      "    ".toList ++ (selectorToLocator unprintable selector ++ (method.toList ++
        (textOf (escapeRustStr unprintable) extra ++ ").await.unwrap();\n".toList))) := by
  rw [locatorCall, textOf_append, textOf_append, textOf_append, textOf_append,
    textOf_locatorItems, textOf_codes, textOf_codes, textOf_codes]

/-- A call on a locator without a value. -/
theorem textOf_locatorPlain (method whole : String) (selector : List Char)
    (h : whole = method ++ ").await.unwrap();\n") :
    textOf (escapeRustStr unprintable)
        (locatorCall method (parseRecordedSelector selector) selector []) =
      "    ".toList ++ selectorToLocator unprintable selector ++ whole.toList := by
  rw [textOf_locatorCall, h, String.toList_append, List.append_assoc]
  rfl

/-- A call on a locator with a value. -/
theorem textOf_locatorValue (method : String) (selector value : List Char) :
    textOf (escapeRustStr unprintable)
        (locatorCall method (parseRecordedSelector selector) selector [.literal value]) =
      "    ".toList ++ selectorToLocator unprintable selector ++ method.toList ++
        quoted unprintable value ++ ").await.unwrap();\n".toList := by
  rw [textOf_locatorCall, textOf_literal, show textOf (escapeRustStr unprintable) [] = [] from rfl,
    List.append_nil, List.append_assoc, List.append_assoc, List.append_assoc]

theorem textOf_locatorSelect (selector value : List Char) :
    textOf (escapeRustStr unprintable)
        (locatorCall ".select_option(&mut client, &[" (parseRecordedSelector selector) selector
          (.literal value :: codes "]")) =
      "    ".toList ++ selectorToLocator unprintable selector ++
        ".select_option(&mut client, &[".toList ++ quoted unprintable value ++
        "]).await.unwrap();\n".toList := by
  have hend : "]).await.unwrap();\n".toList = "]".toList ++ ").await.unwrap();\n".toList := by
    simp only [← String.toList_append, String.reduceAppend]
  rw [textOf_locatorCall, textOf_literal, textOf_codes, hend, List.append_assoc,
    List.append_assoc, List.append_assoc, List.append_assoc]

theorem lines_locator (action : InteractionKind) (selector : List Char) (value : Option String) :
    Lines (escapeRustStr unprintable) (emitLocatorInteraction unprintable action selector value)
      (interactionItems .locator action selector value) := by
  have htext : textOf (escapeRustStr unprintable)
      (interactionItems .locator action selector value) =
        emitLocatorInteraction unprintable action selector value := by
    cases action with
    | click =>
      exact textOf_locatorPlain unprintable ".click(&mut client" _ selector
        (by simp only [String.reduceAppend])
    | doubleClick =>
      exact textOf_locatorPlain unprintable ".double_click(&mut client" _ selector
        (by simp only [String.reduceAppend])
    | fill => exact textOf_locatorValue unprintable ".fill(&mut client, " selector (valueText value)
    | keyPress =>
      exact textOf_locatorValue unprintable ".press_key(&mut client, " selector (valueText value)
    | select => exact textOf_locatorSelect unprintable selector (valueText value)
    | navigate => exact textOf_value unprintable "    client.navigate(" (valueText value)
    | scroll =>
      exact textOf_locatorPlain unprintable ".scroll_into_view(&mut client" _ selector
        (by simp only [String.reduceAppend])
  unfold interactionItems at htext ⊢
  apply lines_of unprintable htext
  · unfold locatorCallItems locatorCall
    cases action <;> rcases parseRecordedSelector selector with _ | _ | _ | ⟨_ | _, _⟩ | _ <;>
      dsimp only [locatorItems] <;> rfl
  · unfold locatorCallItems locatorCall
    cases action <;> rcases parseRecordedSelector selector with _ | _ | _ | ⟨_ | _, _⟩ | _ <;>
      dsimp only [locatorItems] <;> rfl
  · unfold locatorCallItems locatorCall
    cases action <;> rcases parseRecordedSelector selector with _ | _ | _ | ⟨_ | _, _⟩ | _ <;>
      dsimp only [locatorItems] <;> rfl

end

end Victauri.Core.Codegen
