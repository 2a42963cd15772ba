import Victauri.Core.Codegen.Items

/-!
# What a recording says is inert in its test

The text of a generated test, read as Rust, holds each recorded string in one literal or one line
comment; the tokens around them are decided by the options and the kinds of the events.
-/

namespace Victauri.Core.Codegen

open RustText

-- A quantifier over the characters of a text is decided along the text.
attribute [local instance (1100)] List.decidableBAll

section

variable (unprintable : Unprintable)

/-! ## Lines of comments -/

theorem lines_commentItems {indent : String} (hindent : indent = "    " ∨ indent = "\n    " ∨ indent = "")
    {texts : List (List Char)} (htexts : ∀ text ∈ texts, IsLine text) :
    Lines (escapeRustStr unprintable)
      (texts.flatMap fun text => indent.toList ++ ('/' :: '/' :: (text ++ ['\n'])))
      (commentItems indent texts) := by
  induction texts with
  | nil => exact Lines.nil _
  | cons text texts ih =>
    have hline : Lines (escapeRustStr unprintable)
        (indent.toList ++ ('/' :: '/' :: (text ++ ['\n'])))
        (codes indent ++ (.comment text :: codes "\n")) := by
      constructor
      · rw [textOf_append, textOf_codes, textOf_cons, textOf_codes]
        rfl
      · rcases hindent with rfl | rfl | rfl <;> rfl
      · right
        rcases hindent with rfl | rfl | rfl <;> rfl
      · intro comment hcomment
        have hcomments : comments (codes indent ++ (.comment text :: codes "\n")) = [text] := by
          rcases hindent with rfl | rfl | rfl <;> rfl
        rw [hcomments, List.mem_singleton] at hcomment
        rw [hcomment]
        exact htexts text List.mem_cons_self
    rw [commentItems, List.flatMap_cons, List.flatMap_cons]
    exact hline.append (ih fun text' h => htexts text' (List.mem_cons_of_mem _ h))

theorem isLine_of {front : List Char} (hfront : front.head? = some ' ' ∧ '\n' ∉ front)
    {rest : List Char} (hrest : '\n' ∉ rest) : IsLine (front ++ rest) := by
  refine ⟨fun h => (List.mem_append.mp h).elim hfront.2 hrest, ?_⟩
  cases front with
  | nil => cases hfront.1
  | cons c front =>
    rw [Option.some.inj hfront.1]
    rfl

theorem isLine_eventComments (options : CodegenOptions) (event : AppEvent) :
    ∀ text ∈ eventComments unprintable options event, IsLine text := by
  intro text htext
  cases event with
  | ipc call =>
    rw [eventComments] at htext
    split_ifs at htext
    · rw [List.mem_singleton.mp htext, List.append_assoc]
      apply isLine_of (by decide)
      rw [List.mem_append]
      exact not_or.mpr ⟨not_mem_sanitizeComment unprintable _, by decide⟩
    · exact absurd htext List.not_mem_nil
  | stateChange key timestamp causedBy =>
    rw [eventComments] at htext
    split_ifs at htext
    · rw [List.mem_singleton.mp htext]
      exact isLine_of (by decide) (not_mem_sanitizeComment unprintable _)
    · exact absurd htext List.not_mem_nil
  | _ => exact absurd htext List.not_mem_nil

theorem isLine_timingComments (options : CodegenOptions) (sessionStart : DateTime)
    (previous : Option DateTime) (timestamp : DateTime) :
    ∀ text ∈ timingComments options sessionStart previous timestamp, IsLine text := by
  intro text htext
  rw [timingComments] at htext
  split_ifs at htext
  · rw [List.mem_singleton.mp htext, List.append_assoc]
    apply isLine_of (by decide)
    rw [List.mem_append]
    exact not_or.mpr ⟨not_mem_intText _, by decide⟩
  · exact absurd htext List.not_mem_nil

/-! ## The lines of an event -/

theorem lines_event (options : CodegenOptions) (event : AppEvent) :
    Lines (escapeRustStr unprintable) (emitEvent unprintable options event)
      (eventItems unprintable options event) := by
  have hcomments := lines_commentItems unprintable (Or.inl rfl)
    (isLine_eventComments unprintable options event)
  cases event with
  | domInteraction action selector value timestamp webviewLabel =>
    rw [emitEvent, eventItems]
    cases options.style with
    | direct => exact lines_direct unprintable action selector.toList value
    | locator => exact lines_locator unprintable action selector.toList value
  | ipc call =>
    have htext : emitEvent unprintable options (.ipc call) =
        (eventComments unprintable options (.ipc call)).flatMap fun text =>
          "    ".toList ++ ('/' :: '/' :: (text ++ ['\n'])) := by
      have hend : " completed successfully\n".toList =
          " completed successfully".toList ++ "\n".toList := by
        simp only [← String.toList_append, String.reduceAppend]
      rw [emitEvent, eventComments]
      split_ifs
      · rw [List.flatMap_singleton, hend, toList_split (show "    // IPC: " =
          "    " ++ "// IPC: " by simp only [String.reduceAppend]), List.append_assoc,
          List.append_assoc, List.append_assoc]
        rfl
      · rfl
    rw [htext]
    exact hcomments
  | stateChange key timestamp causedBy =>
    have htext : emitEvent unprintable options (.stateChange key timestamp causedBy) =
        (eventComments unprintable options (.stateChange key timestamp causedBy)).flatMap fun text =>
          "    ".toList ++ ('/' :: '/' :: (text ++ ['\n'])) := by
      rw [emitEvent, eventComments]
      split_ifs
      · rw [List.flatMap_singleton, toList_split (show "    // State changed: " =
          "    " ++ "// State changed: " by simp only [String.reduceAppend]), List.append_assoc,
          List.append_assoc]
        rfl
      · rfl
    rw [htext]
    exact hcomments
  | domMutation => exact hcomments
  | windowEvent => exact hcomments
  | console => exact hcomments

theorem lines_timing (options : CodegenOptions) (sessionStart : DateTime)
    (previous : Option DateTime) (timestamp : DateTime) :
    Lines (escapeRustStr unprintable) (timingComment options sessionStart previous timestamp)
      (commentItems "\n    " (timingComments options sessionStart previous timestamp)) := by
  have hcomments := lines_commentItems unprintable (Or.inr (Or.inl rfl))
    (isLine_timingComments options sessionStart previous timestamp)
  have htext : timingComment options sessionStart previous timestamp =
      (timingComments options sessionStart previous timestamp).flatMap fun text =>
        "\n    ".toList ++ ('/' :: '/' :: (text ++ ['\n'])) := by
    have hend : "ms\n".toList = "ms".toList ++ "\n".toList := by
      simp only [← String.toList_append, String.reduceAppend]
    rw [timingComment, timingComments]
    split_ifs
    · rw [List.flatMap_singleton, hend, toList_split (show "\n    // +" = "\n    " ++ "// +" by
        simp only [String.reduceAppend]), List.append_assoc, List.append_assoc, List.append_assoc]
      rfl
    · rfl
  rw [htext]
  exact hcomments

/-- The items of the loop over the events. -/
def bodyItems (options : CodegenOptions) (sessionStart : DateTime) :
    (previous : Option DateTime) → List RecordedEvent → List Item
  | _, [] => []
  | previous, recorded :: rest =>
      commentItems "\n    " (timingComments options sessionStart previous recorded.timestamp) ++
        (eventItems unprintable options recorded.event ++
          bodyItems options sessionStart (some recorded.timestamp) rest)

theorem lines_body (options : CodegenOptions) (sessionStart : DateTime)
    (previous : Option DateTime) (events : List RecordedEvent) :
    Lines (escapeRustStr unprintable)
      (emitEvents unprintable options sessionStart previous events)
      (bodyItems unprintable options sessionStart previous events) := by
  induction events generalizing previous with
  | nil => exact Lines.nil _
  | cons recorded rest ih =>
    exact (lines_timing unprintable options sessionStart previous recorded.timestamp).append
      ((lines_event unprintable options recorded.event).append (ih (some recorded.timestamp)))

/-! ## The header and the end -/

theorem isWordChar_of_valid {c : Char} (h : c.isAlphanum = true ∨ c = '_') :
    isWordChar c = true := by
  rw [isWordChar]
  rcases h with h | rfl
  · rw [h]
    rfl
  · rfl

theorem isWordChar_identifierChars (s : List Char) (index : Nat) :
    ∀ c ∈ identifierChars index s, isWordChar c = true := by
  induction s generalizing index with
  | nil =>
    intro c hc
    exact absurd hc List.not_mem_nil
  | cons first rest ih =>
    intro c hc
    rw [identifierChars, List.mem_append] at hc
    rcases hc with hc | hc
    · by_cases hvalid : (if index = 0 then first.isAlpha || first = '_'
          else first.isAlphanum || first = '_') = true
      · rw [if_pos hvalid, List.mem_singleton] at hc
        rw [hc]
        apply isWordChar_of_valid
        split_ifs at hvalid
        · rw [Bool.or_eq_true, decide_eq_true_eq] at hvalid
          exact hvalid.imp_left fun h => by rw [Char.isAlphanum, h, Bool.true_or]
        · rw [Bool.or_eq_true, decide_eq_true_eq] at hvalid
          exact hvalid
      · rw [if_neg hvalid] at hc
        have hunderscore : c = '_' := by
          split_ifs at hc
          · rw [List.mem_cons, List.mem_singleton, or_self] at hc
            exact hc
          · exact List.mem_singleton.mp hc
        rw [hunderscore]
        rfl
    · exact ih (index + 1) c hc

theorem isWordChar_sanitizeRustIdentifier (s : List Char) :
    ∀ c ∈ sanitizeRustIdentifier s, isWordChar c = true := by
  intro c hc
  rw [sanitizeRustIdentifier] at hc
  split_ifs at hc
  · have hall : ("recorded_flow".toList.all isWordChar) = true := by decide
    exact List.all_eq_true.mp hall c hc
  · have hall : ("recorded_".toList.all isWordChar) = true := by decide
    rw [List.mem_append] at hc
    rcases hc with hc | hc
    · exact List.all_eq_true.mp hall c hc
    · exact isWordChar_identifierChars s 0 c hc
  · exact isWordChar_identifierChars s 0 c hc

/-- A name before what is placed behind any word. -/
theorem placed_name {name : List Char} (hname : ∀ c ∈ name, isWordChar c = true)
    {items : List Item} (hitems : ∀ c, placed (some c) items = true) {before : Char}
    (hbefore : before ≠ '"') : placed (some before) (name.map .code ++ items) = true := by
  induction name generalizing before with
  | nil => exact hitems before
  | cons c name ih =>
    have hword := hname c List.mem_cons_self
    have hne : ∀ d, isWordChar d = false → c ≠ d := by
      rintro d hd rfl
      rw [hword] at hd
      cases hd
    rw [List.map_cons, List.cons_append, placed]
    simp only [Bool.and_eq_true, bne_iff_ne, Bool.not_eq_true', Bool.and_eq_false_iff,
      beq_eq_false_iff_ne]
    refine ⟨⟨⟨⟨hne _ rfl, hne _ rfl⟩, hne _ rfl⟩, Or.inr fun h => hbefore (Option.some.inj h)⟩, ?_⟩
    exact ih (fun d hd => hname d (List.mem_cons_of_mem _ hd)) (hne _ rfl)

def importItems (options : CodegenOptions) : List Item :=
  match options.style with
  | .direct =>
      codes "\nuse victauri_test::VictauriClient;\n" ++
        (if options.emitIpcAssertCalls then codes "use victauri_test::assert_ipc_called;\n" else [])
  | .locator => codes "\nuse victauri_test::prelude::*;\n"

def signatureItems (options : CodegenOptions) : List Item :=
  codes "\n#[tokio::test]\nasync fn " ++
    ((sanitizeRustIdentifier options.testName).map .code ++ codes "() \x7b\n")

/-- What the client is expected to do. -/
def expectation : List Char := "connect to Tauri app".toList

def clientItems : List Item :=
  codes "    let mut client = VictauriClient::discover().await.expect(" ++
    (.literal expectation :: codes ");\n")

def headerItems (date : Date) (options : CodegenOptions) (session : RecordedSession) : List Item :=
  commentItems "" (headerComments unprintable date session) ++
    (importItems options ++ (signatureItems options ++ clientItems))

theorem lines_imports (options : CodegenOptions) :
    Lines (escapeRustStr unprintable)
      (match options.style with
      | .direct =>
          "\nuse victauri_test::VictauriClient;\n".toList ++
            (if options.emitIpcAssertCalls then "use victauri_test::assert_ipc_called;\n".toList
            else [])
      | .locator => "\nuse victauri_test::prelude::*;\n".toList)
      (importItems options) := by
  unfold importItems
  cases options.style with
  | direct =>
    cases options.emitIpcAssertCalls with
    | false => exact lines_of unprintable (by rw [textOf_append, textOf_codes]; rfl) rfl rfl rfl
    | true =>
      exact lines_of unprintable (by rw [textOf_append, textOf_codes]; exact congrArg _ (textOf_codes unprintable _))
        rfl rfl rfl
  | locator => exact lines_of unprintable (textOf_codes unprintable _) rfl rfl rfl

theorem lines_signature (options : CodegenOptions) :
    Lines (escapeRustStr unprintable)
      ("\n#[tokio::test]\nasync fn ".toList ++
        (sanitizeRustIdentifier options.testName ++ "() \x7b\n".toList))
      (signatureItems options) where
  text_eq := by
    rw [signatureItems, textOf_append, textOf_append, textOf_codes, textOf_code, textOf_codes]
  placed := by
    have hname : ∀ before : Char, before ≠ '"' → RustText.placed (some before)
        ((sanitizeRustIdentifier options.testName).map .code ++ codes "() \x7b\n") = true :=
      fun before => placed_name (isWordChar_sanitizeRustIdentifier options.testName)
        (fun c => rfl)
    exact hname ' ' (by decide)
  ends := by
    right
    rw [signatureItems, ← List.append_assoc, List.getLast?_append]
    rfl
  isLine := by
    intro comment hcomment
    rw [signatureItems, comments_append, comments_append, comments_code, comments_codes,
      comments_codes] at hcomment
    exact absurd hcomment List.not_mem_nil

theorem lines_client :
    Lines (escapeRustStr unprintable)
      ("    let mut client = VictauriClient::discover().await.expect(\"connect to Tauri app\");\n").toList
      clientItems := by
  have hquoted : quoted unprintable expectation = "\"connect to Tauri app\"".toList := by
    rw [quoted, escapeRustStr_ascii unprintable (by decide)]
    rfl
  have htext : textOf (escapeRustStr unprintable) clientItems =
      "    let mut client = VictauriClient::discover().await.expect(\"connect to Tauri app\");\n".toList := by
    rw [clientItems, textOf_append, textOf_literal, textOf_codes, textOf_codes, hquoted]
    simp only [← String.toList_append, String.reduceAppend]
  exact lines_of unprintable htext rfl rfl rfl

theorem isLine_headerComments (date : Date) (session : RecordedSession) :
    ∀ text ∈ headerComments unprintable date session, IsLine text := by
  intro text htext
  rw [headerComments, List.mem_cons, List.mem_singleton] at htext
  rcases htext with rfl | rfl
  · exact isLine_of (by decide) date.line
  · exact isLine_of (by decide) (not_mem_sanitizeComment unprintable _)

theorem lines_header (date : Date) (options : CodegenOptions) (session : RecordedSession) :
    Lines (escapeRustStr unprintable) (emitHeader unprintable date options session)
      (headerItems unprintable date options session) := by
  have hcomments := lines_commentItems unprintable (Or.inr (Or.inr rfl))
    (isLine_headerComments unprintable date session)
  have hall := hcomments.append ((lines_imports unprintable options).append
    ((lines_signature unprintable options).append (lines_client unprintable)))
  have hsignature (rest : List Char) : "\n".toList ++ ("#[tokio::test]\n".toList ++
      ("async fn ".toList ++ rest)) = "\n#[tokio::test]\nasync fn ".toList ++ rest := by
    simp only [← List.append_assoc, ← String.toList_append, String.reduceAppend]
  have hfirst := toList_split (show "// Generated by victauri record -- " =
    "//" ++ " Generated by victauri record -- " by simp only [String.reduceAppend])
  have hsecond := toList_split (show "// Session: " = "//" ++ " Session: " by
    simp only [String.reduceAppend])
  have hcommentText : ((headerComments unprintable date session).flatMap fun text =>
      "".toList ++ ('/' :: '/' :: (text ++ ['\n']))) =
        "// Generated by victauri record -- ".toList ++ (date.text ++ ("\n".toList ++
          ("// Session: ".toList ++ (sanitizeComment unprintable session.id.toList ++
            "\n".toList)))) := by
    have hslashes (rest : List Char) : '/' :: '/' :: rest = "//".toList ++ rest := rfl
    rw [hfirst, hsecond, headerComments, List.flatMap_cons, List.flatMap_cons, List.flatMap_nil,
      List.append_nil, hslashes, hslashes]
    simp only [List.append_assoc, show "".toList = [] from rfl, List.nil_append,
      show ['\n'] = "\n".toList from rfl]
  rw [hcommentText] at hall
  unfold headerItems emitHeader
  simp only [List.append_assoc, hsignature] at hall ⊢
  exact hall

/-- The assertions on the commands seen. -/
def assertItems (options : CodegenOptions) (seen : List String) : List Item :=
  if options.emitIpcAssertCalls ∧ seen ≠ [] then
    commentItems "\n    " [" Verify IPC calls".toList] ++
      (codes "    let log = client.get_ipc_log(Some(1000)).await.unwrap();\n" ++
        seen.flatMap fun command =>
          codes "    assert_ipc_called(&log, " ++ (.literal command.toList :: codes ");\n"))
  else []

theorem lines_calls (seen : List String) :
    Lines (escapeRustStr unprintable)
      (seen.flatMap fun command =>
        "    assert_ipc_called(&log, ".toList ++ quoted unprintable command.toList ++
          ");\n".toList)
      (seen.flatMap fun command =>
        codes "    assert_ipc_called(&log, " ++ (.literal command.toList :: codes ");\n")) := by
  induction seen with
  | nil => exact Lines.nil _
  | cons command seen ih =>
    have hcall : Lines (escapeRustStr unprintable)
        ("    assert_ipc_called(&log, ".toList ++ quoted unprintable command.toList ++
          ");\n".toList)
        (codes "    assert_ipc_called(&log, " ++ (.literal command.toList :: codes ");\n")) := by
      apply lines_of
      · rw [textOf_append, textOf_literal, textOf_codes, textOf_codes, List.append_assoc]
      · rfl
      · rfl
      · rfl
    rw [List.flatMap_cons, List.flatMap_cons]
    exact hcall.append ih

theorem lines_asserts (options : CodegenOptions) (seen : List String) :
    Lines (escapeRustStr unprintable) (emitAsserts unprintable options seen)
      (assertItems options seen) := by
  have hcomment := lines_commentItems unprintable (Or.inr (Or.inl rfl))
    (fun text htext => by
      rw [List.mem_singleton.mp htext]
      exact ⟨by decide, rfl⟩ : ∀ text ∈ [" Verify IPC calls".toList], IsLine text)
  have hlog : Lines (escapeRustStr unprintable)
      "    let log = client.get_ipc_log(Some(1000)).await.unwrap();\n".toList
      (codes "    let log = client.get_ipc_log(Some(1000)).await.unwrap();\n") :=
    lines_of unprintable (textOf_codes unprintable _) rfl rfl rfl
  have hall := hcomment.append (hlog.append (lines_calls unprintable seen))
  rw [emitAsserts, assertItems]
  split_ifs
  · have hfirst : "\n    // Verify IPC calls\n".toList =
        "\n    ".toList ++ ("// Verify IPC calls".toList ++ "\n".toList) := by
      simp only [← String.toList_append, String.reduceAppend]
    rw [hfirst, List.append_assoc]
    exact hall
  · exact Lines.nil _

/-! ## The whole test -/

def testItems (date : Date) (session : RecordedSession) (options : CodegenOptions) : List Item :=
  headerItems unprintable date options session ++
    (bodyItems unprintable options session.startedAt none session.events ++
      (assertItems options
        (session.events.filterMap fun recorded => seenCommand options recorded.event) ++
        codes "\x7d\n"))

theorem lines_generateTest (date : Date) (session : RecordedSession) (options : CodegenOptions) :
    Lines (escapeRustStr unprintable) (generateTest unprintable date session options)
      (testItems unprintable date session options) := by
  have hclose : Lines (escapeRustStr unprintable) "\x7d\n".toList (codes "\x7d\n") :=
    lines_of unprintable (textOf_codes unprintable _) rfl rfl rfl
  rw [generateTest, List.append_assoc, List.append_assoc]
  exact (lines_header unprintable date options session).append
    ((lines_body unprintable options session.startedAt none session.events).append
      ((lines_asserts unprintable options _).append hclose))

/-! ## What the test's items say -/

theorem literals_commentItems (indent : String) (texts : List (List Char)) :
    literals (commentItems indent texts) = [] := by
  induction texts with
  | nil => rfl
  | cons text texts ih =>
    rw [commentItems, List.flatMap_cons, literals_append, literals_append, literals_codes,
      literals_comment, literals_codes]
    exact ih

theorem comments_commentItems (indent : String) (texts : List (List Char)) :
    comments (commentItems indent texts) = texts := by
  induction texts with
  | nil => rfl
  | cons text texts ih =>
    rw [commentItems, List.flatMap_cons, comments_append, comments_append, comments_codes,
      comments_comment, comments_codes]
    exact congrArg (text :: ·) ih

theorem tokens_commentItems {indent : String}
    (hindent : indent = "    " ∨ indent = "\n    " ∨ indent = "") (texts : List (List Char)) :
    tokens (commentItems indent texts) = [] := by
  induction texts with
  | nil => rfl
  | cons text texts ih =>
    have hends : EndsLine (codes indent ++ (.comment text :: codes "\n")) := by
      right
      rcases hindent with rfl | rfl | rfl <;> rfl
    rw [commentItems, List.flatMap_cons, tokens_append hends]
    rcases hindent with rfl | rfl | rfl <;> exact ih

theorem literals_interactionItems (style : CodegenStyle) (action : InteractionKind)
    (selector : List Char) (value : Option String) :
    literals (interactionItems style action selector value) =
      interactionTexts style action selector value := by
  cases style with
  | direct =>
    unfold interactionItems directItems callItems interactionTexts selectorTexts resolvedText
    cases action <;> cases parseRecordedSelector selector <;>
      simp only [literals_append, literals_codes, literals_literal] <;> rfl
  | locator =>
    unfold interactionItems locatorCallItems locatorCall interactionTexts selectorTexts
    cases action <;> rcases parseRecordedSelector selector with _ | _ | _ | ⟨_ | _, _⟩ | _ <;>
      simp only [locatorItems, literals_append, literals_codes, literals_literal] <;> rfl

theorem comments_interactionItems (style : CodegenStyle) (action : InteractionKind)
    (selector : List Char) (value : Option String) :
    comments (interactionItems style action selector value) = [] := by
  cases style with
  | direct =>
    unfold interactionItems directItems callItems
    cases action <;> cases parseRecordedSelector selector <;>
      simp only [comments_append, comments_codes, comments_literal] <;> rfl
  | locator =>
    unfold interactionItems locatorCallItems locatorCall
    cases action <;> rcases parseRecordedSelector selector with _ | _ | _ | ⟨_ | _, _⟩ | _ <;>
      simp only [locatorItems, comments_append, comments_codes, comments_literal] <;> rfl

theorem literals_eventItems (options : CodegenOptions) (event : AppEvent) :
    literals (eventItems unprintable options event) = eventTexts options event := by
  cases event with
  | domInteraction action selector value timestamp webviewLabel =>
    exact literals_interactionItems options.style action selector.toList value
  | _ => exact literals_commentItems _ _

theorem comments_eventItems (options : CodegenOptions) (event : AppEvent) :
    comments (eventItems unprintable options event) =
      eventComments unprintable options event := by
  cases event with
  | domInteraction action selector value timestamp webviewLabel =>
    exact comments_interactionItems options.style action selector.toList value
  | _ => exact comments_commentItems _ _

theorem literals_bodyItems (options : CodegenOptions) (sessionStart : DateTime)
    (previous : Option DateTime) (events : List RecordedEvent) :
    literals (bodyItems unprintable options sessionStart previous events) =
      events.flatMap fun recorded => eventTexts options recorded.event := by
  induction events generalizing previous with
  | nil => rfl
  | cons recorded rest ih =>
    rw [bodyItems, literals_append, literals_append, ih, literals_eventItems,
      literals_commentItems]
    rfl

theorem comments_bodyItems (options : CodegenOptions) (sessionStart : DateTime)
    (previous : Option DateTime) (events : List RecordedEvent) :
    comments (bodyItems unprintable options sessionStart previous events) =
      bodyComments unprintable options sessionStart previous events := by
  induction events generalizing previous with
  | nil => rfl
  | cons recorded rest ih =>
    rw [bodyItems, comments_append, comments_append, ih, comments_eventItems,
      comments_commentItems]
    rfl

/-! ## The tokens -/

/-- The tokens of an event, by its kind. -/
def eventTokens (options : CodegenOptions) : EventKind → List Token
  | .interaction action shape =>
      match options.style with
      | .direct => tokens (directItems action shape [] [])
      | .locator => tokens (locatorCallItems action shape [] [])
  | _ => []

theorem erase_interactionItems (action : InteractionKind) (selector : List Char)
    (value : Option String) :
    (interactionItems .direct action selector value).map Item.erase =
        directItems action (parseRecordedSelector selector).shape [] [] ∧
      (interactionItems .locator action selector value).map Item.erase =
        locatorCallItems action (parseRecordedSelector selector).shape [] [] := by
  constructor
  · unfold interactionItems directItems callItems
    cases action <;> rcases parseRecordedSelector selector with _ | _ | _ | ⟨_ | _, _⟩ | _ <;>
      simp only [RecordedSelector.method, RecordedSelector.shape, List.map_append, List.map_cons,
        List.map_nil, erase_codes, Item.erase]
  · unfold interactionItems locatorCallItems locatorCall
    cases action <;> rcases parseRecordedSelector selector with _ | _ | _ | ⟨_ | _, _⟩ | _ <;>
      simp only [locatorItems, RecordedSelector.shape, List.map_append, List.map_cons,
        List.map_nil, erase_codes, Item.erase]

theorem tokens_eventItems (options : CodegenOptions) (event : AppEvent) :
    tokens (eventItems unprintable options event) = eventTokens options (eventKind event) := by
  cases event with
  | domInteraction action selector value timestamp webviewLabel =>
    obtain ⟨hdirect, hlocator⟩ := erase_interactionItems action selector.toList value
    rw [eventItems, eventKind, eventTokens]
    cases options.style with
    | direct => rw [tokens, ← tokensFrom_erase, hdirect]; rfl
    | locator => rw [tokens, ← tokensFrom_erase, hlocator]; rfl
  | _ => exact tokens_commentItems (Or.inl rfl) _

theorem tokens_bodyItems (options : CodegenOptions) (sessionStart : DateTime)
    (previous : Option DateTime) (events : List RecordedEvent) :
    tokens (bodyItems unprintable options sessionStart previous events) =
      (events.map fun recorded => eventKind recorded.event).flatMap (eventTokens options) := by
  induction events generalizing previous with
  | nil => rfl
  | cons recorded rest ih =>
    have htiming := (lines_timing unprintable options sessionStart previous recorded.timestamp).ends
    have hevent := (lines_event unprintable options recorded.event).ends
    rw [bodyItems, tokens_append htiming, tokens_append hevent, ih, tokens_eventItems,
      tokens_commentItems (Or.inr (Or.inl rfl))]
    rfl

/-- Whether an event's call is asserted at the end. -/
def isAsserted (options : CodegenOptions) : EventKind → Bool
  | .ipc internal completed =>
      options.includeIpcAssertions && !internal && completed && options.emitIpcAssertCalls
  | _ => false

theorem seenCommand_isSome (options : CodegenOptions) (event : AppEvent) :
    (seenCommand options event).isSome = isAsserted options (eventKind event) := by
  cases event with
  | ipc call =>
    rw [seenCommand, eventKind, isAsserted]
    cases options.includeIpcAssertions <;> cases isInternal call.command <;>
      cases isCompleted call.result <;> cases options.emitIpcAssertCalls <;> rfl
  | _ => rfl

theorem length_seenCommands (options : CodegenOptions) (events : List RecordedEvent) :
    (events.filterMap fun recorded => seenCommand options recorded.event).length =
      (events.map fun recorded => eventKind recorded.event).countP (isAsserted options) := by
  induction events with
  | nil => rfl
  | cons recorded rest ih =>
    have hsome := seenCommand_isSome options recorded.event
    rw [List.filterMap_cons, List.map_cons, List.countP_cons, ← hsome, ← ih]
    cases seenCommand options recorded.event with
    | none => rfl
    | some command => rfl

theorem tokens_assertItems (options : CodegenOptions) (seen : List String) :
    tokens (assertItems options seen) =
      tokens (assertItems options (List.replicate seen.length "")) := by
  have hcalls : (seen.flatMap fun command =>
        codes "    assert_ipc_called(&log, " ++ (.literal command.toList :: codes ");\n")).map
          Item.erase =
      ((List.replicate seen.length "").flatMap fun command =>
        codes "    assert_ipc_called(&log, " ++ (.literal command.toList :: codes ");\n")).map
          Item.erase := by
    induction seen with
    | nil => rfl
    | cons command seen ih =>
      rw [List.length_cons, List.replicate_succ, List.flatMap_cons, List.flatMap_cons,
        List.map_append, List.map_append, ih]
      rfl
  have hempty : List.replicate seen.length "" ≠ [] ↔ seen ≠ [] := by
    rw [Ne, List.replicate_eq_nil_iff, List.length_eq_zero_iff]
  rw [tokens, tokens, ← tokensFrom_erase, ← tokensFrom_erase [] (assertItems options _)]
  unfold assertItems
  simp only [hempty]
  split_ifs
  · rw [List.map_append, List.map_append, List.map_append, List.map_append, hcalls]
  · rfl

/-- The tokens of a test, by the options and the kinds of its events. -/
def testTokens (options : CodegenOptions) (kinds : List EventKind) : List Token :=
  tokens (importItems options ++ (signatureItems options ++ clientItems)) ++
    (kinds.flatMap (eventTokens options) ++
      (tokens (assertItems options (List.replicate (kinds.countP (isAsserted options)) "")) ++
        tokens (codes "\x7d\n")))

theorem tokens_testItems (date : Date) (session : RecordedSession) (options : CodegenOptions) :
    tokens (testItems unprintable date session options) =
      testTokens options (session.events.map fun recorded => eventKind recorded.event) := by
  have hheader := (lines_header unprintable date options session).ends
  have hcomments := (lines_commentItems unprintable (Or.inr (Or.inr rfl))
    (isLine_headerComments unprintable date session)).ends
  have hbody := (lines_body unprintable options session.startedAt none session.events).ends
  have hasserts := (lines_asserts unprintable options
    (session.events.filterMap fun recorded => seenCommand options recorded.event)).ends
  rw [testItems, tokens_append hheader, tokens_append hbody, tokens_append hasserts, headerItems,
    tokens_append hcomments, tokens_commentItems (Or.inr (Or.inr rfl)), tokens_bodyItems,
    tokens_assertItems, length_seenCommands]
  rfl

/-! ## The result -/

/-- The texts of the assertions. -/
def assertTexts (options : CodegenOptions) (events : List RecordedEvent) : List (List Char) :=
  (events.filterMap fun recorded => seenCommand options recorded.event).map String.toList

theorem seenCommand_of_silent {options : CodegenOptions} (h : options.emitIpcAssertCalls = false)
    (event : AppEvent) : seenCommand options event = none := by
  cases event with
  | ipc call => exact if_neg fun hall => absurd hall.2.2.2 (by rw [h]; decide)
  | _ => rfl

theorem literals_assertItems (options : CodegenOptions) (events : List RecordedEvent) :
    literals (assertItems options
        (events.filterMap fun recorded => seenCommand options recorded.event)) =
      assertTexts options events := by
  have hcalls (seen : List String) : literals (seen.flatMap fun command =>
      codes "    assert_ipc_called(&log, " ++ (.literal command.toList :: codes ");\n")) =
        seen.map String.toList := by
    induction seen with
    | nil => rfl
    | cons command seen ih =>
      rw [List.flatMap_cons, literals_append, literals_append, literals_literal, literals_codes,
        literals_codes, ih]
      rfl
  rw [assertTexts, assertItems]
  split_ifs with hasserts
  · rw [literals_append, literals_append, hcalls, literals_commentItems, literals_codes]
    rfl
  · by_cases hemit : options.emitIpcAssertCalls = true
    · rw [not_and, not_not] at hasserts
      rw [hasserts hemit]
      rfl
    · simp only [seenCommand_of_silent (Bool.eq_false_iff.mpr hemit),
        List.filterMap_none]
      rfl

theorem comments_assertItems (options : CodegenOptions) (seen : List String) :
    comments (assertItems options seen) = assertComments options seen := by
  have hcalls (seen : List String) : comments (seen.flatMap fun command =>
      codes "    assert_ipc_called(&log, " ++ (.literal command.toList :: codes ");\n")) = [] := by
    induction seen with
    | nil => rfl
    | cons command seen ih =>
      rw [List.flatMap_cons, comments_append, comments_append, comments_literal, comments_codes,
        comments_codes, ih]
      rfl
  rw [assertComments, assertItems]
  split_ifs
  · rw [comments_append, comments_append, hcalls, comments_commentItems, comments_codes]
    rfl
  · rfl

theorem literals_headerItems (date : Date) (options : CodegenOptions)
    (session : RecordedSession) :
    literals (headerItems unprintable date options session) = [expectation] := by
  have himports : literals (importItems options) = [] := by
    unfold importItems
    cases options.style <;> cases options.emitIpcAssertCalls <;>
      simp only [literals_append, literals_codes] <;> rfl
  rw [headerItems, literals_append, literals_append, literals_append, himports, signatureItems,
    literals_append, literals_append, literals_code, literals_codes, literals_codes,
    literals_commentItems, clientItems, literals_append, literals_literal, literals_codes,
    literals_codes]
  rfl

theorem comments_headerItems (date : Date) (options : CodegenOptions)
    (session : RecordedSession) :
    comments (headerItems unprintable date options session) =
      headerComments unprintable date session := by
  have himports : comments (importItems options) = [] := by
    unfold importItems
    cases options.style <;> cases options.emitIpcAssertCalls <;>
      simp only [comments_append, comments_codes] <;> rfl
  rw [headerItems, comments_append, comments_append, comments_append, himports, signatureItems,
    comments_append, comments_append, comments_code, comments_codes, comments_codes,
    comments_commentItems, clientItems, comments_append, comments_literal, comments_codes,
    comments_codes]
  exact List.append_nil _

/-- A generated test is read as Rust with each recorded text in a literal of its own or in a line
comment, and its tokens are decided by the options and the kinds of the events. -/
theorem generateTest_inert (date : Date) (session : RecordedSession) (options : CodegenOptions) :
    ∃ items, scan none (generateTest unprintable date session options) = some items ∧
      literals items = expectation ::
        ((session.events.flatMap fun recorded => eventTexts options recorded.event) ++
          assertTexts options session.events) ∧
      comments items = headerComments unprintable date session ++
        (bodyComments unprintable options session.startedAt none session.events ++
          assertComments options
            (session.events.filterMap fun recorded => seenCommand options recorded.event)) ∧
      tokens items =
        testTokens options (session.events.map fun recorded => eventKind recorded.event) := by
  have hlines := lines_generateTest unprintable date session options
  refine ⟨testItems unprintable date session options, hlines.scan (writes_escapeRustStr unprintable),
    ?_, ?_, tokens_testItems unprintable date session options⟩
  · rw [testItems, literals_append, literals_append, literals_append, literals_headerItems,
      literals_bodyItems, literals_assertItems, literals_codes, List.append_nil]
    rfl
  · rw [testItems, comments_append, comments_append, comments_append, comments_headerItems,
      comments_bodyItems, comments_assertItems, comments_codes, List.append_nil]

end

/-! ## Selectors of two shapes -/

def nonePrintable : Unprintable where
  test _ := false
  ascii _ _ _ := rfl

def someDate : Date where
  text := "2026-01-01".toList
  line := by decide

/-- A recording of one click. -/
def clickOn (selector : String) : RecordedSession where
  id := "session"
  startedAt := 0
  events := [⟨0, 0, .domInteraction .click selector none 0 "main"⟩]
  checkpoints := []

theorem parseRecordedSelector_id : parseRecordedSelector "#a".toList = .id ['a'] := by
  have hident : cssIdentChars ['a'] = some ['a'] := by
    rw [cssIdentChars, if_neg (by decide), if_pos (by decide), cssIdentChars]
    rfl
  have hid : parseId "#a".toList = some (.id ['a']) := by
    rw [parseId, show stripPrefix "#" "#a".toList = some ['a'] from rfl, Option.bind_some, cssIdent,
      hident]
    rfl
  rw [parseRecordedSelector, show parseTestId "#a".toList = none from rfl, hid]

/-- Two clicks on selectors of different shapes call different methods. -/
theorem generateTest_method_of_shape :
    (scan none (generateTest nonePrintable someDate (clickOn "#a") .default)).map tokens ≠
      (scan none (generateTest nonePrintable someDate (clickOn "a") .default)).map tokens := by
  have hwrites := writes_escapeRustStr nonePrintable
  have hkind : eventKind (.domInteraction .click "#a" none 0 "main") =
      .interaction .click (.id []) := by
    rw [eventKind, parseRecordedSelector_id]
    rfl
  rw [(lines_generateTest nonePrintable someDate (clickOn "#a") .default).scan hwrites,
    (lines_generateTest nonePrintable someDate (clickOn "a") .default).scan hwrites,
    Option.map_some, Option.map_some, tokens_testItems, tokens_testItems]
  intro h
  have htokens := Option.some.inj h
  rw [show (clickOn "#a").events.map (fun recorded => eventKind recorded.event) =
    [.interaction .click (.id [])] from congrArg ([·]) hkind] at htokens
  have hevents := List.append_cancel_right (List.append_cancel_left htokens)
  revert hevents
  decide

end Victauri.Core.Codegen
