import Victauri.Plugin.Mcp.RoundTrip

/-!
# Unwrapping gives the outcome back

Whatever outcome the page puts into an envelope, `unwrap_eval_envelope` takes it out
again: the parser reads an envelope that is not too deep, and from one that is the search
for the last `,"__victauri_type":` cuts the value out exactly.
-/

namespace Victauri.Plugin.Mcp

open Victauri.Core.Json Victauri.Plugin.Page

-- A quantifier over the characters of a text is decided along the text.
attribute [local instance (1100)] List.decidableBAll

variable {number : NumberFormat}

/-! ## The outcome in Rust -/

/-- What an outcome is to the caller of the eval.  A value is a JSON text that denotes it,
its exact text when the envelope is too deep for the parser. -/
def Decodes (limit : Nat) : Outcome number → Except EvalFailure (List Char) → Prop
  | .undefined, r => r = .ok "undefined".toList
  | .null, r => r = .ok "null".toList
  | .value v, r =>
      if v.depth + 1 ≤ limit then ∃ t d, r = .ok t ∧ Text number t v.toValue d
      else r = .ok v.stringify
  | .error message, r => r = .error (errorFailure (rustString message))
  | .unserializable reason, r => r = .error (unserializableFailure (rustString reason))
  | .notRun, r => r = .error (notRunFailure (rustString notRunReason))

/-- The kinds of outcome a caller tells apart; a value that is `null` is a `null`. -/
inductive OutcomeKind where
  | undefined
  | null
  | value
  | error
  | unserializable
  | notRun
  deriving DecidableEq

def outcomeKind : Outcome number → OutcomeKind
  | .undefined => .undefined
  | .null => .null
  | .value .null => .null
  | .value _ => .value
  | .error _ => .error
  | .unserializable _ => .unserializable
  | .notRun => .notRun

/-- The kind of outcome a result tells of. -/
def resultKind : Except EvalFailure (List Char) → OutcomeKind
  | .ok t =>
      if t = "undefined".toList then .undefined
      else if t = "null".toList then .null
      else .value
  | .error failure =>
      if failure.kind = .notSent then .notRun
      else if "JavaScript error: ".toList.isPrefixOf failure.message.toList then .error
      else .unserializable

theorem resultKind_error (message : String) :
    resultKind (.error (errorFailure message)) = .error := by
  simp [resultKind, errorFailure, String.toList_append]

theorem resultKind_unserializable (why : String) :
    resultKind (.error (unserializableFailure why)) = .unserializable := by
  simp [resultKind, unserializableFailure, String.toList_append]

theorem text_ne_undefined {t : List Char} {v : Value} {d : Nat} (h : Text number t v d) :
    t ≠ "undefined".toList := by
  rintro rfl
  have hread := read_of_text h d
  rw [if_pos (Nat.le_refl d)] at hread
  have hnone : read number d "undefined".toList = none := rfl
  rw [hnone] at hread
  cases hread

/-- Only `null` has the text `null`. -/
theorem text_ne_null {t : List Char} {v : JsValue number} {d : Nat}
    (h : Text number t v.toValue d) (hv : v ≠ .null) : t ≠ "null".toList := by
  rintro rfl
  have hnull := h.value_unique .null
  cases v <;> first | exact hv rfl | cases hnull

/-- A value too deep for the parser is in brackets. -/
theorem stringify_of_deep {v : JsValue number} (h : 0 < v.depth) :
    v.stringify.head? = some '[' ∨ v.stringify.head? = some '\x7b' := by
  cases v with
  | array items => exact .inl rfl
  | object members => exact .inr rfl
  | _ => exact absurd h (Nat.lt_irrefl 0)

theorem resultKind_value {v : JsValue number} {t : List Char}
    (h : t ≠ "undefined".toList) (hnull : v ≠ .null → t ≠ "null".toList)
    (hv : v = .null → t = "null".toList) :
    resultKind (.ok t) = outcomeKind (.value v) := by
  cases v with
  | null => rw [hv rfl]; rfl
  | _ => rw [resultKind, if_neg h, if_neg (hnull (by rintro ⟨⟩))]; rfl

/-- A result tells which kind of outcome it comes from. -/
theorem Decodes.kind {limit : Nat} (hlimit : 0 < limit) {o : Outcome number}
    {r : Except EvalFailure (List Char)} (h : Decodes limit o r) :
    resultKind r = outcomeKind o := by
  cases o with
  | undefined => rw [h]; rfl
  | null => rw [h]; rfl
  | error message => rw [h]; exact resultKind_error _
  | unserializable reason => rw [h]; exact resultKind_unserializable _
  | notRun => rw [h]; rfl
  | value v =>
      rw [Decodes] at h
      split_ifs at h with hdepth
      · obtain ⟨t, d, rfl, htext⟩ := h
        refine resultKind_value (text_ne_undefined htext) (text_ne_null htext) ?_
        rintro rfl
        cases htext
        rfl
      · have hstart := stringify_of_deep (v := v) (by omega)
        subst h
        refine resultKind_value ?_ (fun _ => ?_) ?_
        · intro h
          rw [h] at hstart
          simp at hstart
        · intro h
          rw [h] at hstart
          simp at hstart
        · rintro rfl
          rfl

/-! ## Envelopes -/

/-- The envelope with the one member `key`, whose text is `t`. -/
def singleText (key : String) (t : List Char) : List Char :=
  '\x7b' :: (quote key.toList ++ ':' :: t ++ ['\x7d'])

/-- The envelope of a result whose text is `t`. -/
def resultText (type : String) (t : List Char) : List Char :=
  '\x7b' :: (quote "__victauri_ok".toList ++ ':' ::
    (t ++ ',' :: (quote "__victauri_type".toList ++ ':' :: quote type.toList)) ++ ['\x7d'])

theorem text_single (key : String) {t : List Char} {s : String} (h : StringLiteral t s) :
    Text number (singleText key t) (.object [(key, .string s)]) 1 :=
  .object (.one (.quote key) (.string h))

theorem text_result (type : String) {t : List Char} {v : Value} {d : Nat}
    (h : Text number t v d) :
    Text number (resultText type t)
      (.object [("__victauri_ok", v), ("__victauri_type", .string type)]) (d + 1) := by
  have hmembers := Members.cons (.quote "__victauri_ok") h
    (.one (.quote "__victauri_type") (.string (.quote type)))
  rw [Nat.max_zero] at hmembers
  exact .object hmembers

theorem sanitize_single {key : String} (hkey : ∀ c ∈ quote key.toList, c ≠ '\\')
    (s : JsString) :
    sanitizeLoneSurrogates (singleText key (jsonStringLiteral s)) =
      singleText key (quoteWith quoteClean s) := by
  rw [singleText, List.append_assoc, sanitize_cons (by decide), sanitize_append hkey,
    List.cons_append, sanitize_cons (by decide), jsonStringLiteral, sanitize_quoteWith,
    sanitize_cons (by decide), sanitize_nil, singleText, List.append_assoc, List.cons_append]

theorem sanitize_result {type : String} (htype : ∀ c ∈ quote type.toList, c ≠ '\\')
    (v : JsValue number) :
    sanitizeLoneSurrogates (resultText type v.stringify) =
      resultText type (v.render quoteClean) := by
  have hend : ∀ c ∈ ',' :: (quote "__victauri_type".toList ++ ':' :: quote type.toList) ++
      ['\x7d'], c ≠ '\\' := by
    have hkey : ∀ c ∈ quote "__victauri_type".toList, c ≠ '\\' := by decide
    intro c hc
    simp only [List.cons_append, List.append_assoc, List.mem_cons, List.mem_append,
      List.not_mem_nil, or_false] at hc
    rcases hc with rfl | hc | rfl | hc | rfl
    · decide
    · exact hkey c hc
    · decide
    · exact htype c hc
    · decide
  have hend := sanitize_append hend []
  rw [List.append_nil, sanitize_nil, List.append_nil] at hend
  rw [resultText, List.append_assoc, sanitize_cons (by decide), sanitize_append (by decide),
    List.cons_append, sanitize_cons (by decide), List.append_assoc, JsValue.stringify,
    sanitize_render, hend, resultText]
  simp only [List.append_assoc, List.cons_append]

theorem outcomeBody_value (v : JsValue number) :
    outcomeBody (.value v) = resultText "value" v.stringify := by
  have hstart : "\x7b\"__victauri_ok\":".toList =
      '\x7b' :: (quote "__victauri_ok".toList ++ [':']) := rfl
  have hend : ",\"__victauri_type\":\"value\"\x7d".toList =
      ',' :: (quote "__victauri_type".toList ++ ':' :: quote "value".toList ++ ['\x7d']) := by
    decide
  calc outcomeBody (.value v)
      = "\x7b\"__victauri_ok\":".toList ++ v.stringify ++
          ",\"__victauri_type\":\"value\"\x7d".toList := rfl
    _ = resultText "value" v.stringify := by
      rw [hstart, hend]
      simp only [resultText, List.append_assoc, List.cons_append, List.nil_append]

theorem outcomeBody_null :
    outcomeBody (.null : Outcome number) =
      resultText "null" (JsValue.null : JsValue number).stringify :=
  have hbody : "\x7b\"__victauri_ok\":null,\"__victauri_type\":\"null\"\x7d".toList =
    resultText "null" ['n', 'u', 'l', 'l'] := by decide
  hbody

theorem outcomeBody_undefined :
    outcomeBody (.undefined : Outcome number) =
      resultText "undefined" (JsValue.null : JsValue number).stringify :=
  have hbody : "\x7b\"__victauri_ok\":null,\"__victauri_type\":\"undefined\"\x7d".toList =
    resultText "undefined" ['n', 'u', 'l', 'l'] := by decide
  hbody

theorem singleText_eq (key : String) (start t : List Char)
    (h : start = '\x7b' :: (quote key.toList ++ [':'])) :
    start ++ t ++ "\x7d".toList = singleText key t := by
  rw [h]
  simp [singleText]

theorem outcomeBody_error (message : JsString) :
    outcomeBody (.error message : Outcome number) =
      singleText "__victauri_err" (jsonStringLiteral message) :=
  singleText_eq "__victauri_err" "\x7b\"__victauri_err\":".toList _ (by decide)

theorem outcomeBody_unserializable (reason : JsString) :
    outcomeBody (.unserializable reason : Outcome number) =
      singleText "__victauri_unserializable" (jsonStringLiteral reason) :=
  singleText_eq "__victauri_unserializable" "\x7b\"__victauri_unserializable\":".toList _
    (by decide)

theorem outcomeBody_notRun :
    outcomeBody (.notRun : Outcome number) =
      singleText "__victauri_not_run" (jsonStringLiteral notRunReason) :=
  singleText_eq "__victauri_not_run" "\x7b\"__victauri_not_run\":".toList _ (by decide)

/-! ## Cutting the value out -/

theorem rfind_none {c : Char} {pat text : List Char} (h : c ∉ text) :
    rfind (c :: pat) text = none := by
  induction text with
  | nil => rfl
  | cons d text ih =>
      rw [List.mem_cons, not_or] at h
      simp [rfind, ih h.2, h.1]

theorem rfind_append {pat text : List Char} {i : Nat} (h : rfind pat text = some i)
    (before : List Char) : rfind pat (before ++ text) = some (before.length + i) := by
  induction before with
  | nil => simpa using h
  | cons c before ih =>
      rw [List.cons_append, rfind, ih, List.length_cons]
      simp only [Option.some.injEq]
      omega

/-- A pattern whose first character is not met later is found where it stands. -/
theorem rfind_last (before : List Char) (c : Char) (pat after : List Char)
    (h : c ∉ pat ++ after) :
    rfind (c :: pat) (before ++ (c :: pat ++ after)) = some before.length := by
  refine rfind_append (i := 0) ?_ before
  rw [List.cons_append, rfind, rfind_none h]
  simp

theorem stripPrefix_append (start rest : List Char) :
    stripPrefix start (start ++ rest) = some rest := by
  simp [stripPrefix]

/-- The fallback cuts at the type the page appended, whatever the value holds. -/
theorem stripEnvelope_result (v : JsValue number) :
    stripEnvelope (resultText "value" v.stringify) = .ok v.stringify := by
  have hstart : '\x7b' :: (quote "__victauri_ok".toList ++ [':']) =
      "\x7b\"__victauri_ok\":".toList := rfl
  have hend : ',' :: (quote "__victauri_type".toList ++ ':' :: quote "value".toList ++ ['\x7d']) =
      ',' :: "\"__victauri_type\":".toList ++ "\"value\"\x7d".toList := by decide
  have hraw : resultText "value" v.stringify = "\x7b\"__victauri_ok\":".toList ++
      (v.stringify ++ (',' :: "\"__victauri_type\":".toList ++ "\"value\"\x7d".toList)) := by
    rw [← hstart, ← hend]
    simp only [resultText, List.append_assoc, List.cons_append, List.nil_append]
  have hpat : ",\"__victauri_type\":".toList = ',' :: "\"__victauri_type\":".toList := by simp
  have hlast := rfind_last v.stringify ',' "\"__victauri_type\":".toList "\"value\"\x7d".toList
    (by simp)
  rw [stripEnvelope, hraw, stripPrefix_append]
  simp only [hpat, hlast, List.take_left]

/-! ## Reading an envelope -/

section Unwrap

variable {parse : List Char → Option Value} {print : Value → List Char} {limit : Nat}

theorem unwrap_of_envelope {raw : List Char} {envelope : Value}
    {r : Except EvalFailure (List Char)} (hparse : parsePageJson parse raw = some envelope)
    (hread : readEnvelope print envelope = some r) :
    unwrapEvalEnvelope parse print raw = r := by
  rw [unwrapEvalEnvelope, hparse, Option.bind_some, hread, Option.getD_some]

theorem unwrap_of_refusal {raw : List Char} (hparse : parsePageJson parse raw = none) :
    unwrapEvalEnvelope parse print raw = stripEnvelope raw := by
  rw [unwrapEvalEnvelope, hparse, Option.bind_none, Option.getD_none]

variable (hparse : ∀ t v d, Text number t v d → parse t = if d ≤ limit then some v else none)

include hparse

/-- An envelope around a string the page prints is read. -/
theorem parse_single (hlimit : 0 < limit) {key : String}
    (hkey : ∀ c ∈ quote key.toList, c ≠ '\\') (s : JsString) :
    parsePageJson parse (singleText key (jsonStringLiteral s)) =
      some (.object [(key, .string (rustString s))]) := by
  rw [parsePageJson, sanitize_single hkey,
    hparse _ _ _ (text_single key (stringLiteral_quoteClean s))]
  exact if_pos hlimit

/-- An envelope around a value is read unless it is too deep. -/
theorem parse_result (type : String) (htype : ∀ c ∈ quote type.toList, c ≠ '\\')
    (v : JsValue number) :
    parsePageJson parse (resultText type v.stringify) =
      if v.depth + 1 ≤ limit then
        some (.object [("__victauri_ok", v.toValue), ("__victauri_type", .string type)])
      else none := by
  rw [parsePageJson, sanitize_result htype, hparse _ _ _ (text_result type (text_render v))]

/-- What is made of an outcome's body. -/
def unwrapped (print : Value → List Char) (limit : Nat) :
    Outcome number → Except EvalFailure (List Char)
  | .undefined => .ok "undefined".toList
  | .null => .ok "null".toList
  | .value v => .ok (if v.depth + 1 ≤ limit then print v.toValue else v.stringify)
  | .error message => .error (errorFailure (rustString message))
  | .unserializable reason => .error (unserializableFailure (rustString reason))
  | .notRun => .error (notRunFailure (rustString notRunReason))

theorem unwrap_eq (hlimit : 0 < limit) (o : Outcome number) :
    unwrapEvalEnvelope parse print (outcomeBody o) = unwrapped print limit o := by
  cases o with
  | undefined =>
      have hread := parse_result hparse "undefined" (by decide) (.null : JsValue number)
      rw [outcomeBody_undefined]
      exact unwrap_of_envelope (hread.trans (if_pos hlimit)) rfl
  | null =>
      have hread := parse_result hparse "null" (by decide) (.null : JsValue number)
      rw [outcomeBody_null]
      exact unwrap_of_envelope (hread.trans (if_pos hlimit)) rfl
  | value v =>
      have hread := parse_result hparse "value" (by decide) v
      rw [outcomeBody_value, unwrapped]
      split_ifs at hread ⊢ with hdepth
      · exact unwrap_of_envelope hread rfl
      · rw [unwrap_of_refusal hread, stripEnvelope_result]
  | error message =>
      rw [outcomeBody_error]
      exact unwrap_of_envelope (parse_single hparse hlimit (by decide) message) rfl
  | unserializable reason =>
      rw [outcomeBody_unserializable]
      exact unwrap_of_envelope (parse_single hparse hlimit (by decide) reason) rfl
  | notRun =>
      rw [outcomeBody_notRun]
      exact unwrap_of_envelope (parse_single hparse hlimit (by decide) notRunReason) rfl

/-- Only the not-run report is unwrapped to a failure of kind `NotSent`. -/
theorem unwrap_notSent (hlimit : 0 < limit) {o : Outcome number} {failure : EvalFailure}
    (h : unwrapEvalEnvelope parse print (outcomeBody o) = .error failure)
    (hkind : failure.kind = .notSent) : o = .notRun := by
  rw [unwrap_eq hparse hlimit] at h
  cases o <;> cases h <;> first | rfl | cases hkind

variable (hprint : ∀ t v d, Text number t v d → ∃ d', Text number (print v) v d')
  (hlimit : 0 < limit)

include hprint hlimit

/-- Every outcome survives the envelope. -/
theorem unwrap_decodes (o : Outcome number) :
    Decodes limit o (unwrapEvalEnvelope parse print (outcomeBody o)) := by
  rw [unwrap_eq hparse hlimit]
  cases o with
  | value v =>
      rw [Decodes, unwrapped]
      split_ifs with hdepth
      · obtain ⟨d, hd⟩ := hprint _ _ _ (text_render v)
        exact ⟨_, d, rfl, hd⟩
      · rfl
  | _ => rfl

/-- Whatever outcome the page puts into its body, the caller gets that outcome back, and
never one kind for another. -/
theorem unwrapEvalEnvelope_outcomeBody (o : Outcome number) :
    Decodes limit o (unwrapEvalEnvelope parse print (outcomeBody o)) ∧
      resultKind (unwrapEvalEnvelope parse print (outcomeBody o)) = outcomeKind o :=
  have hdecodes := unwrap_decodes hparse hprint hlimit o
  ⟨hdecodes, hdecodes.kind hlimit⟩

end Unwrap

theorem unwrapEvalEnvelope_outcomeBody_of_lone :
    let outcome : Outcome oneDigit :=
      .value (.array [.number ⟨['7'], 7, rfl⟩, .object [([0x61], .string [0xd83d])]])
    let unwrapped :=
      unwrapEvalEnvelope (read oneDigit 127) (print oneDigitPrinter) (outcomeBody outcome)
    Decodes 127 outcome unwrapped ∧ resultKind unwrapped = .value :=
  unwrapEvalEnvelope_outcomeBody (fun _ _ _ h => read_of_text h 127)
    (fun _ _ _ h => h.printed oneDigitPrinter) (by decide) _

end Victauri.Plugin.Mcp
