import Victauri.Plugin.Mcp.PageJson
import Victauri.Plugin.Page.Outcome

/-!
# Unwrapping the eval envelope

`unwrap_eval_envelope` of `mod.rs`.  The JSON parser and printer are `serde_json`'s and
come in as `parse` and `print`.
-/

namespace Victauri.Plugin.Mcp

open Victauri.Core.Json

/-- How an eval call failed. -/
inductive EvalFailureKind where
  | notSent
  | aborted
  | page
  deriving DecidableEq

structure EvalFailure where
  kind : EvalFailureKind
  message : String

/-- `PARSE_ERROR_PREFIX`. -/
def parseErrorPrefix : String := "JavaScript parse error:"

def notRunFailure (why : String) : EvalFailure :=
  { kind := .notSent, message := parseErrorPrefix ++ " " ++ why }

def errorFailure (message : String) : EvalFailure :=
  { kind := .page, message := "JavaScript error: " ++ message }

def unserializableFailure (why : String) : EvalFailure :=
  { kind := .page
    message := "the code ran, but its result could not be serialized to JSON (" ++ why ++
      "). Return a JSON-serializable value instead — e.g. String() a BigInt, or pick the " ++
      "fields you need from a circular object." }

/-! ## Text searches -/

/-- `str::strip_prefix`. -/
def stripPrefix (start text : List Char) : Option (List Char) :=
  if start.isPrefixOf text then some (text.drop start.length) else none

/-- `str::rfind`: where the last occurrence of `pat` starts. -/
def rfind (pat : List Char) : List Char → Option Nat
  | [] => if pat = [] then some 0 else none
  | c :: cs =>
      match rfind pat cs with
      | some i => some (i + 1)
      | none => if pat.isPrefixOf (c :: cs) then some 0 else none

/-- `str::trim_end_matches` with a character. -/
def trimEndMatches (c : Char) (text : List Char) : List Char :=
  (text.reverse.dropWhile (· == c)).reverse

/-- `str::trim_matches` with a character. -/
def trimMatches (c : Char) (text : List Char) : List Char :=
  trimEndMatches c (text.dropWhile (· == c))

/-! ## The function -/

section Unwrap

variable (parse : List Char → Option Value) (print : Value → List Char)

/-- `parse_page_json`. -/
def parsePageJson (raw : List Char) : Option Value := parse (sanitizeLoneSurrogates raw)

/-- What a parsed envelope says, if it is one. -/
def readEnvelope (envelope : Value) : Option (Except EvalFailure (List Char)) :=
  if let some why := envelope.get "__victauri_not_run" then
    some (.error (notRunFailure (why.asStr.getD "the code did not begin executing")))
  else if let some err := envelope.get "__victauri_err" then
    some (.error (errorFailure (err.asStr.getD "unknown error")))
  else if let some why := envelope.get "__victauri_unserializable" then
    some (.error (unserializableFailure (why.asStr.getD "unknown reason")))
  else if let some value := envelope.get "__victauri_ok" then
    let jsType := ((envelope.get "__victauri_type").bind Value.asStr).getD "value"
    some (.ok
      (if jsType = "undefined" then "undefined".toList
      else if jsType = "null" then "null".toList
      else print value))
  else none

/-- The fallback for what the parser does not take: strip the envelope as text. -/
def stripEnvelope (raw : List Char) : Except EvalFailure (List Char) :=
  let fromErr :=
    match stripPrefix "\x7b\"__victauri_err\":".toList raw with
    | some after =>
        .error (errorFailure (String.ofList (trimMatches '"' (trimEndMatches '\x7d' after))))
    | none => .ok raw
  match stripPrefix "\x7b\"__victauri_ok\":".toList raw with
  | some after =>
      match rfind ",\"__victauri_type\":".toList after with
      | some idx => .ok (after.take idx)
      | none => fromErr
  | none => fromErr

def unwrapEvalEnvelope (raw : List Char) : Except EvalFailure (List Char) :=
  ((parsePageJson parse raw).bind (readEnvelope print)).getD (stripEnvelope raw)

end Unwrap

end Victauri.Plugin.Mcp
