import Mathlib.Data.List.Infix
import Victauri.Core.Json.Printer
import Victauri.Library.Suffixes
import Victauri.Plugin.Database.ScanSql

/-!
# Redaction of JSON

`redact_json_value` of `redaction.rs`: the values under sensitive keys are replaced, the patterns
go over the other leaves and over the keys, and keys that come out equal are told apart by a
number.  The regular expressions, `str::to_lowercase` and the parser and printer of JSON are
parameters.
-/

namespace Victauri.Plugin.Redaction

open Victauri.Core.Json
open Victauri.Plugin.Database (trimStart pieces)

/-- `Redactor`, with what it calls. -/
structure Redactor where
  /-- `is_match` of the set of the built-in patterns. -/
  builtinSet : String → Bool
  /-- `replace_all` of each of them. -/
  builtinCompiled : List (String → String)
  customSet : Option (String → Bool)
  customCompiled : List (String → String)
  /-- What `redact_text` does behind `redact_regex`: parameters of URLs and `key: value` pairs. -/
  redactTextPairs : String → String
  toLowercase : String → String
  fromStr : String → Option Value
  toString : Value → String
  numberToString : Number → String

def sensitiveJsonKeys : List String :=
  ["api_key", "apiKey", "api-key", "secret", "password", "passwd", "token", "access_token",
    "refresh_token", "private_key", "privateKey", "secret_key", "secretKey", "authorization",
    "auth_token", "session_token", "cookie", "credentials", "ssn", "credit_card", "card_number",
    "passphrase", "jwt"]

def sensitiveKeyParts : List String := ["auth", "pwd"]

def redacted : Value := .string "[REDACTED]"

def maxNestedJsonDepth : Nat := 4

/-- `{new_key}#{n}` -/
def suffixed (newKey : String) (n : Nat) : String := newKey ++ "#" ++ Nat.repr n

theorem suffixed_inj {newKey : String} {n m : Nat} (h : suffixed newKey n = suffixed newKey m) :
    n = m := by
  have hlists := congrArg String.toList h
  unfold suffixed Nat.repr at hlists
  simp only [String.toList_append, List.append_cancel_left_eq, String.toList_ofList] at hlists
  have hnumbers := congrArg (fun ds => Nat.ofDigitChars 10 ds 0) hlists
  rwa [Nat.ofDigitChars_ten_toDigits, Nat.ofDigitChars_ten_toDigits] at hnumbers

/-- The numbered keys of a text. -/
def suffixes (newKey : String) : Nat ↪ String := ⟨suffixed newKey, fun _ _ => suffixed_inj⟩

namespace Redactor

variable (r : Redactor)

def isSensitiveKey (key : String) : Bool :=
  let lowerKey := (r.toLowercase key).toList
  (sensitiveJsonKeys.any fun k => decide ((r.toLowercase k).toList <:+: lowerKey)) ||
    (pieces (fun c => c == '_' || c == '-' || c == '.') lowerKey).any fun part =>
      sensitiveKeyParts.any fun k => k.toList == part

def redactRegex (input : String) : String :=
  let hasBuiltin := r.builtinSet input
  let hasCustom := r.customSet.any fun set => set input
  if !hasBuiltin && !hasCustom then input
  else
    let output := if hasBuiltin then r.builtinCompiled.foldl (fun out re => re out) input else input
    if hasCustom then r.customCompiled.foldl (fun out re => re out) output else output

def redactText (input : String) : String := r.redactTextPairs (r.redactRegex input)

/-- The sensitive word is in the sibling field. -/
def namedSecret (members : List (String × Value)) : Bool :=
  ["name", "key"].any fun field =>
    ((Value.get (.object members) field).bind Value.asStr).any r.isSensitiveKey

/-- `new_map` and `last_suffix`. -/
structure Built where
  newMap : List (String × Value)
  lastSuffix : String → Option Nat

def Built.empty : Built := ⟨[], fun _ => none⟩

/-- `new_map.insert(unique, val)` with the search for `unique`. -/
def Built.insertUnique (b : Built) (newKey : String) (val : Value) : Built :=
  if newKey ∈ b.newMap.map Prod.fst then
    let n := Suffixes.next (suffixes newKey) (b.newMap.map Prod.fst)
      ((b.lastSuffix newKey).getD 1)
    { newMap := insertMember (suffixed newKey n) val b.newMap
      lastSuffix := Function.update b.lastSuffix newKey (some n) }
  else { b with newMap := insertMember newKey val b.newMap }

variable (redactString : String → Option Value)

/-- A boolean under a sensitive key only says that there is one. -/
def isSecret (named : Bool) (key : String) (val : Value) : Bool :=
  (r.isSensitiveKey key || (named && key == "value")) &&
    match val with
    | .bool _ => false
    | _ => true

mutual

/-- `redact_json_value`, given what is done to a string. -/
def redactJsonValueWith : Value → Option Value
  | .object members =>
      let (changed, b) := redactMembers (r.namedSecret members) members false .empty
      if changed then some (.object b.newMap) else none
  | .array items =>
      let new := redactItems items
      if new.any Option.isSome then
        some (.array (List.zipWith (fun new old => new.getD old) new items))
      else none
  | .string text => redactString text
  | .number n =>
      let text := r.numberToString n
      if r.redactRegex text ≠ text then some redacted else none
  | .bool _ => none
  | .null => none

def redactMembers (named : Bool) :
    List (String × Value) → Bool → Built → Bool × Built
  | [], changed, b => (changed, b)
  | (key, val) :: members, changed, b =>
      let newVal :=
        if r.isSecret named key val then some redacted else redactJsonValueWith val
      let newKey := r.redactRegex key
      redactMembers named members (changed || newVal.isSome || newKey != key)
        (b.insertUnique newKey (newVal.getD val))

def redactItems : List Value → List (Option Value)
  | [] => []
  | v :: items => redactJsonValueWith v :: redactItems items

end

/-- `redact_json_string`, by how many levels of JSON in strings may still be followed. -/
def redactJsonString : Nat → String → Option Value
  | 0, text => leaf text
  | levels + 1, text =>
      let trimmed := trimStart text.toList
      if trimmed.head? = some '\x7b' ∨ trimmed.head? = some '[' then
        match r.fromStr text with
        | some inner =>
            (r.redactJsonValueWith (redactJsonString levels) inner).map fun v =>
              .string (r.toString v)
        | none => leaf text
      else leaf text
where
  leaf (text : String) : Option Value :=
    let redactedText := r.redactText text
    if redactedText ≠ text then some (.string redactedText) else none

def redactJsonValue (value : Value) (depth : Nat) : Option Value :=
  r.redactJsonValueWith (r.redactJsonString (maxNestedJsonDepth - depth)) value

end Redactor

end Victauri.Plugin.Redaction
