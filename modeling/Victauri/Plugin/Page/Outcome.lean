import Victauri.Core.Json.Printer

/-!
# The bodies a page reports outcomes in

`jsonStringLiteral`, `evalOutcomeBody` and the body of `_evalCheck`, from the bridge that
runs in the page.  A JavaScript string is its UTF-16 code units.  A result value is the
JSON value `JSON.stringify` makes of it, with number tokens as it prints them; the text
it prints is `stringify`.
-/

namespace Victauri.Plugin.Page

open Victauri.Core.Json

/-! ## Strings -/

abbrev JsString := List UInt16

/-- What a JavaScript string is made of: characters, and surrogates without a partner. -/
inductive CodePoint where
  | scalar (c : Char)
  | lone (u : UInt16)

/-- A code unit on its own. -/
def CodePoint.ofUnit (u : UInt16) : CodePoint :=
  if isHighSurrogate u.toNat || isLowSurrogate u.toNat then lone u
  else scalar (Char.ofNat u.toNat)

/-- `StringToCodePoints`. -/
def codePoints : JsString → List CodePoint
  | [] => []
  | [u] => [.ofUnit u]
  | u :: l :: us =>
      if isHighSurrogate u.toNat && isLowSurrogate l.toNat then
        .scalar (Char.ofNat (combine u.toNat l.toNat)) :: codePoints us
      else .ofUnit u :: codePoints (l :: us)

/-- The string in Rust, where an unpaired surrogate is `U+FFFD`. -/
def CodePoint.toChar : CodePoint → Char
  | scalar c => c
  | lone _ => '\ufffd'

def rustString (s : JsString) : String := String.ofList ((codePoints s).map CodePoint.toChar)

/-- How `QuoteJSONString` writes a code point: a lone surrogate as an escape. -/
def quoteCodePoint : CodePoint → List Char
  | .scalar c => quoteScalar c
  | .lone u => unicodeEscape u.toNat

/-- A string literal in which `quote` writes the code points. -/
def quoteWith (quote : CodePoint → List Char) (s : JsString) : List Char :=
  '"' :: ((codePoints s).flatMap quote ++ ['"'])

/-- `jsonStringLiteral`. -/
def jsonStringLiteral (s : JsString) : List Char := quoteWith quoteCodePoint s

/-! ## Values -/

inductive JsValue (number : NumberFormat) where
  | null
  | bool (b : Bool)
  | number (token : { t // number.token t })
  | string (s : JsString)
  | array (items : List (JsValue number))
  | object (members : List (JsString × JsValue number))

namespace JsValue

variable {number : NumberFormat}

mutual

/-- `JSON.stringify`, with `quote` writing the code points of strings. -/
def render (quote : CodePoint → List Char) : JsValue number → List Char
  | .null => ['n', 'u', 'l', 'l']
  | .bool true => ['t', 'r', 'u', 'e']
  | .bool false => ['f', 'a', 'l', 's', 'e']
  | .number token => token.1
  | .string s => quoteWith quote s
  | .array items => '[' :: (renderItems quote items ++ [']'])
  | .object members => '\x7b' :: (renderMembers quote members ++ ['\x7d'])

def renderItems (quote : CodePoint → List Char) : List (JsValue number) → List Char
  | [] => []
  | [v] => v.render quote
  | v :: v' :: vs => v.render quote ++ ',' :: renderItems quote (v' :: vs)

def renderMembers (quote : CodePoint → List Char) :
    List (JsString × JsValue number) → List Char
  | [] => []
  | [(k, v)] => quoteWith quote k ++ ':' :: v.render quote
  | (k, v) :: m :: ms =>
      quoteWith quote k ++ ':' :: (v.render quote ++ ',' :: renderMembers quote (m :: ms))

end

def stringify (v : JsValue number) : List Char := v.render quoteCodePoint

mutual

/-- The value in Rust: unpaired surrogates are `U+FFFD`, and of members whose keys that
makes equal the last one counts, as in any JSON text. -/
def toValue : JsValue number → Value
  | .null => .null
  | .bool b => .bool b
  | .number token => .number (number.read token.1)
  | .string s => .string (rustString s)
  | .array items => .array (toValues items)
  | .object members => .object (ofMembers (toMembers members))

def toValues : List (JsValue number) → List Value
  | [] => []
  | v :: vs => v.toValue :: toValues vs

def toMembers : List (JsString × JsValue number) → List (String × Value)
  | [] => []
  | (k, v) :: ms => (rustString k, v.toValue) :: toMembers ms

end

mutual

/-- How deep arrays and objects nest. -/
def depth : JsValue number → Nat
  | .array items => depthItems items + 1
  | .object members => depthMembers members + 1
  | _ => 0

def depthItems : List (JsValue number) → Nat
  | [] => 0
  | v :: vs => max v.depth (depthItems vs)

def depthMembers : List (JsString × JsValue number) → Nat
  | [] => 0
  | (_, v) :: ms => max v.depth (depthMembers ms)

end

end JsValue

/-! ## Outcomes -/

/-- How an eval came out. -/
inductive Outcome (number : NumberFormat) where
  | undefined
  | null
  | value (v : JsValue number)
  | error (message : JsString)
  /-- The code ran, but `JSON.stringify` threw or had no text for its result. -/
  | unserializable (reason : JsString)
  /-- The code did not begin executing. -/
  | notRun

/-- The code units of a text without characters outside the basic plane. -/
def units (text : String) : JsString := text.toList.map fun c => UInt16.ofNat c.toNat

def notRunReason : JsString :=
  units ("the code did not begin executing — this almost always means a syntax/parse error " ++
    "in the submitted code")

/-- The body of an outcome: `evalOutcomeBody`, or what `_evalCheck` reports. -/
def outcomeBody {number : NumberFormat} : Outcome number → List Char
  | .value v =>
      "\x7b\"__victauri_ok\":".toList ++ v.stringify ++ ",\"__victauri_type\":\"value\"\x7d".toList
  | .null => "\x7b\"__victauri_ok\":null,\"__victauri_type\":\"null\"\x7d".toList
  | .undefined => "\x7b\"__victauri_ok\":null,\"__victauri_type\":\"undefined\"\x7d".toList
  | .error message =>
      "\x7b\"__victauri_err\":".toList ++ jsonStringLiteral message ++ "\x7d".toList
  | .unserializable reason =>
      "\x7b\"__victauri_unserializable\":".toList ++ jsonStringLiteral reason ++ "\x7d".toList
  | .notRun =>
      "\x7b\"__victauri_not_run\":".toList ++ jsonStringLiteral notRunReason ++ "\x7d".toList

end Victauri.Plugin.Page
