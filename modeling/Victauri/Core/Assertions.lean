import Mathlib.Data.List.Infix
import Victauri.Core.Verification.NumberTexts
import Victauri.Library.Binary64

/-!
# Semantic assertions

`evaluate_assertion` of `verification.rs`, and the comparison its conditions use.  The texts of
floats and what `Debug` prints are parameters.
-/

namespace Victauri.Core.Verification

open Json

inductive AssertionCondition where
  | equals
  | notEquals
  | contains
  | greaterThan
  | lessThan
  | truthy
  | falsy
  | exists
  | typeIs
  deriving DecidableEq

/-- `Display for AssertionCondition` -/
def AssertionCondition.text : AssertionCondition → String
  | equals => "equals"
  | notEquals => "not_equals"
  | contains => "contains"
  | greaterThan => "greater_than"
  | lessThan => "less_than"
  | truthy => "truthy"
  | falsy => "falsy"
  | .exists => "exists"
  | typeIs => "type_is"

structure SemanticAssertion where
  label : String
  condition : AssertionCondition
  expected : Value

structure AssertionResult where
  label : String
  passed : Bool
  actual : Value
  expected : Value
  message : Option String

/-- What an assertion asks of the standard library. -/
structure Texts extends FloatTexts where
  /-- `str::parse::<f64>` -/
  parseF64 : String → Option UInt64
  /-- `{:?}` of a value. -/
  debug : Value → String

section Equality

variable (floats : Floats) (texts : FloatTexts)

/-- A text as a number, only if that number prints back as exactly the text. -/
def canonicalNumber (s : String) : Option Number :=
  (readNumber texts s.toList).filter fun n => printNumber texts n == s.toList

/-- The one definition of "equal": a number against a string goes by the string's number. -/
def jsonValuesEqual (a b : Value) : Bool :=
  match a, b with
  | .number n, .string s => (canonicalNumber texts s).any fun parsed => numbersEqual floats parsed n
  | .string s, .number n => (canonicalNumber texts s).any fun parsed => numbersEqual floats parsed n
  | a, b => strictlyEqual floats a b

end Equality

/-- `Number::as_f64` -/
def asF64 : Number → UInt64
  | .posInt n => Binary64.ofInt n.toNat
  | .negInt n => Binary64.ofInt n.toInt
  | .float x => x

section Evaluation

variable (floats : Floats) (texts : Texts)

def coerceF64 : Value → Option UInt64
  | .number n => some (asF64 n)
  | .string s => texts.parseF64 s
  | _ => none

/-- Whether a condition holds of a value and what is expected. -/
def conditionHolds (condition : AssertionCondition) (actual expected : Value) : Bool :=
  match condition with
  | .equals => jsonValuesEqual floats texts.toFloatTexts actual expected
  | .notEquals => !jsonValuesEqual floats texts.toFloatTexts actual expected
  | .contains =>
      match actual, expected with
      | .string a, .string e => decide (e.toList <:+: a.toList)
      | .array items, val => items.any fun item => jsonValuesEqual floats texts.toFloatTexts item val
      | _, _ => false
  | .greaterThan =>
      match coerceF64 texts actual, coerceF64 texts expected with
      | some a, some e => Binary64.lt e a
      | _, _ => false
  | .lessThan =>
      match coerceF64 texts actual, coerceF64 texts expected with
      | some a, some e => Binary64.lt a e
      | _, _ => false
  | .truthy =>
      match actual with
      | .null | .bool false => false
      | .string s => s != ""
      | .number n => Binary64.key (asF64 n) != 0
      | _ => true
  | .falsy =>
      match actual with
      | .null | .bool false => true
      | .string s => s == ""
      | .number n => Binary64.key (asF64 n) == 0
      | _ => false
  | .exists =>
      match actual with
      | .null => false
      | _ => true
  | .typeIs =>
      match actual, expected with
      | .string _, .string "string" => true
      | .number _, .string "number" => true
      | .bool _, .string "boolean" => true
      | .array _, .string "array" => true
      | .object _, .string "object" => true
      | .null, .string "null" => true
      | _, _ => false

def evaluateAssertion (actual : Value) (assertion : SemanticAssertion) : AssertionResult :=
  let passed := conditionHolds floats texts assertion.condition actual assertion.expected
  { label := assertion.label
    passed
    actual
    expected := assertion.expected
    message :=
      if passed then none
      else
        some ("Assertion '" ++ assertion.label ++ "' failed: expected " ++
          assertion.condition.text ++ " " ++ texts.debug assertion.expected ++ ", got " ++
          texts.debug actual) }

end Evaluation

end Victauri.Core.Verification
