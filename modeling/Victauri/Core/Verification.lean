import Victauri.Core.Json

/-!
# Cross-boundary verification

`verify_state` of `verification.rs` compares the state the webview has with the state the
backend has; `strictly_equal` is the comparison the assertions use.  An object is the list of
its members in the order its map iterates; `get` is the map's.

What `f64` arithmetic answers is a parameter.
-/

namespace Victauri.Core

open Json

namespace Verification

/-! ## Numbers -/

/-- The questions asked of `f64`s, given by their bits, and of numbers taken as `f64`s. -/
structure Floats where
  /-- `x == y`. -/
  eq : UInt64 → UInt64 → Bool
  /-- `(x - y).abs() <= 4.0 * f64::EPSILON * x.abs().max(y.abs())`. -/
  close : UInt64 → UInt64 → Bool
  /-- The integer it is, if it is whole and below `2^127` in size. -/
  whole : UInt64 → Option Int
  /-- `(fv - bv).abs() < FLOAT_EPSILON` of the numbers' `as_f64`. -/
  withinEpsilon : Number → Number → Bool

def integerValue : Number → Option Int
  | .posInt n => some n.toNat
  | .negInt n => some n.toInt
  | .float _ => none

section Numbers

variable (floats : Floats)

/-- Numeric equality: integers exactly, floats within rounding error. -/
def numbersEqual (a b : Number) : Bool :=
  match a, b with
  | .float x, .float y => floats.eq x y || floats.close x y
  | .float x, b => (floats.whole x).any fun n => integerValue b == some n
  | a, .float y => (floats.whole y).any fun n => integerValue a == some n
  | a, b => integerValue a == integerValue b

/-- `Number::eq`: numbers of different kinds are not equal. -/
def numberEq : Number → Number → Bool
  | .posInt a, .posInt b => a == b
  | .negInt a, .negInt b => a == b
  | .float a, .float b => floats.eq a b
  | _, _ => false

end Numbers

/-! ## Values -/

/-- `Map::get`. -/
def get (key : String) (members : List (String × Value)) : Option Value := members.lookup key

section Values

variable (floats : Floats)

mutual

/-- `Value::eq`. -/
def valueEq : Value → Value → Bool
  | .null, .null => true
  | .bool a, .bool b => a == b
  | .number a, .number b => numberEq floats a b
  | .string a, .string b => a == b
  | .array xs, .array ys => itemsEq xs ys
  | .object xs, .object ys => xs.length == ys.length && membersEq xs ys
  | _, _ => false

def itemsEq : List Value → List Value → Bool
  | [], [] => true
  | x :: xs, y :: ys => valueEq x y && itemsEq xs ys
  | _, _ => false

/-- Every member is in the other map. -/
def membersEq : List (String × Value) → List (String × Value) → Bool
  | [], _ => true
  | (k, x) :: xs, ys =>
      (match get k ys with
        | some y => valueEq x y
        | none => false) && membersEq xs ys

end

mutual

def strictlyEqual : Value → Value → Bool
  | .number x, .number y => numbersEqual floats x y
  | .array xs, .array ys => xs.length == ys.length && itemsStrictlyEqual xs ys
  | .object xs, .object ys => xs.length == ys.length && membersStrictlyEqual xs ys
  | a, b => valueEq floats a b

def itemsStrictlyEqual : List Value → List Value → Bool
  | x :: xs, y :: ys => strictlyEqual x y && itemsStrictlyEqual xs ys
  | _, _ => true

def membersStrictlyEqual : List (String × Value) → List (String × Value) → Bool
  | [], _ => true
  | (k, x) :: xs, ys =>
      (match get k ys with
        | some y => strictlyEqual x y
        | none => false) && membersStrictlyEqual xs ys

end

end Values

/-! ## Divergences -/

inductive DivergenceSeverity where
  | info
  | warning
  | error
  deriving DecidableEq

/-- A mismatch at a path. -/
structure Divergence where
  path : String
  frontendValue : Value
  backendValue : Value
  severity : DivergenceSeverity

structure VerificationResult where
  passed : Bool
  frontendState : Value
  backendState : Value
  divergences : List Divergence

/-- `MAX_COMPARE_DEPTH`. -/
def maxCompareDepth : Nat := 128

/-- The path a divergence of a whole value is reported at. -/
def reportPath (path : String) : String := if path = "" then "$" else path

def keyPath (path key : String) : String := if path = "" then key else path ++ "." ++ key

def indexPath (path : String) (i : Nat) : String :=
  if path = "" then "[" ++ toString i ++ "]" else path ++ "[" ++ toString i ++ "]"

/-- A member or item that the backend does not have. -/
def frontendOnly (path : String) (v : Value) : Divergence := ⟨path, v, .null, .warning⟩

/-- A member or item that the frontend does not have. -/
def backendOnly (path : String) (v : Value) : Divergence := ⟨path, .null, v, .warning⟩

section Compare

variable (floats : Floats)

def classifySeverity : Value → Value → DivergenceSeverity
  | .null, _ => .warning
  | _, .null => .warning
  | .number f, .number b => if floats.withinEpsilon f b then .info else .error
  | _, _ => .error

/-- `5` and `5.0` are the same number. -/
def sameNumber : Value → Value → Bool
  | .number f, .number b => numbersEqual floats f b
  | _, _ => false

/-- A path nested too deep to be compared. -/
def depthExceeded (path : String) : Divergence :=
  ⟨reportPath path, .string ("<max compare depth " ++ toString maxCompareDepth ++ " exceeded>"),
    .null, .warning⟩

mutual

/-- The divergences of two values, in the order they are pushed. -/
def compareValues (path : String) (frontend backend : Value) (depth : Nat) : List Divergence :=
  if valueEq floats frontend backend then []
  else if sameNumber floats frontend backend then []
  else if maxCompareDepth ≤ depth then [depthExceeded path]
  else
    match frontend, backend with
    | .object fMap, .object bMap =>
        compareMembers path fMap bMap depth ++
          (bMap.filter fun m => (get m.1 fMap).isNone).map fun m =>
            backendOnly (keyPath path m.1) m.2
    | .array fArr, .array bArr => compareItems path fArr bArr 0 depth
    | f, b => [⟨reportPath path, f, b, classifySeverity floats f b⟩]

/-- The loop over the frontend's members. -/
def compareMembers (path : String) (fMap bMap : List (String × Value)) (depth : Nat) :
    List Divergence :=
  match fMap with
  | [] => []
  | (key, fVal) :: rest =>
      (match get key bMap with
        | some bVal => compareValues (keyPath path key) fVal bVal (depth + 1)
        | none => [frontendOnly (keyPath path key) fVal]) ++
        compareMembers path rest bMap depth

/-- The loop over the items from the `i`th on. -/
def compareItems (path : String) (fArr bArr : List Value) (i depth : Nat) : List Divergence :=
  match fArr, bArr with
  | fVal :: fRest, bVal :: bRest =>
      compareValues (indexPath path i) fVal bVal (depth + 1) ++
        compareItems path fRest bRest (i + 1) depth
  | fVal :: fRest, [] =>
      frontendOnly (indexPath path i) fVal :: compareItems path fRest [] (i + 1) depth
  | [], bRest => bRest.mapIdx fun j bVal => backendOnly (indexPath path (i + j)) bVal

end

def verifyState (frontendState backendState : Value) : VerificationResult :=
  let divergences := compareValues floats "" frontendState backendState 0
  { passed := divergences.isEmpty, frontendState, backendState, divergences }

end Compare

end Verification

end Victauri.Core
