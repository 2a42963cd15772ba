import Victauri.Core.Json

/-!
# Contracts of responses

`JsonShape` and `diff_shapes` of the plugin's `introspection.rs`.  The fields of an object are listed
in the order in which its map is iterated, which may be any.
-/

namespace Victauri.Plugin.Contracts

open Victauri.Core.Json (Value)

inductive JsonShape where
  | null
  | bool
  | number
  | string
  | array (elem : JsonShape)
  | object (fields : List (String × JsonShape))

/-- Induction on the element and the fields of a shape. -/
@[elab_as_elim]
theorem JsonShape.inductOn {P : JsonShape → Prop} (s : JsonShape) (null : P .null)
    (bool : P .bool) (number : P .number) (string : P .string)
    (array : ∀ elem, P elem → P (.array elem))
    (object : ∀ fields, (∀ field ∈ fields, P field.2) → P (.object fields)) : P s := by
  refine @JsonShape.rec P (fun fields => ∀ field ∈ fields, P field.2) (fun field => P field.2)
    null bool number string array object ?_ ?_ ?_ s
  · exact fun field hfield => absurd hfield List.not_mem_nil
  · exact fun field fields hfield hfields => List.forall_mem_cons.mpr ⟨hfield, hfields⟩
  · exact fun _ s hs => hs

namespace JsonShape

/-- `type_name`. -/
def typeName : JsonShape → String
  | null => "null"
  | bool => "bool"
  | number => "number"
  | string => "string"
  | array _ => "array"
  | object _ => "object"

/-- `HashMap::get`. -/
def get (key : String) : List (String × JsonShape) → Option JsonShape
  | [] => none
  | (k, s) :: fields => if k = key then some s else get key fields

mutual

/-- `from_value`. -/
def fromValue : Value → JsonShape
  | .null => null
  | .bool _ => bool
  | .number _ => number
  | .string _ => string
  | .array [] => array null
  | .array (item :: _) => array (fromValue item)
  | .object members => object (fromMembers members)

def fromMembers : List (String × Value) → List (String × JsonShape)
  | [] => []
  | (key, value) :: members => (key, fromValue value) :: fromMembers members

end

mutual

/-- `PartialEq::eq`, which does not mind the order of fields. -/
def equal : JsonShape → JsonShape → Bool
  | null, null => true
  | bool, bool => true
  | number, number => true
  | string, string => true
  | array b, array c => equal b c
  | object bFields, object cFields =>
      bFields.length == cFields.length && equalFields bFields cFields
  | _, _ => false

def equalFields : List (String × JsonShape) → List (String × JsonShape) → Bool
  | [], _ => true
  | (key, b) :: bFields, cFields =>
      (match get key cFields with
        | some c => equal b c
        | none => false) && equalFields bFields cFields

end

end JsonShape

/-! ## Comparing -/

structure TypeChange where
  path : String
  baselineType : String
  currentType : String
  deriving DecidableEq

/-- What `diff_shapes_inner` appends to its three lists. -/
structure Found where
  newFields : List String
  removedFields : List String
  typeChanges : List TypeChange
  deriving DecidableEq

def Found.none : Found := { newFields := [], removedFields := [], typeChanges := [] }

def Found.append (a b : Found) : Found where
  newFields := a.newFields ++ b.newFields
  removedFields := a.removedFields ++ b.removedFields
  typeChanges := a.typeChanges ++ b.typeChanges

def fieldPath (path key : String) : String :=
  if path.isEmpty then key else path ++ "." ++ key

mutual

def diffShapesInner (baseline current : JsonShape) (path : String) : Found :=
  match baseline, current with
  | .object bFields, .object cFields =>
      (diffFields bFields cFields path).append
        { Found.none with
          newFields := (cFields.filter fun field => (JsonShape.get field.1 bFields).isNone).map
            fun field => fieldPath path field.1 }
  | .array b, .array c => diffShapesInner b c (path ++ "[]")
  | b, c =>
      if b.typeName ≠ c.typeName then
        { Found.none with typeChanges := [⟨path, b.typeName, c.typeName⟩] }
      else Found.none

/-- The loop over the baseline's fields. -/
def diffFields (bFields cFields : List (String × JsonShape)) (path : String) : Found :=
  match bFields with
  | [] => Found.none
  | (key, b) :: bFields =>
      (match JsonShape.get key cFields with
        | some c => diffShapesInner b c (fieldPath path key)
        | none => { Found.none with removedFields := [fieldPath path key] }).append
          (diffFields bFields cFields path)

end

structure ContractDrift where
  command : String
  newFields : List String
  removedFields : List String
  typeChanges : List TypeChange
  shapeMatches : Bool

/-- `diff_shapes`. -/
def diffShapes (baseline current : JsonShape) (path : String) : ContractDrift :=
  let found := diffShapesInner baseline current path
  { command := path
    newFields := found.newFields
    removedFields := found.removedFields
    typeChanges := found.typeChanges
    shapeMatches := found.newFields.isEmpty && found.removedFields.isEmpty &&
      found.typeChanges.isEmpty }

end Victauri.Plugin.Contracts
