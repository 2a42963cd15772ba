import Victauri.Core.Json

/-!
# JSON texts

The grammar of compact JSON texts (no white space), with the value each denotes and the
depth its arrays and objects nest to.  Which numbers there are and how they are read is
left to the parser; an object keeps its members in the order of insertion and a repeated
key has its last value, as in the `serde_json::Map` that is built here (`preserve_order`).
-/

namespace Victauri.Core.Json

/-! ## Objects -/

/-- `Map::insert`. -/
def insertMember (key : String) (value : Value) :
    List (String × Value) → List (String × Value)
  | [] => [(key, value)]
  | (k, v) :: members =>
      if key = k then (key, value) :: members else (k, v) :: insertMember key value members

/-- Members inserted one after another. -/
def insertMembers (members object : List (String × Value)) : List (String × Value) :=
  members.foldl (fun object m => insertMember m.1 m.2 object) object

/-- The object a list of members denotes. -/
def ofMembers (members : List (String × Value)) : List (String × Value) :=
  insertMembers members []

/-- `Value::get` with a key. -/
def Value.get (value : Value) (key : String) : Option Value :=
  match value with
  | .object members => (members.find? fun m => m.1 == key).map fun m => m.2
  | _ => none

/-- `Value::as_str`. -/
def Value.asStr : Value → Option String
  | .string s => some s
  | _ => none

/-! ## Number tokens -/

def IsDigits (t : List Char) : Prop := t ≠ [] ∧ ∀ c ∈ t, c.isDigit = true

/-- `-? (0 | [1-9][0-9]*) (. [0-9]+)? ([eE] [+-]? [0-9]+)?` -/
def IsNumber (t : List Char) : Prop :=
  ∃ minus int frac exp, t = minus ++ int ++ frac ++ exp ∧
    (minus = [] ∨ minus = ['-']) ∧
    (IsDigits int ∧ (int.head? = some '0' → int = ['0'])) ∧
    (frac = [] ∨ ∃ ds, frac = '.' :: ds ∧ IsDigits ds) ∧
    (exp = [] ∨ ∃ e sign ds, exp = e :: sign ++ ds ∧ (e = 'e' ∨ e = 'E') ∧
      (sign = [] ∨ sign = ['+'] ∨ sign = ['-']) ∧ IsDigits ds)

/-- The number tokens in use, those of finite numbers, and how the parser reads them. -/
structure NumberFormat where
  token : List Char → Prop
  isNumber : ∀ t, token t → IsNumber t
  read : List Char → Number

/-! ## Strings -/

/-- The letters of the two-character escapes and what they stand for. -/
def simpleEscapes : List (Char × Char) :=
  [('"', '"'), ('\\', '\\'), ('/', '/'), ('b', '\x08'), ('f', '\x0c'), ('n', '\n'),
    ('r', '\r'), ('t', '\t')]

def hexDigit (c : Char) : Option Nat :=
  if '0' ≤ c ∧ c ≤ '9' then some (c.toNat - '0'.toNat)
  else if 'a' ≤ c ∧ c ≤ 'f' then some (c.toNat - 'a'.toNat + 10)
  else if 'A' ≤ c ∧ c ≤ 'F' then some (c.toNat - 'A'.toNat + 10)
  else none

/-- The number hexadecimal digits stand for. -/
def hexNumber (ds : List Char) : Option Nat :=
  ds.foldlM (fun n c => (hexDigit c).map fun d => n * 16 + d) 0

def isHighSurrogate (u : Nat) : Bool := 0xD800 ≤ u && u ≤ 0xDBFF

def isLowSurrogate (u : Nat) : Bool := 0xDC00 ≤ u && u ≤ 0xDFFF

/-- The code point of a surrogate pair. -/
def combine (high low : Nat) : Nat := 0x10000 + (high - 0xD800) * 0x400 + (low - 0xDC00)

/-- `StringBody t s`: between its quotes, a string literal with the text `t` denotes `s`. -/
inductive StringBody : List Char → List Char → Prop
  | nil : StringBody [] []
  | plain {c t s} (hcontrol : 0x20 ≤ c.toNat) (hquote : c ≠ '"') (hslash : c ≠ '\\')
      (h : StringBody t s) : StringBody (c :: t) (c :: s)
  | simple {e c t s} (he : (e, c) ∈ simpleEscapes) (h : StringBody t s) :
      StringBody ('\\' :: e :: t) (c :: s)
  | unicode {w x y z u t s} (hu : hexNumber [w, x, y, z] = some u)
      (hhigh : isHighSurrogate u = false) (hlow : isLowSurrogate u = false)
      (h : StringBody t s) :
      StringBody ('\\' :: 'u' :: w :: x :: y :: z :: t) (Char.ofNat u :: s)
  | pair {w x y z w' x' y' z' u u' t s} (hu : hexNumber [w, x, y, z] = some u)
      (hu' : hexNumber [w', x', y', z'] = some u') (hhigh : isHighSurrogate u = true)
      (hlow : isLowSurrogate u' = true) (h : StringBody t s) :
      StringBody
        ('\\' :: 'u' :: w :: x :: y :: z :: '\\' :: 'u' :: w' :: x' :: y' :: z' :: t)
        (Char.ofNat (combine u u') :: s)

/-- A string literal. -/
inductive StringLiteral : List Char → String → Prop
  | mk {t s} (h : StringBody t s) : StringLiteral ('"' :: (t ++ ['"'])) (String.ofList s)

/-! ## Values -/

mutual

/-- `Text number t v d`: the text `t` denotes the value `v` and nests to depth `d`. -/
inductive Text (number : NumberFormat) : List Char → Value → Nat → Prop
  | null : Text number ['n', 'u', 'l', 'l'] .null 0
  | true : Text number ['t', 'r', 'u', 'e'] (.bool true) 0
  | false : Text number ['f', 'a', 'l', 's', 'e'] (.bool false) 0
  | number {t} (h : number.token t) : Text number t (.number (number.read t)) 0
  | string {t s} (h : StringLiteral t s) : Text number t (.string s) 0
  | emptyArray : Text number ['[', ']'] (.array []) 1
  | array {t vs d} (h : Items number t vs d) :
      Text number ('[' :: (t ++ [']'])) (.array vs) (d + 1)
  | emptyObject : Text number ['\x7b', '\x7d'] (.object []) 1
  | object {t ms d} (h : Members number t ms d) :
      Text number ('\x7b' :: (t ++ ['\x7d'])) (.object (ofMembers ms)) (d + 1)

/-- The items of a non-empty array. -/
inductive Items (number : NumberFormat) : List Char → List Value → Nat → Prop
  | one {t v d} (h : Text number t v d) : Items number t [v] d
  | cons {t v d t' vs d'} (h : Text number t v d) (h' : Items number t' vs d') :
      Items number (t ++ ',' :: t') (v :: vs) (max d d')

/-- The members of a non-empty object. -/
inductive Members (number : NumberFormat) :
    List Char → List (String × Value) → Nat → Prop
  | one {k key t v d} (hk : StringLiteral k key) (h : Text number t v d) :
      Members number (k ++ ':' :: t) [(key, v)] d
  | cons {k key t v d t' ms d'} (hk : StringLiteral k key) (h : Text number t v d)
      (h' : Members number t' ms d') :
      Members number (k ++ ':' :: (t ++ ',' :: t')) ((key, v) :: ms) (max d d')

end

end Victauri.Core.Json
