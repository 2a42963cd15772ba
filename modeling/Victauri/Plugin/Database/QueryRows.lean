import Victauri.Core.Json.Printer
import Victauri.Library.Base64
import Victauri.Library.Binary64
import Victauri.Library.Suffixes
import Victauri.Library.Utf8
import Victauri.Library.Utf8.Encoding

/-!
# Rows of a query

The row loop of `query_with_limits` in `database.rs`, which charges every cell against a limit of
bytes before it is converted.  A statement is its column names and its rows; the parser of JSON
and the texts of numbers are parameters.  Lengths of encodings are not bounded here: no text is as
long as a `usize` counts.
-/

namespace Victauri.Plugin.Database

open Victauri.Core.Json

/-- `usize::MAX` -/
def usizeMax : Nat := 2 ^ 64 - 1

def saturatingAdd (a b : Nat) : Nat := min (a + b) usizeMax

/-- `rusqlite::types::ValueRef`, a real by its bits. -/
inductive ValueRef where
  | null
  | integer (i : Int64)
  | real (bits : UInt64)
  | text (t : List UInt8)
  | blob (b : List UInt8)

/-- How values are written, and how a text is parsed. -/
structure Encoder (number : NumberFormat) extends NumberPrinter number where
  write_ne_nil : ∀ n, write n ≠ []
  /-- `serde_json::from_str::<Value>` -/
  fromStr : String → Option Value

section Encoding

variable {number : NumberFormat} (encoder : Encoder number)

/-- The compact JSON of a value, as bytes. -/
def encoded (value : Value) : List UInt8 := Utf8.encode (print encoder.toNumberPrinter value)

/-- Exact compact-JSON length. -/
def jsonLen (value : Value) : Nat := (encoded encoder value).length

end Encoding

/-! ## Columns -/

/-- `{name}:{n}` -/
def numbered (name : String) (n : Nat) : String := name ++ ":" ++ Nat.repr n

theorem numbered_inj {name : String} {n m : Nat} (h : numbered name n = numbered name m) :
    n = m := by
  have hlists := congrArg String.toList h
  unfold numbered Nat.repr at hlists
  simp only [String.toList_append, List.append_cancel_left_eq, String.toList_ofList] at hlists
  have hnumbers := congrArg (fun ds => Nat.ofDigitChars 10 ds 0) hlists
  rwa [Nat.ofDigitChars_ten_toDigits, Nat.ofDigitChars_ten_toDigits] at hnumbers

def numberedKeys (name : String) : Nat ↪ String := ⟨numbered name, fun _ _ => numbered_inj⟩

/-- The keys of the columns from some column on, with those that are used. -/
def columnKeys (originals used : List String) : List String → List String
  | [] => []
  | name :: names =>
      let key :=
        if name ∈ used then
          numbered name (Suffixes.next (numberedKeys name) (used ++ originals) 0)
        else name
      key :: columnKeys originals (used ++ [key]) names

def uniqueColumnKeys (names : List String) : List String := columnKeys names [] names

/-! ## Cells -/

/-- The bytes that are compared: white space between tokens is not. -/
def countedBytes : Bool → Bool → List UInt8 → List UInt8
  | _, _, [] => []
  | true, escaped, b :: bs =>
      if escaped then b :: countedBytes true false bs
      else if b = '\\'.toUInt8 then b :: countedBytes true true bs
      else if b = '"'.toUInt8 then b :: countedBytes false escaped bs
      else b :: countedBytes true escaped bs
  | false, escaped, b :: bs =>
      if b = '"'.toUInt8 then b :: countedBytes true escaped bs
      else if b = ' '.toUInt8 ∨ b = '\t'.toUInt8 ∨ b = '\n'.toUInt8 ∨ b = '\r'.toUInt8 then
        countedBytes false escaped bs
      else b :: countedBytes false escaped bs

def sameJsonContent (source encoded : List UInt8) : Bool :=
  (List.range 256).all fun b =>
    (countedBytes false false source).count (UInt8.ofNat b) == encoded.count (UInt8.ofNat b)

def isInfinite (bits : UInt64) : Bool := bits.toNat % 2 ^ 63 == 0x7ff0000000000000

/-- `json!(i)` -/
def ofI64 (i : Int64) : Value :=
  if 0 ≤ i.toInt then .number (.posInt (UInt64.ofNat i.toInt.toNat)) else .number (.negInt i)

/-- `json!(f)` -/
def ofF64 (bits : UInt64) : Value := if Binary64.isNaN bits then .null else .number (.float bits)

def ofUsize (n : Nat) : Value := .number (.posInt (UInt64.ofNat n))

def invalidUtf8 (s : List Char) (t : List UInt8) : Value :=
  .object [("__invalid_utf8", .bool true), ("text", .string (String.ofList s)),
    ("base64", .string (String.ofList (Base64.encode t)))]

def blobValue (b : List UInt8) : Value :=
  .object [("__blob", .bool true), ("size", ofUsize b.length),
    ("base64", .string (String.ofList (Base64.encode b)))]

def blobFrame : String := "\x7b\"__blob\":true,\"size\":,\"base64\":\"\"\x7d"

section Cells

variable {number : NumberFormat} (encoder : Encoder number)

/-- The JSON that a text decodes to, when nothing is lost by it. -/
def decodedText (s : List Char) : Option Value :=
  (encoder.fromStr (String.ofList s)).filter fun parsed =>
    (match parsed with
      | .object _ => true
      | .array _ => true
      | _ => false) && sameJsonContent (Utf8.encode s) (encoded encoder parsed)

/-- A cell and the length of its JSON, if that fits. -/
def cellToJson (cell : Option ValueRef) (budget : Nat) : Option (Value × Nat) :=
  match cell with
  | none | some .null => fitting budget (.null, 4)
  | some (.integer i) => fitting budget (ofI64 i, jsonLen encoder (ofI64 i))
  | some (.real bits) =>
      -- JSON has no infinity
      if isInfinite bits then
        let name := if bits.toNat < 2 ^ 63 then "Infinity" else "-Infinity"
        let v := .object [("__real", .string name)]
        fitting budget (v, jsonLen encoder v)
      else fitting budget (ofF64 bits, jsonLen encoder (ofF64 bits))
  | some (.text t) =>
      let s := Utf8.decode t
      -- replacement characters
      if Utf8.encode s ≠ t then
        let v := invalidUtf8 s t
        fitting budget (v, jsonLen encoder v)
      else
        match decodedText encoder s with
        | some parsed => fitting budget (parsed, jsonLen encoder parsed)
        | none =>
            let n := jsonLen encoder (.string (String.ofList s))
            if budget < n then none else fitting budget (.string (String.ofList s), n)
  | some (.blob b) =>
      let bytes := (Utf8.encode blobFrame.toList).length + jsonLen encoder (ofUsize b.length) +
        (b.length + 2) / 3 * 4
      if budget < bytes then none else fitting budget (blobValue b, bytes)
where
  /-- `(bytes <= budget).then_some((value, bytes))` -/
  fitting (budget : Nat) (cell : Value × Nat) : Option (Value × Nat) :=
    if cell.2 ≤ budget then some cell else none

end Cells

/-! ## Rows -/

def maxRowsDefault : Nat := 100

def maxRowsLimit : Nat := 10000

/-- What `query_db` returns. -/
structure QueryResult where
  columns : List String
  rows : List Value
  rowCount : Nat
  truncated : Bool
  maxRows : Nat
  resultBytes : Nat
  maxResultBytes : Nat

section Rows

variable {number : NumberFormat} (encoder : Encoder number) (maxResultBytes : Nat)

/-- `"key":` -/
def keyBytes (key : String) : Nat := jsonLen encoder (.string key) + 1

/-- The loop over the columns from the `i`th on: the bytes of the row and its object. -/
def readCells (row : List ValueRef) (resultBytes : Nat) :
    List String → Nat → Nat → List (String × Value) → Option (Nat × List (String × Value))
  | [], _, rowBytes, obj => some (rowBytes, obj)
  | colName :: columns, i, rowBytes, obj =>
      let spent := saturatingAdd (saturatingAdd resultBytes rowBytes) (keyBytes encoder colName)
      let budget := maxResultBytes - spent
      match cellToJson encoder row[i]? budget with
      | none => none
      | some (value, valueBytes) =>
          readCells row resultBytes columns (i + 1)
            (saturatingAdd (saturatingAdd rowBytes (keyBytes encoder colName)) valueBytes)
            (insertMember colName value obj)

/-- The loop over the rows: the rows that are returned, their bytes, and whether some are not. -/
def readRows (columnNames : List String) (maxRows : Nat) :
    List (List ValueRef) → List Value → Nat → List Value × Nat × Bool
  | [], rowsOut, resultBytes => (rowsOut, resultBytes, false)
  | row :: rows, rowsOut, resultBytes =>
      if maxRows ≤ rowsOut.length then (rowsOut, resultBytes, true)
      else
        let rowOverhead := 2 + (columnNames.length - 1)
        match readCells encoder maxResultBytes row resultBytes columnNames 0 rowOverhead [] with
        | none => (rowsOut, resultBytes, true)
        | some (rowBytes, obj) =>
            if maxResultBytes < saturatingAdd resultBytes rowBytes then (rowsOut, resultBytes, true)
            else
              readRows columnNames maxRows rows (rowsOut ++ [.object obj])
                (saturatingAdd resultBytes rowBytes)

end Rows

/-- `query_db`, from the names of the columns and the rows of the statement. -/
def queryDb {number : NumberFormat} (encoder : Encoder number) (names : List String)
    (rows : List (List ValueRef)) (maxRows : Option Nat) (maxResultBytes : UInt64) :
    QueryResult :=
  let maxRows := min (maxRows.getD maxRowsDefault) maxRowsLimit
  let columnNames := uniqueColumnKeys names
  let columnsBytes := jsonLen encoder (.array (columnNames.map .string))
  let (rowsOut, resultBytes, truncated) :=
    readRows encoder maxResultBytes.toNat columnNames maxRows rows [] columnsBytes
  { columns := columnNames
    rows := rowsOut
    rowCount := rowsOut.length
    truncated
    maxRows
    resultBytes
    maxResultBytes := maxResultBytes.toNat }

end Victauri.Plugin.Database
