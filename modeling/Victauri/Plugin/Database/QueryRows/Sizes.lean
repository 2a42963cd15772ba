import Victauri.Plugin.Database.QueryRows

/-!
# The size of a row

A cell is charged the length of its JSON, before there is any; the cells and keys of a row with
what is between them are as long as the JSON of the row.
-/

namespace Victauri.Plugin.Database

open Victauri.Core.Json
open Utf8 (encode encode_cons encode_append)

-- A quantifier over the characters of a text is decided along the text.
attribute [local instance (1100)] List.decidableBAll

/-! ## Lengths -/

theorem length_encode_ascii {c : Char} (h : c.toNat < 0x80) (cs : List Char) :
    (encode (c :: cs)).length = (encode cs).length + 1 := by
  rw [encode_cons, Utf8.encodeChar_ascii h, List.length_append, List.length_singleton,
    Nat.add_comm]

section Lengths

variable {number : NumberFormat} (encoder : Encoder number)

theorem print_ne_nil (value : Value) : print encoder.toNumberPrinter value ≠ [] := by
  cases value with
  | number n => rw [print]; exact encoder.write_ne_nil n
  | bool b =>
    cases b with
    | true => exact List.cons_ne_nil _ _
    | false => exact List.cons_ne_nil _ _
  | null => exact List.cons_ne_nil _ _
  | string s => rw [print, quote]; exact List.cons_ne_nil _ _
  | array items => rw [print]; exact List.cons_ne_nil _ _
  | object members => rw [print]; exact List.cons_ne_nil _ _

theorem jsonLen_pos (value : Value) : 0 < jsonLen encoder value := by
  unfold jsonLen encoded
  cases h : print encoder.toNumberPrinter value with
  | nil => exact absurd h (print_ne_nil encoder value)
  | cons c cs =>
    rw [encode_cons, List.length_append]
    have hc := List.length_pos_of_ne_nil (Utf8.encodeChar_ne_nil c)
    omega

theorem keyBytes_eq (key : String) :
    keyBytes encoder key = (encode (quote key.toList)).length + 1 := by
  unfold keyBytes jsonLen encoded
  rw [print]

theorem jsonLen_eq (value : Value) :
    jsonLen encoder value = (encode (print encoder.toNumberPrinter value)).length := rfl

/-- What the members of an object take, with a comma between them. -/
theorem length_printMembers (m : String × Value) (members : List (String × Value)) :
    (encode (printMembers encoder.toNumberPrinter (m :: members))).length =
      members.length + ((m :: members).map fun m => keyBytes encoder m.1 + jsonLen encoder m.2).sum := by
  induction members generalizing m with
  | nil =>
    obtain ⟨key, v⟩ := m
    rw [printMembers, encode_append, List.length_append, length_encode_ascii (by decide)]
    simp only [List.map_cons, List.map_nil, List.sum_cons, List.sum_nil, List.length_nil,
      keyBytes_eq, jsonLen_eq]
    omega
  | cons m' members ih =>
    obtain ⟨key, v⟩ := m
    rw [printMembers, encode_append, List.length_append, length_encode_ascii (by decide),
      encode_append, List.length_append, length_encode_ascii (by decide), ih m']
    simp only [List.map_cons, List.sum_cons, List.length_cons, keyBytes_eq, jsonLen_eq]
    omega

theorem jsonLen_object (members : List (String × Value)) :
    jsonLen encoder (.object members) = 2 + (members.length - 1) +
      (members.map fun m => keyBytes encoder m.1 + jsonLen encoder m.2).sum := by
  unfold jsonLen encoded
  rw [print, length_encode_ascii (by decide), encode_append, List.length_append,
    length_encode_ascii (by decide)]
  cases members with
  | nil => rfl
  | cons m members =>
    rw [length_printMembers]
    unfold jsonLen encoded
    simp only [Utf8.encode_nil, List.length_nil, List.length_cons]
    omega

end Lengths

/-! ## Cells -/

/-- The JSON of a cell, whatever its size. -/
def cellValue {number : NumberFormat} (encoder : Encoder number) : Option ValueRef → Value
  | none | some .null => .null
  | some (.integer i) => ofI64 i
  | some (.real bits) =>
      if isInfinite bits then
        .object [("__real", .string (if bits.toNat < 2 ^ 63 then "Infinity" else "-Infinity"))]
      else ofF64 bits
  | some (.text t) =>
      if encode (Utf8.decode t) ≠ t then invalidUtf8 (Utf8.decode t) t
      else (decodedText encoder (Utf8.decode t)).getD (.string (String.ofList (Utf8.decode t)))
  | some (.blob b) => blobValue b

section Cells

variable {number : NumberFormat} (encoder : Encoder number)

theorem plain_base64 (b : List UInt8) :
    ∀ c ∈ Base64.encode b, c.toNat < 0x80 ∧ quoteScalar c = [c] := by
  apply Base64.forall_mem_encode
  · decide
  · decide

/-- No character of base64 is escaped or takes more than a byte. -/
theorem length_quote_base64 (b : List UInt8) :
    (encode (quote (Base64.encode b))).length = (b.length + 2) / 3 * 4 + 2 := by
  have hplain : (Base64.encode b).flatMap quoteScalar = Base64.encode b := by
    have hsame : ∀ cs : List Char, (∀ c ∈ cs, quoteScalar c = [c]) → cs.flatMap quoteScalar = cs := by
      intro cs h
      induction cs with
      | nil => rfl
      | cons c cs ih =>
        rw [List.forall_mem_cons] at h
        rw [List.flatMap_cons, h.1, ih h.2]
        rfl
    exact hsame _ fun c hc => (plain_base64 b c hc).2
  have hbytes : (encode (Base64.encode b)).length = (Base64.encode b).length := by
    rw [Utf8.encode_of_ascii fun c hc => (plain_base64 b c hc).1, List.length_map]
  unfold quote
  rw [hplain, length_encode_ascii (by decide), encode_append, List.length_append, hbytes,
    Base64.length_encode]
  rfl

/-- The length that is charged for a blob is that of its JSON. -/
theorem jsonLen_blob (b : List UInt8) :
    jsonLen encoder (blobValue b) = (encode blobFrame.toList).length +
      jsonLen encoder (ofUsize b.length) + (b.length + 2) / 3 * 4 := by
  have hframe : (encode blobFrame.toList).length = 35 := by decide
  have htrue : jsonLen encoder (.bool true) = 4 := rfl
  have hkeys : keyBytes encoder "__blob" = 9 ∧ keyBytes encoder "size" = 7 ∧
      keyBytes encoder "base64" = 9 := by
    unfold keyBytes jsonLen encoded
    simp only [print]
    decide
  have hstring : jsonLen encoder (.string (String.ofList (Base64.encode b))) =
      (b.length + 2) / 3 * 4 + 2 := by
    unfold jsonLen encoded
    rw [print, String.toList_ofList, length_quote_base64]
  unfold blobValue
  rw [jsonLen_object]
  simp only [List.map_cons, List.map_nil, List.sum_cons, List.sum_nil, List.length_cons,
    List.length_nil, htrue, hkeys, hstring, hframe]
  omega

/-- Whether the size is compared before or behind the conversion makes no difference. -/
theorem fitting_late (budget : Nat) (cell : Value × Nat) :
    (if budget < cell.2 then none else cellToJson.fitting budget cell) =
      cellToJson.fitting budget cell := by
  unfold cellToJson.fitting
  split_ifs
  · omega
  · rfl
  · rfl
  · rfl

/-- A cell is returned exactly if its JSON fits, with the length of its JSON. -/
theorem cellToJson_eq (cell : Option ValueRef) (budget : Nat) :
    cellToJson encoder cell budget = cellToJson.fitting budget
      (cellValue encoder cell, jsonLen encoder (cellValue encoder cell)) := by
  cases cell with
  | none => rfl
  | some cell =>
    cases cell with
    | null => rfl
    | integer i => rfl
    | real bits =>
      unfold cellToJson cellValue
      dsimp only
      by_cases hinfinite : isInfinite bits = true
      · rw [if_pos hinfinite, if_pos hinfinite]
      · rw [if_neg hinfinite, if_neg hinfinite]
    | text t =>
      unfold cellToJson cellValue
      dsimp only
      by_cases hvalid : encode (Utf8.decode t) ≠ t
      · rw [if_pos hvalid, if_pos hvalid]
      · rw [if_neg hvalid, if_neg hvalid]
        cases decodedText encoder (Utf8.decode t) with
        | some parsed => rfl
        | none =>
          exact fitting_late budget (.string (String.ofList (Utf8.decode t)),
            jsonLen encoder (.string (String.ofList (Utf8.decode t))))
    | blob b =>
      have hsize := jsonLen_blob encoder b
      unfold cellToJson cellValue
      dsimp only
      rw [hsize]
      exact fitting_late budget (blobValue b, _)

end Cells

end Victauri.Plugin.Database
