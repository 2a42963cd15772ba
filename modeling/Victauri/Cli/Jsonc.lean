import Victauri.Cli.RustCode

/-!
# JSONC with its comments and trailing commas blanked

`blank_jsonc` of the CLI's `jsonc.rs`: two passes over the bytes of the text.  The first blanks the
comments; the second, over what the first leaves, the commas that a closing bracket follows.
-/

namespace Victauri.Cli.Jsonc

open Utf8
open Victauri.Cli.RustCode (blank lineLength)

/-! ## Comments -/

/-- A block comment, behind its `/*`: to the end of the first `*/`, or of the text. -/
def blockLength : List UInt8 → Nat
  | [] => 0
  | c :: rest =>
      if c = '*'.toUInt8 ∧ rest.head? = some '/'.toUInt8 then 2 else 1 + blockLength rest

/-- How many bytes a comment at the front of the bytes takes. -/
def commentLength (c : UInt8) (rest : List UInt8) : Option Nat :=
  if c = '/'.toUInt8 ∧ rest.head? = some '/'.toUInt8 then some (lineLength (c :: rest))
  else if c = '/'.toUInt8 ∧ rest.head? = some '*'.toUInt8 then
    some (2 + blockLength (rest.drop 1))
  else none

theorem commentLength_pos {c : UInt8} {rest : List UInt8} {n : Nat}
    (h : commentLength c rest = some n) : 0 < n := by
  unfold commentLength at h
  split_ifs at h with hline hblock
  · rw [← Option.some.inj h, lineLength, List.takeWhile_cons_of_pos (by rw [hline.1]; decide)]
    exact Nat.succ_pos _
  · rw [← Option.some.inj h]
    omega

/-- The first pass. -/
def blankLoop : (in_string : Bool) → List UInt8 → List UInt8
  | _, [] => []
  | true, c :: rest =>
      if c = '\\'.toUInt8 then
        match rest with
        | [] => [c]
        | d :: rest => c :: d :: blankLoop true rest
      else if c = '"'.toUInt8 then c :: blankLoop false rest
      else c :: blankLoop true rest
  | false, c :: rest =>
      if c = '"'.toUInt8 then c :: blankLoop true rest
      else
        match _h : commentLength c rest with
        | some n => ((c :: rest).take n).map blank ++ blankLoop false ((c :: rest).drop n)
        | none => c :: blankLoop false rest
termination_by _ bs => bs.length
decreasing_by
  · simp only [List.length_cons]
    omega
  · simp only [List.length_cons, Nat.lt_add_one]
  · simp only [List.length_cons, Nat.lt_add_one]
  · simp only [List.length_cons, Nat.lt_add_one]
  · have := commentLength_pos _h
    simp only [List.length_drop, List.length_cons]
    omega
  · simp only [List.length_cons, Nat.lt_add_one]

section

variable {c d : UInt8} {rest : List UInt8}

theorem blankLoop_escape :
    blankLoop true ('\\'.toUInt8 :: d :: rest) = '\\'.toUInt8 :: d :: blankLoop true rest := by
  rw [blankLoop, if_pos rfl]

theorem blankLoop_close :
    blankLoop true ('"'.toUInt8 :: rest) = '"'.toUInt8 :: blankLoop false rest := by
  rw [blankLoop.eq_def]
  dsimp only
  rw [if_neg (by decide), if_pos rfl]

theorem blankLoop_inside (hslash : c ≠ '\\'.toUInt8) (hquote : c ≠ '"'.toUInt8) :
    blankLoop true (c :: rest) = c :: blankLoop true rest := by
  rw [blankLoop.eq_def]
  dsimp only
  rw [if_neg hslash, if_neg hquote]

theorem blankLoop_quote :
    blankLoop false ('"'.toUInt8 :: rest) = '"'.toUInt8 :: blankLoop true rest := by
  rw [blankLoop, if_pos rfl]

theorem blankLoop_comment {n : Nat} (hn : commentLength c rest = some n) :
    blankLoop false (c :: rest) =
      ((c :: rest).take n).map blank ++ blankLoop false ((c :: rest).drop n) := by
  have hquote : c ≠ '"'.toUInt8 := by
    rintro rfl
    rw [commentLength, if_neg fun h => absurd h.1 (by decide),
      if_neg fun h => absurd h.1 (by decide)] at hn
    cases hn
  rw [blankLoop, if_neg hquote]
  split
  next n' hn' =>
    rw [Option.some.inj (hn.symm.trans hn')]
  next hnone => cases hn.symm.trans hnone

theorem blankLoop_code (hquote : c ≠ '"'.toUInt8) (hn : commentLength c rest = none) :
    blankLoop false (c :: rest) = c :: blankLoop false rest := by
  rw [blankLoop, if_neg hquote]
  split
  next n' hn' => cases hn.symm.trans hn'
  next => rfl

end

/-! ## Trailing commas -/

/-- `u8::is_ascii_whitespace`. -/
def isAsciiWhitespace (b : UInt8) : Bool :=
  b = ' '.toUInt8 || b = '\t'.toUInt8 || b = '\n'.toUInt8 || b = '\x0c'.toUInt8 ||
    b = '\r'.toUInt8

/-- A comma before these bytes is a trailing one. -/
def closes (rest : List UInt8) : Bool :=
  match rest.find? fun b => !isAsciiWhitespace b with
  | some b => b = '\x7d'.toUInt8 || b = ']'.toUInt8
  | none => false

/-- The second pass. -/
def commaLoop : (in_string : Bool) → List UInt8 → List UInt8
  | _, [] => []
  | true, c :: rest =>
      if c = '\\'.toUInt8 then
        match rest with
        | [] => [c]
        | d :: rest => c :: d :: commaLoop true rest
      else if c = '"'.toUInt8 then c :: commaLoop false rest
      else c :: commaLoop true rest
  | false, c :: rest =>
      if c = '"'.toUInt8 then c :: commaLoop true rest
      else if c = ','.toUInt8 ∧ closes rest then ' '.toUInt8 :: commaLoop false rest
      else c :: commaLoop false rest

section

variable {c d : UInt8} {rest : List UInt8}

theorem commaLoop_escape :
    commaLoop true ('\\'.toUInt8 :: d :: rest) = '\\'.toUInt8 :: d :: commaLoop true rest := by
  rw [commaLoop, if_pos rfl]

theorem commaLoop_close :
    commaLoop true ('"'.toUInt8 :: rest) = '"'.toUInt8 :: commaLoop false rest := by
  rw [commaLoop.eq_def]
  dsimp only
  rw [if_neg (by decide), if_pos rfl]

theorem commaLoop_inside (hslash : c ≠ '\\'.toUInt8) (hquote : c ≠ '"'.toUInt8) :
    commaLoop true (c :: rest) = c :: commaLoop true rest := by
  rw [commaLoop.eq_def]
  dsimp only
  rw [if_neg hslash, if_neg hquote]

theorem commaLoop_quote :
    commaLoop false ('"'.toUInt8 :: rest) = '"'.toUInt8 :: commaLoop true rest := by
  rw [commaLoop, if_pos rfl]

theorem commaLoop_comma (h : closes rest = true) :
    commaLoop false (','.toUInt8 :: rest) = ' '.toUInt8 :: commaLoop false rest := by
  rw [commaLoop, if_neg (by decide), if_pos ⟨rfl, h⟩]

theorem commaLoop_code (hquote : c ≠ '"'.toUInt8) (h : ¬ (c = ','.toUInt8 ∧ closes rest = true)) :
    commaLoop false (c :: rest) = c :: commaLoop false rest := by
  rw [commaLoop, if_neg hquote, if_neg h]

end

/-- `blank_jsonc`. -/
def blankJsonc (text : String) : String :=
  let out := commaLoop false (blankLoop false (bytes text))
  (String.fromUTF8? ⟨out.toArray⟩).getD ""

end Victauri.Cli.Jsonc
