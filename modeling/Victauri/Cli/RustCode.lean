import Victauri.Library.Utf8.Encoding

/-!
# Rust source with its comments and literals blanked

`rust_code_only` of the CLI's `main.rs`.  The scan goes over the bytes of the source; a turn of its
loop says how many bytes it takes and whether they are blanked, and looks back at two bytes.
-/

namespace Victauri.Cli.RustCode

/-- `ident`. -/
def isIdent (c : UInt8) : Bool :=
  ('0'.toUInt8 ≤ c && c ≤ '9'.toUInt8) || ('a'.toUInt8 ≤ c && c ≤ 'z'.toUInt8) ||
    ('A'.toUInt8 ≤ c && c ≤ 'Z'.toUInt8) || c = '_'.toUInt8

/-- A blanked byte; line ends are kept. -/
def blank (c : UInt8) : UInt8 :=
  if c ≠ '\n'.toUInt8 ∧ c ≠ '\r'.toUInt8 then ' '.toUInt8 else c

/-! ## The arms of the loop

How far each arm moves the index; past the end of the source where it runs out inside a literal. -/

/-- `//` up to the line's end. -/
def lineLength (rest : List UInt8) : Nat := (rest.takeWhile (· ≠ '\n'.toUInt8)).length

/-- A block comment, from its first byte at depth 0. -/
def blockLength : (depth : Nat) → List UInt8 → Nat
  | depth, c :: d :: rest =>
      if c = '/'.toUInt8 ∧ d = '*'.toUInt8 then 2 + blockLength (depth + 1) rest
      else if c = '*'.toUInt8 ∧ d = '/'.toUInt8 then
        if depth - 1 = 0 then 2 else 2 + blockLength (depth - 1) rest
      else 1 + blockLength depth (d :: rest)
  | _, [_] => 1
  | _, [] => 0

/-- A string, behind its opening quote. -/
def stringLength : List UInt8 → Nat
  | [] => 1
  | [c] => if c = '"'.toUInt8 then 1 else if c = '\\'.toUInt8 then 3 else 2
  | c :: d :: rest =>
      if c = '"'.toUInt8 then 1
      else if c = '\\'.toUInt8 then 2 + stringLength rest
      else 1 + stringLength (d :: rest)

def hashes (rest : List UInt8) : Nat := (rest.takeWhile (· = '#'.toUInt8)).length

/-- A raw string, behind its opening quote. -/
def rawLength (n : Nat) : List UInt8 → Nat
  | [] => 0
  | c :: rest =>
      if c = '"'.toUInt8 ∧ (rest.take n).all (· = '#'.toUInt8) ∧ n ≤ rest.length then 1 + n
      else 1 + rawLength n rest

/-- `'\`, the byte behind it, and on to a quote or the line's end. -/
def escapedLength (rest : List UInt8) : Nat :=
  3 + ((rest.drop 3).takeWhile fun c => c ≠ '\''.toUInt8 ∧ c ≠ '\n'.toUInt8).length + 1

/-- `len`: the bytes of a character, by its first. -/
def charLength (next : UInt8) : Nat :=
  if next.toNat ≤ 0x7f then 1
  else if 0xc0 ≤ next.toNat ∧ next.toNat ≤ 0xdf then 2
  else if 0xe0 ≤ next.toNat ∧ next.toNat ≤ 0xef then 3
  else 4

/-- Whether an `r` does not end an identifier; `before` are the bytes before it, last first. -/
def startsRaw (before : List UInt8) : Bool :=
  match before with
  | [] => true
  | b :: before =>
      !isIdent b || ((b = 'b'.toUInt8 || b = 'c'.toUInt8) && (before.head?.all fun a => !isIdent a))

/-- Whether `rest`, behind an `r`, opens a raw string. -/
def opensRaw (rest : List UInt8) : Bool := rest[hashes rest]? = some '"'.toUInt8

/-- A turn of the loop: how many bytes it takes, and whether they are blanked. -/
def turn (before : List UInt8) (c : UInt8) (rest : List UInt8) : Nat × Bool :=
  if c = '/'.toUInt8 ∧ rest.head? = some '/'.toUInt8 then (lineLength (c :: rest), true)
  else if c = '/'.toUInt8 ∧ rest.head? = some '*'.toUInt8 then (blockLength 0 (c :: rest), true)
  else if c = '"'.toUInt8 then (1 + stringLength rest, true)
  else if c = 'r'.toUInt8 ∧ startsRaw before ∧ opensRaw rest then
    (hashes rest + 2 + rawLength (hashes rest) (rest.drop (hashes rest + 1)), true)
  else if c = '\''.toUInt8 then
    match rest.head? with
    | none => (1, false)
    | some next =>
        if next = '\\'.toUInt8 then (escapedLength (c :: rest), true)
        else
          let len := charLength next
          if rest[len]? = some '\''.toUInt8 then (len + 2, true) else (1, false)
  else (1, false)

/-! ## The loop -/

/-- The rest of the bytes, of which a turn under way still takes `left`. -/
def scan (before : List UInt8) (left : Nat) (blanked : Bool) : List UInt8 → List UInt8
  | [] => []
  | c :: rest =>
      match left with
      | left + 1 => (if blanked then blank c else c) :: scan (c :: before) left blanked rest
      | 0 =>
          let (taken, blanked) := turn before c rest
          (if blanked then blank c else c) :: scan (c :: before) (taken - 1) blanked rest

/-- `out`. -/
def codeBytes (src : List UInt8) : List UInt8 := scan [] 0 false src

def rustCodeOnly (src : String) : String :=
  (String.fromUTF8? ⟨(codeBytes (Utf8.bytes src)).toArray⟩).getD ""

end Victauri.Cli.RustCode
