import Victauri.Library.Utf8.Encoding
import Victauri.Plugin.Mcp.PageJson

/-!
# Sanitizing by bytes

`sanitize_lone_surrogates` as it runs: an index over the bytes of the text, and slices of the text
between escapes that are replaced.  A slice at a place inside a character panics.
-/

namespace Victauri.Plugin.Mcp.PageJson

open Victauri.Core.Json

/-- `str::is_char_boundary`. -/
def isCharBoundary (bs : List UInt8) (index : Nat) : Bool :=
  index = 0 ||
    match bs[index]? with
    | none => index = bs.length
    | some b => b < 0x80 || 0xC0 ≤ b

/-- `&text[start..stop]`; `none` is the panic. -/
def slice (bs : List UInt8) (start stop : Nat) : Option (List UInt8) :=
  if start ≤ stop ∧ isCharBoundary bs start ∧ isCharBoundary bs stop then
    some ((bs.take stop).drop start)
  else none

/-- The character of a byte; a byte that is not ASCII is no hexadecimal digit as a character
either. -/
def charOf (b : UInt8) : Char := Char.ofNat b.toNat

def unicodeEscapeAt (bs : List UInt8) (index : Nat) : Option Nat :=
  match (bs.drop index).take 6 with
  | [e, u, w, x, y, z] =>
      if e = '\\'.toUInt8 ∧ u = 'u'.toUInt8 then
        fromStrRadix16 [charOf w, charOf x, charOf y, charOf z]
      else none
  | _ => none

/-- `Cow<'_, str>`. -/
inductive Cow where
  | borrowed (text : List UInt8)
  | owned (text : List UInt8)
  deriving DecidableEq

def Cow.text : Cow → List UInt8
  | borrowed text => text
  | owned text => text

/-- The loop from an index on; `none` is a panic. -/
def scan (bs : List UInt8) (out : Option (List UInt8)) (copied i : Nat) : Option Cow :=
  if hi : i < bs.length then
    if bs.get ⟨i, hi⟩ ≠ '\\'.toUInt8 then scan bs out copied (i + 1)
    else
      match unicodeEscapeAt bs i with
      -- any other escape is two bytes
      | none => scan bs out copied (i + 2)
      | some cp =>
          if isHighSurrogate cp && (unicodeEscapeAt bs (i + 6)).any isLowSurrogate then
            scan bs out copied (i + 12)
          else if isHighSurrogate cp || isLowSurrogate cp then
            match slice bs copied i with
            | none => none
            | some piece =>
                scan bs (some (out.getD [] ++ piece ++ Utf8.encode "\\ufffd".toList)) (i + 6) (i + 6)
          else scan bs out copied (i + 6)
  else
    match out with
    | none => some (.borrowed bs)
    | some buf => (slice bs copied bs.length).map fun piece => .owned (buf ++ piece)
termination_by bs.length - i

def sanitizeLoneSurrogates (json : List UInt8) : Option Cow := scan json none 0 0

end Victauri.Plugin.Mcp.PageJson
