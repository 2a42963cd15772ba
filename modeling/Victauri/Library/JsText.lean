import Mathlib.Data.List.Basic
import Victauri.Library.Utf16

/-!
# JavaScript string literals

What a literal in double quotes stands for, in UTF-16 code units, by the grammar of strict code: the
octal escapes are refused.
-/

namespace JsText

def hexDigit (c : Char) : Option Nat :=
  if '0' ≤ c ∧ c ≤ '9' then some (c.toNat - '0'.toNat)
  else if 'a' ≤ c ∧ c ≤ 'f' then some (c.toNat - 'a'.toNat + 10)
  else if 'A' ≤ c ∧ c ≤ 'F' then some (c.toNat - 'A'.toNat + 10)
  else none

def isLineTerminator (c : Char) : Bool := c ∈ ['\n', '\r', '\u2028', '\u2029']

/-- The unit that four digits name. -/
def readUnit : List Char → Option (UInt16 × List Char)
  | a :: b :: c :: d :: rest =>
      match hexDigit a, hexDigit b, hexDigit c, hexDigit d with
      | some a, some b, some c, some d =>
          some (UInt16.ofNat (((a * 16 + b) * 16 + c) * 16 + d), rest)
      | _, _, _, _ => none
  | _ => none

/-- The code point in braces, behind the opening one and so many digits. -/
def readCodePoint : (digits value : Nat) → List Char → Option (Nat × List Char)
  | _, _, [] => none
  | digits, value, c :: rest =>
      if c = '\x7d' then if digits = 0 then none else some (value, rest)
      else
        match hexDigit c with
        | some d =>
            if value * 16 + d < 0x110000 then readCodePoint (digits + 1) (value * 16 + d) rest
            else none
        | none => none

/-- The units of a code point, which may be a lone surrogate. -/
def unitsOf (codePoint : Nat) : List UInt16 :=
  if codePoint < 0x10000 then [UInt16.ofNat codePoint]
  else
    [UInt16.ofNat (0xD800 + (codePoint - 0x10000) / 0x400),
      UInt16.ofNat (0xDC00 + (codePoint - 0x10000) % 0x400)]

/-- The letters with a meaning of their own behind a backslash. -/
def singleEscape (c : Char) : Option UInt16 :=
  if c = 'b' then some 0x08
  else if c = 't' then some 0x09
  else if c = 'n' then some 0x0A
  else if c = 'v' then some 0x0B
  else if c = 'f' then some 0x0C
  else if c = 'r' then some 0x0D
  else if c = '"' ∨ c = '\'' ∨ c = '\\' then some (UInt16.ofNat c.toNat)
  else none

/-- What an escape stands for, behind its backslash. -/
def readEscape : List Char → Option (List UInt16 × List Char)
  | [] => none
  | '0' :: rest => if rest.head?.any Char.isDigit then none else some ([0], rest)
  | 'x' :: high :: low :: rest =>
      match hexDigit high, hexDigit low with
      | some h, some l => some ([UInt16.ofNat (h * 16 + l)], rest)
      | _, _ => none
  | 'u' :: '\x7b' :: rest =>
      (readCodePoint 0 0 rest).map fun out => (unitsOf out.1, out.2)
  | 'u' :: rest => (readUnit rest).map fun out => ([out.1], out.2)
  | '\r' :: '\n' :: rest => some ([], rest)
  | c :: rest =>
      match singleEscape c with
      | some unit => some ([unit], rest)
      | none =>
          if isLineTerminator c then some ([], rest)
          else if c.isDigit ∨ c = 'x' then none
          else some (Utf16.encodeChar c, rest)

theorem length_readCodePoint {digits value : Nat} {cs : List Char} {out : Nat × List Char}
    (h : readCodePoint digits value cs = some out) : out.2.length < cs.length := by
  induction cs generalizing digits value with
  | nil => cases h
  | cons c rest ih =>
    rw [readCodePoint] at h
    by_cases hclose : c = '\x7d'
    · rw [if_pos hclose] at h
      split_ifs at h
      rw [← Option.some.inj h]
      exact Nat.lt_succ_self _
    rw [if_neg hclose] at h
    cases hd : hexDigit c with
    | none =>
      rw [hd] at h
      cases h
    | some d =>
      rw [hd] at h
      dsimp only at h
      split_ifs at h
      exact Nat.lt_succ_of_lt (ih h)

theorem length_readUnit {cs : List Char} {out : UInt16 × List Char}
    (h : readUnit cs = some out) : out.2.length < cs.length := by
  unfold readUnit at h
  split at h
  · split at h
    · rw [← Option.some.inj h]
      simp only [List.length_cons]
      omega
    · cases h
  · cases h

theorem length_readEscape {cs : List Char} {out : List UInt16 × List Char}
    (h : readEscape cs = some out) : out.2.length < cs.length := by
  unfold readEscape at h
  split at h
  · cases h
  · split_ifs at h
    rw [← Option.some.inj h]
    exact Nat.lt_succ_self _
  · split at h
    · rw [← Option.some.inj h]
      simp only [List.length_cons]
      omega
    · cases h
  · obtain ⟨read, hread, rfl⟩ := Option.map_eq_some_iff.mp h
    exact Nat.lt_succ_of_lt (Nat.lt_succ_of_lt (length_readCodePoint hread))
  · obtain ⟨read, hread, rfl⟩ := Option.map_eq_some_iff.mp h
    exact Nat.lt_succ_of_lt (length_readUnit hread)
  · rw [← Option.some.inj h]
    exact Nat.lt_succ_of_lt (Nat.lt_succ_self _)
  · split at h
    · rw [← Option.some.inj h]
      exact Nat.lt_succ_self _
    · split_ifs at h
      · rw [← Option.some.inj h]
        exact Nat.lt_succ_self _
      · rw [← Option.some.inj h]
        exact Nat.lt_succ_self _

/-- The value of a literal and what follows it, behind its opening quote. -/
def readBody (cs : List Char) : Option (List UInt16 × List Char) :=
  match cs with
  | [] => none
  | c :: rest =>
      if c = '"' then some ([], rest)
      else if c = '\\' then
        match _h : readEscape rest with
        | some (units, rest) => (readBody rest).map fun out => (units ++ out.1, out.2)
        | none => none
      else if c = '\n' ∨ c = '\r' then none
      else (readBody rest).map fun out => (Utf16.encodeChar c ++ out.1, out.2)
termination_by cs.length
decreasing_by
  · exact Nat.lt_succ_of_lt (length_readEscape _h)
  · exact Nat.lt_succ_self _

/-- The value of a literal and what follows it. -/
def readLiteral : List Char → Option (List UInt16 × List Char)
  | '"' :: rest => readBody rest
  | _ => none

theorem readBody_quote (rest : List Char) : readBody ('"' :: rest) = some ([], rest) := by
  rw [readBody, if_pos rfl]

theorem readBody_escape {cs rest : List Char} {units : List UInt16}
    (h : readEscape cs = some (units, rest)) :
    readBody ('\\' :: cs) = (readBody rest).map fun out => (units ++ out.1, out.2) := by
  rw [readBody, if_neg (by decide), if_pos rfl]
  split
  next units' rest' h' =>
    obtain ⟨rfl, rfl⟩ := Prod.mk.inj (Option.some.inj (h.symm.trans h'))
    rfl
  next hnone => cases h.symm.trans hnone

theorem readBody_plain {c : Char} (hquote : c ≠ '"') (hslash : c ≠ '\\')
    (hline : c ≠ '\n' ∧ c ≠ '\r') (rest : List Char) :
    readBody (c :: rest) =
      (readBody rest).map fun out => (Utf16.encodeChar c ++ out.1, out.2) := by
  rw [readBody, if_neg hquote, if_neg hslash, if_neg (not_or.mpr hline)]

/-! ## Escapes of a unit -/

theorem readEscape_unit {cs rest : List Char} {unit : UInt16}
    (h : readUnit cs = some (unit, rest)) : readEscape ('u' :: cs) = some ([unit], rest) := by
  cases cs with
  | nil => cases h
  | cons c cs =>
    by_cases hc : c = '\x7b'
    · rw [hc] at h
      unfold readUnit at h
      split at h
      · next heq =>
        obtain ⟨rfl, -⟩ := List.cons.inj heq
        cases h
      · cases h
    · unfold readEscape
      split
      · next heq => cases heq
      · next heq => exact absurd (List.cons.inj heq).1 (by decide)
      · next heq => exact absurd (List.cons.inj heq).1 (by decide)
      · next heq =>
        exact absurd (List.cons.inj (List.cons.inj heq).2).1 hc
      · next heq =>
        obtain ⟨-, rfl⟩ := List.cons.inj heq
        rw [h]
        rfl
      · next heq => exact absurd (List.cons.inj heq).1 (by decide)
      · next hnot _ heq => exact (hnot (List.cons.inj heq.symm).1).elim

theorem hexDigit_digitChar : ∀ d < 16, hexDigit (Nat.digitChar d) = some d := by decide

/-- Four digits name the unit they are written from. -/
theorem readUnit_digits {n : Nat} (hn : n < 0x10000) (rest : List Char) :
    readUnit (Nat.digitChar (n / 4096 % 16) :: Nat.digitChar (n / 256 % 16) ::
      Nat.digitChar (n / 16 % 16) :: Nat.digitChar (n % 16) :: rest) =
        some (UInt16.ofNat n, rest) := by
  have hdigit (m : Nat) : hexDigit (Nat.digitChar (m % 16)) = some (m % 16) :=
    hexDigit_digitChar _ (Nat.mod_lt m (by decide))
  have hvalue : ((n / 4096 % 16 * 16 + n / 256 % 16) * 16 + n / 16 % 16) * 16 + n % 16 = n := by
    omega
  simp only [readUnit, hdigit, hvalue]

end JsText
