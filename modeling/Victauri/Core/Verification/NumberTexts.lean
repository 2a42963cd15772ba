import Mathlib.Algebra.Group.Nat.Defs
import Mathlib.Algebra.Group.Int.Defs
import Victauri.Core.Verification

/-!
# Texts of numbers

How `serde_json` reads a text as a `Number` and prints one.  An integer that fits is kept as an
integer; any other number is an `f64`, whose text is left to the parser and printer of floats.
-/

namespace Victauri.Core.Verification

open Json

/-- The texts of `f64`s. -/
structure FloatTexts where
  /-- The `f64` of a number with a fraction or an exponent, of an integer that does not fit, or of
  `-0`; nothing for a text that is no number. -/
  parse : List Char → Option UInt64
  /-- `Display` of a finite `f64` as a JSON number. -/
  print : UInt64 → List Char

/-! ## Reading -/

/-- The white space of JSON. -/
def isJsonSpace (c : Char) : Bool := c == ' ' || c == '\n' || c == '\t' || c == '\r'

def trimSpace (cs : List Char) : List Char :=
  ((cs.dropWhile isJsonSpace).reverse.dropWhile isJsonSpace).reverse

/-- `0 | [1-9][0-9]*` -/
def isIntegerPart (ds : List Char) : Bool :=
  !ds.isEmpty && ds.all Char.isDigit && (ds.head? != some '0' || ds == ['0'])

/-- The integer of digits behind a sign, if it fits an `i64` or `u64`. -/
def fits (negative : Bool) (n : Nat) : Option Number :=
  if negative then
    if 0 < n ∧ n ≤ 2 ^ 63 then some (.negInt (Int64.ofInt (-n))) else none
  else if n < 2 ^ 64 then some (.posInt (UInt64.ofNat n)) else none

/-- The number of a text that is an integer and nothing else. -/
def readInteger (cs : List Char) : Option Number :=
  match cs with
  | '-' :: ds => if isIntegerPart ds then fits true (Nat.ofDigitChars 10 ds 0) else none
  | ds => if isIntegerPart ds then fits false (Nat.ofDigitChars 10 ds 0) else none

/-- `serde_json::from_str::<Number>` -/
def readNumber (floats : FloatTexts) (s : List Char) : Option Number :=
  (readInteger (trimSpace s)).or ((floats.parse (trimSpace s)).map .float)

/-! ## Printing -/

def printInteger (z : Int) : List Char :=
  if z < 0 then '-' :: Nat.toDigits 10 z.natAbs else Nat.toDigits 10 z.natAbs

/-- `Number::to_string` -/
def printNumber (floats : FloatTexts) : Number → List Char
  | .posInt n => printInteger n.toNat
  | .negInt n => printInteger n.toInt
  | .float x => floats.print x

/-! ## Integers -/

theorem head_toDigits (n : Nat) : (Nat.toDigits 10 n).head? = some '0' → n = 0 := by
  induction n using Nat.strongRecOn with
  | ind n ih =>
    intro h
    rw [Nat.toDigits_eq_if (by decide)] at h
    split_ifs at h with hlt
    · rw [List.head?_cons, Option.some.injEq] at h
      have hdigits : ∀ m < 10, m.digitChar = '0' → m = 0 := by decide
      exact hdigits n hlt h
    · rw [List.head?_append_of_ne_nil _ Nat.toDigits_ne_nil] at h
      have hzero := ih (n / 10) (by omega) h
      omega

theorem isIntegerPart_toDigits (n : Nat) : isIntegerPart (Nat.toDigits 10 n) = true := by
  have hempty : (Nat.toDigits 10 n).isEmpty = false :=
    List.isEmpty_eq_false_iff.mpr Nat.toDigits_ne_nil
  have hall : (Nat.toDigits 10 n).all Char.isDigit = true := by
    rw [List.all_eq_true]
    exact fun c hc => Nat.isDigit_of_mem_toDigits (by decide) (by decide) hc
  unfold isIntegerPart
  rw [hempty, hall]
  by_cases h : n = 0
  · rw [h]
    rfl
  · have hhead : (Nat.toDigits 10 n).head? ≠ some '0' := fun heq => h (head_toDigits n heq)
    rw [bne_iff_ne.mpr hhead]
    rfl

theorem isJsonSpace_of_isDigit {c : Char} (h : c.isDigit = true) : isJsonSpace c = false := by
  unfold isJsonSpace
  simp only [Bool.or_eq_false_iff, beq_eq_false_iff_ne]
  refine ⟨⟨⟨?_, ?_⟩, ?_⟩, ?_⟩
  all_goals
    rintro rfl
    exact absurd h (by decide)

theorem trimSpace_of_none {cs : List Char} (h : ∀ c ∈ cs, isJsonSpace c = false) :
    trimSpace cs = cs := by
  have hdrop (ds : List Char) (hds : ∀ c ∈ ds, isJsonSpace c = false) :
      ds.dropWhile isJsonSpace = ds := by
    cases ds with
    | nil => rfl
    | cons d ds =>
      rw [List.dropWhile_cons_of_neg (ne_true_of_eq_false (hds d List.mem_cons_self))]
  unfold trimSpace
  rw [hdrop cs h, hdrop cs.reverse fun c hc => h c (List.mem_reverse.mp hc), List.reverse_reverse]

theorem trimSpace_printInteger (z : Int) : trimSpace (printInteger z) = printInteger z := by
  have hdigits : ∀ c ∈ Nat.toDigits 10 z.natAbs, isJsonSpace c = false := fun c hc =>
    isJsonSpace_of_isDigit (Nat.isDigit_of_mem_toDigits (by decide) (by decide) hc)
  apply trimSpace_of_none
  unfold printInteger
  split_ifs
  · rw [List.forall_mem_cons]
    exact ⟨by decide, hdigits⟩
  · exact hdigits

theorem printNumber_of_integerValue (floats : FloatTexts) {n : Number} {z : Int}
    (h : integerValue n = some z) : printNumber floats n = printInteger z := by
  cases n with
  | posInt n => exact congrArg printInteger (Option.some.inj h)
  | negInt n => exact congrArg printInteger (Option.some.inj h)
  | float x => cases h

theorem readInteger_digits (n : Nat) :
    readInteger (Nat.toDigits 10 n) = fits false n := by
  have hmatch : readInteger (Nat.toDigits 10 n) =
      if isIntegerPart (Nat.toDigits 10 n) then
        fits false (Nat.ofDigitChars 10 (Nat.toDigits 10 n) 0) else none := by
    unfold readInteger
    split
    · rename_i ds heq
      have hminus : '-' ∈ Nat.toDigits 10 n := heq ▸ List.mem_cons_self
      exact absurd (Nat.isDigit_of_mem_toDigits (by decide) (by decide) hminus) (by decide)
    · rfl
  rw [hmatch, if_pos (isIntegerPart_toDigits n), Nat.ofDigitChars_ten_toDigits]

theorem readInteger_minus (n : Nat) :
    readInteger ('-' :: Nat.toDigits 10 n) = fits true n := by
  change (if isIntegerPart (Nat.toDigits 10 n) then
    fits true (Nat.ofDigitChars 10 (Nat.toDigits 10 n) 0) else none) = fits true n
  rw [if_pos (isIntegerPart_toDigits n), Nat.ofDigitChars_ten_toDigits]

/-- An integer in the range of `i64` or `u64` is read back from its text. -/
theorem readInteger_printInteger {z : Int} (hlow : -2 ^ 63 ≤ z) (hhigh : z < 2 ^ 64) :
    ∃ n, readInteger (printInteger z) = some n ∧ integerValue n = some z := by
  unfold printInteger
  split_ifs with hneg
  · rw [readInteger_minus]
    refine ⟨.negInt (Int64.ofInt (-z.natAbs)), ?_, ?_⟩
    · unfold fits
      rw [if_pos rfl, if_pos (by omega)]
    · have habs : -(z.natAbs : Int) = z := by omega
      rw [habs]
      exact congrArg some (Int64.toInt_ofInt_of_le hlow (by omega))
  · rw [readInteger_digits]
    refine ⟨.posInt (UInt64.ofNat z.natAbs), ?_, ?_⟩
    · unfold fits
      rw [if_neg Bool.false_ne_true, if_pos (by omega)]
    · have hsmall : z.natAbs < 2 ^ 64 := by omega
      have hcast : (UInt64.ofNat z.natAbs).toNat = z.natAbs := UInt64.toNat_ofNat_of_lt' hsmall
      apply congrArg some
      rw [hcast]
      omega

theorem readNumber_printInteger (floats : FloatTexts) {z : Int} (hlow : -2 ^ 63 ≤ z)
    (hhigh : z < 2 ^ 64) :
    ∃ n, readNumber floats (printInteger z) = some n ∧ integerValue n = some z := by
  obtain ⟨n, hn, hz⟩ := readInteger_printInteger hlow hhigh
  refine ⟨n, ?_, hz⟩
  unfold readNumber
  rw [trimSpace_printInteger, hn]
  rfl

end Victauri.Core.Verification
