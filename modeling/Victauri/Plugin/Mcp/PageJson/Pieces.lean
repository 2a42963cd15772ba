import Victauri.Plugin.Mcp.PageJson.Escapes

/-!
# The escapes of a sanitized text

Written out again, the pieces of a text are the text; and the pieces with the unpaired surrogates
replaced are the pieces of the text they make.
-/

namespace Victauri.Plugin.Mcp.PageJson

open Victauri.Core.Json

@[simp] theorem flat_nil : flat [] = [] := rfl

@[simp] theorem flat_cons (p : Piece) (pieces : List Piece) :
    flat (p :: pieces) = p.bytes ++ flat pieces := List.flatMap_cons

/-! ## Reading a piece -/

theorem readPieces_nil : readPieces [] = [] := by rw [readPieces]

theorem readPieces_plain {b : UInt8} (h : b ≠ '\\'.toUInt8) (rest : List UInt8) :
    readPieces (b :: rest) = .plain b :: readPieces rest := by
  rw [readPieces.eq_def]
  exact if_pos h

theorem unitAt_unit {w x y z : UInt8} (h : (unitOf w x y z).isSome = true) (rest : List UInt8) :
    unitAt ('\\'.toUInt8 :: 'u'.toUInt8 :: w :: x :: y :: z :: rest) = some (w, x, y, z) := by
  rw [unitAt, if_pos ⟨rfl, rfl, h⟩]

theorem readPieces_unit {w x y z : UInt8} (h : (unitOf w x y z).isSome = true)
    (rest : List UInt8) :
    readPieces ('\\'.toUInt8 :: 'u'.toUInt8 :: w :: x :: y :: z :: rest) =
      .unit w x y z :: readPieces rest := by
  rw [readPieces, if_neg (fun hne => hne rfl), unitAt_unit h]
  rfl

theorem readPieces_escape {c : UInt8} {rest : List UInt8}
    (h : unitAt ('\\'.toUInt8 :: c :: rest) = none) :
    readPieces ('\\'.toUInt8 :: c :: rest) = .escape c :: readPieces rest := by
  rw [readPieces, if_neg (fun hne => hne rfl), h]

theorem readPieces_trailing : readPieces ['\\'.toUInt8] = [.trailing] := by
  rw [readPieces, if_neg (fun hne => hne rfl)]
  rfl

/-- What a text with a unit at its start is. -/
theorem eq_of_unitAt {bs : List UInt8} {w x y z : UInt8} (h : unitAt bs = some (w, x, y, z)) :
    (unitOf w x y z).isSome = true ∧
      bs = '\\'.toUInt8 :: 'u'.toUInt8 :: w :: x :: y :: z :: bs.drop 6 := by
  unfold unitAt at h
  split at h
  · split_ifs at h with hunit
    simp only [Option.some.injEq, Prod.mk.injEq] at h
    obtain ⟨rfl, rfl, rfl, rfl⟩ := h
    obtain ⟨rfl, rfl, hsome⟩ := hunit
    exact ⟨hsome, rfl⟩
  · cases h

/-- A text by its first piece. -/
theorem pieces_cases {motive : List UInt8 → Prop} (hnil : motive [])
    (hplain : ∀ b rest, b ≠ '\\'.toUInt8 → motive rest → motive (b :: rest))
    (hunit : ∀ w x y z rest, (unitOf w x y z).isSome = true → motive rest →
      motive ('\\'.toUInt8 :: 'u'.toUInt8 :: w :: x :: y :: z :: rest))
    (hescape : ∀ c rest, unitAt ('\\'.toUInt8 :: c :: rest) = none → motive rest →
      motive ('\\'.toUInt8 :: c :: rest))
    (htrailing : motive ['\\'.toUInt8]) (bs : List UInt8) : motive bs := by
  induction hn : bs.length using Nat.strongRecOn generalizing bs with
  | ind n ih =>
    subst hn
    cases bs with
    | nil => exact hnil
    | cons b rest =>
      by_cases hb : b = '\\'.toUInt8
      · subst hb
        cases hat : unitAt ('\\'.toUInt8 :: rest) with
        | some unit =>
          obtain ⟨w, x, y, z⟩ := unit
          obtain ⟨hsome, heq⟩ := eq_of_unitAt hat
          rw [heq]
          apply hunit w x y z _ hsome
          apply ih _ _ _ rfl
          rw [List.length_drop, List.length_cons]
          omega
        | none =>
          cases rest with
          | nil => exact htrailing
          | cons c rest =>
            apply hescape c rest hat
            apply ih _ _ _ rfl
            rw [List.length_cons, List.length_cons]
            omega
      · apply hplain b rest hb
        apply ih _ _ _ rfl
        rw [List.length_cons]
        omega

theorem flat_readPieces (bs : List UInt8) : flat (readPieces bs) = bs := by
  induction bs using pieces_cases with
  | hnil => rw [readPieces_nil, flat_nil]
  | hplain b rest hb ih => rw [readPieces_plain hb, flat_cons, ih]; rfl
  | hunit w x y z rest hsome ih => rw [readPieces_unit hsome, flat_cons, ih]; rfl
  | hescape c rest hat ih => rw [readPieces_escape hat, flat_cons, ih]; rfl
  | htrailing => rw [readPieces_trailing]; rfl

/-! ## Reading what was written -/

def isHexByte (b : UInt8) : Bool := (hexDigit (charOf b)).isSome

/-- Four digits make a unit. -/
theorem isSome_unitOf (w x y z : UInt8) :
    (unitOf w x y z).isSome = (isHexByte w && isHexByte x && isHexByte y && isHexByte z) := by
  unfold unitOf hexNumber isHexByte
  simp only [List.foldlM_cons, List.foldlM_nil]
  cases hexDigit (charOf w) with
  | none => rfl
  | some a =>
    cases hexDigit (charOf x) with
    | none => rfl
    | some b =>
      cases hexDigit (charOf y) with
      | none => rfl
      | some c =>
        cases hexDigit (charOf z) with
        | none => rfl
        | some d => rfl

/-- The first `n` bytes are there and are hexadecimal digits. -/
def digits : Nat → List UInt8 → Bool
  | 0, _ => true
  | _ + 1, [] => false
  | n + 1, b :: rest => isHexByte b && digits n rest

/-- Whether `\u` begins a unit is decided by the four bytes behind it. -/
theorem isSome_unitAt (rest : List UInt8) :
    (unitAt ('\\'.toUInt8 :: 'u'.toUInt8 :: rest)).isSome = digits 4 rest := by
  match rest with
  | [] => rfl
  | [w] => simp only [unitAt, digits, Bool.and_false, Option.isSome_none]
  | [w, x] => simp only [unitAt, digits, Bool.and_false, Option.isSome_none]
  | [w, x, y] => simp only [unitAt, digits, Bool.and_false, Option.isSome_none]
  | w :: x :: y :: z :: rest =>
    simp only [unitAt, digits, Bool.and_true, true_and]
    rw [← Bool.and_assoc, ← Bool.and_assoc, ← isSome_unitOf]
    cases (unitOf w x y z).isSome with
    | true => rfl
    | false => rfl

theorem unitAt_of_ne {c : UInt8} (h : c ≠ 'u'.toUInt8) (rest : List UInt8) :
    unitAt ('\\'.toUInt8 :: c :: rest) = none := by
  unfold unitAt
  split
  · rename_i heq
    injection heq with _ heq
    injection heq with heq _
    subst heq
    exact if_neg (fun hunit => h hunit.2.1)
  · rfl

theorem digits_backslash (n : Nat) (rest : List UInt8) :
    digits (n + 1) ('\\'.toUInt8 :: rest) = false := by
  have hbackslash : isHexByte '\\'.toUInt8 = false := by decide
  rw [digits, hbackslash, Bool.false_and]

/-- A piece that is not plain begins with a backslash. -/
theorem digits_flat_cons {pieces pieces' : List Piece}
    (h : ∀ n, digits n (flat pieces) = digits n (flat pieces')) (p : Piece) (n : Nat) :
    digits n (flat (p :: pieces)) = digits n (flat (p :: pieces')) := by
  cases n with
  | zero => rfl
  | succ n =>
    cases p with
    | plain b => exact congrArg (isHexByte b && ·) (h n)
    | unit w x y z => exact (digits_backslash n _).trans (digits_backslash n _).symm
    | escape c => exact (digits_backslash n _).trans (digits_backslash n _).symm
    | trailing => exact (digits_backslash n _).trans (digits_backslash n _).symm

theorem digits_flat_surrogate {p : Piece} (hp : (p.isHigh || p.isLow) = true)
    (pieces pieces' : List Piece) (n : Nat) :
    digits n (flat (.replacement :: pieces)) = digits n (flat (p :: pieces')) := by
  cases n with
  | zero => rfl
  | succ n =>
    cases p with
    | plain b => cases hp
    | unit w x y z => exact (digits_backslash n _).trans (digits_backslash n _).symm
    | escape c => cases hp
    | trailing => cases hp

/-- No surrogate is plain: the digits in front of the first backslash stay. -/
theorem digits_flat_repair (pieces : List Piece) (n : Nat) :
    digits n (flat (repair pieces)) = digits n (flat pieces) := by
  induction pieces using repair.induct generalizing n with
  | case1 => rfl
  | case2 p h => rw [repair, if_pos h]; exact digits_flat_surrogate h [] [] n
  | case3 p h => rw [repair, if_neg h]
  | case4 p q pieces hpair ih =>
    rw [repair, if_pos hpair]
    exact digits_flat_cons (fun m => digits_flat_cons ih q m) p n
  | case5 p q pieces hpair h ih =>
    rw [repair, if_neg hpair, if_pos h]
    exact digits_flat_surrogate h _ _ n
  | case6 p q pieces hpair h ih =>
    rw [repair, if_neg hpair, if_neg h]
    exact digits_flat_cons ih p n

/-! ## The pieces of what is written -/

/-- What a piece has to be to be read as itself in front of a text. -/
def Piece.Before (rest : List UInt8) : Piece → Prop
  | plain b => b ≠ '\\'.toUInt8
  | unit w x y z => (unitOf w x y z).isSome = true
  | escape c => c = 'u'.toUInt8 → digits 4 rest = false
  | trailing => rest = []

def Reads : List Piece → Prop
  | [] => True
  | p :: pieces => p.Before (flat pieces) ∧ Reads pieces

theorem readPieces_before {p : Piece} {rest : List UInt8} (h : p.Before rest) :
    readPieces (p.bytes ++ rest) = p :: readPieces rest := by
  cases p with
  | plain b => exact readPieces_plain h rest
  | unit w x y z => exact readPieces_unit h rest
  | escape c =>
    apply readPieces_escape
    by_cases hc : c = 'u'.toUInt8
    · subst hc
      have hdigits : digits 4 rest = false := h rfl
      rw [← isSome_unitAt] at hdigits
      exact Option.not_isSome_iff_eq_none.mp (ne_true_of_eq_false hdigits)
    · exact unitAt_of_ne hc rest
  | trailing =>
    obtain rfl : rest = [] := h
    rw [readPieces_nil]
    exact readPieces_trailing

theorem readPieces_flat {pieces : List Piece} (h : Reads pieces) :
    readPieces (flat pieces) = pieces := by
  induction pieces with
  | nil => exact readPieces_nil
  | cons p pieces ih => rw [flat_cons, readPieces_before h.1, ih h.2]

theorem reads_readPieces (bs : List UInt8) : Reads (readPieces bs) := by
  induction bs using pieces_cases with
  | hnil => rw [readPieces_nil]; trivial
  | hplain b rest hb ih => rw [readPieces_plain hb]; exact ⟨hb, ih⟩
  | hunit w x y z rest hsome ih => rw [readPieces_unit hsome]; exact ⟨hsome, ih⟩
  | hescape c rest hat ih =>
    rw [readPieces_escape hat]
    refine ⟨?_, ih⟩
    rintro rfl
    rw [flat_readPieces, ← isSome_unitAt, hat]
    rfl
  | htrailing => rw [readPieces_trailing]; exact ⟨rfl, trivial⟩

theorem before_congr {p : Piece} {rest rest' : List UInt8} (h : p.Before rest)
    (hdigits : digits 4 rest' = digits 4 rest) (hnil : rest = [] → rest' = []) :
    p.Before rest' := by
  cases p with
  | plain b => exact h
  | unit w x y z => exact h
  | escape c => exact fun hc => hdigits.trans (h hc)
  | trailing => exact hnil h

theorem before_of_isHigh {p : Piece} (hp : p.isHigh = true) {rest rest' : List UInt8}
    (h : p.Before rest) : p.Before rest' := by
  cases p with
  | plain b => cases hp
  | unit w x y z => exact h
  | escape c => cases hp
  | trailing => cases hp

theorem flat_eq_nil {pieces : List Piece} (h : flat pieces = []) : pieces = [] := by
  cases pieces with
  | nil => rfl
  | cons p pieces =>
    rw [flat_cons] at h
    cases p with
    | plain b => cases h
    | unit w x y z => cases h
    | escape c => cases h
    | trailing => cases h

theorem before_repair {p : Piece} {pieces : List Piece} (h : p.Before (flat pieces)) :
    p.Before (flat (repair pieces)) := by
  apply before_congr h (digits_flat_repair pieces 4)
  intro hnil
  rw [flat_eq_nil hnil]
  rfl

theorem before_replacement (rest : List UInt8) : Piece.replacement.Before rest := by
  change (unitOf 'f'.toUInt8 'f'.toUInt8 'f'.toUInt8 'd'.toUInt8).isSome = true
  decide

theorem reads_repair {pieces : List Piece} (h : Reads pieces) : Reads (repair pieces) := by
  induction pieces using repair.induct with
  | case1 => exact h
  | case2 p hp => rw [repair, if_pos hp]; exact ⟨before_replacement _, trivial⟩
  | case3 p hp => rw [repair, if_neg hp]; exact h
  | case4 p q pieces hpair ih =>
    rw [repair, if_pos hpair]
    rw [Bool.and_eq_true] at hpair
    exact ⟨before_of_isHigh hpair.1 h.1, before_repair h.2.1, ih h.2.2⟩
  | case5 p q pieces hpair hp ih =>
    rw [repair, if_neg hpair, if_pos hp]
    exact ⟨before_replacement _, ih h.2⟩
  | case6 p q pieces hpair hp ih =>
    rw [repair, if_neg hpair, if_neg hp]
    exact ⟨before_repair h.1, ih h.2⟩

/-- The pieces of the repaired text are the repaired pieces. -/
theorem readPieces_repair (bs : List UInt8) :
    readPieces (flat (repair (readPieces bs))) = repair (readPieces bs) :=
  readPieces_flat (reads_repair (reads_readPieces bs))

end Victauri.Plugin.Mcp.PageJson
