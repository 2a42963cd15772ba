import Victauri.Plugin.Mcp.PageJson.Pieces
import Victauri.Plugin.Mcp.PageJson.Slicing

/-!
# The sanitized text

The loop writes out the pieces of the text with the unpaired surrogates replaced.
-/

namespace Victauri.Plugin.Mcp.PageJson

open Victauri.Core.Json
open Utf8 (encode encode_cons encode_append encode_nil IsAscii)

/-! ## Escapes of the code -/

theorem toNat_charOf (b : UInt8) : (charOf b).toNat = b.toNat := by
  have hvalid : b.toNat.isValidChar := Or.inl (Nat.lt_trans b.toNat_lt (by decide))
  unfold charOf Char.ofNat
  rw [dif_pos hvalid]
  rfl

theorem charOf_toUInt8 {b : UInt8} {c : Char} (hc : c.toNat < 0x80) (h : charOf b = c) :
    b = c.toUInt8 := by
  apply UInt8.toNat_inj.mp
  rw [Utf8.toNat_toUInt8 hc, ← h, toNat_charOf]

theorem isAscii_of_isHexByte {b : UInt8} (h : isHexByte b = true) : IsAscii b := by
  unfold isHexByte hexDigit at h
  unfold IsAscii
  rw [← toNat_charOf]
  have hbound (c : Char) (hc : c.toNat < 0x80) (hle : charOf b ≤ c) : (charOf b).toNat < 0x80 :=
    Nat.lt_of_le_of_lt hle hc
  split_ifs at h with hdigit hlower hupper
  · exact hbound '9' (by decide) hdigit.2
  · exact hbound 'f' (by decide) hlower.2
  · exact hbound 'F' (by decide) hupper.2
  · cases h

theorem hexDigit_lt {c : Char} {d : Nat} (h : hexDigit c = some d) : d < 16 := by
  unfold hexDigit at h
  have hle {a b : Char} (hab : a ≤ b) : a.toNat ≤ b.toNat := hab
  split_ifs at h with hdigit hlower hupper
  · have := hle hdigit.2
    have h9 : '9'.toNat = 57 := rfl
    have h0 : '0'.toNat = 48 := rfl
    rw [← Option.some.inj h]
    omega
  · have := hle hlower.2
    have hf : 'f'.toNat = 102 := rfl
    have ha : 'a'.toNat = 97 := rfl
    rw [← Option.some.inj h]
    omega
  · have := hle hupper.2
    have hf : 'F'.toNat = 70 := rfl
    have ha : 'A'.toNat = 65 := rfl
    rw [← Option.some.inj h]
    omega

theorem unicodeEscapeAt_drop {bs rest : List UInt8} {i : Nat} {w x y z : UInt8}
    (h : bs.drop i = '\\'.toUInt8 :: 'u'.toUInt8 :: w :: x :: y :: z :: rest) :
    unicodeEscapeAt bs i = fromStrRadix16 [charOf w, charOf x, charOf y, charOf z] := by
  unfold unicodeEscapeAt
  rw [h]
  exact if_pos ⟨rfl, rfl⟩

theorem eq_of_unicodeEscapeAt {bs : List UInt8} {i n : Nat} (h : unicodeEscapeAt bs i = some n) :
    ∃ w x y z, bs.drop i = '\\'.toUInt8 :: 'u'.toUInt8 :: w :: x :: y :: z :: bs.drop (i + 6) ∧
      fromStrRadix16 [charOf w, charOf x, charOf y, charOf z] = some n := by
  unfold unicodeEscapeAt at h
  split at h
  · rename_i e u w x y z heq
    split_ifs at h with hunit
    obtain ⟨rfl, rfl⟩ := hunit
    refine ⟨w, x, y, z, ?_, h⟩
    rw [← List.take_append_drop 6 (bs.drop i), heq, List.drop_drop]
    rfl
  · cases h

theorem fromStrRadix16_of_hexNumber {w x y z : UInt8} (h : (unitOf w x y z).isSome = true) :
    fromStrRadix16 [charOf w, charOf x, charOf y, charOf z] = unitOf w x y z := by
  have hw : charOf w ≠ '+' := by
    intro hplus
    rw [isSome_unitOf, isHexByte, hplus] at h
    cases h
  unfold fromStrRadix16
  split
  · rename_i heq
    injection heq
  · rename_i heq
    exact absurd (List.cons.inj heq).1 hw
  · rename_i heq
    exact absurd (List.cons.inj heq).1 hw
  · rfl

/-- What the parse takes beyond a unit: a sign and three digits, no surrogate. -/
theorem fromStrRadix16_sign {w x y z : UInt8} {n : Nat} (hunit : (unitOf w x y z).isSome = false)
    (h : fromStrRadix16 [charOf w, charOf x, charOf y, charOf z] = some n) :
    w = '+'.toUInt8 ∧ isHexByte x = true ∧ isHexByte y = true ∧ isHexByte z = true ∧
      n < 0x1000 := by
  unfold fromStrRadix16 at h
  split at h
  · cases h
  · cases h
  · rename_i ds _ heq
    obtain ⟨hw, rfl⟩ := List.cons.inj heq
    refine ⟨charOf_toUInt8 (by decide) hw, ?_⟩
    unfold hexNumber at h
    unfold isHexByte
    simp only [List.foldlM_cons, List.foldlM_nil] at h
    cases hx : hexDigit (charOf x) with
    | none => rw [hx] at h; cases h
    | some a =>
      cases hy : hexDigit (charOf y) with
      | none => rw [hx, hy] at h; cases h
      | some b =>
        cases hz : hexDigit (charOf z) with
        | none => rw [hx, hy, hz] at h; cases h
        | some c =>
          rw [hx, hy, hz] at h
          have hn : ((0 * 16 + a) * 16 + b) * 16 + c = n := Option.some.inj h
          have ha := hexDigit_lt hx
          have hb := hexDigit_lt hy
          have hc := hexDigit_lt hz
          exact ⟨rfl, rfl, rfl, by omega⟩
  · unfold unitOf at hunit
    rw [h] at hunit
    cases hunit

theorem unicodeEscapeAt_zero (bs : List UInt8) (i : Nat) :
    unicodeEscapeAt bs i = unicodeEscapeAt (bs.drop i) 0 := rfl

theorem unicodeEscapeAt_unit {w x y z : UInt8} (h : (unitOf w x y z).isSome = true)
    (rest : List UInt8) :
    unicodeEscapeAt ('\\'.toUInt8 :: 'u'.toUInt8 :: w :: x :: y :: z :: rest) 0 =
      unitOf w x y z := by
  rw [← fromStrRadix16_of_hexNumber h]
  exact unicodeEscapeAt_drop rfl

/-- An escape that the code sees at a place where no unit is. -/
theorem sign_of_unitAt {bs : List UInt8} {n : Nat} (hat : unitAt bs = none)
    (h : unicodeEscapeAt bs 0 = some n) :
    n < 0x1000 ∧ ∃ x y z, isHexByte x = true ∧ isHexByte y = true ∧ isHexByte z = true ∧
      bs = '\\'.toUInt8 :: 'u'.toUInt8 :: '+'.toUInt8 :: x :: y :: z :: bs.drop 6 := by
  obtain ⟨w, x, y, z, hbs, hparse⟩ := eq_of_unicodeEscapeAt h
  rw [List.drop_zero, Nat.zero_add] at hbs
  have hunit : (unitOf w x y z).isSome = false := by
    by_contra hsome
    rw [hbs, unitAt_unit (eq_true_of_ne_false hsome)] at hat
    cases hat
  obtain ⟨rfl, hx, hy, hz, hn⟩ := fromStrRadix16_sign hunit hparse
  exact ⟨hn, x, y, z, hx, hy, hz, hbs⟩

theorem not_surrogate_of_lt {n : Nat} (h : n < 0x1000) :
    isHighSurrogate n = false ∧ isLowSurrogate n = false := by
  unfold isHighSurrogate isLowSurrogate
  simp only [Bool.and_eq_false_iff, decide_eq_false_iff_not]
  omega

/-- The look-ahead sees a low surrogate where there is one. -/
theorem any_isLowSurrogate (bs : List UInt8) :
    (unicodeEscapeAt bs 0).any isLowSurrogate = (readPieces bs).head?.any Piece.isLow := by
  induction bs using pieces_cases with
  | hnil => rw [readPieces_nil]; rfl
  | hplain b rest hb =>
    have hnone : unicodeEscapeAt (b :: rest) 0 = none := by
      rw [← Option.not_isSome_iff_eq_none, Option.isSome_iff_exists]
      rintro ⟨n, hn⟩
      obtain ⟨w, x, y, z, hbs, -⟩ := eq_of_unicodeEscapeAt hn
      exact hb (List.cons.inj hbs).1
    rw [hnone, readPieces_plain hb]
    rfl
  | hunit w x y z rest hsome => rw [unicodeEscapeAt_unit hsome, readPieces_unit hsome]; rfl
  | hescape c rest hat =>
    rw [readPieces_escape hat]
    cases hn : unicodeEscapeAt ('\\'.toUInt8 :: c :: rest) 0 with
    | none => rfl
    | some n =>
      rw [Option.any_some, (not_surrogate_of_lt (sign_of_unitAt hat hn).1).2]
      rfl
  | htrailing => rw [readPieces_trailing]; rfl

/-! ## The pieces that are passed over -/

theorem repair_plain {p : Piece} (h : (p.isHigh || p.isLow) = false) (pieces : List Piece) :
    repair (p :: pieces) = p :: repair pieces := by
  have hhigh : p.isHigh = false := (Bool.or_eq_false_iff.mp h).1
  rw [repair_cons p pieces (by rw [hhigh, Bool.false_and]), h]
  rfl

/-- The first `n` bytes are whole pieces that are kept. -/
def Keeps (bs : List UInt8) (n : Nat) : Prop :=
  ∃ front, flat front = bs.take n ∧ readPieces bs = front ++ readPieces (bs.drop n) ∧
    repair (readPieces bs) = front ++ repair (readPieces (bs.drop n))

theorem repair_append {front : List Piece}
    (h : ∀ p ∈ front, (p.isHigh || p.isLow) = false) (pieces : List Piece) :
    repair (front ++ pieces) = front ++ repair pieces := by
  induction front with
  | nil => rfl
  | cons p front ih =>
    rw [List.forall_mem_cons] at h
    rw [List.cons_append, repair_plain h.1, ih h.2, List.cons_append]

theorem keeps_of_append {bs : List UInt8} {n : Nat} {front : List Piece}
    (hbytes : flat front = bs.take n) (hread : readPieces bs = front ++ readPieces (bs.drop n))
    (h : ∀ p ∈ front, (p.isHigh || p.isLow) = false) : Keeps bs n :=
  ⟨front, hbytes, hread, hread ▸ repair_append h _⟩

theorem keeps_plain {b : UInt8} (h : b ≠ '\\'.toUInt8) (rest : List UInt8) :
    Keeps (b :: rest) 1 := by
  apply keeps_of_append (show flat [.plain b] = _ from rfl)
  · rw [readPieces_plain h]
    rfl
  · exact List.forall_mem_singleton.mpr rfl

theorem keeps_escape {rest : List UInt8}
    (h : unicodeEscapeAt ('\\'.toUInt8 :: rest) 0 = none) : Keeps ('\\'.toUInt8 :: rest) 2 := by
  have hat : unitAt ('\\'.toUInt8 :: rest) = none := by
    cases hunit : unitAt ('\\'.toUInt8 :: rest) with
    | none => rfl
    | some unit =>
      obtain ⟨w, x, y, z⟩ := unit
      obtain ⟨hsome, hbs⟩ := eq_of_unitAt hunit
      rw [hbs, unicodeEscapeAt_unit hsome] at h
      rw [h] at hsome
      cases hsome
  cases rest with
  | nil =>
    apply keeps_of_append (show flat [.trailing] = _ from rfl)
    · change _ = [Piece.trailing] ++ readPieces []
      rw [readPieces_trailing, readPieces_nil]
      rfl
    · exact List.forall_mem_singleton.mpr rfl
  | cons c rest =>
    apply keeps_of_append (show flat [.escape c] = _ from rfl)
    · rw [readPieces_escape hat]
      rfl
    · exact List.forall_mem_singleton.mpr rfl

theorem readPieces_hex {b : UInt8} (h : isHexByte b = true) (rest : List UInt8) :
    readPieces (b :: rest) = .plain b :: readPieces rest := by
  apply readPieces_plain
  rintro rfl
  revert h
  decide

/-- The code unit that the code reads is of a piece, or is no surrogate. -/
theorem unit_or_keeps {bs : List UInt8} {n : Nat} (h : unicodeEscapeAt bs 0 = some n) :
    (∃ w x y z, unitOf w x y z = some n ∧
        bs = '\\'.toUInt8 :: 'u'.toUInt8 :: w :: x :: y :: z :: bs.drop 6) ∨
      isHighSurrogate n = false ∧ isLowSurrogate n = false ∧ Keeps bs 6 := by
  cases hat : unitAt bs with
  | some unit =>
    obtain ⟨w, x, y, z⟩ := unit
    obtain ⟨hsome, hbs⟩ := eq_of_unitAt hat
    rw [hbs, unicodeEscapeAt_unit hsome] at h
    exact Or.inl ⟨w, x, y, z, h, hbs⟩
  | none =>
    obtain ⟨hn, x, y, z, hx, hy, hz, hbs⟩ := sign_of_unitAt hat h
    obtain ⟨hhigh, hlow⟩ := not_surrogate_of_lt hn
    refine Or.inr ⟨hhigh, hlow, ?_⟩
    rw [hbs] at hat ⊢
    have hplus : '+'.toUInt8 ≠ '\\'.toUInt8 := by decide
    have hbytes : flat [.escape 'u'.toUInt8, .plain '+'.toUInt8, .plain x, .plain y, .plain z] =
        ('\\'.toUInt8 :: 'u'.toUInt8 :: '+'.toUInt8 :: x :: y :: z :: bs.drop 6).take 6 := rfl
    apply keeps_of_append hbytes
    · rw [readPieces_escape hat, readPieces_plain hplus, readPieces_hex hx, readPieces_hex hy,
        readPieces_hex hz]
      rfl
    · intro p hp
      simp only [List.mem_cons, List.not_mem_nil, or_false] at hp
      rcases hp with rfl | rfl | rfl | rfl | rfl
      all_goals rfl

section Unit

variable {w x y z : UInt8} {n : Nat} {bs : List UInt8}

theorem isHigh_unit (h : unitOf w x y z = some n) :
    (Piece.unit w x y z).isHigh = isHighSurrogate n := by
  change (unitOf w x y z).any isHighSurrogate = _
  rw [h]
  rfl

theorem isLow_unit (h : unitOf w x y z = some n) :
    (Piece.unit w x y z).isLow = isLowSurrogate n := by
  change (unitOf w x y z).any isLowSurrogate = _
  rw [h]
  rfl

theorem readPieces_of_unitOf (h : unitOf w x y z = some n) (rest : List UInt8) :
    readPieces ('\\'.toUInt8 :: 'u'.toUInt8 :: w :: x :: y :: z :: rest) =
      .unit w x y z :: readPieces rest :=
  readPieces_unit (by rw [h]; rfl) rest

end Unit

theorem keeps_pair {bs : List UInt8} {n : Nat} (h : unicodeEscapeAt bs 0 = some n)
    (hhigh : isHighSurrogate n = true)
    (hnext : (unicodeEscapeAt (bs.drop 6) 0).any isLowSurrogate = true) : Keeps bs 12 := by
  obtain (⟨w, x, y, z, hunit, hbs⟩ | ⟨hnot, -⟩) := unit_or_keeps h
  · rw [Option.any_eq_true] at hnext
    obtain ⟨m, hm, hlow⟩ := hnext
    obtain (⟨w', x', y', z', hunit', hbs'⟩ | ⟨-, hnot, -⟩) := unit_or_keeps hm
    · refine ⟨[.unit w x y z, .unit w' x' y' z'], ?_, ?_, ?_⟩
      · rw [hbs, hbs']
        rfl
      · rw [hbs, hbs', readPieces_of_unitOf hunit, readPieces_of_unitOf hunit']
        rfl
      · rw [hbs, hbs', readPieces_of_unitOf hunit, readPieces_of_unitOf hunit',
          repair_pair ((isHigh_unit hunit).trans hhigh) ((isLow_unit hunit').trans hlow)]
        rfl
    · rw [hnot] at hlow
      cases hlow
  · rw [hnot] at hhigh
    cases hhigh

section Alone

variable {bs : List UInt8} {n : Nat}

theorem read_unit {w x y z : UInt8} (hunit : unitOf w x y z = some n)
    (hbs : bs = '\\'.toUInt8 :: 'u'.toUInt8 :: w :: x :: y :: z :: bs.drop 6) :
    readPieces bs = .unit w x y z :: readPieces (bs.drop 6) :=
  (congrArg readPieces hbs).trans (readPieces_of_unitOf hunit _)

variable (hpair : (isHighSurrogate n && (unicodeEscapeAt (bs.drop 6) 0).any isLowSurrogate) = false)

include hpair

theorem repair_alone {w x y z : UInt8} (hunit : unitOf w x y z = some n)
    (hbs : bs = '\\'.toUInt8 :: 'u'.toUInt8 :: w :: x :: y :: z :: bs.drop 6) :
    repair (readPieces bs) =
      (if isHighSurrogate n || isLowSurrogate n then .replacement else .unit w x y z) ::
        repair (readPieces (bs.drop 6)) := by
  rw [read_unit hunit hbs, repair_cons, isHigh_unit hunit, isLow_unit hunit]
  rw [isHigh_unit hunit, ← any_isLowSurrogate]
  exact hpair

variable (h : unicodeEscapeAt bs 0 = some n)

include h

theorem keeps_other (hother : (isHighSurrogate n || isLowSurrogate n) = false) :
    Keeps bs 6 := by
  obtain (⟨w, x, y, z, hunit, hbs⟩ | ⟨-, -, hkeeps⟩) := unit_or_keeps h
  · refine ⟨[.unit w x y z], ?_, read_unit hunit hbs, ?_⟩
    · rw [hbs]
      rfl
    · rw [repair_alone hpair hunit hbs, hother]
      rfl
  · exact hkeeps

/-- An unpaired surrogate is replaced, and is none of what replaces it. -/
theorem repair_lone (hlone : (isHighSurrogate n || isLowSurrogate n) = true) :
    repair (readPieces bs) = .replacement :: repair (readPieces (bs.drop 6)) ∧
      repair (readPieces bs) ≠ readPieces bs := by
  obtain (⟨w, x, y, z, hunit, hbs⟩ | ⟨hhigh, hlow, -⟩) := unit_or_keeps h
  · have hrepair := repair_alone hpair hunit hbs
    rw [if_pos hlone] at hrepair
    refine ⟨hrepair, ?_⟩
    intro hsame
    rw [hrepair, read_unit hunit hbs] at hsame
    have hunchanged := (List.cons.inj hsame).1
    rw [← isHigh_unit hunit, ← isLow_unit hunit, ← hunchanged, isHigh_replacement,
      isLow_replacement] at hlone
    cases hlone
  · rw [hhigh, hlow] at hlone
    cases hlone

end Alone

/-! ## What is still to be written -/

/-- The result of the loop from an index on. -/
def target (bs : List UInt8) (out : Option (List UInt8)) (copied i : Nat) : List UInt8 :=
  out.getD [] ++ (bs.take i).drop copied ++ flat (repair (readPieces (bs.drop i)))

/-- Bytes that are kept are passed over. -/
theorem target_skip {bs : List UInt8} {out : Option (List UInt8)} {copied i n : Nat}
    (hcopied : copied ≤ i) (hi : i < bs.length) (hkeeps : Keeps (bs.drop i) n) :
    target bs out copied i = target bs out copied (i + n) := by
  obtain ⟨front, hbytes, -, hpieces⟩ := hkeeps
  rw [List.drop_drop] at hpieces
  have hflat : flat (front ++ repair (readPieces (bs.drop (i + n)))) =
      (bs.drop i).take n ++ flat (repair (readPieces (bs.drop (i + n)))) := by
    rw [← hbytes]
    exact List.flatMap_append
  have htake : (bs.take (i + n)).drop copied =
      (bs.take i).drop copied ++ (bs.drop i).take n := by
    rw [List.take_add, List.drop_append_of_le_length]
    rw [List.length_take]
    omega
  unfold target
  rw [hpieces, hflat, htake]
  simp only [List.append_assoc]

/-- The six bytes of an unpaired surrogate are replaced. -/
theorem target_lone {bs : List UInt8} {out : Option (List UInt8)} {copied i : Nat}
    (hpieces : repair (readPieces (bs.drop i)) =
      .replacement :: repair (readPieces (bs.drop (i + 6)))) :
    target bs out copied i =
      target bs
        (some (out.getD [] ++ (bs.take i).drop copied ++ encode "\\ufffd".toList))
        (i + 6) (i + 6) := by
  have hfffd : Piece.replacement.bytes = encode "\\ufffd".toList := by decide
  have hnil : (bs.take (i + 6)).drop (i + 6) = [] := by
    apply List.drop_eq_nil_of_le
    rw [List.length_take]
    exact Nat.min_le_left _ _
  unfold target
  rw [hpieces, flat_cons, hfffd, hnil, Option.getD_some]
  simp only [List.append_assoc, List.nil_append]

/-! ## The loop -/

/-- What holds whenever the loop tests its condition. -/
structure Ready (bs : List UInt8) (out : Option (List UInt8)) (copied i : Nat) : Prop where
  copied_le : copied ≤ i
  boundary : isCharBoundary bs copied = true
  none_copied : out = none → copied = 0
  written : ∃ text, out.getD [] = encode text

/-- What the loop returns. -/
structure Done (bs : List UInt8) (out : Option (List UInt8)) (copied i : Nat) (result : Cow) :
    Prop where
  text_eq : result.text = target bs out copied i
  borrowed : out = none → repair (readPieces (bs.drop i)) = readPieces (bs.drop i) →
    result = .borrowed bs
  text : ∃ text, result.text = encode text

theorem Ready.skip {bs : List UInt8} {out : Option (List UInt8)} {copied i : Nat}
    (h : Ready bs out copied i) (n : Nat) : Ready bs out copied (i + n) :=
  { h with copied_le := Nat.le_trans h.copied_le (Nat.le_add_right i n) }

theorem Done.skip {bs : List UInt8} {out : Option (List UInt8)} {copied i n : Nat} {result : Cow}
    (hready : Ready bs out copied i) (hi : i < bs.length) (hkeeps : Keeps (bs.drop i) n)
    (h : Done bs out copied (i + n) result) : Done bs out copied i result := by
  refine ⟨h.text_eq.trans (target_skip hready.copied_le hi hkeeps).symm, ?_, h.text⟩
  intro hout hsame
  obtain ⟨front, -, hread, hrepair⟩ := hkeeps
  rw [hread, ← hread, hrepair, hread] at hsame
  rw [List.drop_drop] at hsame
  exact h.borrowed hout (List.append_cancel_left hsame)

/-- The last byte of an escape is ASCII. -/
theorem isAscii_of_unicodeEscapeAt {bs : List UInt8} {i n : Nat}
    (h : unicodeEscapeAt bs i = some n) : ∃ z, bs[i + 5]? = some z ∧ IsAscii z := by
  obtain ⟨w, x, y, z, hbs, hparse⟩ := eq_of_unicodeEscapeAt h
  refine ⟨z, ?_, ?_⟩
  · rw [← List.getElem?_drop, hbs]
    rfl
  · apply isAscii_of_isHexByte
    cases hunit : (unitOf w x y z).isSome with
    | true =>
      rw [isSome_unitOf, Bool.and_eq_true] at hunit
      exact hunit.2
    | false => exact (fromStrRadix16_sign hunit hparse).2.2.2.1

section Loop

variable {text : List Char} {out : Option (List UInt8)} {copied i : Nat}

/-- Behind the text the rest is copied. -/
theorem scan_end (h : Ready (encode text) out copied i) (hi : ¬ i < (encode text).length) :
    ∃ result, scan (encode text) out copied i = some result ∧
      Done (encode text) out copied i result := by
  have htake : (encode text).take i = encode text := List.take_of_length_le (Nat.le_of_not_lt hi)
  have hdrop : (encode text).drop i = [] := List.drop_eq_nil_of_le (Nat.le_of_not_lt hi)
  have hrest : flat (repair (readPieces ((encode text).drop i))) = [] := by
    rw [hdrop, readPieces_nil]
    rfl
  obtain ⟨written, hwritten⟩ := h.written
  cases out with
  | none =>
    refine ⟨.borrowed (encode text), ?_, ?_, fun _ _ => rfl, text, rfl⟩
    · rw [scan, dif_neg hi]
    · unfold target
      rw [hrest, htake, h.none_copied rfl, List.append_nil]
      rfl
  | some buf =>
    obtain ⟨hslice, piece, hpiece⟩ :=
      slice_encode (le_length_of_isCharBoundary h.boundary) h.boundary (isCharBoundary_length _)
    refine ⟨.owned (buf ++ ((encode text).take (encode text).length).drop copied), ?_, ?_, ?_,
      written ++ piece, ?_⟩
    · rw [scan, dif_neg hi]
      rw [hslice]
      rfl
    · unfold target
      rw [hrest, htake, List.take_length, List.append_nil]
      rfl
    · intro hout
      cases hout
    · change buf ++ _ = _
      rw [hpiece, encode_append, ← hwritten]
      rfl

/-- An unpaired surrogate: the text before it is copied, and what is written is a text. -/
theorem ready_lone (h : Ready (encode text) out copied i) {n : Nat}
    (hescape : unicodeEscapeAt (encode text) i = some n) :
    slice (encode text) copied i = some (((encode text).take i).drop copied) ∧
      Ready (encode text)
        (some (out.getD [] ++ ((encode text).take i).drop copied ++ encode "\\ufffd".toList))
        (i + 6) (i + 6) := by
  obtain ⟨w, x, y, z, hbs, -⟩ := eq_of_unicodeEscapeAt hescape
  have hstart : (encode text)[i]? = some '\\'.toUInt8 := by
    rw [← List.head?_drop, hbs, List.head?_cons]
  obtain ⟨hslice, piece, hpiece⟩ := slice_encode h.copied_le h.boundary
    (isCharBoundary_ascii hstart (by unfold IsAscii; decide))
  obtain ⟨last, hlast, hascii⟩ := isAscii_of_unicodeEscapeAt hescape
  obtain ⟨written, hwritten⟩ := h.written
  refine ⟨hslice, Nat.le_refl _, isCharBoundary_behind hascii hlast, ?_, ?_⟩
  · intro hout
    cases hout
  · refine ⟨written ++ piece ++ "\\ufffd".toList, ?_⟩
    rw [Option.getD_some, hwritten, hpiece, encode_append, encode_append]

theorem scan_done (h : Ready (encode text) out copied i) :
    ∃ result, scan (encode text) out copied i = some result ∧
      Done (encode text) out copied i result := by
  induction hm : (encode text).length - i using Nat.strongRecOn generalizing out copied i with
  | ind m ih =>
    subst hm
    by_cases hi : i < (encode text).length
    · have hskip (n : Nat) (hn : 0 < n) (hkeeps : Keeps ((encode text).drop i) n)
          (hscan : scan (encode text) out copied i = scan (encode text) out copied (i + n)) :
          ∃ result, scan (encode text) out copied i = some result ∧
            Done (encode text) out copied i result := by
        obtain ⟨result, hresult, hdone⟩ := ih _ (by omega) (h.skip n) rfl
        exact ⟨result, hscan.trans hresult, hdone.skip h hi hkeeps⟩
      have hdrop : (encode text).drop i = (encode text).get ⟨i, hi⟩ :: (encode text).drop (i + 1) :=
        List.drop_eq_getElem_cons hi
      by_cases hb : (encode text).get ⟨i, hi⟩ = '\\'.toUInt8
      · cases hescape : unicodeEscapeAt (encode text) i with
        | none =>
          apply hskip 2 (by decide)
          · rw [unicodeEscapeAt_zero, hdrop, hb] at hescape
            rw [hdrop, hb]
            exact keeps_escape hescape
          · rw [scan.eq_def, dif_pos hi, if_neg (fun hne => hne hb), hescape]
        | some cp =>
          have hnext : unicodeEscapeAt (encode text) (i + 6) =
              unicodeEscapeAt (((encode text).drop i).drop 6) 0 := by
            rw [unicodeEscapeAt_zero, List.drop_drop]
          cases hpair : (isHighSurrogate cp &&
              (unicodeEscapeAt (encode text) (i + 6)).any isLowSurrogate) with
          | true =>
            apply hskip 12 (by decide)
            · rw [Bool.and_eq_true, hnext] at hpair
              exact keeps_pair hescape hpair.1 hpair.2
            · rw [scan.eq_def, dif_pos hi, if_neg (fun hne => hne hb), hescape]
              exact if_pos hpair
          | false =>
            cases hlone : (isHighSurrogate cp || isLowSurrogate cp) with
            | true =>
              obtain ⟨hslice, hready⟩ := ready_lone h hescape
              obtain ⟨result, hresult, hdone⟩ := ih _ (by omega) hready rfl
              rw [hnext] at hpair
              obtain ⟨hrepair, hne⟩ := repair_lone hpair hescape hlone
              rw [List.drop_drop] at hrepair
              refine ⟨result, ?_, ?_, fun _ hsame => absurd hsame hne, hdone.text⟩
              · rw [scan.eq_def, dif_pos hi, if_neg (fun hne => hne hb), hescape]
                dsimp only
                rw [hnext, if_neg (ne_true_of_eq_false hpair), if_pos hlone, hslice]
                exact hresult
              · exact hdone.text_eq.trans (target_lone hrepair).symm
            | false =>
              apply hskip 6 (by decide)
              · rw [hnext] at hpair
                exact keeps_other hpair hescape hlone
              · rw [scan.eq_def, dif_pos hi, if_neg (fun hne => hne hb), hescape]
                dsimp only
                rw [if_neg (ne_true_of_eq_false hpair), if_neg (ne_true_of_eq_false hlone)]
      · apply hskip 1 (by decide)
        · rw [hdrop]
          exact keeps_plain hb _
        · rw [scan.eq_def, dif_pos hi, if_pos hb]
    · exact scan_end h hi

end Loop

/-! ## What sanitizing does -/

theorem sanitize_text (text : List Char) :
    ∃ result, sanitizeLoneSurrogates (encode text) = some result ∧
      Done (encode text) none 0 0 result :=
  scan_done ⟨Nat.le_refl 0, isCharBoundary_zero _, fun _ => rfl, [], rfl⟩

theorem Done.text_repair {bs : List UInt8} {result : Cow} (h : Done bs none 0 0 result) :
    result.text = flat (repair (readPieces bs)) := by
  rw [h.text_eq]
  unfold target
  rw [List.take_zero, List.drop_nil, List.drop_zero]
  rfl

/-- Sanitizing a text gives a text, without a panic; piece for piece it differs in the unpaired
surrogates only, it has none itself, and where there are none the text is borrowed. -/
theorem sanitizeLoneSurrogates_repairs (text : List Char) :
    ∃ result text', sanitizeLoneSurrogates (encode text) = some result ∧
      result.text = encode text' ∧
      encode text = flat (readPieces (encode text)) ∧
      result.text = flat (readPieces result.text) ∧
      (∀ k, ¬ Lone (readPieces result.text) k) ∧
      (readPieces result.text).length = (readPieces (encode text)).length ∧
      (∀ k, (Lone (readPieces (encode text)) k →
          (readPieces result.text)[k]? = some .replacement) ∧
        (¬ Lone (readPieces (encode text)) k →
          (readPieces result.text)[k]? = (readPieces (encode text))[k]?)) ∧
      ((∀ k, ¬ Lone (readPieces (encode text)) k) → result = .borrowed (encode text)) ∧
      sanitizeLoneSurrogates result.text = some (.borrowed result.text) := by
  obtain ⟨result, hresult, hdone⟩ := sanitize_text text
  obtain ⟨text', htext⟩ := hdone.text
  have hread : readPieces result.text = repair (readPieces (encode text)) := by
    rw [hdone.text_repair, readPieces_repair]
  have hlone : ∀ k, ¬ Lone (readPieces result.text) k := by
    rw [hread]
    exact not_lone_repair _
  refine ⟨result, text', hresult, htext, (flat_readPieces _).symm, (flat_readPieces _).symm, hlone,
    ?_, ?_, ?_, ?_⟩
  · rw [hread, length_repair]
  · intro k
    rw [hread]
    exact kept _ k
  · intro hnone
    exact hdone.borrowed rfl (repair_of_not_lone hnone)
  · rw [htext] at hlone ⊢
    obtain ⟨again, hagain, hdone'⟩ := sanitize_text text'
    rw [hagain, hdone'.borrowed rfl (repair_of_not_lone hlone)]

end Victauri.Plugin.Mcp.PageJson
