import Mathlib.Data.List.TakeWhile
import Victauri.Cli.RustCode

/-!
# Blanking keeps every offset

Byte for byte the result is the source or a blank, and what is blanked begins and ends between
characters, so the result is a text again.
-/

namespace Victauri.Cli.RustCode

open Utf8

/-! ## The loop -/

def emit (blanked : Bool) (c : UInt8) : UInt8 := if blanked then blank c else c

theorem map_emit_false (bs : List UInt8) : bs.map (emit false) = bs := List.map_id bs

theorem scan_left (before : List UInt8) (left : Nat) (blanked : Bool) (bs : List UInt8) :
    scan before left blanked bs =
      (bs.take left).map (emit blanked) ++
        scan ((bs.take left).reverse ++ before) 0 false (bs.drop left) := by
  induction bs generalizing before left with
  | nil => cases left <;> rfl
  | cons c bs ih =>
    cases left with
    | zero => rfl
    | succ left =>
      rw [scan, ih, List.take_succ_cons, List.map_cons, List.reverse_cons, List.drop_succ_cons]
      simp [emit]

/-- A turn takes its bytes and leaves the loop behind them. -/
theorem scan_turn {before : List UInt8} {c : UInt8} {rest : List UInt8} {n : Nat} {blanked : Bool}
    (h : turn before c rest = (n, blanked)) (hn : 0 < n) :
    scan before 0 false (c :: rest) =
      ((c :: rest).take n).map (emit blanked) ++
        scan (((c :: rest).take n).reverse ++ before) 0 false ((c :: rest).drop n) := by
  obtain ⟨n, rfl⟩ := Nat.exists_eq_add_one_of_ne_zero (Nat.ne_of_gt hn)
  have hleft := scan_left (c :: before) n blanked rest
  rw [scan, h]
  change emit blanked c :: scan (c :: before) n blanked rest = _
  rw [hleft, List.take_succ_cons, List.map_cons, List.reverse_cons, List.drop_succ_cons,
    List.cons_append, List.append_assoc, List.singleton_append]

theorem length_scan (before : List UInt8) (left : Nat) (blanked : Bool) (bs : List UInt8) :
    (scan before left blanked bs).length = bs.length := by
  induction bs generalizing before left blanked with
  | nil => rfl
  | cons c bs ih =>
    cases left with
    | zero => rw [scan, List.length_cons, List.length_cons, ih]
    | succ left => rw [scan, List.length_cons, List.length_cons, ih]

/-! ## Line ends -/

def IsEol (b : UInt8) : Prop := b = '\n'.toUInt8 ∨ b = '\r'.toUInt8

instance (b : UInt8) : Decidable (IsEol b) := inferInstanceAs (Decidable (_ ∨ _))

theorem emit_eq_eol {blanked : Bool} {b c : UInt8} (hb : IsEol b) : emit blanked c = b ↔ c = b := by
  cases blanked with
  | false => rfl
  | true =>
    change blank c = b ↔ c = b
    unfold blank
    by_cases hc : c ≠ '\n'.toUInt8 ∧ c ≠ '\r'.toUInt8
    · rw [if_pos hc]
      constructor
      · rintro rfl
        exact absurd hb (by decide)
      · rintro rfl
        rcases hb with rfl | rfl
        · exact absurd rfl hc.1
        · exact absurd rfl hc.2
    · rw [if_neg hc]

/-- Line ends stay where they are, and there are no others. -/
theorem getElem?_scan_eol {b : UInt8} (hb : IsEol b) (before : List UInt8) (left : Nat)
    (blanked : Bool) (bs : List UInt8) (i : Nat) :
    (scan before left blanked bs)[i]? = some b ↔ bs[i]? = some b := by
  induction bs generalizing before left blanked i with
  | nil => rfl
  | cons c bs ih =>
    have hfirst : ∀ x, some (emit x c) = some b ↔ some c = some b := by
      intro x
      rw [Option.some_inj, Option.some_inj, emit_eq_eol hb]
    cases left with
    | zero =>
      cases i with
      | zero => exact hfirst _
      | succ i => exact ih _ _ _ i
    | succ left =>
      cases i with
      | zero => exact hfirst _
      | succ i => exact ih _ _ _ i

/-! ## Where the arms end -/

/-- At the end of the bytes, or beside an ASCII byte. -/
def Ends (bs : List UInt8) (n : Nat) : Prop :=
  bs.length ≤ n ∨ (∃ b, IsAscii b ∧ bs[n]? = some b) ∨ ∃ b k, IsAscii b ∧ n = k + 1 ∧ bs[k]? = some b

theorem Ends.cuts {text : List Char} {n : Nat} (h : Ends (encode text) n) :
    Cuts (encode text) n := by
  rcases h with h | ⟨b, hb, h⟩ | ⟨b, k, hb, rfl, h⟩
  · exact cuts_of_length_le h
  · exact cuts_before hb h
  · exact cuts_behind hb h

theorem Ends.cons {bs : List UInt8} {n : Nat} (h : Ends bs n) (c : UInt8) :
    Ends (c :: bs) (1 + n) := by
  rw [Nat.add_comm]
  rcases h with h | ⟨b, hb, h⟩ | ⟨b, k, hb, rfl, h⟩
  · exact Or.inl (Nat.succ_le_succ h)
  · exact Or.inr (Or.inl ⟨b, hb, h⟩)
  · exact Or.inr (Or.inr ⟨b, k + 1, hb, rfl, h⟩)

theorem ends_behind {bs : List UInt8} {k : Nat} {b : UInt8} (hb : IsAscii b)
    (h : bs[k]? = some b) : Ends bs (k + 1) :=
  Or.inr (Or.inr ⟨b, k, hb, rfl, h⟩)

theorem ends_takeWhile {p : UInt8 → Bool} (hp : ∀ b, p b = false → IsAscii b) (bs : List UInt8) :
    (bs.takeWhile p).length = bs.length ∨
      ∃ b, IsAscii b ∧ bs[(bs.takeWhile p).length]? = some b := by
  induction bs with
  | nil => exact Or.inl rfl
  | cons c bs ih =>
    by_cases hc : p c = true
    · rw [List.takeWhile_cons_of_pos hc]
      rcases ih with h | ⟨b, hb, h⟩
      · exact Or.inl (congrArg (· + 1) h)
      · exact Or.inr ⟨b, hb, h⟩
    · rw [List.takeWhile_cons_of_neg hc]
      exact Or.inr ⟨c, hp c (Bool.not_eq_true _ ▸ hc), rfl⟩

theorem ends_lineLength (bs : List UInt8) : Ends bs (lineLength bs) := by
  have hnewline : ∀ b : UInt8, decide (b ≠ '\n'.toUInt8) = false → IsAscii b := by
    intro b hb
    rw [decide_eq_false_iff_not, not_not] at hb
    rw [hb]
    decide
  rcases ends_takeWhile hnewline bs with h | h
  · exact Or.inl (Nat.le_of_eq h.symm)
  · exact Or.inr (Or.inl h)

theorem ends_blockLength (depth : Nat) (bs : List UInt8) : Ends bs (blockLength depth bs) := by
  induction depth, bs using blockLength.induct with
  | case1 depth c d rest hopen ih =>
    rw [blockLength, if_pos hopen, show 2 + blockLength (depth + 1) rest =
      1 + (1 + blockLength (depth + 1) rest) by omega]
    exact (ih.cons d).cons c
  | case2 depth c d rest hopen hclose hlast =>
    rw [blockLength, if_neg hopen, if_pos hclose, if_pos hlast]
    exact @ends_behind _ 1 d (by rw [hclose.2]; decide) rfl
  | case3 depth c d rest hopen hclose hlast ih =>
    rw [blockLength, if_neg hopen, if_pos hclose, if_neg hlast,
      show 2 + blockLength (depth - 1) rest = 1 + (1 + blockLength (depth - 1) rest) by omega]
    exact (ih.cons d).cons c
  | case4 depth c d rest hopen hclose ih =>
    rw [blockLength, if_neg hopen, if_neg hclose]
    exact ih.cons c
  | case5 depth c => exact Or.inl (Nat.le_refl 1)
  | case6 depth => exact Or.inl (Nat.le_refl 0)

theorem ends_stringLength : ∀ bs : List UInt8, Ends bs (stringLength bs)
  | [] => Or.inl (Nat.zero_le 1)
  | [c] => by
    left
    unfold stringLength
    split_ifs
    · exact Nat.le_refl 1
    · exact Nat.succ_le_succ (Nat.zero_le 2)
    · exact Nat.succ_le_succ (Nat.zero_le 1)
  | c :: d :: rest => by
    unfold stringLength
    by_cases hquote : c = '"'.toUInt8
    · rw [if_pos hquote]
      exact @ends_behind _ 0 c (by rw [hquote]; decide) rfl
    · rw [if_neg hquote]
      by_cases hback : c = '\\'.toUInt8
      · rw [if_pos hback, show 2 + stringLength rest = 1 + (1 + stringLength rest) by omega]
        exact ((ends_stringLength rest).cons d).cons c
      · rw [if_neg hback]
        exact (ends_stringLength (d :: rest)).cons c

theorem ends_rawLength (n : Nat) (bs : List UInt8) : Ends bs (rawLength n bs) := by
  induction bs with
  | nil => exact Or.inl (Nat.le_refl 0)
  | cons c rest ih =>
    unfold rawLength
    split_ifs with hclose
    · obtain ⟨hquote, hall, hle⟩ := hclose
      cases n with
      | zero => exact @ends_behind _ 0 c (by rw [hquote]; decide) rfl
      | succ n =>
        have hhash : rest[n]? = some '#'.toUInt8 := by
          have hmem : rest[n] ∈ rest.take (n + 1) := by
            rw [List.mem_take_iff_getElem]
            exact ⟨n, by omega, rfl⟩
          have := List.all_eq_true.mp hall _ hmem
          rw [decide_eq_true_eq] at this
          rw [List.getElem?_eq_getElem hle, this]
        rw [Nat.add_comm]
        exact @ends_behind (c :: rest) (n + 1) '#'.toUInt8 (by decide) hhash
    · exact ih.cons c

theorem ends_escapedLength (bs : List UInt8) : Ends bs (escapedLength bs) := by
  have hstop : ∀ b : UInt8, decide (b ≠ '\''.toUInt8 ∧ b ≠ '\n'.toUInt8) = false → IsAscii b := by
    intro b hb
    rw [decide_eq_false_iff_not, not_and_or, not_not, not_not] at hb
    rcases hb with rfl | rfl
    · decide
    · decide
  unfold escapedLength
  rcases ends_takeWhile hstop (bs.drop 3) with h | ⟨b, hb, h⟩
  · left
    rw [h, List.length_drop]
    omega
  · rw [List.getElem?_drop] at h
    exact ends_behind hb h

theorem blockLength_pos (depth : Nat) (c : UInt8) (rest : List UInt8) :
    0 < blockLength depth (c :: rest) := by
  cases rest with
  | nil => exact Nat.one_pos
  | cons d rest =>
    unfold blockLength
    split_ifs
    · omega
    · omega
    · omega
    · omega

/-- A turn that does not blank takes one byte, and one that blanks ends between characters. -/
theorem turn_ends (before : List UInt8) (c : UInt8) (rest : List UInt8) :
    turn before c rest = (1, false) ∨
      ∃ n, turn before c rest = (n, true) ∧ 0 < n ∧ IsAscii c ∧ Ends (c :: rest) n := by
  unfold turn
  by_cases hline : c = '/'.toUInt8 ∧ rest.head? = some '/'.toUInt8
  · rw [if_pos hline]
    refine Or.inr ⟨_, rfl, ?_, by rw [hline.1]; decide, ends_lineLength _⟩
    unfold lineLength
    rw [List.takeWhile_cons_of_pos (by rw [hline.1]; decide)]
    exact Nat.succ_pos _
  rw [if_neg hline]
  by_cases hblock : c = '/'.toUInt8 ∧ rest.head? = some '*'.toUInt8
  · rw [if_pos hblock]
    exact Or.inr ⟨_, rfl, blockLength_pos 0 c rest, by rw [hblock.1]; decide, ends_blockLength 0 _⟩
  rw [if_neg hblock]
  by_cases hquote : c = '"'.toUInt8
  · rw [if_pos hquote]
    exact Or.inr ⟨_, rfl, by omega, by rw [hquote]; decide, (ends_stringLength rest).cons c⟩
  rw [if_neg hquote]
  by_cases hraw : c = 'r'.toUInt8 ∧ startsRaw before = true ∧ opensRaw rest = true
  · rw [if_pos hraw]
    refine Or.inr ⟨_, rfl, by omega, by rw [hraw.1]; decide, ?_⟩
    have hends := ends_rawLength (hashes rest) (rest.drop (hashes rest + 1))
    have hdrop : (c :: rest).drop (hashes rest + 2) = rest.drop (hashes rest + 1) := rfl
    rw [← hdrop] at hends ⊢
    rcases hends with h | ⟨b, hb, h⟩ | ⟨b, k, hb, hk, h⟩
    · left
      rw [List.length_drop] at h
      omega
    · rw [List.getElem?_drop] at h
      exact Or.inr (Or.inl ⟨b, hb, h⟩)
    · rw [List.getElem?_drop] at h
      rw [hk, ← Nat.add_assoc]
      exact ends_behind hb h
  rw [if_neg hraw]
  by_cases happ : c = '\''.toUInt8
  · rw [if_pos happ]
    cases hnext : rest.head? with
    | none => exact Or.inl rfl
    | some next =>
      simp only
      by_cases hescape : next = '\\'.toUInt8
      · rw [if_pos hescape]
        refine Or.inr ⟨_, rfl, ?_, by rw [happ]; decide, ends_escapedLength _⟩
        unfold escapedLength
        omega
      · rw [if_neg hescape]
        by_cases hclose : rest[charLength next]? = some '\''.toUInt8
        · rw [if_pos hclose]
          exact Or.inr ⟨_, rfl, by omega, by rw [happ]; decide,
            @ends_behind (c :: rest) (charLength next + 1) '\''.toUInt8 (by decide) hclose⟩
        · rw [if_neg hclose]
          exact Or.inl rfl
  · rw [if_neg happ]
    exact Or.inl rfl

/-! ## Texts -/

theorem blank_eq (b : UInt8) : blank b = b ∨ blank b = ' '.toUInt8 := by
  unfold blank
  split_ifs
  · exact Or.inr rfl
  · exact Or.inl rfl

theorem blank_of_not_isAscii {b : UInt8} (h : ¬ IsAscii b) : blank b = ' '.toUInt8 := by
  apply if_pos
  constructor
  · rintro rfl
    exact h (by decide)
  · rintro rfl
    exact h (by decide)

theorem encode_spaces (n : Nat) :
    encode (List.replicate n ' ') = List.replicate n ' '.toUInt8 := by
  induction n with
  | zero => rfl
  | succ n ih =>
    rw [List.replicate_succ, encode_cons, ih]
    rfl

/-- A blanked character is as many characters as it has bytes. -/
theorem map_blank_encodeChar (c : Char) :
    ∃ front, (String.utf8EncodeChar c).map blank = encode front := by
  by_cases hc : c.toNat < 0x80
  · have hself : encode [c] = [UInt8.ofNat c.toNat] := by
      rw [encode_cons, encodeChar_ascii hc]
      rfl
    rw [encodeChar_ascii hc, List.map_singleton]
    rcases blank_eq (UInt8.ofNat c.toNat) with h | h
    · exact ⟨[c], by rw [h, hself]⟩
    · exact ⟨[' '], by rw [h]; rfl⟩
  · obtain ⟨b, bs, hbytes, -, hhigh⟩ := encodeChar_high hc
    refine ⟨List.replicate (b :: bs).length ' ', ?_⟩
    rw [hbytes, encode_spaces, List.eq_replicate_iff, List.length_map]
    refine ⟨rfl, ?_⟩
    intro d hd
    obtain ⟨e, he, rfl⟩ := List.mem_map.mp hd
    exact blank_of_not_isAscii (hhigh e he)

theorem map_blank_encode (text : List Char) :
    ∃ blanked, (encode text).map blank = encode blanked := by
  induction text with
  | nil => exact ⟨[], rfl⟩
  | cons c text ih =>
    obtain ⟨blanked, hblanked⟩ := ih
    obtain ⟨front, hfront⟩ := map_blank_encodeChar c
    refine ⟨front ++ blanked, ?_⟩
    rw [encode_cons, List.map_append, hfront, hblanked, encode_append]

theorem turn_of_not_isAscii {before : List UInt8} {c : UInt8} {rest : List UInt8}
    (hc : ¬ IsAscii c) : turn before c rest = (1, false) := by
  rcases turn_ends before c rest with h | ⟨n, -, -, hascii, -⟩
  · exact h
  · exact absurd hascii hc

/-- The bytes of a character that is not ASCII are code wherever the loop stands on them. -/
theorem scan_high {bs : List UInt8} (h : ∀ b ∈ bs, ¬ IsAscii b) (before rest : List UInt8) :
    scan before 0 false (bs ++ rest) = bs ++ scan (bs.reverse ++ before) 0 false rest := by
  induction bs generalizing before with
  | nil => rfl
  | cons b bs ih =>
    have hturn := @turn_of_not_isAscii before b (bs ++ rest) (h b List.mem_cons_self)
    rw [List.cons_append, scan_turn hturn Nat.one_pos, map_emit_false]
    change b :: scan (b :: before) 0 false (bs ++ rest) = _
    rw [ih fun d hd => h d (List.mem_cons_of_mem b hd)]
    simp

/-- The scan of a text is a text. -/
theorem scan_encode (n : Nat) (text : List Char) (hn : (encode text).length ≤ n)
    (before : List UInt8) : ∃ out, scan before 0 false (encode text) = encode out := by
  induction n generalizing text before with
  | zero =>
    rw [List.length_eq_zero_iff.mp (Nat.le_zero.mp hn)]
    exact ⟨[], rfl⟩
  | succ n ih =>
    cases text with
    | nil => exact ⟨[], rfl⟩
    | cons c text =>
      by_cases hc : c.toNat < 0x80
      · have hbytes : encode (c :: text) = UInt8.ofNat c.toNat :: encode text := by
          rw [encode_cons, encodeChar_ascii hc]
          rfl
        rw [hbytes, List.length_cons] at hn
        rcases turn_ends before (UInt8.ofNat c.toNat) (encode text) with h | ⟨k, h, hk, -, hends⟩
        · obtain ⟨out, hout⟩ := ih text (by omega) (UInt8.ofNat c.toNat :: before)
          refine ⟨c :: out, ?_⟩
          rw [hbytes, scan_turn h Nat.one_pos, map_emit_false, encode_cons, encodeChar_ascii hc,
            ← hout]
          rfl
        · rw [← hbytes] at hends
          obtain ⟨front, back, hsplit, hlength⟩ := hends.cuts
          have htake : (encode (c :: text)).take k = encode front := by
            rw [List.take_eq_take_min, hlength, hsplit, List.take_left]
          have hdrop : (encode (c :: text)).drop k = encode back := by
            rw [List.drop_eq_drop_min, hlength, hsplit, List.drop_left]
          have hback : (encode back).length ≤ n := by
            have hlengths := congrArg List.length hsplit
            rw [List.length_append, hbytes, List.length_cons] at hlengths
            rw [hbytes, List.length_cons] at hlength
            omega
          obtain ⟨blanked, hblanked⟩ := map_blank_encode front
          obtain ⟨out, hout⟩ := ih back hback ((encode front).reverse ++ before)
          refine ⟨blanked ++ out, ?_⟩
          rw [hbytes, scan_turn h hk, ← hbytes, htake, hdrop, hout, encode_append, ← hblanked]
          rfl
      · obtain ⟨b, bs, hbytes, -, hhigh⟩ := encodeChar_high hc
        have hle : (encode text).length ≤ n := by
          rw [encode_cons, hbytes, List.length_append, List.length_cons] at hn
          omega
        obtain ⟨out, hout⟩ := ih text hle ((b :: bs).reverse ++ before)
        refine ⟨c :: out, ?_⟩
        rw [encode_cons, hbytes, scan_high hhigh, hout, encode_cons, hbytes]

/-- The blanked bytes are a text, and it is the result. -/
theorem bytes_rustCodeOnly (src : String) :
    bytes (rustCodeOnly src) = codeBytes (bytes src) := by
  obtain ⟨out, hout⟩ := scan_encode _ src.toList (Nat.le_refl _) []
  rw [← bytes_eq_encode] at hout
  unfold rustCodeOnly codeBytes
  rw [hout, fromUTF8?_encode, Option.getD_some, bytes_ofList]

end Victauri.Cli.RustCode
