import Mathlib
import Victauri.Cli.RustCode.Lengths

/-!
# Words and prefixes are code

A word is left where no ASCII letter, digit or underscore follows, so that the byte behind the
loop's index tells an `r` that begins a token from one inside a word.
-/

namespace Victauri.Cli.RustCode

open Utf8

/-! ## One turn -/

theorem scan_code {before : List UInt8} {c : UInt8} {rest : List UInt8}
    (h : turn before c rest = (1, false)) :
    scan before 0 false (c :: rest) = c :: scan (c :: before) 0 false rest := by
  rw [scan_turn h Nat.one_pos, map_emit_false]
  rfl

theorem scan_blanked {before : List UInt8} {c : UInt8} {bs rest : List UInt8}
    (h : turn before c (bs ++ rest) = (bs.length + 1, true)) :
    scan before 0 false (c :: bs ++ rest) =
      (c :: bs).map blank ++ scan ((c :: bs).reverse ++ before) 0 false rest := by
  have htake : (c :: (bs ++ rest)).take (bs.length + 1) = c :: bs := by
    rw [List.take_succ_cons, List.take_left]
  have hdrop : (c :: (bs ++ rest)).drop (bs.length + 1) = rest := by
    rw [List.drop_succ_cons, List.drop_left]
  rw [List.cons_append, scan_turn h (Nat.succ_pos _), htake, hdrop]
  rfl

theorem turn_plain {before : List UInt8} {c : UInt8} {rest : List UInt8}
    (hslash : c ≠ '/'.toUInt8) (hquote : c ≠ '"'.toUInt8) (hr : c ≠ 'r'.toUInt8)
    (happ : c ≠ '\''.toUInt8) : turn before c rest = (1, false) := by
  unfold turn
  rw [if_neg fun h => hslash h.1, if_neg fun h => hslash h.1, if_neg hquote,
    if_neg fun h => hr h.1, if_neg happ]

theorem turn_r {before rest : List UInt8} (h : ¬ (startsRaw before = true ∧ opensRaw rest = true)) :
    turn before 'r'.toUInt8 rest = (1, false) := by
  unfold turn
  rw [if_neg fun h => absurd h.1 (by decide), if_neg fun h => absurd h.1 (by decide),
    if_neg (by decide), if_neg fun hr => h hr.2, if_neg (by decide)]

/-! ## What opens a raw string -/

theorem hashes_cons (b : UInt8) (rest : List UInt8) :
    hashes (b :: rest) = if b = '#'.toUInt8 then hashes rest + 1 else 0 := by
  unfold hashes
  rw [List.takeWhile_cons]
  by_cases hb : b = '#'.toUInt8
  · rw [if_pos hb, if_pos (decide_eq_true hb), List.length_cons]
  · rw [if_neg hb, if_neg (by rw [decide_eq_true_eq]; exact hb)]
    rfl

theorem opensRaw_cons (b : UInt8) (rest : List UInt8) :
    opensRaw (b :: rest) = if b = '#'.toUInt8 then opensRaw rest else decide (b = '"'.toUInt8) := by
  unfold opensRaw
  rw [hashes_cons]
  by_cases hb : b = '#'.toUInt8
  · rw [if_pos hb, if_pos hb, List.getElem?_cons_succ]
  · rw [if_neg hb, if_neg hb, List.getElem?_cons_zero]
    simp only [Option.some_inj]

theorem opensRaw_encode {text : List Char} (h : opensRaw (encode text) = true) :
    ∃ n back, text = List.replicate n '#' ++ '"' :: back := by
  induction text with
  | nil => cases h
  | cons c text ih =>
    obtain ⟨b, bs, hbytes, -⟩ := encodeChar_eq_cons c
    have hmem : b ∈ String.utf8EncodeChar c := by
      rw [hbytes]
      exact List.mem_cons_self
    have hopens := opensRaw_cons b (bs ++ encode text)
    rw [encode_cons, hbytes, List.cons_append, hopens] at h
    by_cases hb : b = '#'.toUInt8
    · rw [hb] at hmem
      have hc : c = '#' := (mem_encodeChar (by decide)).mp hmem
      have hbs : bs = [] := by
        rw [hc, encodeChar_ascii (by decide)] at hbytes
        exact (List.cons.inj hbytes).2.symm
      rw [if_pos hb, hbs, List.nil_append] at h
      obtain ⟨n, back, hback⟩ := ih h
      exact ⟨n + 1, back, by rw [hc, hback]; rfl⟩
    · rw [if_neg hb, decide_eq_true_eq] at h
      rw [h] at hmem
      exact ⟨0, text, by rw [(mem_encodeChar (by decide)).mp hmem]; rfl⟩

/-- No word begins with a hash or a quote. -/
theorem opensRaw_word {c : Char} (hc : isWordChar c = true) (rest : List UInt8) :
    opensRaw (String.utf8EncodeChar c ++ rest) = false := by
  obtain ⟨b, bs, hbytes, -⟩ := encodeChar_eq_cons c
  have hne : ∀ d : Char, d.toNat < 0x80 → isWordChar d = false → b ≠ d.toUInt8 := by
    rintro d hd hword rfl
    have hmem : d.toUInt8 ∈ String.utf8EncodeChar c := by
      rw [hbytes]
      exact List.mem_cons_self
    rw [(mem_encodeChar hd).mp hmem, hword] at hc
    cases hc
  rw [hbytes, List.cons_append, opensRaw_cons, if_neg (hne '#' (by decide) (by decide))]
  exact decide_eq_false (hne '"' (by decide) (by decide))

/-! ## The byte behind the index -/

set_option maxRecDepth 4000 in
theorem isIdent_ofNat : ∀ n < 0x80, isIdent (UInt8.ofNat n) = isAsciiWord (Char.ofNat n) := by
  decide

theorem isIdent_toUInt8 {c : Char} (hc : c.toNat < 0x80) : isIdent c.toUInt8 = isAsciiWord c := by
  have h := isIdent_ofNat c.toNat hc
  rw [Char.ofNat_toNat] at h
  exact h

set_option maxRecDepth 8000 in
theorem isIdent_ofNat_high : ∀ n < 0x100, 0x80 ≤ n → isIdent (UInt8.ofNat n) = false := by
  decide

theorem isIdent_of_not_isAscii {b : UInt8} (hb : ¬ IsAscii b) : isIdent b = false := by
  have h := isIdent_ofNat_high b.toNat b.toNat_lt (Nat.le_of_not_lt hb)
  rw [UInt8.ofNat_toNat] at h
  exact h

theorem isAscii_of_isAsciiWord {c : Char} (h : isAsciiWord c = true) : c.toNat < 0x80 := by
  unfold isAsciiWord Char.isAlphanum Char.isAlpha Char.isUpper Char.isLower Char.isDigit at h
  simp only [Bool.or_eq_true, Bool.and_eq_true, decide_eq_true_eq, ge_iff_le,
    UInt32.le_iff_toNat_le] at h
  change c.val.toNat < 0x80
  rcases h with ((⟨-, h⟩ | ⟨-, h⟩) | ⟨-, h⟩) | rfl
  · exact Nat.lt_of_le_of_lt h (by decide)
  · exact Nat.lt_of_le_of_lt h (by decide)
  · exact Nat.lt_of_le_of_lt h (by decide)
  · decide

/-- The last byte of a character tells whether it belongs to an ASCII word. -/
theorem reverse_encodeChar (c : Char) :
    ∃ b bs, (String.utf8EncodeChar c).reverse = b :: bs ∧ isIdent b = isAsciiWord c := by
  by_cases hc : c.toNat < 0x80
  · exact ⟨c.toUInt8, [], congrArg List.reverse (encodeChar_ascii hc), isIdent_toUInt8 hc⟩
  · obtain ⟨b, bs, hbytes, -, hhigh⟩ := encodeChar_high hc
    have hne : (String.utf8EncodeChar c).reverse ≠ [] :=
      List.reverse_ne_nil_iff.mpr (encodeChar_ne_nil c)
    obtain ⟨d, ds, hds⟩ := List.exists_cons_of_ne_nil hne
    have hd : ¬ IsAscii d := by
      apply hhigh
      rw [← hbytes, ← List.mem_reverse, hds]
      exact List.mem_cons_self
    refine ⟨d, ds, hds, ?_⟩
    rw [isIdent_of_not_isAscii hd]
    exact (Bool.eq_false_iff.mpr fun h => hc (isAscii_of_isAsciiWord h)).symm

theorem reverse_encode_append (front : List Char) (c : Char) :
    (encode (front ++ [c])).reverse = (String.utf8EncodeChar c).reverse ++ (encode front).reverse := by
  rw [encode_append, encode_cons, encode_nil, List.append_nil, List.reverse_append]

/-- Where an `r` behind a part of a word counts as the beginning of a raw literal. -/
theorem front_of_startsRaw {front : List Char} {before : List UInt8}
    (h : startsRaw ((encode front).reverse ++ before) = true) :
    (front.getLast?.all fun c => !isAsciiWord c) = true ∨
      ∃ front' : List Char, (front'.getLast?.all fun c => !isAsciiWord c) = true ∧
        (front = front' ++ ['b'] ∨ front = front' ++ ['c']) := by
  rcases List.eq_nil_or_concat' front with rfl | ⟨front, c, rfl⟩
  · exact Or.inl rfl
  by_cases hc : isAsciiWord c = true
  · right
    have hascii := isAscii_of_isAsciiWord hc
    rw [reverse_encode_append, encodeChar_ascii hascii, List.reverse_singleton,
      List.singleton_append, List.cons_append] at h
    change (!isIdent c.toUInt8 || ((c.toUInt8 = 'b'.toUInt8 || c.toUInt8 = 'c'.toUInt8) &&
      ((encode front).reverse ++ before).head?.all fun a => !isIdent a)) = true at h
    rw [isIdent_toUInt8 hascii, hc, Bool.not_true, Bool.false_or, Bool.and_eq_true,
      Bool.or_eq_true, decide_eq_true_eq, decide_eq_true_eq, toUInt8_inj hascii (by decide),
      toUInt8_inj hascii (by decide)] at h
    refine ⟨front, ?_, ?_⟩
    · rcases List.eq_nil_or_concat' front with rfl | ⟨front, d, rfl⟩
      · rfl
      · obtain ⟨b, bs, hbytes, hb⟩ := reverse_encodeChar d
        rw [reverse_encode_append, hbytes, List.cons_append, List.cons_append, List.head?_cons,
          Option.all_some, hb] at h
        rw [List.getLast?_concat]
        exact h.2
    · rcases h.1 with rfl | rfl
      · exact Or.inl rfl
      · exact Or.inr rfl
  · left
    rw [List.getLast?_concat, Option.all_some, Bool.eq_false_iff.mpr hc]
    rfl

/-! ## Words -/

theorem turn_wordChar {before rest : List UInt8} {c : Char} (hc : c.toNat < 0x80)
    (hword : isWordChar c = true)
    (hr : c = 'r' → ¬ (startsRaw before = true ∧ opensRaw rest = true)) :
    turn before c.toUInt8 rest = (1, false) := by
  by_cases hcr : c = 'r'
  · rw [hcr]
    exact turn_r (hr hcr)
  · have hne : ∀ d : Char, d.toNat < 0x80 → isWordChar d = false → c.toUInt8 ≠ d.toUInt8 := by
      intro d hd hdelim heq
      rw [(toUInt8_inj hc hd).mp heq, hdelim] at hword
      cases hword
    apply turn_plain
    · exact hne '/' (by decide) (by decide)
    · exact hne '"' (by decide) (by decide)
    · exact fun heq => hcr ((toUInt8_inj hc (by decide)).mp heq)
    · exact hne '\'' (by decide) (by decide)

/-- By induction on what of the word is still ahead; `before` ends with the part behind. -/
theorem scan_word_from (w : Word) {after : List Char}
    (hapart : w.endsAsRaw → opensRaw (encode after) = false) (before : List UInt8)
    {front back : List Char} (hsplit : w.chars = front ++ back) :
    scan ((encode front).reverse ++ before) 0 false (encode back ++ encode after) =
      encode back ++ scan ((encode w.chars).reverse ++ before) 0 false (encode after) := by
  induction back generalizing front with
  | nil =>
    rw [hsplit, List.append_nil]
    rfl
  | cons c back ih =>
    have hsplit' : w.chars = front ++ [c] ++ back := by
      rw [hsplit, List.append_assoc]
      rfl
    have hword : isWordChar c = true := by
      apply w.all
      rw [hsplit]
      exact List.mem_append_right front List.mem_cons_self
    have ih := ih hsplit'
    rw [reverse_encode_append, List.append_assoc] at ih
    rw [encode_cons, List.append_assoc, List.append_assoc, ← ih]
    by_cases hc : c.toNat < 0x80
    · have hturn : turn ((encode front).reverse ++ before) c.toUInt8
          (encode back ++ encode after) = (1, false) := by
        apply turn_wordChar hc hword
        rintro rfl ⟨hstarts, hopens⟩
        cases back with
        | cons d back =>
          have hd : isWordChar d = true := by
            apply w.all
            rw [hsplit']
            exact List.mem_append_right _ List.mem_cons_self
          rw [encode_cons, List.append_assoc, opensRaw_word hd] at hopens
          cases hopens
        | nil =>
          have hends : w.endsAsRaw := by
            rcases front_of_startsRaw hstarts with hfront | ⟨front', hfront, rfl | rfl⟩
            · exact ⟨front, hfront, Or.inl hsplit⟩
            · exact ⟨front', hfront, Or.inr (Or.inl (by rw [hsplit, List.append_assoc]; rfl))⟩
            · exact ⟨front', hfront, Or.inr (Or.inr (by rw [hsplit, List.append_assoc]; rfl))⟩
          rw [encode_nil, List.nil_append, hapart hends] at hopens
          cases hopens
      have hbyte : String.utf8EncodeChar c = [c.toUInt8] := encodeChar_ascii hc
      rw [hbyte, List.singleton_append, scan_code hturn]
      rfl
    · obtain ⟨b, bs, hbytes, -, hhigh⟩ := encodeChar_high hc
      rw [hbytes]
      exact scan_high hhigh _ _

theorem scan_word (w : Word) {after : List Char}
    (hapart : w.endsAsRaw → opensRaw (encode after) = false) (before : List UInt8) :
    scan before 0 false (encode w.chars ++ encode after) =
      encode w.chars ++ scan ((encode w.chars).reverse ++ before) 0 false (encode after) :=
  @scan_word_from w after hapart before [] w.chars rfl

/-! ## Prefixes -/

/-- Between tokens an ASCII word does not go on. -/
def Fresh (before : List UInt8) (text : List Char) : Prop :=
  ∀ b c, before.head? = some b → isIdent b = true → text.head? = some c → isAsciiWord c = false

theorem Fresh.not_isIdent {before : List UInt8} {c : Char} {text : List Char}
    (h : Fresh before (c :: text)) (hc : isAsciiWord c = true) :
    (before.head?.all fun b => !isIdent b) = true := by
  cases hb : before.head? with
  | none => rfl
  | some b =>
    rw [Option.all_some, Bool.not_eq_true']
    by_contra hident
    have hfalse := h b c hb (Bool.not_eq_false _ ▸ hident) rfl
    rw [hc] at hfalse
    cases hfalse

theorem startsRaw_of_not_isIdent {before : List UInt8}
    (h : (before.head?.all fun b => !isIdent b) = true) : startsRaw before = true := by
  cases before with
  | nil => rfl
  | cons b before =>
    rw [List.head?_cons, Option.all_some] at h
    change (!isIdent b || _) = true
    rw [h, Bool.true_or]

/-- A prefix is code, and an `r` behind it begins a raw literal. -/
theorem scan_pre {pre : List Char} (hpre : pre = [] ∨ pre = ['b'] ∨ pre = ['c'])
    (before rest : List UInt8) :
    scan before 0 false (encode pre ++ rest) =
      encode pre ++ scan ((encode pre).reverse ++ before) 0 false rest := by
  rcases hpre with rfl | rfl | rfl
  · rfl
  · exact scan_code (turn_plain (by decide) (by decide) (by decide) (by decide))
  · exact scan_code (turn_plain (by decide) (by decide) (by decide) (by decide))

theorem startsRaw_pre {pre : List Char} (hpre : pre = [] ∨ pre = ['b'] ∨ pre = ['c'])
    {before : List UInt8} {text : List Char} (hfresh : Fresh before (pre ++ 'r' :: text)) :
    startsRaw ((encode pre).reverse ++ before) = true := by
  rcases hpre with rfl | rfl | rfl
  · exact startsRaw_of_not_isIdent (hfresh.not_isIdent (by decide))
  · have hident := hfresh.not_isIdent (by decide)
    exact hident
  · have hident := hfresh.not_isIdent (by decide)
    exact hident

end Victauri.Cli.RustCode
