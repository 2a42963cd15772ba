import Victauri.Cli.RustCode.Tokens

/-!
# How far the arms of the loop go

Each arm that blanks takes exactly the bytes of the comment or literal it stands at.
-/

namespace Victauri.Cli.RustCode

open Utf8

theorem length_takeWhile_append {p : UInt8 → Bool} {bs rest : List UInt8}
    (hbs : ∀ b ∈ bs, p b = true) (hrest : ∀ b, rest.head? = some b → p b = false) :
    ((bs ++ rest).takeWhile p).length = bs.length := by
  rw [List.takeWhile_append_of_pos hbs]
  have hnil : rest.takeWhile p = [] := by
    cases rest with
    | nil => rfl
    | cons b rest => exact List.takeWhile_cons_of_neg (Bool.eq_false_iff.mp (hrest b rfl))
  rw [hnil, List.append_nil]

/-- A byte that is not ASCII is no delimiter. -/
theorem ne_toUInt8_of_not_isAscii {b : UInt8} (hb : ¬ IsAscii b) {d : Char} (hd : d.toNat < 0x80) :
    b ≠ d.toUInt8 := by
  rintro rfl
  exact hb (isAscii_toUInt8 hd)

/-! ## Comments -/

theorem lineLength_encode {text after : List Char} (hline : ∀ c ∈ text, c ≠ '\n')
    (hafter : after.head?.all (· = '\n') = true) :
    lineLength (encode text ++ encode after) = (encode text).length := by
  unfold lineLength
  apply length_takeWhile_append
  · intro b hb
    rw [decide_eq_true_eq]
    rintro rfl
    exact hline '\n' ((mem_encode (by decide)).mp hb) rfl
  · intro b hb
    cases after with
    | nil => cases hb
    | cons c after =>
      have hc : c = '\n' := of_decide_eq_true hafter
      rw [hc] at hb
      rw [← Option.some.inj hb]
      rfl

theorem blockLength_high {bs : List UInt8} (h : ∀ b ∈ bs, ¬ IsAscii b) (depth : Nat)
    {rest : List UInt8} (hrest : rest ≠ []) :
    blockLength depth (bs ++ rest) = bs.length + blockLength depth rest := by
  induction bs with
  | nil => rw [List.nil_append, List.length_nil, Nat.zero_add]
  | cons b bs ih =>
    have hb := h b List.mem_cons_self
    have hslash : b ≠ '/'.toUInt8 := ne_toUInt8_of_not_isAscii hb (by decide)
    have hstar : b ≠ '*'.toUInt8 := ne_toUInt8_of_not_isAscii hb (by decide)
    obtain ⟨d, ds, hds⟩ := List.exists_cons_of_ne_nil (List.append_ne_nil_of_right_ne_nil bs hrest)
    have ih := ih fun e he => h e (List.mem_cons_of_mem b he)
    rw [List.cons_append, hds, blockLength, if_neg fun hopen => hslash hopen.1,
      if_neg fun hclose => hstar hclose.1, ← hds, ih, List.length_cons]
    omega

theorem Closes.ne_nil {depth : Nat} {text : List Char} (h : Closes depth text) : text ≠ [] := by
  cases h with
  | last => exact List.cons_ne_nil _ _
  | close rest => exact List.cons_ne_nil _ _
  | opens rest => exact List.cons_ne_nil _ _
  | char hopen hclose rest => exact List.cons_ne_nil _ _

theorem encode_ne_nil {text : List Char} (h : text ≠ []) : encode text ≠ [] := by
  cases text with
  | nil => exact absurd rfl h
  | cons c text => exact List.append_ne_nil_of_left_ne_nil (encodeChar_ne_nil c) _

theorem blockLength_encode {depth : Nat} {text : List Char} (h : Closes depth text)
    (rest : List UInt8) : blockLength depth (encode text ++ rest) = (encode text).length := by
  induction h with
  | last => rfl
  | @close depth text hrest ih =>
    change blockLength (depth + 2) ('*'.toUInt8 :: '/'.toUInt8 :: (encode text ++ rest)) =
      (encode text).length + 1 + 1
    rw [blockLength, if_neg (by decide), if_pos (by decide), if_neg (by omega)]
    change 2 + blockLength (depth + 1) (encode text ++ rest) = _
    rw [ih]
    omega
  | @opens depth text hrest ih =>
    change blockLength (depth + 1) ('/'.toUInt8 :: '*'.toUInt8 :: (encode text ++ rest)) =
      (encode text).length + 1 + 1
    rw [blockLength, if_pos (by decide), ih]
    omega
  | @char depth c text hopen hclose hrest ih =>
    have hne : encode text ++ rest ≠ [] :=
      List.append_ne_nil_of_left_ne_nil (encode_ne_nil hrest.ne_nil) rest
    rw [encode_cons, List.append_assoc, List.length_append, ← ih]
    by_cases hc : c.toNat < 0x80
    · obtain ⟨d, ds, hds⟩ := List.exists_cons_of_ne_nil (encode_ne_nil hrest.ne_nil)
      have hhead : ∀ e : Char, e.toNat < 0x80 → d = e.toUInt8 → text.head? = some e := by
        intro e he hd
        rw [← head?_encode he, hds, hd]
        rfl
      have hbyte : String.utf8EncodeChar c = [c.toUInt8] := encodeChar_ascii hc
      rw [hbyte, hds, List.singleton_append, List.cons_append, blockLength, if_neg, if_neg]
      · rfl
      · rintro ⟨hstar, hslash⟩
        exact hclose ⟨(toUInt8_inj hc (by decide)).mp hstar, hhead '/' (by decide) hslash⟩
      · rintro ⟨hslash, hstar⟩
        exact hopen ⟨(toUInt8_inj hc (by decide)).mp hslash, hhead '*' (by decide) hstar⟩
    · obtain ⟨b, bs, hbytes, -, hhigh⟩ := encodeChar_high hc
      rw [hbytes]
      exact blockLength_high hhigh (depth + 1) hne

/-! ## Strings -/

theorem stringLength_skip {bs : List UInt8}
    (h : ∀ b ∈ bs, b ≠ '"'.toUInt8 ∧ b ≠ '\\'.toUInt8) {rest : List UInt8} (hrest : rest ≠ []) :
    stringLength (bs ++ rest) = bs.length + stringLength rest := by
  induction bs with
  | nil => rw [List.nil_append, List.length_nil, Nat.zero_add]
  | cons b bs ih =>
    obtain ⟨hquote, hback⟩ := h b List.mem_cons_self
    obtain ⟨d, ds, hds⟩ := List.exists_cons_of_ne_nil (List.append_ne_nil_of_right_ne_nil bs hrest)
    have ih := ih fun e he => h e (List.mem_cons_of_mem b he)
    rw [List.cons_append, hds, stringLength, if_neg hquote, if_neg hback, ← hds, ih,
      List.length_cons]
    omega

theorem stringLength_item (item : StringItem) {rest : List UInt8} (hrest : rest ≠ []) :
    stringLength (encode item.text ++ rest) = (encode item.text).length + stringLength rest := by
  cases item with
  | plain c quote backslash =>
    apply stringLength_skip _ hrest
    intro b hb
    constructor
    · rintro rfl
      exact quote (List.mem_singleton.mp ((mem_encode (by decide)).mp hb)).symm
    · rintro rfl
      exact backslash (List.mem_singleton.mp ((mem_encode (by decide)).mp hb)).symm
  | escape c =>
    obtain ⟨b, bs, hbytes, -⟩ := encodeChar_eq_cons c
    have htext : encode (StringItem.escape c).text = '\\'.toUInt8 :: b :: bs := by
      change '\\'.toUInt8 :: (String.utf8EncodeChar c ++ []) = _
      rw [hbytes, List.append_nil]
    have hskip : stringLength (bs ++ rest) = bs.length + stringLength rest := by
      apply stringLength_skip _ hrest
      intro d hd
      have hhigh := not_isAscii_tail hbytes d hd
      exact ⟨ne_toUInt8_of_not_isAscii hhigh (by decide),
        ne_toUInt8_of_not_isAscii hhigh (by decide)⟩
    rw [htext, List.cons_append, List.cons_append, stringLength, if_neg (by decide),
      if_pos rfl, hskip, List.length_cons, List.length_cons]
    omega

theorem stringLength_quote (rest : List UInt8) : stringLength ('"'.toUInt8 :: rest) = 1 := by
  cases rest with
  | nil => rfl
  | cons d rest => rfl

theorem stringLength_encode (items : List StringItem) (rest : List UInt8) :
    stringLength (encode (items.flatMap StringItem.text) ++ '"'.toUInt8 :: rest) =
      (encode (items.flatMap StringItem.text)).length + 1 := by
  induction items with
  | nil => exact stringLength_quote rest
  | cons item items ih =>
    have hne : encode (items.flatMap StringItem.text) ++ '"'.toUInt8 :: rest ≠ [] :=
      List.append_ne_nil_of_right_ne_nil _ (List.cons_ne_nil _ _)
    rw [List.flatMap_cons, encode_append, List.append_assoc, stringLength_item item hne, ih,
      List.length_append, Nat.add_assoc]

/-! ## Raw strings -/

/-- As many hashes in the bytes are as many in the text. -/
theorem replicate_of_take_encode {n : Nat} {text : List Char}
    (hle : n ≤ (encode text).length)
    (hall : ((encode text).take n).all (· = '#'.toUInt8) = true) :
    ∃ back, text = List.replicate n '#' ++ back := by
  induction n generalizing text with
  | zero => exact ⟨text, rfl⟩
  | succ n ih =>
    cases text with
    | nil => exact absurd hle (Nat.not_succ_le_zero n)
    | cons c text =>
      obtain ⟨b, bs, hbytes, -⟩ := encodeChar_eq_cons c
      have hb : b = '#'.toUInt8 := by
        rw [encode_cons, hbytes, List.cons_append, List.take_succ_cons, List.all_cons,
          Bool.and_eq_true] at hall
        exact of_decide_eq_true hall.1
      have hc : c = '#' := by
        apply (mem_encodeChar (by decide)).mp
        rw [hbytes, hb]
        exact List.mem_cons_self
      rw [hc] at hle hall ⊢
      obtain ⟨back, hback⟩ := ih (Nat.le_of_succ_le_succ hle) hall
      exact ⟨back, congrArg ('#' :: ·) hback⟩

theorem NoClosing.tail {n : Nat} {c : Char} {body : List Char} (h : NoClosing n (c :: body)) :
    NoClosing n body := by
  rintro front back rfl
  exact h (c :: front) back rfl

/-- No quote of the body closes the raw string, not even with the quote that does. -/
theorem NoClosing.not_replicate {n : Nat} {body after : List Char}
    (h : NoClosing n ('"' :: body)) (back : List Char) :
    body ++ '"' :: after ≠ List.replicate n '#' ++ back := by
  intro heq
  rcases List.append_eq_append_iff.mp heq with ⟨more, hmore, htail⟩ | ⟨more, hmore, htail⟩
  · cases more with
    | nil =>
      rw [List.append_nil] at hmore
      apply h [] []
      rw [hmore, List.append_nil]
      rfl
    | cons d more =>
      have hquote : '"' = d := (List.cons.inj htail).1
      have hmem : d ∈ List.replicate n '#' := by
        rw [hmore]
        exact List.mem_append_right body List.mem_cons_self
      rw [← hquote] at hmem
      exact absurd (List.eq_of_mem_replicate hmem) (by decide)
  · exact h [] more (congrArg ('"' :: ·) hmore)

theorem rawLength_skip {n : Nat} {bs : List UInt8} (h : ∀ b ∈ bs, b ≠ '"'.toUInt8)
    (rest : List UInt8) : rawLength n (bs ++ rest) = bs.length + rawLength n rest := by
  induction bs with
  | nil => rw [List.nil_append, List.length_nil, Nat.zero_add]
  | cons b bs ih =>
    have hquote := h b List.mem_cons_self
    rw [List.cons_append, rawLength, if_neg fun hclose => hquote hclose.1,
      ih fun d hd => h d (List.mem_cons_of_mem b hd), List.length_cons]
    omega

theorem encode_replicate_hash (n : Nat) :
    encode (List.replicate n '#') = List.replicate n '#'.toUInt8 := by
  induction n with
  | zero => rfl
  | succ n ih =>
    rw [List.replicate_succ, encode_cons, ih]
    rfl

theorem rawLength_encode {n : Nat} {body : List Char} (h : NoClosing n body)
    (after : List Char) :
    rawLength n (encode (body ++ '"' :: (List.replicate n '#' ++ after))) =
      (encode body).length + (1 + n) := by
  induction body with
  | nil =>
    change rawLength n ('"'.toUInt8 :: encode (List.replicate n '#' ++ after)) = _
    rw [encode_append, encode_replicate_hash, rawLength, if_pos]
    · rw [encode_nil, List.length_nil, Nat.zero_add]
    · refine ⟨rfl, ?_, ?_⟩
      · rw [List.take_left' List.length_replicate]
        apply List.all_eq_true.mpr
        intro b hb
        rw [List.eq_of_mem_replicate hb]
        rfl
      · rw [List.length_append, List.length_replicate]
        exact Nat.le_add_right n _
  | cons c body ih =>
    have ih := ih h.tail
    rw [List.cons_append, encode_cons, encode_cons, List.length_append, Nat.add_assoc, ← ih]
    by_cases hc : c = '"'
    · rw [hc] at h ⊢
      have hbyte : String.utf8EncodeChar '"' = ['"'.toUInt8] := encodeChar_ascii (by decide)
      rw [hbyte, List.singleton_append, rawLength, if_neg]
      · rfl
      · rintro ⟨-, hall, hle⟩
        obtain ⟨back, hback⟩ := replicate_of_take_encode hle hall
        exact h.not_replicate back hback
    · apply rawLength_skip
      rintro b hb rfl
      exact hc ((mem_encodeChar (by decide)).mp hb)

/-! ## Characters -/

theorem charLength_eq (b : UInt8) : charLength b = Utf8.sizeOf b := by
  unfold charLength Utf8.sizeOf
  simp only [Nat.lt_succ_iff]

theorem escapedLength_encode (c : Char) {more : List Char}
    (hinside : ∀ d ∈ more, d ≠ '\'' ∧ d ≠ '\n') (rest : List UInt8) :
    escapedLength (encode ('\'' :: '\\' :: c :: more) ++ '\''.toUInt8 :: rest) =
      (encode ('\'' :: '\\' :: c :: more)).length + 1 := by
  obtain ⟨b, bs, hbytes, -⟩ := encodeChar_eq_cons c
  have htext : encode ('\'' :: '\\' :: c :: more) =
      '\''.toUInt8 :: '\\'.toUInt8 :: b :: (bs ++ encode more) := by
    change '\''.toUInt8 :: '\\'.toUInt8 :: (String.utf8EncodeChar c ++ encode more) = _
    rw [hbytes]
    rfl
  unfold escapedLength
  rw [htext]
  change 3 + (((bs ++ encode more) ++ '\''.toUInt8 :: rest).takeWhile _).length + 1 =
    (bs ++ encode more).length + 3 + 1
  rw [length_takeWhile_append]
  · omega
  · intro d hd
    rw [decide_eq_true_eq]
    rcases List.mem_append.mp hd with hd | hd
    · have hhigh := not_isAscii_tail hbytes d hd
      exact ⟨ne_toUInt8_of_not_isAscii hhigh (by decide),
        ne_toUInt8_of_not_isAscii hhigh (by decide)⟩
    · constructor
      · rintro rfl
        exact (hinside _ ((mem_encode (by decide)).mp hd)).1 rfl
      · rintro rfl
        exact (hinside _ ((mem_encode (by decide)).mp hd)).2 rfl
  · intro d hd
    rw [← Option.some.inj hd]
    rfl

end Victauri.Cli.RustCode
