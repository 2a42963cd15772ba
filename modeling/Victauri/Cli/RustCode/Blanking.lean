import Victauri.Cli.RustCode.Lexing

/-!
# Exactly the comments and the literals are blanked

Token by token, from a place where no ASCII word goes on to the next one.
-/

namespace Victauri.Cli.RustCode

open Utf8

-- A quantifier over the characters of a text is decided along the text.
attribute [local instance (1100)] List.decidableBAll

/-! ## The arms -/

theorem turn_slash_slash (before rest : List UInt8) :
    turn before '/'.toUInt8 ('/'.toUInt8 :: rest) =
      (lineLength ('/'.toUInt8 :: '/'.toUInt8 :: rest), true) := by
  unfold turn
  rw [if_pos ⟨rfl, rfl⟩]

theorem turn_slash_star (before rest : List UInt8) :
    turn before '/'.toUInt8 ('*'.toUInt8 :: rest) =
      (blockLength 0 ('/'.toUInt8 :: '*'.toUInt8 :: rest), true) := by
  unfold turn
  rw [if_neg fun h => absurd (Option.some.inj h.2) (by decide), if_pos ⟨rfl, rfl⟩]

theorem turn_slash {before rest : List UInt8} (hline : rest.head? ≠ some '/'.toUInt8)
    (hblock : rest.head? ≠ some '*'.toUInt8) : turn before '/'.toUInt8 rest = (1, false) := by
  unfold turn
  rw [if_neg fun h => hline h.2, if_neg fun h => hblock h.2, if_neg (by decide),
    if_neg fun h => absurd h.1 (by decide), if_neg (by decide)]

theorem turn_quote (before rest : List UInt8) :
    turn before '"'.toUInt8 rest = (1 + stringLength rest, true) := by
  unfold turn
  rw [if_neg fun h => absurd h.1 (by decide), if_neg fun h => absurd h.1 (by decide), if_pos rfl]

theorem turn_raw {before rest : List UInt8} (hstarts : startsRaw before = true)
    (hopens : opensRaw rest = true) :
    turn before 'r'.toUInt8 rest =
      (hashes rest + 2 + rawLength (hashes rest) (rest.drop (hashes rest + 1)), true) := by
  unfold turn
  rw [if_neg fun h => absurd h.1 (by decide), if_neg fun h => absurd h.1 (by decide),
    if_neg (by decide), if_pos ⟨rfl, hstarts, hopens⟩]

theorem turn_apostrophe (before rest : List UInt8) (next : UInt8) :
    turn before '\''.toUInt8 (next :: rest) =
      if next = '\\'.toUInt8 then (escapedLength ('\''.toUInt8 :: next :: rest), true)
      else if (next :: rest)[charLength next]? = some '\''.toUInt8 then (charLength next + 2, true)
      else (1, false) := by
  unfold turn
  rw [if_neg fun h => absurd h.1 (by decide), if_neg fun h => absurd h.1 (by decide),
    if_neg (by decide), if_neg fun h => absurd h.1 (by decide), if_pos rfl]
  rfl

/-! ## Comments and literals -/

/-- A token's blanked part is blanked, whatever the loop has behind it. -/
def Blanks (before : List UInt8) (text after : List Char) : Prop :=
  scan before 0 false (encode text ++ encode after) =
    (encode text).map blank ++ scan ((encode text).reverse ++ before) 0 false (encode after)

theorem blanks_of_turn {before : List UInt8} {c : Char} {text after : List Char}
    (hc : c.toNat < 0x80)
    (h : turn before c.toUInt8 (encode text ++ encode after) = ((encode text).length + 1, true)) :
    Blanks before (c :: text) after := by
  have hbytes : encode (c :: text) = c.toUInt8 :: encode text := by
    rw [encode_cons, encodeChar_ascii hc]
    rfl
  unfold Blanks
  rw [hbytes]
  exact scan_blanked h

theorem blanks_lineComment {body : List Char} (hline : ∀ c ∈ body, c ≠ '\n') {after : List Char}
    (hafter : after.head?.all (· = '\n') = true) (before : List UInt8) :
    Blanks before ('/' :: '/' :: body) after := by
  apply blanks_of_turn (by decide)
  have hlines : ∀ c ∈ '/' :: '/' :: body, c ≠ '\n' := by
    rw [List.forall_mem_cons, List.forall_mem_cons]
    exact ⟨by decide, by decide, hline⟩
  have hlength := lineLength_encode hlines hafter
  exact (turn_slash_slash before _).trans (congrArg (·, true) hlength)

theorem blanks_blockComment {body : List Char} (hcloses : Closes 1 body) (before : List UInt8)
    (after : List Char) : Blanks before ('/' :: '*' :: body) after := by
  apply blanks_of_turn (by decide)
  have hlength := blockLength_encode hcloses (encode after)
  refine (turn_slash_star before (encode body ++ encode after)).trans ?_
  rw [blockLength, if_pos ⟨rfl, rfl⟩, Nat.zero_add, hlength]
  refine congrArg (·, true) ?_
  change 2 + (encode body).length = (encode body).length + 1 + 1
  omega

theorem blanks_string (items : List StringItem) (before : List UInt8) (after : List Char) :
    Blanks before ('"' :: (items.flatMap StringItem.text ++ ['"'])) after := by
  apply blanks_of_turn (by decide)
  have hlength := stringLength_encode items (encode after)
  rw [turn_quote, encode_append, encode_singleton (by decide), List.append_assoc,
    List.singleton_append, hlength, List.length_append, List.length_singleton, Nat.add_comm 1]

theorem encode_quote (text : List Char) : encode ('"' :: text) = '"'.toUInt8 :: encode text := by
  rw [encode_cons, encodeChar_ascii (by decide)]
  rfl

theorem hashes_replicate (n : Nat) (rest : List UInt8) :
    hashes (List.replicate n '#'.toUInt8 ++ '"'.toUInt8 :: rest) = n := by
  unfold hashes
  rw [length_takeWhile_append, List.length_replicate]
  · intro b hb
    rw [List.eq_of_mem_replicate hb]
    rfl
  · intro b hb
    rw [← Option.some.inj hb]
    rfl

theorem opensRaw_replicate (n : Nat) (rest : List UInt8) :
    opensRaw (List.replicate n '#'.toUInt8 ++ '"'.toUInt8 :: rest) = true := by
  unfold opensRaw
  rw [hashes_replicate, List.getElem?_append_right (by rw [List.length_replicate]),
    List.length_replicate, Nat.sub_self]
  rfl

theorem blanks_rawString {n : Nat} {body : List Char} (hclosing : NoClosing n body)
    {before : List UInt8} (hstarts : startsRaw before = true) (after : List Char) :
    Blanks before ('r' :: (List.replicate n '#' ++ '"' :: (body ++ '"' :: List.replicate n '#')))
      after := by
  apply blanks_of_turn (by decide)
  have hbytes : encode (List.replicate n '#' ++ '"' :: (body ++ '"' :: List.replicate n '#')) ++
      encode after = List.replicate n '#'.toUInt8 ++ '"'.toUInt8 ::
        encode (body ++ '"' :: (List.replicate n '#' ++ after)) := by
    simp only [encode_append, encode_quote, encode_replicate_hash, List.append_assoc,
      List.cons_append]
  have hlength : (encode (List.replicate n '#' ++
      '"' :: (body ++ '"' :: List.replicate n '#'))).length =
        n + ((encode body).length + (n + 1) + 1) := by
    simp only [encode_append, encode_quote, encode_replicate_hash, List.length_append,
      List.length_cons, List.length_replicate]
  have hdrop : ∀ rest, (List.replicate n '#'.toUInt8 ++ '"'.toUInt8 :: rest).drop (n + 1) = rest := by
    intro rest
    have hsplit : List.replicate n '#'.toUInt8 ++ '"'.toUInt8 :: rest =
        (List.replicate n '#'.toUInt8 ++ ['"'.toUInt8]) ++ rest := by
      rw [List.append_assoc, List.singleton_append]
    rw [hsplit, List.drop_left' (by rw [List.length_append, List.length_replicate]; rfl)]
  rw [hbytes, hlength, turn_raw hstarts (opensRaw_replicate n _), hashes_replicate, hdrop,
    rawLength_encode hclosing]
  refine congrArg (·, true) ?_
  omega

/-- Behind `'` and a character stands what follows it. -/
theorem getElem?_charLength {c : Char} {b : UInt8} {bs : List UInt8}
    (hbytes : String.utf8EncodeChar c = b :: bs) (hsize : bs.length + 1 = Utf8.sizeOf b)
    (rest : List UInt8) : (String.utf8EncodeChar c ++ rest)[charLength b]? = rest.head? := by
  have hlength : (String.utf8EncodeChar c).length = charLength b := by
    rw [hbytes, charLength_eq, ← hsize]
    rfl
  rw [List.getElem?_append_right (Nat.le_of_eq hlength), hlength, Nat.sub_self,
    List.head?_eq_getElem?]

theorem ne_backslash {c : Char} (hc : c ≠ '\\') {b : UInt8} {bs : List UInt8}
    (hbytes : String.utf8EncodeChar c = b :: bs) : b ≠ '\\'.toUInt8 := by
  rintro rfl
  apply hc
  apply (mem_encodeChar (by decide)).mp
  rw [hbytes]
  exact List.mem_cons_self

theorem blanks_char (item : CharItem) (before : List UInt8) (after : List Char) :
    Blanks before ('\'' :: (item.text ++ ['\''])) after := by
  apply blanks_of_turn (by decide)
  cases item with
  | plain c quote backslash =>
    obtain ⟨b, bs, hbytes, hsize⟩ := encodeChar_eq_cons c
    have hclose := getElem?_charLength hbytes hsize ('\''.toUInt8 :: encode after)
    have hturn := turn_apostrophe before (bs ++ '\''.toUInt8 :: encode after) b
    rw [hbytes, List.cons_append, List.head?_cons] at hclose
    rw [if_neg (ne_backslash backslash hbytes), if_pos hclose] at hturn
    change turn before _ ((String.utf8EncodeChar c ++ ['\''.toUInt8]) ++ encode after) =
      ((String.utf8EncodeChar c ++ ['\''.toUInt8]).length + 1, true)
    rw [hbytes, List.append_assoc, List.cons_append, List.singleton_append, hturn,
      List.length_append, List.length_cons, hsize, charLength_eq]
    rfl
  | escape c more inside =>
    have hlength := escapedLength_encode c inside (encode after)
    have hturn := turn_apostrophe before
      (encode (c :: more) ++ '\''.toUInt8 :: encode after) '\\'.toUInt8
    have htext : encode ((CharItem.escape c more inside).text ++ ['\'']) =
        '\\'.toUInt8 :: (encode (c :: more) ++ ['\''.toUInt8]) := by
      change encode (('\\' :: c :: more) ++ ['\'']) = _
      rw [encode_append, encode_singleton (by decide), encode_cons, encodeChar_ascii (by decide)]
      rfl
    rw [htext, List.cons_append, List.append_assoc, List.singleton_append, hturn, if_pos rfl]
    refine congrArg (·, true) (hlength.trans ?_)
    change (encode (c :: more)).length + 1 + 1 + 1 = _
    rw [List.length_cons, List.length_append]
    rfl

/-! ## Code -/

/-- A token's text that is kept, whatever the loop has behind it. -/
def Keeps (before : List UInt8) (text after : List Char) : Prop :=
  scan before 0 false (encode text ++ encode after) =
    encode text ++ scan ((encode text).reverse ++ before) 0 false (encode after)

theorem keeps_of_turn {before : List UInt8} {c : Char} {text after : List Char}
    (hc : c.toNat < 0x80)
    (hturn : turn before c.toUInt8 (encode text ++ encode after) = (1, false))
    (hrest : Keeps (c.toUInt8 :: before) text after) : Keeps before (c :: text) after := by
  have hbytes : encode (c :: text) = c.toUInt8 :: encode text := by
    rw [encode_cons, encodeChar_ascii hc]
    rfl
  unfold Keeps
  rw [hbytes, List.cons_append, scan_code hturn, hrest, List.reverse_cons, List.append_assoc]
  rfl

theorem keeps_nil (before : List UInt8) (after : List Char) : Keeps before [] after := rfl

theorem toUInt8_ne {c d : Char} (hc : c.toNat < 0x80) (hd : d.toNat < 0x80) (h : c ≠ d) :
    c.toUInt8 ≠ d.toUInt8 := fun heq => h ((toUInt8_inj hc hd).mp heq)

theorem keeps_plain {c : Char} (hslash : c ≠ '/') (hquote : c ≠ '"') (hr : c ≠ 'r')
    (happ : c ≠ '\'') (before : List UInt8) (after : List Char) : Keeps before [c] after := by
  by_cases hc : c.toNat < 0x80
  · apply keeps_of_turn hc _ (keeps_nil _ _)
    exact turn_plain (toUInt8_ne hc (by decide) hslash) (toUInt8_ne hc (by decide) hquote)
      (toUInt8_ne hc (by decide) hr) (toUInt8_ne hc (by decide) happ)
  · obtain ⟨b, bs, hbytes, -, hhigh⟩ := encodeChar_high hc
    unfold Keeps
    rw [encode_cons, encode_nil, List.append_nil, hbytes]
    exact scan_high hhigh _ _

theorem keeps_space {c : Char} (hc : isSpace c = true) (before : List UInt8) (after : List Char) :
    Keeps before [c] after := by
  have hne : ∀ d, isSpace d = false → c ≠ d := by
    rintro d hd rfl
    rw [hc] at hd
    cases hd
  exact keeps_plain (hne '/' (by decide)) (hne '"' (by decide)) (hne 'r' (by decide))
    (hne '\'' (by decide)) before after

theorem keeps_punct {c : Char} (hc : isWordChar c = false) (hquote : c ≠ '"') (happ : c ≠ '\'')
    {after : List Char} (hslash : c = '/' → after.head? ≠ some '/' ∧ after.head? ≠ some '*')
    (before : List UInt8) : Keeps before [c] after := by
  by_cases hcs : c = '/'
  · obtain ⟨hline, hblock⟩ := hslash hcs
    rw [hcs]
    apply keeps_of_turn (by decide) _ (keeps_nil _ _)
    exact turn_slash (fun h => hline ((head?_encode (by decide)).mp h))
      (fun h => hblock ((head?_encode (by decide)).mp h))
  · have hr : c ≠ 'r' := by
      rintro rfl
      exact absurd hc (by decide)
    exact keeps_plain hcs hquote hr happ before after

theorem opensRaw_of_apart {t : Token} {w : Word} {after : List Char} (hapart : t.Apart after)
    (hw : t.lastWord = some w) (hends : w.endsAsRaw) : opensRaw (encode after) = false := by
  apply Bool.eq_false_iff.mpr
  intro hopens
  obtain ⟨n, back, hback⟩ := opensRaw_encode hopens
  exact hapart w hw hends n back hback

theorem Word.exists_cons (w : Word) : ∃ c cs, w.chars = c :: cs ∧ isWordChar c = true := by
  obtain ⟨c, cs, hcs⟩ := List.exists_cons_of_ne_nil w.ne_nil
  refine ⟨c, cs, hcs, w.all c ?_⟩
  rw [hcs]
  exact List.mem_cons_self

theorem ne_of_isWordChar {c d : Char} (hc : isWordChar c = true) (hd : isWordChar d = false) :
    c ≠ d := by
  rintro rfl
  rw [hc] at hd
  cases hd

/-- A lifetime is no character: another character of its word, or none, stands where the closing
`'` would. -/
theorem keeps_lifetime {w : Word} {after : List Char}
    (hfollow : (Token.lifetime w).FollowedBy after) (hapart : (Token.lifetime w).Apart after)
    (before : List UInt8) : Keeps before ('\'' :: w.chars) after := by
  apply keeps_of_turn (by decide) _ (scan_word w (opensRaw_of_apart hapart rfl) _)
  obtain ⟨c, cs, hcs, hc⟩ := w.exists_cons
  obtain ⟨b, bs, hbytes, hsize⟩ := encodeChar_eq_cons c
  have hnext : (cs ++ after).head? ≠ some '\'' := by
    cases cs with
    | nil =>
      intro hhead
      have hfollow : (after.head?.all fun d => !isAsciiWord d && d != '\'') = true := hfollow
      rw [List.nil_append] at hhead
      rw [hhead] at hfollow
      exact absurd hfollow (by decide)
    | cons d cs =>
      have hd : isWordChar d = true := by
        apply w.all
        rw [hcs]
        exact List.mem_cons_of_mem c List.mem_cons_self
      intro hhead
      exact ne_of_isWordChar hd (by decide) (Option.some.inj hhead)
  have hclose := getElem?_charLength hbytes hsize (encode (cs ++ after))
  have hturn := turn_apostrophe before (bs ++ encode (cs ++ after)) b
  rw [hbytes, List.cons_append] at hclose
  rw [hclose, if_neg (ne_backslash (ne_of_isWordChar hc (by decide)) hbytes),
    if_neg fun h => hnext ((head?_encode (by decide)).mp h)] at hturn
  rw [hcs, encode_cons, hbytes, List.append_assoc, ← encode_append]
  exact hturn

theorem keeps_rawIdentifier {w : Word} (hstart : w.chars.head?.any isWordStart = true)
    {after : List Char} (hapart : (Token.rawIdentifier w hstart).Apart after)
    (before : List UInt8) : Keeps before ('r' :: '#' :: w.chars) after := by
  apply keeps_of_turn (by decide)
  · apply turn_r
    rintro ⟨-, hopens⟩
    obtain ⟨c, cs, hcs, hc⟩ := w.exists_cons
    have hbytes : encode ('#' :: w.chars) ++ encode after =
        '#'.toUInt8 :: (String.utf8EncodeChar c ++ (encode cs ++ encode after)) := by
      rw [encode_cons, encodeChar_ascii (by decide), hcs, encode_cons, List.append_assoc,
        List.append_assoc]
      rfl
    rw [hbytes, opensRaw_cons, if_pos rfl, opensRaw_word hc] at hopens
    cases hopens
  · apply keeps_of_turn (by decide)
    · exact turn_plain (by decide) (by decide) (by decide) (by decide)
    · exact scan_word w (opensRaw_of_apart hapart rfl) _

/-! ## From token to token -/

theorem fresh_of_head {after : List Char} (h : (after.head?.all fun c => !isAsciiWord c) = true)
    (before : List UInt8) : Fresh before after := by
  intro b c _ _ hc
  rw [hc, Option.all_some, Bool.not_eq_true'] at h
  exact h

theorem fresh_of_last {c : Char} (hc : isAsciiWord c = false) (front : List Char)
    (before : List UInt8) (after : List Char) :
    Fresh ((encode (front ++ [c])).reverse ++ before) after := by
  obtain ⟨b, bs, hbytes, hident⟩ := reverse_encodeChar c
  intro d _ hd hdident _
  rw [reverse_encode_append, hbytes, List.cons_append, List.cons_append, List.head?_cons] at hd
  rw [← Option.some.inj hd, hident, hc] at hdident
  cases hdident

theorem Closes.last_slash {depth : Nat} {text : List Char} (h : Closes depth text) :
    ∃ front, text = front ++ ['/'] := by
  induction h with
  | last => exact ⟨['*'], rfl⟩
  | close rest ih =>
    obtain ⟨front, rfl⟩ := ih
    exact ⟨'*' :: '/' :: front, rfl⟩
  | opens rest ih =>
    obtain ⟨front, rfl⟩ := ih
    exact ⟨'/' :: '*' :: front, rfl⟩
  | @char depth c text hopen hclose rest ih =>
    obtain ⟨front, rfl⟩ := ih
    exact ⟨c :: front, rfl⟩

theorem not_isAsciiWord_of_isSpace {c : Char} (hc : isSpace c = true) : isAsciiWord c = false := by
  unfold isSpace at hc
  rw [decide_eq_true_eq] at hc
  revert c
  decide

theorem not_isAsciiWord_of_not_isWordChar {c : Char} (hc : isWordChar c = false) :
    isAsciiWord c = false := by
  unfold isWordChar isWordStart at hc
  unfold isAsciiWord Char.isAlphanum
  simp only [Bool.or_eq_false_iff] at hc ⊢
  exact ⟨⟨hc.1.1.1, hc.2⟩, hc.1.1.2⟩

/-- Behind a token the next one is not taken for the rest of a word. -/
theorem fresh_token {t : Token} {after : List Char} (hfollow : t.FollowedBy after)
    (before : List UInt8) : Fresh ((encode t.text).reverse ++ before) after := by
  cases t with
  | space c hc => exact fresh_of_last (not_isAsciiWord_of_isSpace hc) [] before after
  | lineComment body line =>
    apply fresh_of_head
    have hfollow : after.head?.all (· = '\n') = true := hfollow
    cases hhead : after.head? with
    | none => rfl
    | some c =>
      rw [hhead, Option.all_some, decide_eq_true_eq] at hfollow
      rw [hfollow]
      rfl
  | blockComment body closes =>
    obtain ⟨front, rfl⟩ := closes.last_slash
    exact @fresh_of_last '/' (by decide) ('/' :: '*' :: front) before after
  | string pre isPre items =>
    have hlast := @fresh_of_last '"' (by decide)
      (pre ++ '"' :: items.flatMap StringItem.text) before after
    rw [List.append_assoc] at hlast
    exact hlast
  | rawString pre isPre n body noClosing =>
    cases n with
    | zero =>
      have hlast := @fresh_of_last '"' (by decide) (pre ++ 'r' :: '"' :: body) before after
      rw [List.append_assoc] at hlast
      exact hlast
    | succ n =>
      have hlast := @fresh_of_last '#' (by decide) (pre ++ 'r' ::
        (List.replicate (n + 1) '#' ++ '"' :: (body ++ '"' :: List.replicate n '#'))) before after
      have htext : (Token.rawString pre isPre (n + 1) body noClosing).text = (pre ++ 'r' ::
          (List.replicate (n + 1) '#' ++ '"' :: (body ++ '"' :: List.replicate n '#'))) ++ ['#'] := by
        unfold Token.text Token.code Token.blanked
        simp only [List.append_assoc, List.cons_append, ← List.replicate_succ']
      rw [htext]
      exact hlast
  | char pre isPre item =>
    have hlast := @fresh_of_last '\'' (by decide) (pre ++ '\'' :: item.text) before after
    rw [List.append_assoc] at hlast
    exact hlast
  | lifetime w =>
    apply fresh_of_head
    have hfollow : (after.head?.all fun c => !isAsciiWord c && c != '\'') = true := hfollow
    cases hhead : after.head? with
    | none => rfl
    | some c =>
      rw [hhead, Option.all_some, Bool.and_eq_true] at hfollow
      exact hfollow.1
  | word w => exact fresh_of_head hfollow _
  | rawIdentifier w start => exact fresh_of_head hfollow _
  | punct c hc quote apostrophe =>
    exact fresh_of_last (not_isAsciiWord_of_not_isWordChar hc) [] before after

/-- A token that is kept and blanks nothing. -/
theorem scan_of_keeps {before : List UInt8} {t : Token} {after : List Char}
    (hblanked : t.blanked = []) (h : Keeps before t.code after) :
    scan before 0 false (encode t.text ++ encode after) =
      (encode t.code ++ (encode t.blanked).map blank) ++
        scan ((encode t.text).reverse ++ before) 0 false (encode after) := by
  unfold Token.text
  rw [hblanked, List.append_nil, encode_nil, List.map_nil, List.append_nil]
  exact h

/-- A token that is blanked behind what is kept of it. -/
theorem scan_of_blanks {before : List UInt8} {t : Token} {after : List Char}
    (hcode : ∀ rest, scan before 0 false (encode t.code ++ rest) =
      encode t.code ++ scan ((encode t.code).reverse ++ before) 0 false rest)
    (h : Blanks ((encode t.code).reverse ++ before) t.blanked after) :
    scan before 0 false (encode t.text ++ encode after) =
      (encode t.code ++ (encode t.blanked).map blank) ++
        scan ((encode t.text).reverse ++ before) 0 false (encode after) := by
  unfold Token.text
  rw [encode_append, List.append_assoc, hcode, h, List.append_assoc, List.reverse_append,
    List.append_assoc]

theorem scan_token {before : List UInt8} {t : Token} {after : List Char}
    (hfollow : t.FollowedBy after) (hapart : t.Apart after)
    (hfresh : Fresh before (t.text ++ after)) :
    scan before 0 false (encode t.text ++ encode after) =
      (encode t.code ++ (encode t.blanked).map blank) ++
        scan ((encode t.text).reverse ++ before) 0 false (encode after) := by
  cases t with
  | space c hc => exact scan_of_keeps rfl (keeps_space hc before after)
  | lineComment body line =>
    exact scan_of_blanks (fun _ => rfl) (blanks_lineComment line hfollow before)
  | blockComment body closes =>
    exact scan_of_blanks (fun _ => rfl) (blanks_blockComment closes before after)
  | string pre isPre items =>
    exact scan_of_blanks (scan_pre isPre before) (blanks_string items _ after)
  | rawString pre isPre n body noClosing =>
    apply scan_of_blanks (scan_pre isPre before)
    apply blanks_rawString noClosing
    change Fresh before ((pre ++ 'r' :: _) ++ after) at hfresh
    rw [List.append_assoc] at hfresh
    exact startsRaw_pre isPre hfresh
  | char pre isPre item =>
    have hpre : pre = [] ∨ pre = ['b'] ∨ pre = ['c'] := by
      rcases isPre with h | h
      · exact Or.inl h
      · exact Or.inr (Or.inl h)
    exact scan_of_blanks (scan_pre hpre before) (blanks_char item _ after)
  | lifetime w => exact scan_of_keeps rfl (keeps_lifetime hfollow hapart before)
  | word w => exact scan_of_keeps rfl (scan_word w (opensRaw_of_apart hapart rfl) before)
  | rawIdentifier w start => exact scan_of_keeps rfl (keeps_rawIdentifier start hapart before)
  | punct c hc quote apostrophe =>
    exact scan_of_keeps rfl (keeps_punct hc quote apostrophe hfollow before)

theorem scan_tokens {tokens : List Token} (h : Lexed tokens) {before : List UInt8}
    (hfresh : Fresh before (textOf tokens)) :
    scan before 0 false (encode (textOf tokens)) = blankedBytes tokens := by
  induction tokens generalizing before with
  | nil => rfl
  | cons t tokens ih =>
    obtain ⟨hfollow, hapart, hrest⟩ := h
    have htext : textOf (t :: tokens) = t.text ++ textOf tokens := rfl
    rw [htext] at hfresh ⊢
    rw [encode_append, scan_token hfollow hapart hfresh, ih hrest (fresh_token hfollow before)]
    rfl

/-- For every source the result has the bytes of the source or blanks, with every line end in its
place; and of tokens exactly the comments and the literals behind their prefixes are blanked. -/
theorem rustCodeOnly_blanks :
    (∀ src : String, (bytes (rustCodeOnly src)).length = (bytes src).length ∧
      ∀ b, IsEol b → ∀ i : Nat, (bytes (rustCodeOnly src))[i]? = some b ↔ (bytes src)[i]? = some b) ∧
    ∀ tokens, Lexed tokens →
      bytes (rustCodeOnly (String.ofList (textOf tokens))) = blankedBytes tokens := by
  constructor
  · intro src
    rw [bytes_rustCodeOnly]
    constructor
    · exact length_scan [] 0 false _
    · exact fun b hb i => getElem?_scan_eol hb [] 0 false _ i
  · intro tokens h
    rw [bytes_rustCodeOnly, bytes_ofList]
    exact scan_tokens h fun b c hb => nomatch hb

/-- `b"x"`. -/
def byteString : Token :=
  .string ['b'] (Or.inr (Or.inl rfl)) [.plain 'x' (by decide) (by decide)]

theorem rustCodeOnly_blanks_byteString :
    Lexed [byteString] ∧
      bytes (rustCodeOnly (String.ofList (textOf [byteString]))) = blankedBytes [byteString] := by
  have hlexed : Lexed [byteString] := ⟨trivial, fun w hw => (nomatch hw), trivial⟩
  exact ⟨hlexed, rustCodeOnly_blanks.2 _ hlexed⟩

/-- The prefix of a byte string, a byte of the literal, is not blanked. -/
theorem rustCodeOnly_keeps_prefix :
    Lexed [byteString] ∧ String.ofList (textOf [byteString]) = "b\"x\"" ∧
      bytes (rustCodeOnly "b\"x\"") = ['b'.toUInt8, ' '.toUInt8, ' '.toUInt8, ' '.toUInt8] ∧
      bytes (rustCodeOnly "b\"x\"") ≠ (encode byteString.text).map blank := by
  have hbytes : bytes (rustCodeOnly "b\"x\"") =
      ['b'.toUInt8, ' '.toUInt8, ' '.toUInt8, ' '.toUInt8] := by
    rw [bytes_rustCodeOnly]
    decide
  refine ⟨⟨trivial, fun w hw => (nomatch hw), trivial⟩, rfl, hbytes, ?_⟩
  rw [hbytes]
  decide

end Victauri.Cli.RustCode
