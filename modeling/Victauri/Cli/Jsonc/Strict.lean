import Victauri.Cli.RustCode.Lengths
import Victauri.Cli.Jsonc.Offsets
import Victauri.Cli.Jsonc.Grammar

/-!
# JSONC becomes JSON

The first pass makes white space of every gap, the second drops the trailing commas; neither
touches a token.
-/

namespace Victauri.Cli.Jsonc

open Utf8
open Victauri.Core.Json
open Victauri.Cli.RustCode

-- A quantifier over the characters of a text is decided along the text.
attribute [local instance (1100)] List.decidableBAll

/-! ## Bytes the passes keep -/

/-- A loop that copies a string's bytes, an escape as two. -/
structure CopiesStrings (pass : Bool → List UInt8 → List UInt8) : Prop where
  escape : ∀ d rest,
    pass true ('\\'.toUInt8 :: d :: rest) = '\\'.toUInt8 :: d :: pass true rest
  close : ∀ rest, pass true ('"'.toUInt8 :: rest) = '"'.toUInt8 :: pass false rest
  inside : ∀ c rest, c ≠ '\\'.toUInt8 → c ≠ '"'.toUInt8 →
    pass true (c :: rest) = c :: pass true rest
  quote : ∀ rest, pass false ('"'.toUInt8 :: rest) = '"'.toUInt8 :: pass true rest

theorem copiesStrings_blankLoop : CopiesStrings blankLoop where
  escape _ _ := blankLoop_escape
  close _ := blankLoop_close
  inside _ _ hslash hquote := blankLoop_inside hslash hquote
  quote _ := blankLoop_quote

theorem copiesStrings_commaLoop : CopiesStrings commaLoop where
  escape _ _ := commaLoop_escape
  close _ := commaLoop_close
  inside _ _ hslash hquote := commaLoop_inside hslash hquote
  quote _ := commaLoop_quote

/-- The characters of a hexadecimal number are none of those a string is read by. -/
theorem hexNumber_ne {ds : List Char} {u : Nat} (h : hexNumber ds = some u) :
    ∀ c ∈ ds, c ≠ '\\' ∧ c ≠ '"' := by
  unfold hexNumber at h
  generalize 0 = n at h
  induction ds generalizing n with
  | nil => exact List.forall_mem_nil _
  | cons d ds ih =>
    rw [List.foldlM_cons] at h
    cases hd : hexDigit d with
    | none =>
      rw [hd] at h
      cases h
    | some k =>
      rw [hd] at h
      refine List.forall_mem_cons.mpr ⟨⟨?_, ?_⟩, ih _ h⟩
      · rintro rfl
        cases hd
      · rintro rfl
        cases hd

/-- The loop copies this text in a string. -/
def Copies (pass : Bool → List UInt8 → List UInt8) (text : List Char) : Prop :=
  ∀ rest, pass true (encode text ++ rest) = encode text ++ pass true rest

section

variable {pass : Bool → List UInt8 → List UInt8}

theorem Copies.append {text text' : List Char} (h : Copies pass text) (h' : Copies pass text') :
    Copies pass (text ++ text') := by
  intro rest
  rw [encode_append, List.append_assoc, h, h', List.append_assoc]

variable (hpass : CopiesStrings pass)

include hpass

theorem CopiesStrings.plain {text : List Char} (h : ∀ c ∈ text, c ≠ '\\' ∧ c ≠ '"') :
    Copies pass text := by
  intro rest
  have hbytes : ∀ b ∈ encode text, b ≠ '\\'.toUInt8 ∧ b ≠ '"'.toUInt8 := by
    intro b hb
    constructor
    · rintro rfl
      exact (h '\\' ((mem_encode (by decide)).mp hb)).1 rfl
    · rintro rfl
      exact (h '"' ((mem_encode (by decide)).mp hb)).2 rfl
  generalize encode text = bs at hbytes ⊢
  induction bs with
  | nil => rfl
  | cons b bs ih =>
    obtain ⟨hslash, hquote⟩ := hbytes b List.mem_cons_self
    rw [List.cons_append, hpass.inside b _ hslash hquote,
      ih fun d hd => hbytes d (List.mem_cons_of_mem b hd)]
    rfl

theorem CopiesStrings.escaped {e : Char} (he : e.toNat < 0x80) {text : List Char}
    (h : Copies pass text) : Copies pass ('\\' :: e :: text) := by
  intro rest
  have hbytes : encode ('\\' :: e :: text) = '\\'.toUInt8 :: e.toUInt8 :: encode text := by
    rw [encode_cons, encode_cons, encodeChar_ascii he]
    rfl
  rw [hbytes, List.cons_append, List.cons_append, hpass.escape, h]
  rfl

/-- Between its quotes a string literal is copied. -/
theorem CopiesStrings.body {t s : List Char} (h : StringBody t s) : Copies pass t := by
  have hsimple : ∀ m ∈ simpleEscapes, m.1.toNat < 0x80 := by decide
  induction h with
  | nil => exact fun _ => rfl
  | @plain c t s hcontrol hquote hslash _ ih =>
    have hc : Copies pass [c] := hpass.plain (by simp [hquote, hslash])
    exact hc.append ih
  | simple he _ ih => exact hpass.escaped (hsimple _ he) ih
  | unicode hu _ _ _ ih =>
    exact hpass.escaped (by decide) ((hpass.plain (hexNumber_ne hu)).append ih)
  | @pair w x y z w' x' y' z' u u' t s hu hu' _ _ _ ih =>
    have hlow : Copies pass ('\\' :: 'u' :: ([w', x', y', z'] ++ t)) :=
      hpass.escaped (by decide) ((hpass.plain (hexNumber_ne hu')).append ih)
    exact hpass.escaped (by decide) ((hpass.plain (hexNumber_ne hu)).append hlow)

end

/-! ## Tokens -/

/-- What the characters of a word are not. -/
def marks : List Char := ['"', '/', ',', '\x7d', ']', ' ', '\t', '\n', '\x0c', '\r']

def Token.Lexes : Token → Prop
  | .mark _ => True
  | .string body => ∃ s, StringBody body s
  | .word text => text ≠ [] ∧ ∀ c ∈ text, c ∉ marks

theorem not_mem_marks_of_isDigit {c : Char} (h : c.isDigit = true) : c ∉ marks := by
  have hmarks : ∀ d ∈ marks, d.isDigit = false := by decide
  intro hc
  rw [hmarks c hc] at h
  cases h

theorem lexes_word {t : List Char} (h : IsNumber t) : (Token.word t).Lexes := by
  obtain ⟨minus, int, frac, exp, rfl, hminus, ⟨hint, -⟩, hfrac, hexp⟩ := h
  have hdigits : ∀ ds, IsDigits ds → ∀ c ∈ ds, c ∉ marks := fun ds hds c hc =>
    not_mem_marks_of_isDigit (hds.2 c hc)
  constructor
  · intro hnil
    simp only [List.append_eq_nil_iff] at hnil
    exact hint.1 hnil.1.1.2
  simp only [List.forall_mem_append]
  refine ⟨⟨⟨?_, hdigits int hint⟩, ?_⟩, ?_⟩
  · rcases hminus with rfl | rfl
    · exact List.forall_mem_nil _
    · decide
  · rcases hfrac with rfl | ⟨ds, rfl, hds⟩
    · exact List.forall_mem_nil _
    · exact List.forall_mem_cons.mpr ⟨by decide, hdigits ds hds⟩
  · rcases hexp with rfl | ⟨e, sign, ds, rfl, he, hsign, hds⟩
    · exact List.forall_mem_nil _
    · rw [List.cons_append, List.forall_mem_cons, List.forall_mem_append]
      refine ⟨?_, ?_, hdigits ds hds⟩
      · rcases he with rfl | rfl
        · decide
        · decide
      · rcases hsign with rfl | rfl | rfl
        · exact List.forall_mem_nil _
        · decide
        · decide

theorem Trailing.lexes {trailing : Bool} {comma : List Token} (h : Trailing trailing comma) :
    ∀ tok ∈ comma, tok.Lexes := by
  rcases h with rfl | ⟨-, rfl⟩
  · exact List.forall_mem_nil _
  · exact List.forall_mem_singleton.mpr trivial

section

variable {number : NumberFormat} {trailing : Bool}

mutual

/-- The tokens of a value are those of its grammar. -/
theorem Denotes.lexes {ts : List Token} {v : Value} :
    Denotes number trailing ts v → ∀ tok ∈ ts, tok.Lexes
  | .null => by
    rw [List.forall_mem_singleton]
    exact ⟨by decide, by decide⟩
  | .true => by
    rw [List.forall_mem_singleton]
    exact ⟨by decide, by decide⟩
  | .false => by
    rw [List.forall_mem_singleton]
    exact ⟨by decide, by decide⟩
  | .number h => List.forall_mem_singleton.mpr (lexes_word (number.isNumber _ h))
  | .string h => List.forall_mem_singleton.mpr ⟨_, h⟩
  | .array h hcomma => by
    rw [List.forall_mem_cons, List.forall_mem_append, List.forall_mem_append,
      List.forall_mem_singleton]
    exact ⟨trivial, h.lexes, hcomma.lexes, trivial⟩
  | .object h hcomma => by
    rw [List.forall_mem_cons, List.forall_mem_append, List.forall_mem_append,
      List.forall_mem_singleton]
    exact ⟨trivial, h.lexes, hcomma.lexes, trivial⟩

theorem Items.lexes {ts : List Token} {vs : List Value} :
    Items number trailing ts vs → ∀ tok ∈ ts, tok.Lexes
  | .nil => List.forall_mem_nil _
  | .one h => h.lexes
  | .cons h h' => by
    rw [List.forall_mem_append, List.forall_mem_cons]
    exact ⟨h.lexes, trivial, h'.lexes⟩

theorem Members.lexes {ts : List Token} {ms : List (String × Value)} :
    Members number trailing ts ms → ∀ tok ∈ ts, tok.Lexes
  | .nil => List.forall_mem_nil _
  | .one hk h => by
    rw [List.forall_mem_cons, List.forall_mem_cons]
    exact ⟨⟨_, hk⟩, trivial, h.lexes⟩
  | .cons hk h h' => by
    rw [List.forall_mem_cons, List.forall_mem_cons, List.forall_mem_append, List.forall_mem_cons]
    exact ⟨⟨_, hk⟩, trivial, h.lexes, trivial, h'.lexes⟩

end

end

/-! ## The first pass -/

/-- The first pass leaves this text, and `text'` in its place. -/
def Makes (pass : Bool → List UInt8 → List UInt8) (text text' : List Char) : Prop :=
  ∀ rest, pass false (encode text ++ rest) = encode text' ++ pass false rest

theorem Makes.append {pass : Bool → List UInt8 → List UInt8} {s s' t t' : List Char}
    (h : Makes pass s s') (h' : Makes pass t t') : Makes pass (s ++ t) (s' ++ t') := by
  intro rest
  rw [encode_append, List.append_assoc, h, h', encode_append, List.append_assoc]

theorem commentLength_of_ne {c : UInt8} (hc : c ≠ '/'.toUInt8) (rest : List UInt8) :
    commentLength c rest = none := by
  rw [commentLength, if_neg fun h => hc h.1, if_neg fun h => hc h.1]

/-- Code without quotes and slashes is kept. -/
theorem makes_blankLoop_plain {text : List Char} (h : ∀ c ∈ text, c ≠ '"' ∧ c ≠ '/') :
    Makes blankLoop text text := by
  intro rest
  have hbytes : ∀ b ∈ encode text, b ≠ '"'.toUInt8 ∧ b ≠ '/'.toUInt8 := by
    intro b hb
    constructor
    · rintro rfl
      exact (h '"' ((mem_encode (by decide)).mp hb)).1 rfl
    · rintro rfl
      exact (h '/' ((mem_encode (by decide)).mp hb)).2 rfl
  generalize encode text = bs at hbytes ⊢
  induction bs with
  | nil => rfl
  | cons b bs ih =>
    obtain ⟨hquote, hslash⟩ := hbytes b List.mem_cons_self
    rw [List.cons_append, blankLoop_code hquote (commentLength_of_ne hslash _),
      ih fun d hd => hbytes d (List.mem_cons_of_mem b hd)]
    rfl

/-- A quoted body is kept by either pass. -/
theorem CopiesStrings.makes_string {pass : Bool → List UInt8 → List UInt8}
    (hpass : CopiesStrings pass) {t s : List Char} (h : StringBody t s) :
    Makes pass (Token.string t).text (Token.string t).text := by
  intro rest
  have hbytes : encode (Token.string t).text = '"'.toUInt8 :: (encode t ++ ['"'.toUInt8]) := by
    rw [Token.text, encode_cons, encode_append]
    rfl
  rw [hbytes, List.cons_append, hpass.quote, List.append_assoc, hpass.body h,
    List.singleton_append, hpass.close]
  simp

theorem makes_blankLoop_token {tok : Token} (h : tok.Lexes) :
    Makes blankLoop tok.text tok.text := by
  cases tok with
  | mark m =>
    apply makes_blankLoop_plain
    rw [Token.text, List.forall_mem_singleton]
    cases m <;> decide
  | string body =>
    obtain ⟨s, hs⟩ := h
    exact copiesStrings_blankLoop.makes_string hs
  | word text =>
    apply makes_blankLoop_plain
    intro c hc
    constructor
    · rintro rfl
      exact h.2 _ hc (by decide)
    · rintro rfl
      exact h.2 _ hc (by decide)

/-- What blanking makes of a text is white space. -/
theorem map_blank_gap (comments : Bool) (text : List Char) :
    ∃ g, (encode text).map blank = encode g ∧ Gap comments g := by
  have hbytes : ∀ b ∈ (encode text).map blank, ∃ c, IsSpace c ∧ encode [c] = [b] := by
    intro b hb
    obtain ⟨d, -, rfl⟩ := List.mem_map.mp hb
    by_cases hd : IsEol d
    · have hkeep : blank d = d := (@emit_eq_eol true d d hd).mpr rfl
      rw [hkeep]
      rcases hd with rfl | rfl
      · exact ⟨'\n', by simp [IsSpace], rfl⟩
      · exact ⟨'\r', by simp [IsSpace], rfl⟩
    · refine ⟨' ', by simp [IsSpace], ?_⟩
      rw [blank, if_pos (not_or.mp hd)]
      rfl
  generalize (encode text).map blank = bs at hbytes ⊢
  induction bs with
  | nil => exact ⟨[], rfl, Gap.nil⟩
  | cons b bs ih =>
    obtain ⟨c, hc, hcb⟩ := hbytes b List.mem_cons_self
    obtain ⟨g, rfl, hg⟩ := ih fun d hd => hbytes d (List.mem_cons_of_mem b hd)
    refine ⟨c :: g, ?_, Gap.space hc hg⟩
    rw [show c :: g = [c] ++ g from rfl, encode_append, hcb]
    rfl

/-- The first pass makes white space of a gap, and nothing of one that is white space. -/
def Cleared (comments : Bool) (g g' : List Char) : Prop :=
  Gap false g' ∧ (comments = false → g' = g)

theorem cleared_comment {comments : Bool} (hcomments : comments = true) {g g' : List Char}
    (h : Gap false g') : Cleared comments g g' := by
  refine ⟨h, ?_⟩
  rintro rfl
  cases hcomments

theorem Gap.append {comments : Bool} {g g' : List Char} (h : Gap comments g)
    (h' : Gap comments g') : Gap comments (g ++ g') := by
  induction h with
  | nil => exact h'
  | space hc _ ih => exact Gap.space hc ih
  | @line body g hcomments hbody _ ih =>
    have := Gap.line hcomments hbody ih
    simpa using this
  | @block body g hcomments hbody _ ih =>
    have := Gap.block hcomments hbody ih
    simpa using this

theorem blankLoop_line {body : List Char} (hbody : '\n' ∉ body) {rest : List UInt8}
    (hrest : ∀ b, rest.head? = some b → b = '\n'.toUInt8) :
    blankLoop false (encode ('/' :: '/' :: body) ++ rest) =
      (encode ('/' :: '/' :: body)).map blank ++ blankLoop false rest := by
  have hline : ∀ b ∈ encode ('/' :: '/' :: body), decide (b ≠ '\n'.toUInt8) = true := by
    intro b hb
    rw [decide_eq_true_eq]
    rintro rfl
    rw [mem_encode (by decide), List.mem_cons, List.mem_cons] at hb
    simp [hbody] at hb
  have hlength : lineLength (encode ('/' :: '/' :: body) ++ rest) =
      (encode ('/' :: '/' :: body)).length := by
    apply length_takeWhile_append hline
    intro b hb
    rw [hrest b hb]
    rfl
  have hbytes : encode ('/' :: '/' :: body) ++ rest =
      '/'.toUInt8 :: '/'.toUInt8 :: (encode body ++ rest) := rfl
  have hn : commentLength '/'.toUInt8 ('/'.toUInt8 :: (encode body ++ rest)) =
      some (encode ('/' :: '/' :: body)).length := by
    rw [commentLength, if_pos ⟨rfl, rfl⟩, ← hlength, hbytes]
  rw [hbytes, blankLoop_comment hn, ← hbytes, List.take_left, List.drop_left]

theorem blockLength_append {body : List UInt8}
    (hbody : ¬ ['*'.toUInt8, '/'.toUInt8] <:+: body) (rest : List UInt8) :
    blockLength (body ++ '*'.toUInt8 :: '/'.toUInt8 :: rest) = body.length + 2 := by
  induction body with
  | nil =>
    rw [List.nil_append, blockLength, if_pos ⟨rfl, rfl⟩]
    rfl
  | cons b body ih =>
    have hopen : ¬ (b = '*'.toUInt8 ∧
        (body ++ '*'.toUInt8 :: '/'.toUInt8 :: rest).head? = some '/'.toUInt8) := by
      rintro ⟨rfl, hhead⟩
      cases body with
      | nil => exact absurd (Option.some.inj hhead) (by decide)
      | cons d body =>
        obtain rfl : d = '/'.toUInt8 := Option.some.inj hhead
        exact hbody ⟨[], body, rfl⟩
    rw [List.cons_append, blockLength, if_neg hopen,
      ih fun h => hbody (h.trans (List.suffix_cons b body).isInfix), List.length_cons]
    omega

theorem blankLoop_block {body : List Char} (hbody : ¬ ['*', '/'] <:+: body) (rest : List UInt8) :
    blankLoop false (encode ('/' :: '*' :: (body ++ ['*', '/'])) ++ rest) =
      (encode ('/' :: '*' :: (body ++ ['*', '/']))).map blank ++ blankLoop false rest := by
  have hinfix : ¬ ['*'.toUInt8, '/'.toUInt8] <:+: encode body := by
    rintro ⟨before, after, h⟩
    have hsplit : encode body = before ++ (encode ['*', '/'] ++ after) := by
      rw [← h, List.append_assoc]
      rfl
    obtain ⟨front, back, rfl, -, -⟩ := split_encode (by decide) (by decide) hsplit
    exact hbody ⟨front, back, by simp⟩
  have hbytes : encode ('/' :: '*' :: (body ++ ['*', '/'])) ++ rest =
      '/'.toUInt8 :: '*'.toUInt8 :: (encode body ++ '*'.toUInt8 :: '/'.toUInt8 :: rest) := by
    rw [encode_cons, encode_cons, encode_append]
    simp only [List.append_assoc]
    rfl
  have hn : commentLength '/'.toUInt8
      ('*'.toUInt8 :: (encode body ++ '*'.toUInt8 :: '/'.toUInt8 :: rest)) =
      some (encode ('/' :: '*' :: (body ++ ['*', '/']))).length := by
    rw [commentLength, if_neg fun h => absurd (Option.some.inj h.2) (by decide),
      if_pos ⟨rfl, rfl⟩,
      List.drop_succ_cons, List.drop_zero, blockLength_append hinfix, encode_cons, encode_cons,
      encode_append]
    simp only [List.length_append]
    congr 1
    change 2 + ((encode body).length + 2) = 1 + (1 + ((encode body).length + 2))
    omega
  rw [hbytes, blankLoop_comment hn, ← hbytes, List.take_left, List.drop_left]

theorem makes_blankLoop_gap {comments : Bool} {g : List Char} (h : Gap comments g) :
    ∃ g', Cleared comments g g' ∧ Makes blankLoop g g' := by
  induction h with
  | nil => exact ⟨[], ⟨Gap.nil, fun _ => rfl⟩, fun _ => rfl⟩
  | @space c g hc _ ih =>
    obtain ⟨g', ⟨hgap, hsame⟩, hmakes⟩ := ih
    refine ⟨c :: g', ⟨Gap.space hc hgap, fun h => by rw [hsame h]⟩, ?_⟩
    have hplain : Makes blankLoop [c] [c] := by
      apply makes_blankLoop_plain
      rw [List.forall_mem_singleton]
      rcases hc with rfl | rfl | rfl | rfl
      · decide
      · decide
      · decide
      · decide
    exact hplain.append hmakes
  | @line body g hcomments hbody _ ih =>
    obtain ⟨g', ⟨hgap, -⟩, hmakes⟩ := ih
    obtain ⟨w, hw, hwgap⟩ := map_blank_gap false ('/' :: '/' :: body)
    have hnewline : Makes blankLoop ['\n'] ['\n'] := makes_blankLoop_plain (by decide)
    have htail := hnewline.append hmakes
    refine ⟨w ++ '\n' :: g', cleared_comment hcomments ?_, ?_⟩
    · exact hwgap.append (Gap.space (by simp [IsSpace]) hgap)
    · intro rest
      have hhead : ∀ b, (encode ('\n' :: g) ++ rest).head? = some b → b = '\n'.toUInt8 :=
        fun b hb => (Option.some.inj hb).symm
      have hline := blankLoop_line hbody hhead
      rw [show '/' :: '/' :: (body ++ '\n' :: g) = '/' :: '/' :: body ++ '\n' :: g from rfl,
        encode_append, List.append_assoc, hline, hw, encode_append, List.append_assoc]
      exact congrArg (encode w ++ ·) (htail rest)
  | @block body g hcomments hbody _ ih =>
    obtain ⟨g', ⟨hgap, -⟩, hmakes⟩ := ih
    obtain ⟨w, hw, hwgap⟩ := map_blank_gap false ('/' :: '*' :: (body ++ ['*', '/']))
    refine ⟨w ++ g', cleared_comment hcomments (hwgap.append hgap), ?_⟩
    intro rest
    have hsplit : '/' :: '*' :: (body ++ '*' :: '/' :: g) =
        '/' :: '*' :: (body ++ ['*', '/']) ++ g := by simp
    rw [hsplit, encode_append, List.append_assoc, blankLoop_block hbody, hw, hmakes,
      encode_append, List.append_assoc]

/-- The first pass leaves the tokens with white space between them. -/
theorem blankLoop_rendered {comments : Bool} {ts : List Token} {t : List Char}
    (h : Rendered comments ts t) (hts : ∀ tok ∈ ts, tok.Lexes) :
    ∃ t', blankLoop false (encode t) = encode t' ∧ Rendered false ts t' ∧
      (comments = false → t' = t) := by
  induction h with
  | done hg =>
    obtain ⟨g', ⟨hgap, hsame⟩, hmakes⟩ := makes_blankLoop_gap hg
    have hmade := hmakes []
    rw [List.append_nil, blankLoop, List.append_nil] at hmade
    exact ⟨g', hmade, Rendered.done hgap, hsame⟩
  | @line g body hcomments hg hbody =>
    obtain ⟨g', ⟨hgap, -⟩, hmakes⟩ := makes_blankLoop_gap hg
    obtain ⟨w, hw, hwgap⟩ := map_blank_gap false ('/' :: '/' :: body)
    have hline := @blankLoop_line body hbody [] (by rintro b ⟨⟩)
    rw [List.append_nil, blankLoop, List.append_nil, hw] at hline
    refine ⟨g' ++ w, ?_, Rendered.done (hgap.append hwgap), ?_⟩
    · rw [encode_append, hmakes, hline, encode_append]
    · rintro rfl
      cases hcomments
  | @token tok ts g t hg _ ih =>
    obtain ⟨htok, hts⟩ := List.forall_mem_cons.mp hts
    obtain ⟨g', ⟨hgap, hsame⟩, hmakes⟩ := makes_blankLoop_gap hg
    obtain ⟨t', ht', hrendered, hsame'⟩ := ih hts
    refine ⟨g' ++ (tok.text ++ t'), ?_, Rendered.token hgap hrendered, ?_⟩
    · rw [encode_append, hmakes, encode_append, makes_blankLoop_token htok, ht', encode_append,
        encode_append]
    · intro hcomments
      rw [hsame hcomments, hsame' hcomments]

/-! ## The second pass -/

theorem closes_of_whitespace {b : UInt8} (hb : isAsciiWhitespace b = true) (rest : List UInt8) :
    closes (b :: rest) = closes rest := by
  unfold closes
  rw [List.find?_cons_of_neg (by rw [hb]; decide)]

theorem closes_of_not_whitespace {b : UInt8} (hb : isAsciiWhitespace b = false)
    (rest : List UInt8) :
    closes (b :: rest) = (b = '\x7d'.toUInt8 || b = ']'.toUInt8 : Bool) := by
  unfold closes
  rw [List.find?_cons_of_pos (by rw [hb]; rfl)]

theorem closes_gap {g : List Char} (h : Gap false g) (rest : List UInt8) :
    closes (encode g ++ rest) = closes rest := by
  induction h with
  | nil => rfl
  | @space c g hc _ ih =>
    rw [← ih]
    rcases hc with rfl | rfl | rfl | rfl
    · exact closes_of_whitespace rfl _
    · exact closes_of_whitespace rfl _
    · exact closes_of_whitespace rfl _
    · exact closes_of_whitespace rfl _
  | line hcomments => cases hcomments
  | block hcomments => cases hcomments

theorem closes_token {tok : Token} (h : tok.Lexes) (rest : List UInt8) :
    closes (encode tok.text ++ rest) = tok.closes := by
  cases tok with
  | mark m =>
    cases m with
    | beginArray => exact closes_of_not_whitespace rfl _
    | endArray => exact closes_of_not_whitespace rfl _
    | beginObject => exact closes_of_not_whitespace rfl _
    | endObject => exact closes_of_not_whitespace rfl _
    | colon => exact closes_of_not_whitespace rfl _
    | comma => exact closes_of_not_whitespace rfl _
  | string body => exact closes_of_not_whitespace rfl _
  | word text =>
    obtain ⟨c, text, rfl⟩ := List.exists_cons_of_ne_nil h.1
    obtain ⟨b, more, hbytes, -⟩ := encodeChar_eq_cons c
    have hmark : ∀ d ∈ marks, d.toNat < 0x80 := by decide
    have hne : ∀ d ∈ marks, b ≠ d.toUInt8 := by
      rintro d hd rfl
      have hc : c = d := by
        apply (mem_encodeChar (hmark d hd)).mp
        rw [hbytes]
        exact List.mem_cons_self
      exact h.2 c List.mem_cons_self (hc ▸ hd)
    have hspace : isAsciiWhitespace b = false := by
      simp only [isAsciiWhitespace, Bool.or_eq_false_iff, decide_eq_false_iff_not]
      exact ⟨⟨⟨⟨hne ' ' (by decide), hne '\t' (by decide)⟩, hne '\n' (by decide)⟩,
        hne '\x0c' (by decide)⟩, hne '\r' (by decide)⟩
    rw [Token.text, encode_cons, hbytes, List.cons_append, List.cons_append,
      closes_of_not_whitespace hspace, decide_eq_false (hne '\x7d' (by decide)),
      decide_eq_false (hne ']' (by decide))]
    rfl

theorem closes_rendered {ts : List Token} {t : List Char} (h : Rendered false ts t)
    (hts : ∀ tok ∈ ts, tok.Lexes) : closes (encode t) = closesNext ts := by
  cases h with
  | done hg =>
    have hgap := closes_gap hg []
    rw [List.append_nil] at hgap
    exact hgap
  | line hcomments => cases hcomments
  | @token tok ts g t hg _ =>
    rw [encode_append, closes_gap hg, encode_append,
      closes_token (hts tok List.mem_cons_self)]
    rfl

/-- Code without quotes and commas is kept. -/
theorem makes_commaLoop_plain {text : List Char} (h : ∀ c ∈ text, c ≠ '"' ∧ c ≠ ',') :
    Makes commaLoop text text := by
  intro rest
  have hbytes : ∀ b ∈ encode text, b ≠ '"'.toUInt8 ∧ b ≠ ','.toUInt8 := by
    intro b hb
    constructor
    · rintro rfl
      exact (h '"' ((mem_encode (by decide)).mp hb)).1 rfl
    · rintro rfl
      exact (h ',' ((mem_encode (by decide)).mp hb)).2 rfl
  generalize encode text = bs at hbytes ⊢
  induction bs with
  | nil => rfl
  | cons b bs ih =>
    obtain ⟨hquote, hcomma⟩ := hbytes b List.mem_cons_self
    rw [List.cons_append, commaLoop_code hquote fun h => hcomma h.1,
      ih fun d hd => hbytes d (List.mem_cons_of_mem b hd)]
    rfl

theorem makes_commaLoop_gap {g : List Char} (h : Gap false g) : Makes commaLoop g g := by
  induction h with
  | nil => exact fun _ => rfl
  | @space c g hc _ ih =>
    have hplain : Makes commaLoop [c] [c] := by
      apply makes_commaLoop_plain
      rw [List.forall_mem_singleton]
      rcases hc with rfl | rfl | rfl | rfl
      · decide
      · decide
      · decide
      · decide
    exact hplain.append ih
  | line hcomments => cases hcomments
  | block hcomments => cases hcomments

theorem makes_commaLoop_token {tok : Token} (h : tok.Lexes) (hcomma : tok ≠ .mark .comma) :
    Makes commaLoop tok.text tok.text := by
  cases tok with
  | mark m =>
    apply makes_commaLoop_plain
    rw [Token.text, List.forall_mem_singleton]
    cases m with
    | comma => exact absurd rfl hcomma
    | _ => decide
  | string body =>
    obtain ⟨s, hs⟩ := h
    exact copiesStrings_commaLoop.makes_string hs
  | word text =>
    apply makes_commaLoop_plain
    intro c hc
    constructor
    · rintro rfl
      exact h.2 _ hc (by decide)
    · rintro rfl
      exact h.2 _ hc (by decide)

theorem Rendered.prepend {comments : Bool} {ts : List Token} {g t : List Char}
    (hg : Gap comments g) (h : Rendered comments ts t) : Rendered comments ts (g ++ t) := by
  cases h with
  | done hg' => exact Rendered.done (hg.append hg')
  | line hcomments hg' hbody =>
    rw [← List.append_assoc]
    exact Rendered.line hcomments (hg.append hg') hbody
  | token hg' h =>
    rw [← List.append_assoc]
    exact Rendered.token (hg.append hg') h

/-- The second pass drops the trailing commas. -/
theorem commaLoop_rendered {ts : List Token} {t : List Char} (h : Rendered false ts t)
    (hts : ∀ tok ∈ ts, tok.Lexes) :
    ∃ t', commaLoop false (encode t) = encode t' ∧ Rendered false (dropTrailing ts) t' ∧
      (dropTrailing ts = ts → t' = t) := by
  induction h with
  | @done g hg =>
    have hmade := makes_commaLoop_gap hg []
    rw [List.append_nil, commaLoop, List.append_nil] at hmade
    exact ⟨g, hmade, Rendered.done hg, fun _ => rfl⟩
  | line hcomments => cases hcomments
  | @token tok ts g t hg hrest ih =>
    obtain ⟨htok, hts⟩ := List.forall_mem_cons.mp hts
    obtain ⟨t', ht', hrendered, hsame⟩ := ih hts
    have hcloses := closes_rendered hrest hts
    by_cases hdrop : tok = .mark .comma ∧ closesNext ts = true
    · have htrailing : dropTrailing (tok :: ts) = dropTrailing ts := by
        rw [dropTrailing, if_pos hdrop]
      obtain ⟨rfl, hnext⟩ := hdrop
      refine ⟨g ++ ' ' :: t', ?_, ?_, ?_⟩
      · have hcomma : encode (Token.mark .comma).text = [','.toUInt8] := rfl
        have hspace : encode (' ' :: t') = ' '.toUInt8 :: encode t' := rfl
        rw [encode_append, makes_commaLoop_gap hg, encode_append, hcomma, List.singleton_append,
          commaLoop_comma (hcloses.trans hnext), ht', encode_append, hspace]
      · rw [htrailing]
        have hgap : Gap false [' '] := Gap.space (Or.inl rfl) Gap.nil
        exact (hrendered.prepend hgap).prepend hg
      · intro hall
        have hle := length_dropTrailing_le ts
        rw [htrailing] at hall
        rw [hall, List.length_cons] at hle
        exact absurd hle (Nat.not_succ_le_self _)
    · rw [dropTrailing_cons hdrop]
      refine ⟨g ++ (tok.text ++ t'), ?_, Rendered.token hg hrendered, ?_⟩
      · rw [encode_append, makes_commaLoop_gap hg, encode_append, encode_append, encode_append]
        by_cases hcomma : tok = .mark .comma
        · obtain rfl := hcomma
          have hopen : ¬ closes (encode t) = true := by
            rw [hcloses]
            exact fun h => hdrop ⟨rfl, h⟩
          have hcomma : encode (Token.mark .comma).text = [','.toUInt8] := rfl
          rw [hcomma, List.singleton_append, commaLoop_code (by decide) fun h => hopen h.2, ht']
          rfl
        · rw [makes_commaLoop_token htok hcomma, ht']
      · intro hall
        rw [hsame (List.cons.inj hall).2]

/-! ## Both passes -/

/-- Both passes over tokens: white space for the gaps, and no trailing commas. -/
theorem blankJsonc_rendered {comments : Bool} {ts : List Token} {text : String}
    (h : Rendered comments ts text.toList) (hts : ∀ tok ∈ ts, tok.Lexes) :
    Rendered false (dropTrailing ts) (blankJsonc text).toList ∧
      (comments = false → dropTrailing ts = ts → blankJsonc text = text) := by
  obtain ⟨t', ht', hblanked, hsame⟩ := blankLoop_rendered h hts
  obtain ⟨t'', ht'', hdropped, hsame'⟩ := commaLoop_rendered hblanked hts
  have hout : blankJsonc text = String.ofList t'' := by
    rw [blankJsonc, bytes_eq_encode, ht', ht'', fromUTF8?_encode, Option.getD_some]
  rw [hout, String.toList_ofList]
  refine ⟨hdropped, ?_⟩
  intro hcomments hall
  rw [hsame' hall, hsame hcomments, String.ofList_toList]

/-- Every text keeps its length, its line ends and the contents of its strings; JSON is kept whole,
and JSONC becomes JSON of the same value. -/
theorem blankJsonc_exact (number : NumberFormat) (text : String) :
    (bytes (blankJsonc text)).length = (bytes text).length ∧
      (∀ (b : UInt8) (i : Nat), IsEol b →
        ((bytes (blankJsonc text))[i]? = some b ↔ (bytes text)[i]? = some b)) ∧
      (∀ i, InString (bytes text) i → (bytes (blankJsonc text))[i]? = (bytes text)[i]?) ∧
      (∀ v, IsJson number text.toList v → blankJsonc text = text) ∧
      ∀ v, IsJsonc number text.toList v → IsJson number (blankJsonc text).toList v := by
  have hblanks := blanks_bytes text
  refine ⟨hblanks.kept.length_eq.symm, ?_, ?_, ?_, ?_⟩
  · intro b i hb
    exact getElem?_eq_eol hblanks.kept hb i
  · intro i hi
    exact hblanks.keeps (likeCode_code _) hi
  · rintro v ⟨ts, hdenotes, hrendered⟩
    obtain ⟨-, hsettled, -⟩ := hdenotes.settled
    exact (blankJsonc_rendered hrendered hdenotes.lexes).2 rfl (hsettled.strict rfl)
  · rintro v ⟨ts, hdenotes, hrendered⟩
    obtain ⟨-, -, hstrict⟩ := hdenotes.settled
    exact ⟨dropTrailing ts, hstrict, (blankJsonc_rendered hrendered hdenotes.lexes).1⟩

end Victauri.Cli.Jsonc
