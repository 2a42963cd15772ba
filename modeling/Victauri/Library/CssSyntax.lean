import Mathlib.Data.List.Basic

/-!
# The tokenizer of CSS Syntax Level 3

The tokens of a style sheet, by the algorithms of the CSS Syntax module: input
preprocessing, the consume algorithms, and the stream of tokens they give.  Each token
comes with the text it starts and the text that follows it.  Numeric tokens keep the text
of their number, not its value.
-/

namespace Victauri.Library.Css

/-! ## Code points -/

def isWhitespace (c : Char) : Bool := c == '\n' || c == '\t' || c == ' '

def isDigit (c : Char) : Bool := '0' ≤ c && c ≤ '9'

def isLetter (c : Char) : Bool := ('a' ≤ c && c ≤ 'z') || ('A' ≤ c && c ≤ 'Z')

/-- A letter, a non-ASCII code point or a low line. -/
def isIdentStart (c : Char) : Bool := isLetter c || 0x80 ≤ c.toNat || c == '_'

def isIdent (c : Char) : Bool := isIdentStart c || isDigit c || c == '-'

def hexDigit (c : Char) : Option Nat :=
  if '0' ≤ c ∧ c ≤ '9' then some (c.toNat - '0'.toNat)
  else if 'a' ≤ c ∧ c ≤ 'f' then some (c.toNat - 'a'.toNat + 10)
  else if 'A' ≤ c ∧ c ≤ 'F' then some (c.toNat - 'A'.toNat + 10)
  else none

def isNonPrintable (c : Char) : Bool :=
  c.toNat ≤ 8 || c.toNat == 0xb || (0xe ≤ c.toNat && c.toNat ≤ 0x1f) || c.toNat == 0x7f

/-- Preprocessing of the input. -/
def preprocess : List Char → List Char
  | [] => []
  | '\r' :: '\n' :: rest => '\n' :: preprocess rest
  | c :: rest =>
      (if c = '\r' ∨ c = '\x0c' then '\n' else if c = '\x00' then '\ufffd' else c) ::
        preprocess rest

/-! ## What the text starts with -/

/-- Two code points are a valid escape; the end of the text is no newline. -/
def validEscape : List Char → Bool
  | '\\' :: '\n' :: _ => false
  | '\\' :: _ => true
  | _ => false

/-- Three code points would start an ident sequence. -/
def startsIdent : List Char → Bool
  | '-' :: rest => rest.head?.any (fun c => isIdentStart c || c == '-') || validEscape rest
  | '\\' :: rest => validEscape ('\\' :: rest)
  | c :: _ => isIdentStart c
  | [] => false

/-- Three code points would start a number. -/
def startsNumber : List Char → Bool
  | c :: rest =>
      if c = '+' ∨ c = '-' then
        match rest with
        | '.' :: d :: _ => isDigit d
        | d :: _ => isDigit d
        | [] => false
      else if c = '.' then rest.head?.any isDigit
      else isDigit c
  | [] => false

/-- The text continues an ident sequence. -/
def continuesIdent (cs : List Char) : Bool := cs.head?.any isIdent || validEscape cs

/-! ## Consuming -/

/-- What follows the first `*/`, or nothing. -/
def afterComment : List Char → List Char
  | '*' :: '/' :: rest => rest
  | _ :: rest => afterComment rest
  | [] => []

theorem afterComment_length_le (cs : List Char) : (afterComment cs).length ≤ cs.length := by
  fun_induction afterComment cs with
  | case1 rest => simp only [List.length_cons]; omega
  | case2 c rest _ ih => exact Nat.le_succ_of_le ih
  | case3 => exact Nat.le_refl _

/-- Consume comments. -/
def consumeComments (cs : List Char) : List Char :=
  match cs with
  | '/' :: '*' :: rest => consumeComments (afterComment rest)
  | cs => cs
termination_by cs.length
decreasing_by
  have hle := afterComment_length_le rest
  simp only [List.length_cons]
  omega

/-- The value of hexadecimal digits. -/
def hexValue (ds : List Char) : Nat := ds.foldl (fun n c => n * 16 + (hexDigit c).getD 0) 0

/-- The code point an escape with this value stands for. -/
def escapedChar (value : Nat) : Char :=
  if value = 0 ∨ ¬value.isValidChar then '\ufffd' else Char.ofNat value

/-- Consume an escaped code point, just past the backslash. -/
def consumeEscaped : List Char → Char × List Char
  | [] => ('\ufffd', [])
  | c :: rest =>
      if (hexDigit c).isSome then
        let digits := ((c :: rest).take 6).takeWhile fun d => (hexDigit d).isSome
        let rest := (c :: rest).drop digits.length
        (escapedChar (hexValue digits),
          if rest.head?.any isWhitespace then rest.drop 1 else rest)
      else (c, rest)

theorem consumeEscaped_length_le (cs : List Char) : (consumeEscaped cs).2.length ≤ cs.length := by
  unfold consumeEscaped
  split
  · exact Nat.le_refl _
  · split
    · dsimp only
      split <;> simp only [List.length_drop] <;> omega
    · exact Nat.le_succ _

/-- Consume an ident sequence. -/
def consumeIdent (cs : List Char) : List Char × List Char :=
  match cs with
  | [] => ([], [])
  | c :: rest =>
      if isIdent c then
        let r := consumeIdent rest
        (c :: r.1, r.2)
      else if validEscape (c :: rest) then
        let e := consumeEscaped rest
        let r := consumeIdent e.2
        (e.1 :: r.1, r.2)
      else ([], c :: rest)
termination_by cs.length
decreasing_by
  · simp
  · have hle := consumeEscaped_length_le rest
    simp only [List.length_cons]
    omega

/-- Consume a string token; a bad string has no value. -/
def consumeString (quote : Char) (cs : List Char) : Option (List Char) × List Char :=
  match cs with
  | [] => (some [], [])
  | c :: rest =>
      if c = quote then (some [], rest)
      else if c = '\n' then (none, c :: rest)
      else if c = '\\' then
        match rest with
        | [] => (some [], [])
        | '\n' :: rest => consumeString quote rest
        | d :: rest =>
            let e := consumeEscaped (d :: rest)
            let r := consumeString quote e.2
            (r.1.map (e.1 :: ·), r.2)
      else
        let r := consumeString quote rest
        (r.1.map (c :: ·), r.2)
termination_by cs.length
decreasing_by
  · simp only [List.length_cons]
    omega
  · have hle := consumeEscaped_length_le (d :: rest)
    simp only [List.length_cons] at hle ⊢
    omega
  · simp

/-- Consume the remnants of a bad url. -/
def consumeBadUrl (cs : List Char) : List Char :=
  match cs with
  | [] => []
  | ')' :: rest => rest
  | c :: rest =>
      if validEscape (c :: rest) then consumeBadUrl (consumeEscaped rest).2
      else consumeBadUrl rest
termination_by cs.length
decreasing_by
  · have hle := consumeEscaped_length_le rest
    simp only [List.length_cons]
    omega
  · simp

/-- Consume a url token, past the white space at its start; a bad url has no value. -/
def consumeUrl (cs : List Char) : Option (List Char) × List Char :=
  match cs with
  | [] => (some [], [])
  | c :: rest =>
      if c = ')' then (some [], rest)
      else if isWhitespace c then
        match rest.dropWhile isWhitespace with
        | [] => (some [], [])
        | ')' :: rest => (some [], rest)
        | rest => (none, consumeBadUrl rest)
      else if c = '"' ∨ c = '\'' ∨ c = '(' ∨ isNonPrintable c then (none, consumeBadUrl rest)
      else if c = '\\' then
        if validEscape (c :: rest) then
          let e := consumeEscaped rest
          let r := consumeUrl e.2
          (r.1.map (e.1 :: ·), r.2)
        else (none, consumeBadUrl rest)
      else
        let r := consumeUrl rest
        (r.1.map (c :: ·), r.2)
termination_by cs.length
decreasing_by
  · have hle := consumeEscaped_length_le rest
    simp only [List.length_cons]
    omega
  · simp

/-- What follows a sign that may be there. -/
def dropSign : List Char → List Char
  | '+' :: rest => rest
  | '-' :: rest => rest
  | cs => cs

/-- Consume the fraction and the exponent of a number. -/
def consumeFraction : List Char → List Char
  | '.' :: d :: rest => if isDigit d then rest.dropWhile isDigit else '.' :: d :: rest
  | cs => cs

def consumeExponent : List Char → List Char
  | e :: rest =>
      if (e = 'e' ∨ e = 'E') ∧ (dropSign rest).head?.any isDigit then
        (dropSign rest).dropWhile isDigit
      else e :: rest
  | [] => []

/-- Consume a number: its text, and what follows it. -/
def consumeNumber (cs : List Char) : List Char × List Char :=
  let rest := consumeExponent (consumeFraction ((dropSign cs).dropWhile isDigit))
  (cs.take (cs.length - rest.length), rest)

/-! ## Tokens -/

inductive Token where
  | whitespace
  | ident (name : List Char)
  | function (name : List Char)
  | atKeyword (name : List Char)
  | hash (name : List Char)
  | string (value : List Char)
  | badString
  | url (value : List Char)
  | badUrl
  | number (text : List Char)
  | percentage (text : List Char)
  | dimension (text unit : List Char)
  | cdo
  | cdc
  | leftParen
  | rightParen
  /-- One of `,` `:` `;` `[` `]` `{` `}`. -/
  | punctuation (c : Char)
  | delim (c : Char)
  deriving DecidableEq

def consumeNumeric (cs : List Char) : Token × List Char :=
  let number := consumeNumber cs
  if startsIdent number.2 then
    let unit := consumeIdent number.2
    (.dimension number.1 unit.1, unit.2)
  else if number.2.head? = some '%' then (.percentage number.1, number.2.drop 1)
  else (.number number.1, number.2)

/-- `name` is `word`, but for ASCII case. -/
def isWord (word : String) (name : List Char) : Bool := name.map Char.toLower == word.toList

/-- A quotation mark comes next, but for white space. -/
def quoteAhead (cs : List Char) : Bool :=
  (cs.dropWhile isWhitespace).head?.any fun c => c == '"' || c == '\''

def consumeIdentLike (cs : List Char) : Token × List Char :=
  let name := consumeIdent cs
  match name.2 with
  | '(' :: rest =>
      if isWord "url" name.1 && !quoteAhead rest then
        let url := consumeUrl (rest.dropWhile isWhitespace)
        ((match url.1 with | some value => .url value | none => .badUrl), url.2)
      else (.function name.1, rest)
  | rest => (.ident name.1, rest)

def isPunctuation (c : Char) : Bool := [',', ':', ';', '[', ']', '\x7b', '\x7d'].contains c

/-- Which kind of token a text starts with. -/
inductive Start where
  | whitespace
  | quote
  | hash
  | leftParen
  | rightParen
  | punctuation
  | number
  | cdc
  | cdo
  | atKeyword
  | identLike
  | other

def startOf (c : Char) (rest : List Char) : Start :=
  if isWhitespace c then .whitespace
  else if c = '"' ∨ c = '\'' then .quote
  else if c = '#' then .hash
  else if c = '(' then .leftParen
  else if c = ')' then .rightParen
  else if isPunctuation c then .punctuation
  else if startsNumber (c :: rest) then .number
  else if c = '-' ∧ ['-', '>'].isPrefixOf rest then .cdc
  else if c = '<' ∧ ['!', '-', '-'].isPrefixOf rest then .cdo
  else if c = '@' ∧ startsIdent rest then .atKeyword
  else if startsIdent (c :: rest) then .identLike
  else .other

/-- Consume a token that starts with `c`. -/
def consumeToken (c : Char) (rest : List Char) : Token × List Char :=
  match startOf c rest with
  | .whitespace => (.whitespace, rest.dropWhile isWhitespace)
  | .quote =>
      let s := consumeString c rest
      ((match s.1 with | some value => .string value | none => .badString), s.2)
  | .hash =>
      if continuesIdent rest then
        let name := consumeIdent rest
        (.hash name.1, name.2)
      else (.delim c, rest)
  | .leftParen => (.leftParen, rest)
  | .rightParen => (.rightParen, rest)
  | .punctuation => (.punctuation c, rest)
  | .number => consumeNumeric (c :: rest)
  | .cdc => (.cdc, rest.drop 2)
  | .cdo => (.cdo, rest.drop 3)
  | .atKeyword =>
      let name := consumeIdent rest
      (.atKeyword name.1, name.2)
  | .identLike => consumeIdentLike (c :: rest)
  | .other => (.delim c, rest)

/-- What is known of a text that starts with a token of this kind. -/
def Start.Holds (c : Char) (rest : List Char) : Start → Prop
  | .whitespace => isWhitespace c = true
  | .quote => c = '"' ∨ c = '\''
  | .hash => c = '#'
  | .leftParen => c = '('
  | .rightParen => c = ')'
  | .punctuation => isPunctuation c = true
  | .number => startsNumber (c :: rest) = true
  | .cdc => c = '-' ∧ ∃ after, rest = '-' :: '>' :: after
  | .cdo => c = '<' ∧ ∃ after, rest = '!' :: '-' :: '-' :: after
  | .atKeyword => c = '@' ∧ startsIdent rest = true
  | .identLike => startsIdent (c :: rest) = true
  | .other =>
      c ≠ '"' ∧ c ≠ '\'' ∧ c ≠ '(' ∧ c ≠ ')' ∧ (c = '@' → startsIdent rest = false) ∧
        startsNumber (c :: rest) = false ∧ startsIdent (c :: rest) = false

theorem startOf_holds (c : Char) (rest : List Char) : (startOf c rest).Holds c rest := by
  unfold startOf
  by_cases hws : isWhitespace c
  · rw [if_pos hws]
    exact hws
  rw [if_neg hws]
  by_cases hquote : c = '"' ∨ c = '\''
  · rw [if_pos hquote]
    exact hquote
  rw [if_neg hquote]
  by_cases hhash : c = '#'
  · rw [if_pos hhash]
    exact hhash
  rw [if_neg hhash]
  by_cases hleft : c = '('
  · rw [if_pos hleft]
    exact hleft
  rw [if_neg hleft]
  by_cases hright : c = ')'
  · rw [if_pos hright]
    exact hright
  rw [if_neg hright]
  by_cases hpunctuation : isPunctuation c
  · rw [if_pos hpunctuation]
    exact hpunctuation
  rw [if_neg hpunctuation]
  by_cases hnumber : startsNumber (c :: rest)
  · rw [if_pos hnumber]
    exact hnumber
  rw [if_neg hnumber]
  by_cases hcdc : c = '-' ∧ ['-', '>'].isPrefixOf rest
  · rw [if_pos hcdc]
    obtain ⟨after, rfl⟩ := List.isPrefixOf_iff_prefix.mp hcdc.2
    exact ⟨hcdc.1, after, rfl⟩
  rw [if_neg hcdc]
  by_cases hcdo : c = '<' ∧ ['!', '-', '-'].isPrefixOf rest
  · rw [if_pos hcdo]
    obtain ⟨after, rfl⟩ := List.isPrefixOf_iff_prefix.mp hcdo.2
    exact ⟨hcdo.1, after, rfl⟩
  rw [if_neg hcdo]
  by_cases hat : c = '@' ∧ startsIdent rest
  · rw [if_pos hat]
    exact hat
  rw [if_neg hat]
  by_cases hident : startsIdent (c :: rest)
  · rw [if_pos hident]
    exact hident
  rw [if_neg hident]
  rw [not_or] at hquote
  exact ⟨hquote.1, hquote.2, hleft, hright, fun h => by simpa [h] using hat,
    by simpa using hnumber, by simpa using hident⟩

/-! ## First characters -/

theorem isIdentStart_of_isDigit {c : Char} (h : isDigit c = true) : isIdentStart c = false := by
  simp only [isDigit, Bool.and_eq_true, decide_eq_true_eq, Char.le_def,
    UInt32.le_iff_toNat_le] at h
  have hnine : '9'.val.toNat = 57 := rfl
  have hunderscore : c ≠ '_' := by
    rintro rfl
    exact absurd h.2 (by decide)
  simp only [isIdentStart, isLetter, Bool.or_eq_false_iff, Bool.and_eq_false_iff,
    decide_eq_false_iff_not, beq_eq_false_iff_ne, Char.le_def, UInt32.le_iff_toNat_le]
  have hlower : 'a'.val.toNat = 97 := rfl
  have hupper : 'A'.val.toNat = 65 := rfl
  have hnat : c.toNat = c.val.toNat := rfl
  exact ⟨⟨⟨.inl (by omega), .inl (by omega)⟩, by omega⟩, hunderscore⟩

theorem validEscape_of_ne {c : Char} (h : c ≠ '\\') (rest : List Char) :
    validEscape (c :: rest) = false := by
  unfold validEscape
  split
  · exact absurd (List.cons.inj ‹_›).1 h
  · exact absurd (List.cons.inj ‹_›).1 h
  · rfl

theorem startsIdent_cons {c : Char} (hminus : c ≠ '-') (hescape : c ≠ '\\')
    (rest : List Char) : startsIdent (c :: rest) = isIdentStart c := by
  unfold startsIdent
  split
  · exact absurd (List.cons.inj ‹_›).1 hminus
  · exact absurd (List.cons.inj ‹_›).1 hescape
  · rename_i heq
    rw [(List.cons.inj heq).1]
  · contradiction

theorem startsIdent_minus (c : Char) (rest : List Char) :
    startsIdent ('-' :: c :: rest) = (isIdentStart c || c == '-' || validEscape (c :: rest)) := rfl

theorem startsNumber_of_isDigit {c : Char} (h : isDigit c = true) (rest : List Char) :
    startsNumber (c :: rest) = true := by
  have hne {d : Char} (hd : isDigit d = false) : c ≠ d := by
    rintro rfl
    rw [h] at hd
    cases hd
  unfold startsNumber
  dsimp only
  rw [if_neg (not_or.mpr ⟨hne rfl, hne rfl⟩), if_neg (hne rfl)]
  exact h

theorem startsNumber_minus {c : Char} (h : isDigit c = true) (rest : List Char) :
    startsNumber ('-' :: c :: rest) = true := by
  unfold startsNumber
  dsimp only
  rw [if_pos (.inr rfl)]
  split
  · rename_i heq
    rw [(List.cons.inj heq).1] at h
    cases h
  · rename_i heq
    rw [← (List.cons.inj heq).1]
    exact h
  · contradiction

theorem consumeIdentLike_ident {cs : List Char}
    (h : ∀ inside, (consumeIdent cs).2 ≠ '(' :: inside) :
    consumeIdentLike cs = (.ident (consumeIdent cs).1, (consumeIdent cs).2) := by
  unfold consumeIdentLike
  dsimp only
  split
  · exact absurd ‹_› (h _)
  · rfl

theorem consumeIdentLike_open {cs inside : List Char}
    (h : (consumeIdent cs).2 = '(' :: inside) :
    consumeIdentLike cs =
      if isWord "url" (consumeIdent cs).1 && !quoteAhead inside then
        let url := consumeUrl (inside.dropWhile isWhitespace)
        ((match url.1 with | some value => .url value | none => .badUrl), url.2)
      else (.function (consumeIdent cs).1, inside) := by
  unfold consumeIdentLike
  dsimp only
  rw [h]
  rfl

/-! ## Every token takes some text -/

theorem consumeIdent_length_le (cs : List Char) : (consumeIdent cs).2.length ≤ cs.length := by
  fun_induction consumeIdent cs with
  | case1 => exact Nat.le_refl _
  | case2 c rest _ r ih => exact Nat.le_succ_of_le ih
  | case3 c rest _ _ e r ih =>
      have hle := consumeEscaped_length_le rest
      exact Nat.le_succ_of_le (Nat.le_trans ih hle)
  | case4 => exact Nat.le_refl _

theorem consumeIdent_progress {c : Char} {rest : List Char}
    (h : continuesIdent (c :: rest) = true) : (consumeIdent (c :: rest)).2.length ≤ rest.length := by
  rw [consumeIdent]
  split_ifs with hident hescape
  · exact consumeIdent_length_le rest
  · exact Nat.le_trans (consumeIdent_length_le _) (consumeEscaped_length_le rest)
  · simp [continuesIdent, hident, hescape] at h

theorem consumeIdent_of_not_continues {cs : List Char} (h : continuesIdent cs = false) :
    consumeIdent cs = ([], cs) := by
  cases cs with
  | nil => rw [consumeIdent]
  | cons c rest =>
      obtain ⟨hident, hescape⟩ := Bool.or_eq_false_iff.mp h
      have hident : isIdent c = false := hident
      rw [consumeIdent, hident, if_neg Bool.false_ne_true, hescape, if_neg Bool.false_ne_true]

/-- An ident sequence is consumed whole. -/
theorem continuesIdent_consumeIdent (cs : List Char) :
    continuesIdent (consumeIdent cs).2 = false := by
  fun_induction consumeIdent cs with
  | case1 => rfl
  | case2 c rest _ r ih => exact ih
  | case3 c rest _ _ e r ih => exact ih
  | case4 c rest hident hescape =>
      rw [continuesIdent, Bool.or_eq_false_iff]
      exact ⟨Bool.not_eq_true _ ▸ hident, Bool.not_eq_true _ ▸ hescape⟩

theorem continuesIdent_of_startsIdent {cs : List Char} (h : startsIdent cs = true) :
    continuesIdent cs = true := by
  unfold startsIdent at h
  split at h
  · rfl
  · rw [continuesIdent, h, Bool.or_true]
  · simp [continuesIdent, isIdent, h]
  · cases h

theorem consumeString_length_le (quote : Char) (cs : List Char) :
    (consumeString quote cs).2.length ≤ cs.length := by
  fun_induction consumeString quote cs with
  | case1 => exact Nat.le_refl _
  | case2 => exact Nat.le_succ _
  | case3 => exact Nat.le_refl _
  | case4 => exact Nat.zero_le _
  | case5 _ _ rest ih =>
      simp only [List.length_cons]
      omega
  | case6 =>
      rename_i d rest _ e _ _ _ ih
      have hle := Nat.le_trans ih (consumeEscaped_length_le (d :: rest))
      exact Nat.le_succ_of_le hle
  | case7 _ _ _ _ _ r ih => exact Nat.le_succ_of_le ih

theorem consumeBadUrl_length_le (cs : List Char) : (consumeBadUrl cs).length ≤ cs.length := by
  fun_induction consumeBadUrl cs with
  | case1 => exact Nat.le_refl _
  | case2 => exact Nat.le_succ _
  | case3 c rest _ _ ih =>
      exact Nat.le_succ_of_le (Nat.le_trans ih (consumeEscaped_length_le rest))
  | case4 c rest _ _ ih => exact Nat.le_succ_of_le ih

theorem dropWhile_length_le (p : Char → Bool) (cs : List Char) :
    (cs.dropWhile p).length ≤ cs.length :=
  (List.dropWhile_suffix p).length_le

theorem consumeUrl_length_le (cs : List Char) : (consumeUrl cs).2.length ≤ cs.length := by
  fun_induction consumeUrl cs with
  | case1 => exact Nat.le_refl _
  | case2 => exact Nat.le_succ _
  | case3 => exact Nat.zero_le _
  | case4 c rest _ _ after heq =>
      have hle := dropWhile_length_le isWhitespace rest
      simp only [heq, List.length_cons] at hle ⊢
      omega
  | case5 c rest _ _ _ _ =>
      have hle := dropWhile_length_le isWhitespace rest
      have hbad := consumeBadUrl_length_le (rest.dropWhile isWhitespace)
      simp only [List.length_cons]
      omega
  | case6 c rest => exact Nat.le_succ_of_le (consumeBadUrl_length_le rest)
  | case7 =>
      rename_i rest e _ _ _ _ _ ih
      exact Nat.le_succ_of_le (Nat.le_trans ih (consumeEscaped_length_le rest))
  | case8 =>
      rename_i rest _ _ _ _
      exact Nat.le_succ_of_le (consumeBadUrl_length_le rest)
  | case9 c rest _ _ _ _ r ih => exact Nat.le_succ_of_le ih

theorem dropSign_length_le (cs : List Char) : (dropSign cs).length ≤ cs.length := by
  unfold dropSign
  split
  · exact Nat.le_succ _
  · exact Nat.le_succ _
  · exact Nat.le_refl _

theorem dropSign_of_not_sign {c : Char} (h : ¬(c = '+' ∨ c = '-')) (rest : List Char) :
    dropSign (c :: rest) = c :: rest := by
  unfold dropSign
  split
  · rename_i heq
    exact absurd (.inl (List.cons.inj heq).1) h
  · rename_i heq
    exact absurd (.inr (List.cons.inj heq).1) h
  · rfl

theorem consumeFraction_length_le (cs : List Char) :
    (consumeFraction cs).length ≤ cs.length := by
  unfold consumeFraction
  split
  · rename_i d rest
    split
    · have hle := dropWhile_length_le isDigit rest
      simp only [List.length_cons]
      omega
    · exact Nat.le_refl _
  · exact Nat.le_refl _

theorem consumeExponent_length_le (cs : List Char) :
    (consumeExponent cs).length ≤ cs.length := by
  unfold consumeExponent
  split
  · rename_i e rest
    split
    · have hle := dropWhile_length_le isDigit (dropSign rest)
      have hsign := dropSign_length_le rest
      simp only [List.length_cons]
      omega
    · exact Nat.le_refl _
  · exact Nat.le_refl _

theorem consumeNumber_progress {c : Char} {rest : List Char}
    (h : startsNumber (c :: rest) = true) : (consumeNumber (c :: rest)).2.length ≤ rest.length := by
  refine Nat.le_trans (consumeExponent_length_le _) ?_
  have hsigned (cs : List Char) :
      (consumeFraction (cs.dropWhile isDigit)).length ≤ cs.length :=
    Nat.le_trans (consumeFraction_length_le _) (dropWhile_length_le _ _)
  by_cases hsign : c = '+' ∨ c = '-'
  · rcases hsign with rfl | rfl <;> exact hsigned rest
  · rw [dropSign_of_not_sign hsign]
    unfold startsNumber at h
    simp only [if_neg hsign] at h
    split_ifs at h with hdot
    · subst hdot
      cases rest with
      | nil => cases h
      | cons d rest =>
          have hd : isDigit d = true := h
          have hle := dropWhile_length_le isDigit rest
          have hdigit : isDigit '.' = false := rfl
          rw [List.dropWhile_cons, hdigit, if_neg Bool.false_ne_true, consumeFraction, hd,
            if_pos rfl, List.length_cons]
          omega
    · rw [List.dropWhile_cons, h, if_pos rfl]
      exact hsigned rest

theorem consumeNumeric_length_le (cs : List Char) :
    (consumeNumeric cs).2.length ≤ (consumeNumber cs).2.length := by
  unfold consumeNumeric
  dsimp only
  split_ifs
  · exact consumeIdent_length_le _
  · simp
  · exact Nat.le_refl _

theorem consumeIdentLike_length_le (cs : List Char) :
    (consumeIdentLike cs).2.length ≤ (consumeIdent cs).2.length := by
  unfold consumeIdentLike
  dsimp only
  split
  · rename_i rest heq
    rw [heq]
    split_ifs
    · have hle := consumeUrl_length_le (rest.dropWhile isWhitespace)
      have hdrop := dropWhile_length_le isWhitespace rest
      simp only [List.length_cons]
      omega
    · exact Nat.le_succ _
  · exact Nat.le_refl _

theorem consumeToken_length_le (c : Char) (rest : List Char) :
    (consumeToken c rest).2.length ≤ rest.length := by
  have hholds := startOf_holds c rest
  unfold consumeToken
  cases hstart : startOf c rest with
  | whitespace => exact dropWhile_length_le _ _
  | quote => exact consumeString_length_le _ _
  | hash =>
      dsimp only
      split
      · exact consumeIdent_length_le _
      · exact Nat.le_refl _
  | leftParen | rightParen | punctuation | other => exact Nat.le_refl _
  | number =>
      rw [hstart] at hholds
      exact Nat.le_trans (consumeNumeric_length_le _) (consumeNumber_progress hholds)
  | cdc | cdo =>
      rw [List.length_drop]
      exact Nat.sub_le _ _
  | atKeyword => exact consumeIdent_length_le _
  | identLike =>
      rw [hstart] at hholds
      exact Nat.le_trans (consumeIdentLike_length_le _)
        (consumeIdent_progress (continuesIdent_of_startsIdent hholds))

theorem consumeComments_length_le (cs : List Char) : (consumeComments cs).length ≤ cs.length := by
  fun_induction consumeComments cs with
  | case1 rest ih =>
      have hle := afterComment_length_le rest
      simp only [List.length_cons]
      omega
  | case2 => exact Nat.le_refl _

/-- A token, the text it starts and the text that follows it. -/
structure Lexeme where
  start : List Char
  token : Token
  rest : List Char

/-- The tokens of a text; comments are dropped. -/
def stream (cs : List Char) : List Lexeme :=
  match _h : consumeComments cs with
  | [] => []
  | c :: rest =>
      let t := consumeToken c rest
      ⟨c :: rest, t.1, t.2⟩ :: stream t.2
termination_by cs.length
decreasing_by
  have hle := consumeComments_length_le cs
  have hlt := consumeToken_length_le c rest
  rw [_h, List.length_cons] at hle
  omega

theorem stream_nil : stream [] = [] := by
  have hnil : consumeComments [] = [] := by rw [consumeComments.eq_def]
  unfold stream
  split
  · rfl
  · rename_i heq
    rw [hnil] at heq
    cases heq

def tokens (cs : List Char) : List Token := (stream cs).map Lexeme.token

end Victauri.Library.Css
