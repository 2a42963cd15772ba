import Mathlib.Data.List.Basic

/-!
# The tokenizer of SQLite

The tokens of an SQL text, as `sqlite3GetToken` cuts them.  A text is a list of characters with
their places and has no `U+0000`, which ends a text.  A token keeps its characters.
-/

namespace Victauri.Library.Sqlite

/-- A character and where it stands. -/
structure Placed where
  char : Char
  pos : Nat
  deriving DecidableEq

/-! ## Characters -/

/-- `sqlite3Isspace`. -/
def isSpace (c : Char) : Bool :=
  c == ' ' || c == '\t' || c == '\n' || c == '\x0b' || c == '\x0c' || c == '\r'

def isDigit (c : Char) : Bool := '0' ≤ c && c ≤ '9'

def isLetter (c : Char) : Bool := ('a' ≤ c && c ≤ 'z') || ('A' ≤ c && c ≤ 'Z')

def isHexDigit (c : Char) : Bool :=
  isDigit c || ('a' ≤ c && c ≤ 'f') || ('A' ≤ c && c ≤ 'F')

/-- `IdChar`: every byte from `0x80` on is one. -/
def isIdChar (c : Char) : Bool :=
  isLetter c || isDigit c || c == '_' || c == '$' || 0x80 ≤ c.toNat

/-- U+FEFF. -/
def byteOrderMark : Char := '\ufeff'

/-! ## Tokens -/

inductive Kind where
  | space
  | comment
  | semi
  | lp
  | rp
  | string
  | word
  | number
  | parameter
  | blob
  | operator
  | illegal
  deriving DecidableEq

/-- A token: its kind, its characters, and the text that follows. -/
structure Token where
  kind : Kind
  text : List Placed
  rest : List Placed

/-- The text goes on with `c`. -/
def next (ps : List Placed) (c : Char) : Bool := ps.head?.any fun p => p.char == c

def nextDigit (ps : List Placed) : Bool := ps.head?.any fun p => isDigit p.char

/-- Characters of one sort. -/
def run (sort : Char → Bool) (ps : List Placed) : List Placed := ps.takeWhile fun p => sort p.char

def afterRun (sort : Char → Bool) (ps : List Placed) : List Placed :=
  ps.dropWhile fun p => sort p.char

/-- A token of a first character and a run. -/
def cutRun (kind : Kind) (sort : Char → Bool) (p : Placed) (ps : List Placed) : Token :=
  ⟨kind, p :: run sort ps, afterRun sort ps⟩

/-- The rest of a block comment; `prev` is the character before. -/
def cutBlock (prev : Char) : List Placed → List Placed × List Placed
  | [] => ([], [])
  | p :: ps =>
      if prev = '*' ∧ p.char = '/' then ([p], ps)
      else
        let (text, rest) := cutBlock p.char ps
        (p :: text, rest)

/-- The rest of a literal in quotes, which are doubled inside; whether it is closed. -/
def cutQuoted (delim : Char) : List Placed → Bool × List Placed × List Placed
  | [] => (false, [], [])
  | p :: ps =>
      if p.char = delim then
        match ps with
        | q :: qs =>
            if q.char = delim then
              let (closed, text, rest) := cutQuoted delim qs
              (closed, p :: q :: text, rest)
            else (true, [p], q :: qs)
        | [] => (true, [p], [])
      else
        let (closed, text, rest) := cutQuoted delim ps
        (closed, p :: text, rest)

/-- Up to a closing character, with it. -/
def cutClosed (close : Char) (ps : List Placed) : Bool × List Placed × List Placed :=
  match afterRun (· != close) ps with
  | p :: rest => (true, run (· != close) ps ++ [p], rest)
  | [] => (false, run (· != close) ps, [])

/-- `TK_BLOB`, from its letter and its quotation mark on: hexadecimal digits in pairs. -/
def cutBlob (letter quote : Placed) (ps : List Placed) : Token :=
  let (closed, text, rest) := cutClosed '\'' ps
  let paired := (run isHexDigit ps).length % 2 == 0
  ⟨if closed && next (afterRun isHexDigit ps) '\'' && paired then .blob else .illegal,
    letter :: quote :: text, rest⟩

/-- Digits, with separators. -/
def isNumberDigit (c : Char) : Bool := isDigit c || c == '_'

/-- A fraction, if there is one. -/
def cutFraction (ps : List Placed) : List Placed × List Placed :=
  match ps with
  | p :: rest =>
      if p.char = '.' then (p :: run isNumberDigit rest, afterRun isNumberDigit rest)
      else ([], ps)
  | [] => ([], [])

/-- An exponent, if there is one. -/
def cutExponent (ps : List Placed) : List Placed × List Placed :=
  match ps with
  | p :: q :: rest =>
      if (p.char = 'e' ∨ p.char = 'E') ∧ isDigit q.char then
        (p :: run isNumberDigit (q :: rest), afterRun isNumberDigit (q :: rest))
      else if (p.char = 'e' ∨ p.char = 'E') ∧ (q.char = '+' ∨ q.char = '-') ∧ nextDigit rest then
        (p :: q :: run isNumberDigit rest, afterRun isNumberDigit rest)
      else ([], ps)
  | _ => ([], ps)

/-- Digits, a fraction and an exponent. -/
def cutDecimal (ps : List Placed) : List Placed × List Placed :=
  let (fraction, rest) := cutFraction (afterRun isNumberDigit ps)
  let (exponent, rest) := cutExponent rest
  (run isNumberDigit ps ++ fraction ++ exponent, rest)

/-- The digits of a hexadecimal integer, if this is one. -/
def cutHex (ps : List Placed) : Option (List Placed × List Placed) :=
  match ps with
  | zero :: x :: digit :: rest =>
      if zero.char = '0' ∧ (x.char = 'x' ∨ x.char = 'X') ∧ isHexDigit digit.char then
        let sort : Char → Bool := fun c => isHexDigit c || c == '_'
        some (zero :: x :: run sort (digit :: rest), afterRun sort (digit :: rest))
      else none
  | _ => none

/-- A number; with identifier characters after it, it is no token of the language. -/
def cutNumber (ps : List Placed) : Token :=
  let (text, rest) := (cutHex ps).getD (cutDecimal ps)
  ⟨if (run isIdChar rest).isEmpty then .number else .illegal, text ++ run isIdChar rest,
    afterRun isIdChar rest⟩

/-- The name of a parameter: identifier characters and pairs of colons. -/
def cutName : List Placed → List Placed × List Placed
  | [] => ([], [])
  | p :: ps =>
      if isIdChar p.char then
        let (text, rest) := cutName ps
        (p :: text, rest)
      else if p.char = ':' then
        match ps with
        | q :: qs =>
            if q.char = ':' then
              let (text, rest) := cutName qs
              (p :: q :: text, rest)
            else ([], p :: q :: qs)
        | [] => ([], [p])
      else ([], p :: ps)

/-- The bracketed suffix of a parameter, up to `)` or white space; whether it is closed. -/
def cutSuffix (ps : List Placed) : Bool × List Placed × List Placed :=
  let sort : Char → Bool := fun c => !isSpace c && c != ')'
  match afterRun sort ps with
  | p :: rest =>
      if p.char = ')' then (true, run sort ps ++ [p], rest) else (false, run sort ps, p :: rest)
  | [] => (false, run sort ps, [])

/-- A named parameter: its name, and perhaps a suffix. -/
def cutParameter (p : Placed) (ps : List Placed) : Token :=
  let (name, rest) := cutName ps
  if name.any fun q => isIdChar q.char then
    if next rest '(' then
      let (closed, suffix, rest) := cutSuffix rest
      ⟨if closed then .parameter else .illegal, p :: (name ++ suffix), rest⟩
    else ⟨.parameter, p :: name, rest⟩
  else ⟨.illegal, p :: name, rest⟩

/-- A token of `n` more characters. -/
def cutTake (kind : Kind) (n : Nat) (p : Placed) (ps : List Placed) : Token :=
  ⟨kind, p :: ps.take n, ps.drop n⟩

/-- `aiClass`: what a token's first character tells. -/
inductive CharClass where
  | space
  | minus
  | slash
  | semi
  | lp
  | rp
  | quote
  | bracket
  | digit
  | dot
  | question
  | sigil
  | x
  | word
  | bom
  | comparison
  | operator
  | illegal
  deriving DecidableEq

/-- The characters of a class. -/
def CharClass.has : CharClass → Char → Bool
  | .space, c => isSpace c
  | .minus, c => c == '-'
  | .slash, c => c == '/'
  | .semi, c => c == ';'
  | .lp, c => c == '('
  | .rp, c => c == ')'
  | .quote, c => c == '\'' || c == '"' || c == '`'
  | .bracket, c => c == '['
  | .digit, c => isDigit c
  | .dot, c => c == '.'
  | .question, c => c == '?'
  | .sigil, c => c == '$' || c == ':' || c == '@' || c == '#'
  | .x, c => c == 'x' || c == 'X'
  | .bom, c => c == byteOrderMark
  | .word, c => isIdChar c && !isDigit c && c != '$' && c != byteOrderMark && c != 'x' && c != 'X'
  | .comparison, c => c == '=' || c == '<' || c == '>' || c == '!' || c == '|'
  | .operator, c => c == '+' || c == '*' || c == '%' || c == ',' || c == '&' || c == '~'
  | .illegal, _ => true

/-- The classes that say which characters they have. -/
def charClasses : List CharClass :=
  [.space, .minus, .slash, .semi, .lp, .rp, .quote, .bracket, .digit, .dot, .question, .sigil, .x,
    .bom, .word, .comparison, .operator]

def classify (c : Char) : CharClass := (charClasses.find? fun k => k.has c).getD .illegal

theorem classify_has (c : Char) : (classify c).has c = true := by
  rw [classify]
  cases hfind : charClasses.find? fun k => k.has c with
  | none => rfl
  | some k =>
      have hhas : k.has c = true := (List.find?_eq_some_iff_append.mp hfind).1
      exact hhas

theorem classify_illegal {c : Char} (h : classify c = .illegal) :
    ∀ k ∈ charClasses, k.has c = false := by
  rw [classify] at h
  cases hfind : charClasses.find? fun k => k.has c with
  | none =>
      intro k hk
      exact Bool.eq_false_iff.mpr (List.find?_eq_none.mp hfind k hk)
  | some k =>
      rw [hfind, Option.getD_some] at h
      rw [h] at hfind
      exact absurd (List.mem_of_find?_eq_some hfind) (by decide)

/-- The two characters are one operator. -/
def isOperatorPair (c : Char) (ps : List Placed) : Bool :=
  (c == '=' && next ps '=') || (c == '<' && (next ps '=' || next ps '>' || next ps '<')) ||
    (c == '>' && (next ps '=' || next ps '>')) || (c == '!' && next ps '=') ||
    (c == '|' && next ps '|')

def cutMinus (p : Placed) (ps : List Placed) : Token :=
  if next ps '-' then cutRun .comment (· != '\n') p ps
  else if next ps '>' then cutTake .operator (if next ps.tail '>' then 2 else 1) p ps
  else cutTake .operator 0 p ps

/-- A block comment; `/*` at the end of the text is none. -/
def cutSlash (p : Placed) (ps : List Placed) : Token :=
  match ps with
  | star :: first :: rest =>
      if star.char = '*' then
        let (text, rest) := cutBlock first.char rest
        ⟨.comment, p :: star :: first :: text, rest⟩
      else cutTake .operator 0 p ps
  | _ => cutTake .operator 0 p ps

def cutQuote (p : Placed) (ps : List Placed) : Token :=
  let (closed, text, rest) := cutQuoted p.char ps
  ⟨if !closed then .illegal else if p.char = '\'' then .string else .word, p :: text, rest⟩

def cutBracket (p : Placed) (ps : List Placed) : Token :=
  let (closed, text, rest) := cutClosed ']' ps
  ⟨if closed then .word else .illegal, p :: text, rest⟩

def cutX (p : Placed) (ps : List Placed) : Token :=
  match ps with
  | quote :: rest =>
      if quote.char = '\'' then cutBlob p quote rest else cutRun .word isIdChar p ps
  | [] => cutRun .word isIdChar p ps

/-- `sqlite3GetToken`: the token that starts with `p`. -/
def getToken (p : Placed) (ps : List Placed) : Token :=
  match classify p.char with
  | .space => cutRun .space isSpace p ps
  | .minus => cutMinus p ps
  | .slash => cutSlash p ps
  | .semi => cutTake .semi 0 p ps
  | .lp => cutTake .lp 0 p ps
  | .rp => cutTake .rp 0 p ps
  | .quote => cutQuote p ps
  | .bracket => cutBracket p ps
  | .digit => cutNumber (p :: ps)
  | .dot => if nextDigit ps then cutNumber (p :: ps) else cutTake .operator 0 p ps
  | .question => cutRun .parameter isDigit p ps
  | .sigil => cutParameter p ps
  | .x => cutX p ps
  | .bom => cutTake .space 0 p ps
  | .word => cutRun .word isIdChar p ps
  | .comparison =>
      if isOperatorPair p.char ps then cutTake .operator 1 p ps
      else cutTake (if p.char = '!' then .illegal else .operator) 0 p ps
  | .operator => cutTake .operator 0 p ps
  | .illegal => cutTake .illegal 0 p ps

/-! ## The text is cut, not changed -/

section Runs

variable {sort : Char → Bool} {p : Placed}

theorem run_cons_of_pos (h : sort p.char = true) (ps : List Placed) :
    run sort (p :: ps) = p :: run sort ps :=
  List.takeWhile_cons_of_pos h

theorem run_cons_of_neg (h : ¬sort p.char = true) (ps : List Placed) : run sort (p :: ps) = [] :=
  List.takeWhile_cons_of_neg h

theorem afterRun_cons_of_pos (h : sort p.char = true) (ps : List Placed) :
    afterRun sort (p :: ps) = afterRun sort ps :=
  List.dropWhile_cons_of_pos h

theorem afterRun_cons_of_neg (h : ¬sort p.char = true) (ps : List Placed) :
    afterRun sort (p :: ps) = p :: ps :=
  List.dropWhile_cons_of_neg h

end Runs

theorem run_append_afterRun (sort : Char → Bool) (ps : List Placed) :
    run sort ps ++ afterRun sort ps = ps :=
  List.takeWhile_append_dropWhile

theorem cutBlock_append (prev : Char) (ps : List Placed) :
    (cutBlock prev ps).1 ++ (cutBlock prev ps).2 = ps := by
  induction ps generalizing prev with
  | nil => rfl
  | cons p ps ih =>
      rw [cutBlock]
      split_ifs
      · rfl
      · exact congrArg (p :: ·) (ih p.char)

theorem cutQuoted_append (delim : Char) (ps : List Placed) :
    (cutQuoted delim ps).2.1 ++ (cutQuoted delim ps).2.2 = ps := by
  fun_induction cutQuoted delim ps with
  | case1 => rfl
  | case2 p hp q qs hq closed text rest hcut ih =>
      rw [hcut] at ih
      exact congrArg (p :: q :: ·) ih
  | case3 => rfl
  | case4 => rfl
  | case5 p ps hp closed text rest hcut ih =>
      rw [hcut] at ih
      exact congrArg (p :: ·) ih

theorem cutClosed_append (close : Char) (ps : List Placed) :
    (cutClosed close ps).2.1 ++ (cutClosed close ps).2.2 = ps := by
  have happend := run_append_afterRun (· != close) ps
  rw [cutClosed]
  cases hafter : afterRun (· != close) ps with
  | nil =>
      rw [hafter] at happend
      exact happend
  | cons p rest =>
      rw [hafter] at happend
      exact (List.append_assoc _ _ _).trans happend

theorem cutFraction_append (ps : List Placed) : (cutFraction ps).1 ++ (cutFraction ps).2 = ps := by
  rw [cutFraction.eq_def]
  split
  · split_ifs
    · exact congrArg (_ :: ·) (run_append_afterRun _ _)
    · rfl
  · rfl

theorem cutExponent_append (ps : List Placed) : (cutExponent ps).1 ++ (cutExponent ps).2 = ps := by
  rw [cutExponent.eq_def]
  split
  · split_ifs
    · exact congrArg (_ :: ·) (run_append_afterRun _ _)
    · exact congrArg (_ :: _ :: ·) (run_append_afterRun _ _)
    · rfl
  · rfl

theorem cutName_append (ps : List Placed) : (cutName ps).1 ++ (cutName ps).2 = ps := by
  fun_induction cutName ps with
  | case1 => rfl
  | case2 p ps hp text rest hcut ih =>
      rw [hcut] at ih
      exact congrArg (p :: ·) ih
  | case3 p hp hcolon q qs hq text rest hcut ih =>
      rw [hcut] at ih
      exact congrArg (p :: q :: ·) ih
  | case4 => rfl
  | case5 => rfl
  | case6 => rfl

theorem cutDecimal_append (ps : List Placed) : (cutDecimal ps).1 ++ (cutDecimal ps).2 = ps := by
  change run isNumberDigit ps ++ (cutFraction (afterRun isNumberDigit ps)).1 ++
    (cutExponent (cutFraction (afterRun isNumberDigit ps)).2).1 ++
      (cutExponent (cutFraction (afterRun isNumberDigit ps)).2).2 = ps
  rw [List.append_assoc, cutExponent_append, List.append_assoc, cutFraction_append,
    run_append_afterRun]

theorem cutHex_append {ps text rest : List Placed} (h : cutHex ps = some (text, rest)) :
    text ++ rest = ps := by
  rw [cutHex.eq_def] at h
  split at h
  · split_ifs at h
    cases h
    exact congrArg (_ :: _ :: ·) (run_append_afterRun _ _)
  · cases h

theorem cutNumber_append (ps : List Placed) : (cutNumber ps).text ++ (cutNumber ps).rest = ps := by
  rw [cutNumber]
  cases hhex : cutHex ps with
  | none =>
      change (cutDecimal ps).1 ++ run isIdChar (cutDecimal ps).2 ++
        afterRun isIdChar (cutDecimal ps).2 = ps
      rw [List.append_assoc, run_append_afterRun, cutDecimal_append]
  | some cut =>
      change cut.1 ++ run isIdChar cut.2 ++ afterRun isIdChar cut.2 = ps
      rw [List.append_assoc, run_append_afterRun, cutHex_append hhex]

theorem cutSuffix_append (ps : List Placed) : (cutSuffix ps).2.1 ++ (cutSuffix ps).2.2 = ps := by
  have happend := run_append_afterRun (fun c => !isSpace c && c != ')') ps
  rw [cutSuffix]
  cases hafter : afterRun (fun c => !isSpace c && c != ')') ps with
  | nil =>
      rw [hafter] at happend
      exact happend
  | cons p rest =>
      rw [hafter] at happend
      dsimp only
      split_ifs
      · exact (List.append_assoc _ _ _).trans happend
      · exact happend

theorem cutParameter_append (p : Placed) (ps : List Placed) :
    (cutParameter p ps).text ++ (cutParameter p ps).rest = p :: ps := by
  have hname := cutName_append ps
  rw [cutParameter]
  dsimp only
  by_cases hnamed : ((cutName ps).1.any fun q => isIdChar q.char) = true
  · rw [if_pos hnamed]
    by_cases hsuffix : next (cutName ps).2 '(' = true
    · rw [if_pos hsuffix]
      change p :: ((cutName ps).1 ++ (cutSuffix (cutName ps).2).2.1 ++
        (cutSuffix (cutName ps).2).2.2) = p :: ps
      rw [List.append_assoc, cutSuffix_append, hname]
    · rw [if_neg hsuffix]
      exact congrArg (p :: ·) hname
  · rw [if_neg hnamed]
    exact congrArg (p :: ·) hname

theorem cutTake_append (kind : Kind) (n : Nat) (p : Placed) (ps : List Placed) :
    (cutTake kind n p ps).text ++ (cutTake kind n p ps).rest = p :: ps :=
  congrArg (p :: ·) (List.take_append_drop n ps)

theorem cutRun_append (kind : Kind) (sort : Char → Bool) (p : Placed) (ps : List Placed) :
    (cutRun kind sort p ps).text ++ (cutRun kind sort p ps).rest = p :: ps :=
  congrArg (p :: ·) (run_append_afterRun sort ps)

theorem cutMinus_append (p : Placed) (ps : List Placed) :
    (cutMinus p ps).text ++ (cutMinus p ps).rest = p :: ps := by
  rw [cutMinus]
  split_ifs
  · exact cutRun_append _ _ p ps
  · exact cutTake_append _ _ p ps
  · exact cutTake_append _ _ p ps
  · exact cutTake_append _ _ p ps

theorem cutSlash_append (p : Placed) (ps : List Placed) :
    (cutSlash p ps).text ++ (cutSlash p ps).rest = p :: ps := by
  rw [cutSlash.eq_def]
  split
  · split_ifs
    · exact congrArg (_ :: _ :: _ :: ·) (cutBlock_append _ _)
    · exact cutTake_append _ _ p _
  · exact cutTake_append _ _ p _

theorem cutX_append (p : Placed) (ps : List Placed) :
    (cutX p ps).text ++ (cutX p ps).rest = p :: ps := by
  rw [cutX.eq_def]
  split
  · split_ifs
    · exact congrArg (_ :: _ :: ·) (cutClosed_append _ _)
    · exact cutRun_append _ _ p _
  · exact cutRun_append _ _ p _

/-- A token and what follows it are the text. -/
theorem getToken_append (p : Placed) (ps : List Placed) :
    (getToken p ps).text ++ (getToken p ps).rest = p :: ps := by
  rw [getToken]
  cases classify p.char with
  | space => exact cutRun_append _ _ p ps
  | minus => exact cutMinus_append p ps
  | slash => exact cutSlash_append p ps
  | quote => exact congrArg (p :: ·) (cutQuoted_append p.char ps)
  | bracket => exact congrArg (p :: ·) (cutClosed_append ']' ps)
  | digit => exact cutNumber_append (p :: ps)
  | dot =>
      dsimp only
      split_ifs
      · exact cutNumber_append (p :: ps)
      · exact cutTake_append _ _ p ps
  | question => exact cutRun_append _ _ p ps
  | sigil => exact cutParameter_append p ps
  | x => exact cutX_append p ps
  | word => exact cutRun_append _ _ p ps
  | comparison =>
      dsimp only
      split_ifs
      · exact cutTake_append _ _ p ps
      · exact cutTake_append _ _ p ps
      · exact cutTake_append _ _ p ps
  | _ => exact cutTake_append _ _ p ps

theorem cutDecimal_ne_nil {p : Placed} (h : isDigit p.char = true ∨ p.char = '.')
    (ps : List Placed) : (cutDecimal (p :: ps)).1 ≠ [] := by
  intro hnil
  have hnone : run isNumberDigit (p :: ps) ++
      (cutFraction (afterRun isNumberDigit (p :: ps))).1 = [] :=
    (List.append_eq_nil_iff.mp hnil).1
  rw [List.append_eq_nil_iff] at hnone
  rcases h with hdigit | hdot
  · have hfirst : isNumberDigit p.char = true := by
      rw [isNumberDigit, hdigit]
      rfl
    rw [run_cons_of_pos hfirst] at hnone
    exact absurd hnone.1 (List.cons_ne_nil _ _)
  · have hfirst : ¬isNumberDigit p.char = true := by
      rw [hdot]
      decide
    rw [afterRun_cons_of_neg hfirst, cutFraction, if_pos hdot] at hnone
    exact absurd hnone.2 (List.cons_ne_nil _ _)

theorem cutNumber_text_ne_nil {p : Placed} (h : isDigit p.char = true ∨ p.char = '.')
    (ps : List Placed) : (cutNumber (p :: ps)).text ≠ [] := by
  rw [cutNumber]
  cases hhex : cutHex (p :: ps) with
  | none => exact fun hnil => cutDecimal_ne_nil h ps (List.append_eq_nil_iff.mp hnil).1
  | some cut =>
      rw [cutHex.eq_def] at hhex
      split at hhex
      · split_ifs at hhex
        cases hhex
        exact List.cons_ne_nil _ _
      · cases hhex

/-- A token has its first character. -/
theorem getToken_text_ne_nil (p : Placed) (ps : List Placed) : (getToken p ps).text ≠ [] := by
  have hhas := classify_has p.char
  rw [getToken]
  cases hclass : classify p.char with
  | digit =>
      rw [hclass] at hhas
      exact cutNumber_text_ne_nil (.inl hhas) ps
  | dot =>
      dsimp only
      split_ifs
      · rw [hclass] at hhas
        exact cutNumber_text_ne_nil (.inr (beq_iff_eq.mp hhas)) ps
      · exact List.cons_ne_nil _ _
  | minus =>
      dsimp only
      rw [cutMinus]
      split_ifs <;> exact List.cons_ne_nil _ _
  | slash =>
      dsimp only
      rw [cutSlash.eq_def]
      split
      · split_ifs <;> exact List.cons_ne_nil _ _
      · exact List.cons_ne_nil _ _
  | x =>
      dsimp only
      rw [cutX.eq_def]
      split
      · split_ifs <;> exact List.cons_ne_nil _ _
      · exact List.cons_ne_nil _ _
  | sigil =>
      dsimp only
      rw [cutParameter]
      dsimp only
      split_ifs <;> exact List.cons_ne_nil _ _
  | comparison =>
      dsimp only
      split_ifs <;> exact List.cons_ne_nil _ _
  | _ => exact List.cons_ne_nil _ _

theorem getToken_rest_length (p : Placed) (ps : List Placed) :
    (getToken p ps).rest.length < (p :: ps).length := by
  rw [← getToken_append p ps, List.length_append]
  exact Nat.lt_add_of_pos_left (List.length_pos_of_ne_nil (getToken_text_ne_nil p ps))

/-! ## The tokens of a text -/

/-- The tokens, each with the text that follows it. -/
def tokens : List Placed → List Token
  | [] => []
  | p :: ps => getToken p ps :: tokens (getToken p ps).rest
termination_by ps => ps.length
decreasing_by exact getToken_rest_length p ps

end Victauri.Library.Sqlite
