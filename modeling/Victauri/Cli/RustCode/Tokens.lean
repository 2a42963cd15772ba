import Victauri.Cli.RustCode.Offsets

/-!
# The tokens of Rust

What a Rust source consists of as far as blanking goes: white space, comments, literals with their
prefixes, lifetimes, words (identifiers, keywords, the pieces of a number) and raw identifiers, and
single characters of punctuation.  The suffix of a literal is a word.
-/

namespace Victauri.Cli.RustCode

open Utf8

/-! ## The pieces of literals and comments -/

/-- A character of a string, or a backslash and the character behind it. -/
inductive StringItem where
  | plain (c : Char) (quote : c ≠ '"') (backslash : c ≠ '\\')
  | escape (c : Char)

def StringItem.text : StringItem → List Char
  | .plain c _ _ => [c]
  | .escape c => ['\\', c]

/-- The inside of a character literal: a character, or a backslash, a character and what belongs to
it (`x41`, `u{1F600}`). -/
inductive CharItem where
  | plain (c : Char) (quote : c ≠ '\'') (backslash : c ≠ '\\')
  | escape (c : Char) (more : List Char) (inside : ∀ d ∈ more, d ≠ '\'' ∧ d ≠ '\n')

def CharItem.text : CharItem → List Char
  | .plain c _ _ => [c]
  | .escape c more _ => '\\' :: c :: more

/-- The text of a nested block comment from inside it, at a depth, to its end. -/
inductive Closes : Nat → List Char → Prop where
  | last : Closes 1 ['*', '/']
  | close {depth : Nat} {text : List Char} (rest : Closes (depth + 1) text) :
      Closes (depth + 2) ('*' :: '/' :: text)
  | opens {depth : Nat} {text : List Char} (rest : Closes (depth + 2) text) :
      Closes (depth + 1) ('/' :: '*' :: text)
  | char {depth : Nat} {c : Char} {text : List Char}
      (hopen : ¬ (c = '/' ∧ text.head? = some '*')) (hclose : ¬ (c = '*' ∧ text.head? = some '/'))
      (rest : Closes (depth + 1) text) : Closes (depth + 1) (c :: text)

/-- A raw string ends at the first quote with all its hashes. -/
def NoClosing (hashCount : Nat) (body : List Char) : Prop :=
  ∀ front back, body ≠ front ++ '"' :: (List.replicate hashCount '#' ++ back)

/-! ## White space and words -/

def isSpace (c : Char) : Bool :=
  c ∈ ['\t', '\n', '\x0b', '\x0c', '\r', ' ', '\u0085', '\u200e', '\u200f', '\u2028', '\u2029']

def isWordStart (c : Char) : Bool := c.isAlpha || c = '_' || 0x80 ≤ c.toNat

def isWordChar (c : Char) : Bool := isWordStart c || c.isDigit

/-- What an identifier may go on with, as far as ASCII goes. -/
def isAsciiWord (c : Char) : Bool := c.isAlphanum || c = '_'

/-- Characters of an identifier, a keyword or a number. -/
structure Word where
  chars : List Char
  ne_nil : chars ≠ []
  all : ∀ c ∈ chars, isWordChar c = true

/-- The word ends in `r`, `br` or `cr` behind which no ASCII letter, digit or underscore of the word
stands, as the prefix of a raw literal does. -/
def Word.endsAsRaw (w : Word) : Prop :=
  ∃ front : List Char, (front.getLast?.all fun c => !isAsciiWord c) = true ∧
    (w.chars = front ++ ['r'] ∨ w.chars = front ++ ['b', 'r'] ∨ w.chars = front ++ ['c', 'r'])

/-! ## Tokens -/

inductive Token where
  | space (c : Char) (hc : isSpace c = true)
  | lineComment (body : List Char) (line : ∀ c ∈ body, c ≠ '\n')
  | blockComment (body : List Char) (closes : Closes 1 body)
  | string (pre : List Char) (isPre : pre = [] ∨ pre = ['b'] ∨ pre = ['c'])
      (items : List StringItem)
  | rawString (pre : List Char) (isPre : pre = [] ∨ pre = ['b'] ∨ pre = ['c']) (hashCount : Nat)
      (body : List Char) (noClosing : NoClosing hashCount body)
  | char (pre : List Char) (isPre : pre = [] ∨ pre = ['b']) (item : CharItem)
  | lifetime (word : Word)
  | word (word : Word)
  | rawIdentifier (word : Word) (start : word.chars.head?.any isWordStart = true)
  | punct (c : Char) (hc : isWordChar c = false) (quote : c ≠ '"') (apostrophe : c ≠ '\'')

namespace Token

/-- What is kept: of a literal its prefix. -/
def code : Token → List Char
  | space c _ => [c]
  | lineComment _ _ => []
  | blockComment _ _ => []
  | string pre _ _ => pre
  | rawString pre _ _ _ _ => pre
  | char pre _ _ => pre
  | lifetime w => '\'' :: w.chars
  | word w => w.chars
  | rawIdentifier w _ => 'r' :: '#' :: w.chars
  | punct c _ _ _ => [c]

/-- What is blanked: a comment, or a literal behind its prefix. -/
def blanked : Token → List Char
  | lineComment body _ => '/' :: '/' :: body
  | blockComment body _ => '/' :: '*' :: body
  | string _ _ items => '"' :: (items.flatMap StringItem.text ++ ['"'])
  | rawString _ _ n body _ =>
      'r' :: (List.replicate n '#' ++ '"' :: (body ++ '"' :: List.replicate n '#'))
  | char _ _ item => '\'' :: (item.text ++ ['\''])
  | _ => []

def text (t : Token) : List Char := t.code ++ t.blanked

/-- The word at the end of a lifetime, an identifier or a raw identifier. -/
def lastWord : Token → Option Word
  | lifetime w => some w
  | word w => some w
  | rawIdentifier w _ => some w
  | _ => none

/-- Whether the token ends where the source goes on with `rest`. -/
def FollowedBy (t : Token) (rest : List Char) : Prop :=
  match t with
  | lineComment _ _ => rest.head?.all (· = '\n') = true
  | lifetime _ => (rest.head?.all fun c => !isAsciiWord c && c != '\'') = true
  | word _ => (rest.head?.all fun c => !isAsciiWord c) = true
  | rawIdentifier _ _ => (rest.head?.all fun c => !isAsciiWord c) = true
  | punct c _ _ _ => c = '/' → rest.head? ≠ some '/' ∧ rest.head? ≠ some '*'
  | _ => True

/-- No quote, with hashes or without, directly behind a word that ends as the prefix of a raw literal
does: `r"` is such a literal, and `'r"` and `r#r"` are taken for one. -/
def Apart (t : Token) (rest : List Char) : Prop :=
  ∀ w, t.lastWord = some w → w.endsAsRaw → ∀ n back, rest ≠ List.replicate n '#' ++ '"' :: back

end Token

def textOf (tokens : List Token) : List Char := tokens.flatMap Token.text

/-- The tokens of a source, each as long as it can be. -/
def Lexed : List Token → Prop
  | [] => True
  | t :: tokens => t.FollowedBy (textOf tokens) ∧ t.Apart (textOf tokens) ∧ Lexed tokens

/-- The bytes of the source with comments and literals blanked. -/
def blankedBytes (tokens : List Token) : List UInt8 :=
  tokens.flatMap fun t => encode t.code ++ (encode t.blanked).map blank

end Victauri.Cli.RustCode
