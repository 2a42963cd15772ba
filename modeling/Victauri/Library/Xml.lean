import Mathlib.Data.List.Basic

/-!
# XML 1.0

A parser of XML documents that consist of a declaration, elements, attributes and character data:
document type declarations, comments, processing instructions and CDATA sections are refused.  Line
ends are normalised before the parse and attribute values in it, so what is accepted is well formed
and the tree is the one every XML processor reports.
-/

namespace Xml

/-! ## Characters -/

/-- `Char`. -/
def isChar (c : Char) : Bool :=
  c = '\t' || c = '\n' || c = '\r' || (0x20 ≤ c.toNat && c.toNat ≤ 0xD7FF) ||
    (0xE000 ≤ c.toNat && c.toNat ≤ 0xFFFD) || 0x10000 ≤ c.toNat

/-- `S`. -/
def isSpace (c : Char) : Bool := c = ' ' || c = '\t' || c = '\n' || c = '\r'

/-- `NameStartChar`. -/
def isNameStart (c : Char) : Bool :=
  c = ':' || c.isAlpha || c = '_' || (0xC0 ≤ c.toNat && c.toNat ≤ 0xD6) ||
    (0xD8 ≤ c.toNat && c.toNat ≤ 0xF6) || (0xF8 ≤ c.toNat && c.toNat ≤ 0x2FF) ||
    (0x370 ≤ c.toNat && c.toNat ≤ 0x37D) || (0x37F ≤ c.toNat && c.toNat ≤ 0x1FFF) ||
    (0x200C ≤ c.toNat && c.toNat ≤ 0x200D) || (0x2070 ≤ c.toNat && c.toNat ≤ 0x218F) ||
    (0x2C00 ≤ c.toNat && c.toNat ≤ 0x2FEF) || (0x3001 ≤ c.toNat && c.toNat ≤ 0xD7FF) ||
    (0xF900 ≤ c.toNat && c.toNat ≤ 0xFDCF) || (0xFDF0 ≤ c.toNat && c.toNat ≤ 0xFFFD) ||
    (0x10000 ≤ c.toNat && c.toNat ≤ 0xEFFFF)

/-- `NameChar`. -/
def isNameChar (c : Char) : Bool :=
  isNameStart c || c = '-' || c = '.' || c.isDigit || c.toNat = 0xB7 ||
    (0x300 ≤ c.toNat && c.toNat ≤ 0x36F) || (0x203F ≤ c.toNat && c.toNat ≤ 0x2040)

def normalizeLineEnds : List Char → List Char
  | [] => []
  | '\r' :: '\n' :: rest => '\n' :: normalizeLineEnds rest
  | '\r' :: rest => '\n' :: normalizeLineEnds rest
  | c :: rest => c :: normalizeLineEnds rest

/-! ## Tokens -/

def skipSpace (input : List Char) : List Char := input.dropWhile isSpace

/-- `Name`. -/
def name (input : List Char) : Option (List Char × List Char) :=
  match input with
  | c :: _ =>
      if isNameStart c then some (input.takeWhile isNameChar, input.dropWhile isNameChar) else none
  | [] => none

def literal (text input : List Char) : Option (List Char) :=
  if text.isPrefixOf input then some (input.drop text.length) else none

/-- The character of a number in a character reference. -/
def charOf (code : Nat) : Option Char :=
  if code.isValidChar then some (Char.ofNat code) else none

/-- What a reference stands for: a character, or one of the entities that need no declaration. -/
def referenced (body : List Char) : Option Char :=
  match body with
  | '#' :: 'x' :: digits =>
      if !digits.isEmpty && digits.all fun d => d.isDigit || ('a' ≤ d && d ≤ 'f') ||
          ('A' ≤ d && d ≤ 'F') then
        (charOf (digits.foldl (fun n d => 16 * n + (if d.isDigit then d.toNat - '0'.toNat
          else d.toLower.toNat - 'a'.toNat + 10)) 0)).filter isChar
      else none
  | '#' :: digits =>
      if !digits.isEmpty && digits.all Char.isDigit then
        (charOf (Nat.ofDigitChars 10 digits 0)).filter isChar
      else none
  | ['a', 'm', 'p'] => some '&'
  | ['l', 't'] => some '<'
  | ['g', 't'] => some '>'
  | ['q', 'u', 'o', 't'] => some '"'
  | ['a', 'p', 'o', 's'] => some '\''
  | _ => none

/-- `Reference`, behind its `&`. -/
def reference (input : List Char) : Option (Char × List Char) :=
  match input.dropWhile (· ≠ ';') with
  | ';' :: rest => (referenced (input.takeWhile (· ≠ ';'))).map fun c => (c, rest)
  | _ => none

/-! ## Attributes -/

/-- The rest of an attribute value behind the opening quote, with white space normalised. -/
def attChars (quote : Char) : (fuel : Nat) → List Char → Option (List Char × List Char)
  | 0, _ => none
  | _ + 1, [] => none
  | fuel + 1, c :: rest =>
      if c = quote then some ([], rest)
      else if c = '<' then none
      else if c = '&' then do
        let (c, rest) ← reference rest
        let (value, rest) ← attChars quote fuel rest
        return (c :: value, rest)
      else do
        let (value, rest) ← attChars quote fuel rest
        return ((if isSpace c then ' ' else c) :: value, rest)

/-- `AttValue`. -/
def attValue (input : List Char) : Option (List Char × List Char) :=
  match input with
  | '"' :: rest => attChars '"' (rest.length + 1) rest
  | '\'' :: rest => attChars '\'' (rest.length + 1) rest
  | _ => none

/-- `(S Attribute)*`, with no name twice. -/
def attributes : (fuel : Nat) → List Char →
    Option (List (List Char × List Char) × List Char)
  | 0, _ => none
  | fuel + 1, input =>
      match name (skipSpace input) with
      | none => some ([], input)
      | some (n, rest) =>
          if (input.head?.all fun c => !isSpace c) then none
          else do
            let rest ← literal ['='] (skipSpace rest)
            let (value, rest) ← attValue (skipSpace rest)
            let (more, rest) ← attributes fuel rest
            if more.any fun a => a.1 = n then none else some ((n, value) :: more, rest)

/-! ## Elements -/

inductive Node where
  | text (text : List Char)
  | element (name : List Char) (attributes : List (List Char × List Char)) (children : List Node)

/-- Character data up to the next tag. -/
def charData : (fuel : Nat) → List Char → Option (List Char × List Char)
  | 0, _ => none
  | _ + 1, [] => some ([], [])
  | fuel + 1, c :: rest =>
      if c = '<' then some ([], c :: rest)
      else if [']', ']', '>'].isPrefixOf (c :: rest) then none
      else if c = '&' then do
        let (c, rest) ← reference rest
        let (text, rest) ← charData fuel rest
        return (c :: text, rest)
      else do
        let (text, rest) ← charData fuel rest
        return (c :: text, rest)

/-- `ETag`, behind its `</`. -/
def endTag (n input : List Char) : Option (List Char) := do
  let (n', rest) ← name input
  if n' = n then literal ['>'] (skipSpace rest) else none

mutual

/-- `element`, behind its `<`. -/
def element : (fuel : Nat) → List Char → Option (Node × List Char)
  | 0, _ => none
  | fuel + 1, input => do
      let (n, rest) ← name input
      let (attrs, rest) ← attributes (rest.length + 1) rest
      match skipSpace rest with
      | '/' :: '>' :: rest => return (.element n attrs [], rest)
      | '>' :: rest => do
          let (children, rest) ← content fuel rest
          let rest ← literal ['<', '/'] rest
          let rest ← endTag n rest
          return (.element n attrs children, rest)
      | _ => none

/-- `content`, up to an end tag. -/
def content : (fuel : Nat) → List Char → Option (List Node × List Char)
  | 0, _ => none
  | fuel + 1, input =>
      match input with
      | [] => some ([], [])
      | '<' :: '/' :: rest => some ([], '<' :: '/' :: rest)
      | '<' :: rest => do
          let (node, rest) ← element fuel rest
          let (nodes, rest) ← content fuel rest
          return (node :: nodes, rest)
      | input => do
          let (text, rest) ← charData (input.length + 1) input
          let (nodes, rest) ← content fuel rest
          return (.text text :: nodes, rest)

end

/-! ## Documents -/

/-- `EncName`. -/
def isEncoding (value : List Char) : Bool :=
  match value with
  | c :: rest => c.isAlpha && rest.all fun c => c.isAlphanum || c = '.' || c = '_' || c = '-'
  | [] => false

def isStandalone (value : List Char) : Bool :=
  value == "yes".toList || value == "no".toList

/-- The version, and what may follow it in a declaration. -/
def isDeclaration (attrs : List (List Char × List Char)) : Bool :=
  match attrs with
  | (version, value) :: more =>
      version == "version".toList && value == "1.0".toList &&
        match more with
        | [] => true
        | [(n, value)] =>
            n == "encoding".toList && isEncoding value ||
              n == "standalone".toList && isStandalone value
        | [(n, value), (n', value')] =>
            n == "encoding".toList && isEncoding value && n' == "standalone".toList &&
              isStandalone value'
        | _ => false
  | [] => false

/-- `XMLDecl?`. -/
def declaration (input : List Char) : Option (List Char) :=
  match literal "<?xml".toList input with
  | none => some input
  | some rest => do
      -- a declaration has no references
      if (rest.takeWhile (· ≠ '?')).contains '&' then none
      let (attrs, rest) ← attributes (rest.length + 1) rest
      if isDeclaration attrs then literal ['?', '>'] (skipSpace rest) else none

/-- The root element of a document. -/
def parse (text : List Char) : Option Node :=
  let input := normalizeLineEnds text
  if input.all isChar then do
    let rest ← declaration input
    let rest ← literal ['<'] (skipSpace rest)
    let (root, rest) ← element (rest.length + 1) rest
    if (skipSpace rest).isEmpty then some root else none
  else none

end Xml
