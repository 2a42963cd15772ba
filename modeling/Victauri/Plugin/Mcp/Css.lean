import Mathlib.Data.List.Basic

/-!
# The check of injected CSS

`sanitize_injected_css` of `helpers.rs` and its scanner.  The scanner's text and position
are the list of the characters ahead; the functions it has open are listed innermost
first.
-/

namespace Victauri.Plugin.Mcp

/-- `CSS_URL_FUNCTIONS`. -/
def cssUrlFunctions : List (List Char) :=
  ["url", "src", "image-set", "-webkit-image-set", "image", "-webkit-image", "cross-fade",
    "-webkit-cross-fade"].map String.toList

/-- `SPECIAL_URL_SCHEMES`. -/
def specialUrlSchemes : List (List Char) :=
  ["http", "https", "ws", "wss", "ftp", "file"].map String.toList

def cssPreprocess : List Char → List Char
  | [] => []
  | '\r' :: '\n' :: rest => '\n' :: cssPreprocess rest
  | '\r' :: rest => '\n' :: cssPreprocess rest
  | '\x0c' :: rest => '\n' :: cssPreprocess rest
  | '\x00' :: rest => '\ufffd' :: cssPreprocess rest
  | c :: rest => c :: cssPreprocess rest

def cssIsWs (c : Char) : Bool := c == ' ' || c == '\t' || c == '\n'

def isAscii (c : Char) : Bool := c.toNat < 0x80

def cssIsIdentStart (c : Char) : Bool := c.isAlpha || c == '_' || !isAscii c

def cssIsIdentChar (c : Char) : Bool := cssIsIdentStart c || c.isDigit || c == '-'

/-- `char::to_digit` in base 16. -/
def toDigit16 (c : Char) : Option Nat :=
  if c.isDigit then some (c.toNat - '0'.toNat)
  else if 'a' ≤ c ∧ c ≤ 'f' then some (c.toNat - 'a'.toNat + 10)
  else if 'A' ≤ c ∧ c ≤ 'F' then some (c.toNat - 'A'.toNat + 10)
  else none

/-! ## The scanner -/

namespace CssUrlScanner

/-- `valid_escape_at`. -/
def validEscapeAt : List Char → Bool
  | '\\' :: c :: _ => c != '\n'
  | _ => false

/-- `starts_ident_at`. -/
def startsIdentAt : List Char → Bool
  | '-' :: rest => rest.head?.any (fun c => cssIsIdentStart c || c == '-') || validEscapeAt rest
  | '\\' :: rest => validEscapeAt ('\\' :: rest)
  | c :: _ => cssIsIdentStart c
  | [] => false

/-- The digits of an escape: at most `left` more of them are read. -/
def escapeDigits : Nat → Nat → List Char → Nat × List Char
  | left + 1, value, c :: rest =>
      match toDigit16 c with
      | some d => escapeDigits left (value * 16 + d) rest
      | none => (value, c :: rest)
  | _, value, cs => (value, cs)

/-- `consume_escape`. -/
def consumeEscape : List Char → Char × List Char
  | [] => ('\ufffd', [])
  | c :: rest =>
      if (toDigit16 c).isNone then (c, rest)
      else
        let digits := escapeDigits 6 0 (c :: rest)
        let rest := if digits.2.head?.any cssIsWs then digits.2.drop 1 else digits.2
        (if digits.1.isValidChar ∧ digits.1 ≠ 0 then Char.ofNat digits.1 else '\ufffd', rest)

theorem escapeDigits_length_le (left value : Nat) (cs : List Char) :
    (escapeDigits left value cs).2.length ≤ cs.length := by
  fun_induction escapeDigits left value cs with
  | case1 left value c rest d _ ih => exact Nat.le_succ_of_le ih
  | case2 => exact Nat.le_refl _
  | case3 => exact Nat.le_refl _

theorem consumeEscape_length_le (cs : List Char) : (consumeEscape cs).2.length ≤ cs.length := by
  unfold consumeEscape
  split
  · exact Nat.le_refl _
  · split
    · exact Nat.le_succ _
    · rename_i c rest _
      have hle := escapeDigits_length_le 6 0 (c :: rest)
      dsimp only
      split
      · rw [List.length_drop]
        omega
      · exact hle

/-- `consume_ident`. -/
def consumeIdent (cs : List Char) : List Char × List Char :=
  match cs with
  | [] => ([], [])
  | c :: rest =>
      if cssIsIdentChar c then
        let r := consumeIdent rest
        (c :: r.1, r.2)
      else if validEscapeAt (c :: rest) then
        let e := consumeEscape rest
        let r := consumeIdent e.2
        (e.1 :: r.1, r.2)
      else ([], c :: rest)
termination_by cs.length
decreasing_by
  · simp
  · have hle := consumeEscape_length_le rest
    simp only [List.length_cons]
    omega

/-- `consume_string`. -/
def consumeString (quote : Char) (cs : List Char) : List Char × List Char :=
  match cs with
  | [] => ([], [])
  | c :: rest =>
      if c = quote then ([], rest)
      -- An unescaped newline ends a (bad) string; it is not consumed.
      else if c = '\n' then ([], c :: rest)
      else if c = '\\' then
        match rest with
        | [] => ([], [])
        | '\n' :: rest => consumeString quote rest
        | d :: rest =>
            let e := consumeEscape (d :: rest)
            let r := consumeString quote e.2
            (e.1 :: r.1, r.2)
      else
        let r := consumeString quote rest
        (c :: r.1, r.2)
termination_by cs.length
decreasing_by
  · simp only [List.length_cons]
    omega
  · have hle := consumeEscape_length_le (d :: rest)
    simp only [List.length_cons] at hle ⊢
    omega
  · simp

/-- `consume_url`. -/
def consumeUrl (cs : List Char) : List Char × List Char :=
  match cs with
  | [] => ([], [])
  | c :: rest =>
      if c = ')' then ([], rest)
      else if validEscapeAt (c :: rest) then
        let e := consumeEscape rest
        let r := consumeUrl e.2
        (e.1 :: r.1, r.2)
      else
        let r := consumeUrl rest
        (c :: r.1, r.2)
termination_by cs.length
decreasing_by
  · have hle := consumeEscape_length_le rest
    simp only [List.length_cons]
    omega
  · simp

theorem consumeIdent_length_le (cs : List Char) : (consumeIdent cs).2.length ≤ cs.length := by
  fun_induction consumeIdent cs with
  | case1 => exact Nat.le_refl _
  | case2 c rest _ r ih => exact Nat.le_succ_of_le ih
  | case3 c rest _ _ e r ih =>
      exact Nat.le_succ_of_le (Nat.le_trans ih (consumeEscape_length_le rest))
  | case4 => exact Nat.le_refl _

theorem consumeIdent_progress {c : Char} {rest : List Char}
    (h : startsIdentAt (c :: rest) = true) :
    (consumeIdent (c :: rest)).2.length ≤ rest.length := by
  rw [consumeIdent]
  split_ifs with hident hescape
  · exact consumeIdent_length_le rest
  · exact Nat.le_trans (consumeIdent_length_le _) (consumeEscape_length_le rest)
  · unfold startsIdentAt at h
    split at h
    · rename_i heq
      exact absurd (congrArg cssIsIdentChar (List.cons.inj heq).1) hident
    · rename_i heq
      exact absurd (heq ▸ h) hescape
    · rename_i heq
      rw [← (List.cons.inj heq).1] at h
      exact absurd (by rw [cssIsIdentChar, h]; rfl) hident
    · cases h

theorem consumeString_length_le (quote : Char) (cs : List Char) :
    (consumeString quote cs).2.length ≤ cs.length := by
  fun_induction consumeString quote cs with
  | case1 => exact Nat.le_refl _
  | case2 => exact Nat.le_succ _
  | case3 => exact Nat.le_refl _
  | case4 => exact Nat.zero_le _
  | case5 =>
      rename_i rest _ _ ih
      simp only [List.length_cons]
      omega
  | case6 =>
      rename_i d rest _ e _ _ _ ih
      exact Nat.le_succ_of_le (Nat.le_trans ih (consumeEscape_length_le (d :: rest)))
  | case7 _ _ _ _ _ r ih => exact Nat.le_succ_of_le ih

theorem consumeUrl_length_le (cs : List Char) : (consumeUrl cs).2.length ≤ cs.length := by
  fun_induction consumeUrl cs with
  | case1 => exact Nat.le_refl _
  | case2 => exact Nat.le_succ _
  | case3 c rest _ _ e r ih =>
      exact Nat.le_succ_of_le (Nat.le_trans ih (consumeEscape_length_le rest))
  | case4 c rest _ _ r ih => exact Nat.le_succ_of_le ih

end CssUrlScanner

/-! ## URLs -/

/-- The URL parser's view of a value. -/
def cssUrlNormalize (raw : List Char) : List Char :=
  let noTabNl := raw.filter fun c => !(c == '\t' || c == '\n' || c == '\r')
  let trimmed := noTabNl.dropWhile (· ≤ ' ')
  (trimmed.reverse.dropWhile (· ≤ ' ')).reverse

def isSchemeChar (c : Char) : Bool := c.isAlphanum || c == '+' || c == '-' || c == '.'

/-- The scheme of a normalized URL, in lower case, and the rest after the colon. -/
def cssUrlScheme : List Char → Option (List Char × List Char)
  | [] => none
  | first :: rest =>
      if !first.isAlpha then none
      else
        match rest.dropWhile isSchemeChar with
        | ':' :: after => some ((first :: rest.takeWhile isSchemeChar).map Char.toLower, after)
        | _ => none

def cssStartsWithAuthority : List Char → Bool
  | a :: b :: _ => (a == '/' || a == '\\') && (b == '/' || b == '\\')
  | _ => false

/-- Whether a value can name a remote host; in a URL position (`strict`), whether it is
anything but `data:` or a reference without a scheme. -/
def cssIsRemote (url : List Char) (strict : Bool) : Bool :=
  if cssStartsWithAuthority url then true
  else
    match cssUrlScheme url with
    | some (scheme, rest) =>
        if strict then scheme != "data".toList
        else specialUrlSchemes.contains scheme || cssStartsWithAuthority rest
    | none => false

def cssCheckUrl (raw : List Char) (strict : Bool) : Except String Unit :=
  let url := cssUrlNormalize raw
  if cssIsRemote url strict then
    .error ("a non-local URL is blocked in injected CSS (`" ++ String.ofList (url.take 80) ++
      "` could fetch a remote origin — a data-exfiltration vector). Only relative and data: " ++
      "URLs are allowed; pass `allow_remote: true` to opt in.")
  else .ok ()

/-! ## The check -/

/-- What follows a comment, past its opening. -/
def skipComment : List Char → List Char
  | '*' :: '/' :: rest => rest
  | _ :: rest => skipComment rest
  | [] => []

theorem skipComment_length_le (cs : List Char) : (skipComment cs).length ≤ cs.length := by
  fun_induction skipComment cs with
  | case1 rest => simp only [List.length_cons]; omega
  | case2 c rest _ ih => exact Nat.le_succ_of_le ih
  | case3 => exact Nat.le_refl _

def inUrlFunction (opened : List (List Char)) : Bool := opened.any cssUrlFunctions.contains

def importBlocked : String :=
  "`@import` is blocked in injected CSS (it fetches a stylesheet — a data-exfiltration " ++
    "vector). Inline the rules, or pass `allow_remote: true`."

open CssUrlScanner in
/-- The scanner's loop; `opened` are the open functions and brackets (`[]` for a bare one). -/
def scanCss (opened : List (List Char)) (cs : List Char) : Except String Unit :=
  match cs with
  | [] => .ok ()
  | c :: rest =>
      if c = '/' ∧ rest.head? = some '*' then scanCss opened (skipComment (rest.drop 1))
      else if c = '"' ∨ c = '\'' then
        let value := consumeString c rest
        match cssCheckUrl value.1 (inUrlFunction opened) with
        | .error e => .error e
        | .ok () => scanCss opened value.2
      else if c = '@' ∧ startsIdentAt rest then
        let name := consumeIdent rest
        if name.1.map Char.toLower = "import".toList then .error importBlocked
        else scanCss opened name.2
      else if c = '(' then scanCss ([] :: opened) rest
      else if c = ')' then scanCss opened.tail rest
      else if _h : startsIdentAt (c :: rest) then
        let name := (consumeIdent (c :: rest)).1.map Char.toLower
        match _hrest : (consumeIdent (c :: rest)).2 with
        | '(' :: inside =>
            let ahead := inside.dropWhile cssIsWs
            if name = "url".toList ∧ ¬ahead.head?.any (fun d => d == '"' || d == '\'') then
              let value := consumeUrl ahead
              match cssCheckUrl value.1 true with
              | .error e => .error e
              | .ok () => scanCss opened value.2
            else scanCss (name :: opened) inside
        | after => scanCss opened after
      else scanCss opened rest
termination_by cs.length
decreasing_by
  · have hle := skipComment_length_le (rest.drop 1)
    rw [List.length_drop] at hle
    simp only [List.length_cons]
    omega
  · exact Nat.lt_succ_of_le (consumeString_length_le c rest)
  · exact Nat.lt_succ_of_le (consumeIdent_length_le rest)
  · exact Nat.lt_succ_self _
  · exact Nat.lt_succ_self _
  · have hlt := consumeIdent_progress _h
    have hws := (List.dropWhile_suffix (l := inside) cssIsWs).length_le
    have hurl := consumeUrl_length_le (inside.dropWhile cssIsWs)
    rw [_hrest, List.length_cons] at hlt
    simp only [List.length_cons]
    omega
  · have hlt := consumeIdent_progress _h
    rw [_hrest, List.length_cons] at hlt
    simp only [List.length_cons]
    omega
  · exact Nat.lt_succ_of_le (_hrest ▸ consumeIdent_progress _h)
  · exact Nat.lt_succ_self _

/-- `MAX_CSS_LEN`. -/
def maxCssLen : Nat := 256 * 1024

def sanitizeInjectedCss (css : String) (allowRemote : Bool) : Except String Unit :=
  if maxCssLen < css.utf8ByteSize then
    .error ("injected CSS too large (" ++ toString css.utf8ByteSize ++ " bytes, limit 262144)")
  else if allowRemote then .ok ()
  else scanCss [] (cssPreprocess css.toList)

end Victauri.Plugin.Mcp
