import Mathlib
import Victauri.Plugin.Mcp.Css.Reading

/-!
# The scanner in step with the tokenizer

The scanner skips the characters of numbers and hashes one by one and takes any name it
meets on the way, so that it may be in the middle of a name where the tokenizer starts a
token.
-/

namespace Victauri.Plugin.Mcp

open Victauri.Library

-- A quantifier over the characters of a text is decided along the text.
attribute [local instance (1100)] List.decidableBAll

/-! ## The loop, one step at a time -/

/-- What the loop does with a name and the text after it. -/
def scanAfterName (name : List Char) (opened : List (List Char)) :
    List Char → Except String Unit
  | '(' :: inside =>
      let ahead := inside.dropWhile cssIsWs
      if name = "url".toList ∧ ¬ahead.head?.any (fun d => d == '"' || d == '\'') then
        let value := CssUrlScanner.consumeUrl ahead
        match cssCheckUrl value.1 true with
        | .error e => .error e
        | .ok () => scanCss opened value.2
      else scanCss (name :: opened) inside
  | after => scanCss opened after

/-- The loop in the middle of a name of which `read` has been read. -/
def scanName (read : List Char) (opened : List (List Char)) (cs : List Char) :
    Except String Unit :=
  let name := CssUrlScanner.consumeIdent cs
  scanAfterName ((read ++ name.1).map Char.toLower) opened name.2

theorem scanAfterName_of_ne {cs : List Char} (h : ∀ inside, cs ≠ '(' :: inside)
    (name : List Char) (opened : List (List Char)) :
    scanAfterName name opened cs = scanCss opened cs := by
  unfold scanAfterName
  split
  · exact absurd rfl (h _)
  · rfl

theorem scanCss_comment (opened : List (List Char)) (rest : List Char) :
    scanCss opened ('/' :: '*' :: rest) = scanCss opened (skipComment rest) := by
  rw [scanCss, if_pos ⟨rfl, rfl⟩]
  rfl

theorem scanCss_quote {c : Char} (hc : c = '"' ∨ c = '\'') (opened : List (List Char))
    (rest : List Char) :
    scanCss opened (c :: rest) =
      match cssCheckUrl (CssUrlScanner.consumeString c rest).1 (inUrlFunction opened) with
      | .error e => .error e
      | .ok () => scanCss opened (CssUrlScanner.consumeString c rest).2 := by
  have hslash : ¬(c = '/' ∧ rest.head? = some '*') := by
    rcases hc with rfl | rfl <;> exact fun h => absurd h.1 (by decide)
  rw [scanCss]
  exact (if_neg hslash).trans (if_pos hc)

theorem scanCss_at {rest : List Char} (h : CssUrlScanner.startsIdentAt rest = true)
    (opened : List (List Char)) :
    scanCss opened ('@' :: rest) =
      if (CssUrlScanner.consumeIdent rest).1.map Char.toLower = "import".toList then
        .error importBlocked
      else scanCss opened (CssUrlScanner.consumeIdent rest).2 := by
  rw [scanCss, if_neg (fun h => absurd h.1 (by decide)), if_neg (by decide), if_pos ⟨rfl, h⟩]

theorem scanCss_open (opened : List (List Char)) (rest : List Char) :
    scanCss opened ('(' :: rest) = scanCss ([] :: opened) rest := by
  rw [scanCss, if_neg (fun h => absurd h.1 (by decide)), if_neg (by decide),
    if_neg (fun h => absurd h.1 (by decide)), if_pos rfl]

theorem scanCss_close (opened : List (List Char)) (rest : List Char) :
    scanCss opened (')' :: rest) = scanCss opened.tail rest := by
  rw [scanCss, if_neg (fun h => absurd h.1 (by decide)), if_neg (by decide),
    if_neg (fun h => absurd h.1 (by decide)), if_neg (by decide), if_pos rfl]

/-- A character that starts no comment, no string, no name and no bracket. -/
def Skipped (c : Char) (rest : List Char) : Prop :=
  ¬(c = '/' ∧ rest.head? = some '*') ∧ ¬(c = '"' ∨ c = '\'') ∧
    ¬(c = '@' ∧ CssUrlScanner.startsIdentAt rest) ∧ c ≠ '(' ∧ c ≠ ')'

theorem scanCss_skip {c : Char} {rest : List Char} (hskip : Skipped c rest)
    (hname : CssUrlScanner.startsIdentAt (c :: rest) = false) (opened : List (List Char)) :
    scanCss opened (c :: rest) = scanCss opened rest := by
  obtain ⟨hcomment, hquote, hat, hopen, hclose⟩ := hskip
  rw [scanCss, if_neg hcomment, if_neg hquote, if_neg hat, if_neg hopen, if_neg hclose,
    dif_neg (by rw [hname]; exact Bool.false_ne_true)]

theorem startsIdentAt_skipped {c : Char} {rest : List Char}
    (h : CssUrlScanner.startsIdentAt (c :: rest) = true) : Skipped c rest := by
  have hne {d : Char} (hd : cssIsIdentStart d = false) (hminus : d ≠ '-')
      (hescape : d ≠ '\\') : c ≠ d := by
    rintro rfl
    unfold CssUrlScanner.startsIdentAt at h
    split at h
    · exact hminus (List.cons.inj ‹_›).1
    · exact hescape (List.cons.inj ‹_›).1
    · rename_i heq
      rw [← (List.cons.inj heq).1, hd] at h
      cases h
    · cases h
  exact ⟨fun hc => hne (by decide) (by decide) (by decide) hc.1,
    not_or.mpr ⟨hne (by decide) (by decide) (by decide), hne (by decide) (by decide) (by decide)⟩,
    fun hc => hne (by decide) (by decide) (by decide) hc.1,
    hne (by decide) (by decide) (by decide), hne (by decide) (by decide) (by decide)⟩

/-- A name that starts is read from its start. -/
theorem scanCss_name {c : Char} {rest : List Char}
    (h : CssUrlScanner.startsIdentAt (c :: rest) = true) (opened : List (List Char)) :
    scanCss opened (c :: rest) = scanName [] opened (c :: rest) := by
  obtain ⟨hcomment, hquote, hat, hopen, hclose⟩ := startsIdentAt_skipped h
  rw [scanCss, if_neg hcomment, if_neg hquote, if_neg hat, if_neg hopen, if_neg hclose,
    dif_pos h, scanName, List.nil_append]
  dsimp only
  split
  · rename_i heq
    rw [heq]
    rfl
  · rename_i hne
    rw [scanAfterName_of_ne hne]

/-! ## Between names and within one -/

inductive Mode where
  | between
  | within (read : List Char)

def scan : Mode → List (List Char) → List Char → Except String Unit
  | .between, opened, cs => scanCss opened cs
  | .within read, opened, cs => scanName read opened cs

/-- A name that starts so is not `url`. -/
def Foreign (read : List Char) : Prop := read.any Css.isDigit = true ∨ ∃ tail, read = '-' :: tail

/-- An unquoted `url(` is ahead, past its name. -/
def opensUrl (name : List Char) : List Char → Bool
  | '(' :: inside => Css.isWord "url" name && !Css.quoteAhead inside
  | _ => false

/-- Where the loop may be when a token starts. -/
inductive InStep : Bool → List Char → Mode → Prop
  | between (cs : List Char) : InStep false cs .between
  /-- The token goes on with a name that the loop has begun. -/
  | joined {read : List Char} (cs : List Char) (h : Foreign read) : InStep true cs (.within read)
  /-- The name is over. -/
  | ended {read cs : List Char} (hname : Css.continuesIdent cs = false)
      (hurl : opensUrl read cs = false) : InStep false cs (.within read)

theorem Foreign.append {read : List Char} (h : Foreign read) (more : List Char) :
    Foreign (read ++ more) := by
  rcases h with hdigit | ⟨tail, rfl⟩
  · left
    rw [List.any_append, hdigit, Bool.true_or]
  · exact .inr ⟨tail ++ more, rfl⟩

theorem Foreign.not_url {read : List Char} (h : Foreign read) : Css.isWord "url" read = false := by
  have hlower (c : Char) (hc : Css.isDigit c = true) : c.toLower = c := by
    have hle : c.val ≤ '9'.val := of_decide_eq_true (Bool.and_eq_true_iff.mp hc).2
    rw [Char.toLower, dif_neg]
    intro hupper
    exact absurd (UInt32.le_trans hupper.1 hle) (by decide)
  rw [Css.isWord, beq_eq_false_iff_ne]
  intro heq
  rcases h with hdigit | ⟨tail, rfl⟩
  · obtain ⟨c, hmem, hc⟩ := List.any_eq_true.mp hdigit
    have hmem := List.mem_map_of_mem (f := Char.toLower) hmem
    rw [heq, hlower c hc] at hmem
    have hno : ∀ c ∈ "url".toList, Css.isDigit c = false := by decide
    rw [hno c hmem] at hc
    cases hc
  · rw [List.map_cons] at heq
    exact absurd (List.cons.inj heq).1 (by decide)

theorem opensUrl_of_ne {cs : List Char} (h : ∀ inside, cs ≠ '(' :: inside)
    (name : List Char) : opensUrl name cs = false := by
  unfold opensUrl
  split
  · exact absurd rfl (h _)
  · rfl

theorem Foreign.not_opensUrl {read : List Char} (h : Foreign read) (cs : List Char) :
    opensUrl read cs = false := by
  unfold opensUrl
  split
  · rw [h.not_url, Bool.false_and]
  · rfl

theorem opensUrl_iff (read inside : List Char) :
    opensUrl read ('(' :: inside) = true ↔
      read.map Char.toLower = "url".toList ∧
        ¬(inside.dropWhile cssIsWs).head?.any (fun d => d == '"' || d == '\'') := by
  have hws : cssIsWs = Css.isWhitespace := funext cssIsWs_eq
  rw [opensUrl, Bool.and_eq_true, Css.isWord, beq_iff_eq, Bool.not_eq_true', hws,
    Bool.not_eq_true]
  rfl

/-- An open bracket after a name that opens no url. -/
theorem scanAfterName_open {read inside : List Char} (h : opensUrl read ('(' :: inside) = false)
    (opened : List (List Char)) :
    scanAfterName (read.map Char.toLower) opened ('(' :: inside) =
      scanCss (read.map Char.toLower :: opened) inside := by
  have hurl := (opensUrl_iff read inside).not.mp (Bool.not_eq_true _ ▸ h)
  rw [scanAfterName, if_neg hurl]

theorem scanAfterName_url {read inside : List Char} (h : opensUrl read ('(' :: inside) = true)
    (opened : List (List Char)) :
    scanAfterName (read.map Char.toLower) opened ('(' :: inside) =
      match cssCheckUrl (CssUrlScanner.consumeUrl (inside.dropWhile Css.isWhitespace)).1 true with
      | .error e => .error e
      | .ok () =>
          scanCss opened (CssUrlScanner.consumeUrl (inside.dropWhile Css.isWhitespace)).2 := by
  have hws : cssIsWs = Css.isWhitespace := funext cssIsWs_eq
  rw [scanAfterName, if_pos ((opensUrl_iff read inside).mp h), hws]

theorem scanName_over {cs : List Char} (h : Css.continuesIdent cs = false) (read : List Char)
    (opened : List (List Char)) :
    scanName read opened cs = scanAfterName (read.map Char.toLower) opened cs := by
  have hspec := Css.consumeIdent_of_not_continues h
  have hname : CssUrlScanner.consumeIdent cs = ([], cs) := by
    rcases CssUrlScanner.consumeIdent_eq cs with heq | ⟨-, hmem⟩
    · rw [heq, hspec]
    · rw [hspec] at hmem
      cases hmem
  rw [scanName, hname, List.append_nil]

theorem scanName_char {c : Char} (h : Css.isIdent c = true) (read rest : List Char)
    (opened : List (List Char)) :
    scanName read opened (c :: rest) = scanName (read ++ [c]) opened rest := by
  rw [scanName, scanName, CssUrlScanner.consumeIdent, cssIsIdentChar_eq, if_pos h,
    List.append_assoc]
  rfl

/-- The loop reads a whole name, unless a reverse solidus ends the text in it. -/
theorem scanName_ident (read cs : List Char) (opened : List (List Char)) :
    scanName read opened cs =
        scanName (read ++ (Css.consumeIdent cs).1) opened (Css.consumeIdent cs).2 ∨
      (Css.consumeIdent cs).2 = [] := by
  rcases CssUrlScanner.consumeIdent_eq cs with heq | ⟨hnil, -⟩
  · left
    rw [scanName_over (Css.continuesIdent_consumeIdent cs), scanName, heq]
  · exact .inr hnil

/-- A name is over at a character that does not continue it. -/
theorem scan_leave {joined : Bool} {mode : Mode} {c : Char} {rest : List Char}
    (hmode : InStep joined (c :: rest) mode) (hname : Css.continuesIdent (c :: rest) = false)
    (hopen : c ≠ '(') (opened : List (List Char)) :
    scan mode opened (c :: rest) = scanCss opened (c :: rest) := by
  cases hmode with
  | between => rfl
  | joined _ _ | ended =>
      rw [scan, scanName_over hname, scanAfterName_of_ne]
      intro inside heq
      exact hopen (List.cons.inj heq).1

theorem scan_open {joined : Bool} {mode : Mode} {rest : List Char}
    (hmode : InStep joined ('(' :: rest) mode) (opened : List (List Char)) :
    ∃ name, scan mode opened ('(' :: rest) = scanCss (name :: opened) rest := by
  have hname : Css.continuesIdent ('(' :: rest) = false := rfl
  cases hmode with
  | between => exact ⟨[], scanCss_open opened rest⟩
  | joined _ h => exact ⟨_, by rw [scan, scanName_over hname, scanAfterName_open (h.not_opensUrl _)]⟩
  | ended _ hurl => exact ⟨_, by rw [scan, scanName_over hname, scanAfterName_open hurl]⟩

theorem scan_skip {joined : Bool} {mode : Mode} {c : Char} {rest : List Char}
    (hmode : InStep joined (c :: rest) mode) (hskip : Skipped c rest)
    (hname : Css.continuesIdent (c :: rest) = false) (opened : List (List Char)) :
    scan mode opened (c :: rest) = scanCss opened rest := by
  rw [scan_leave hmode hname hskip.2.2.2.1 opened,
    scanCss_skip hskip (CssUrlScanner.startsIdentAt_of_not_continues hname)]

/-! ## Numbers -/

/-- Whether a name goes on after the text of a number, read from left to right. -/
def joins : Bool → List Char → Bool
  | joined, [] => joined
  | joined, c :: cs => joins (Css.isIdentStart c || joined && Css.isIdent c) cs

theorem joins_append (joined : Bool) (xs ys : List Char) :
    joins joined (xs ++ ys) = joins (joins joined xs) ys := by
  induction xs generalizing joined with
  | nil => rfl
  | cons c xs ih => exact ih _

/-- Where the loop may be inside a number. -/
inductive Joined : Bool → Mode → Prop
  | between : Joined false .between
  | within {read : List Char} (h : Foreign read) : Joined true (.within read)

theorem Joined.inStep {joined : Bool} {mode : Mode} (h : Joined joined mode) (cs : List Char) :
    InStep joined cs mode := by
  cases h with
  | between => exact .between cs
  | within h => exact .joined cs h

section Numbers

variable (opened : List (List Char))

/-- The loop takes this part of a number. -/
def Carries (part rest : List Char) : Prop :=
  ∀ joined mode, Joined joined mode → ∃ mode', Joined (joins joined part) mode' ∧
    scan mode opened (part ++ rest) = scan mode' opened rest

theorem carries_nil (rest : List Char) : Carries opened [] rest :=
  fun _ mode h => ⟨mode, h, rfl⟩

theorem Carries.append {part more rest : List Char} (h : Carries opened part (more ++ rest))
    (hmore : Carries opened more rest) : Carries opened (part ++ more) rest := by
  intro joined mode hmode
  obtain ⟨mode₁, hmode₁, hscan₁⟩ := h joined mode hmode
  obtain ⟨mode₂, hmode₂, hscan₂⟩ := hmore _ mode₁ hmode₁
  refine ⟨mode₂, ?_, ?_⟩
  · rw [joins_append]
    exact hmode₂
  · rw [List.append_assoc, hscan₁, hscan₂]

/-- A character that is skipped where no name goes on, and ends no name that does. -/
theorem carries_ident {c : Char} {rest : List Char} (hident : Css.isIdent c = true)
    (hstart : Css.isIdentStart c = false) (hskip : Skipped c rest)
    (hname : CssUrlScanner.startsIdentAt (c :: rest) = false) : Carries opened [c] rest := by
  intro joined mode hmode
  rw [joins, hstart, hident, Bool.false_or, Bool.and_true, joins]
  cases hmode with
  | between => exact ⟨.between, .between, scanCss_skip hskip hname opened⟩
  | @within read h =>
      exact ⟨.within (read ++ [c]), .within (h.append [c]), scanName_char hident read rest opened⟩

/-- A character that ends a name. -/
theorem carries_other {c : Char} {rest : List Char} (hident : Css.isIdent c = false)
    (hescape : c ≠ '\\') (hskip : Skipped c rest) : Carries opened [c] rest := by
  intro joined mode hmode
  have hstart : Css.isIdentStart c = false := by
    cases hstart : Css.isIdentStart c with
    | false => rfl
    | true => rw [Css.isIdent, hstart] at hident; cases hident
  have hname : Css.continuesIdent (c :: rest) = false := by
    rw [Css.continuesIdent, Css.validEscape_of_ne hescape, Bool.or_false]
    exact hident
  rw [joins, hstart, hident, Bool.false_or, Bool.and_false, joins]
  exact ⟨.between, .between, scan_skip (hmode.inStep _) hskip hname opened⟩

theorem not_skipped_eq {c : Char} (rest : List Char) (hslash : c ≠ '/') (hdouble : c ≠ '"')
    (hsingle : c ≠ '\'') (hat : c ≠ '@') (hopen : c ≠ '(') (hclose : c ≠ ')') : Skipped c rest :=
  ⟨fun h => hslash h.1, not_or.mpr ⟨hdouble, hsingle⟩, fun h => hat h.1, hopen, hclose⟩

/-- A class of characters that are skipped. -/
theorem skipped_of_class {p : Char → Bool}
    (hp : ['/', '"', '\'', '@', '(', ')'].any p = false) {c : Char} (hc : p c = true)
    (rest : List Char) : Skipped c rest := by
  have hne {d : Char} (hd : d ∈ ['/', '"', '\'', '@', '(', ')']) : c ≠ d := by
    rintro rfl
    rw [List.any_eq_false] at hp
    exact hp c hd hc
  apply not_skipped_eq <;> exact hne (by decide)

theorem isDigit_ne {c d : Char} (hc : Css.isDigit c = true) (hd : Css.isDigit d = false) :
    c ≠ d := by
  rintro rfl
  rw [hc] at hd
  cases hd

theorem carries_digit {c : Char} (h : Css.isDigit c = true) (rest : List Char) :
    Carries opened [c] rest := by
  apply carries_ident
  · rw [Css.isIdent, h, Bool.or_true, Bool.true_or]
  · exact Css.isIdentStart_of_isDigit h
  · exact skipped_of_class rfl h rest
  · apply CssUrlScanner.startsIdentAt_of_not_starts
    rw [Css.startsIdent_cons (isDigit_ne h (by decide)) (isDigit_ne h (by decide))]
    exact Css.isIdentStart_of_isDigit h

theorem carries_digits {digits : List Char} (h : digits.all Css.isDigit) (rest : List Char) :
    Carries opened digits rest := by
  induction digits with
  | nil => exact carries_nil opened rest
  | cons c digits ih =>
      rw [List.all_cons, Bool.and_eq_true] at h
      exact (carries_digit opened h.1 _).append opened (ih h.2)

theorem carries_takeWhile (cs : List Char) :
    Carries opened (cs.takeWhile Css.isDigit) (cs.dropWhile Css.isDigit) :=
  carries_digits opened List.all_takeWhile _

theorem carries_plus (rest : List Char) : Carries opened ['+'] rest := by
  apply carries_other
  · rfl
  · decide
  · apply not_skipped_eq <;> decide

theorem carries_minus {c : Char} (hc : c = '.' ∨ Css.isDigit c = true) (rest : List Char) :
    Carries opened ['-'] (c :: rest) := by
  apply carries_ident
  · rfl
  · rfl
  · apply not_skipped_eq <;> decide
  · apply CssUrlScanner.startsIdentAt_of_not_starts
    rcases hc with rfl | hc
    · rfl
    · have hminus : (c == '-') = false := beq_false_of_ne (isDigit_ne hc (by decide))
      rw [Css.startsIdent_minus, Css.isIdentStart_of_isDigit hc, hminus,
        Css.validEscape_of_ne (isDigit_ne hc (by decide))]
      rfl

theorem carries_dot (rest : List Char) : Carries opened ['.'] rest := by
  apply carries_other
  · rfl
  · decide
  · apply not_skipped_eq <;> decide

/-- From `e` on: the sign and the digits of an exponent. -/
theorem carries_exponent {e d : Char} (he : e = 'e' ∨ e = 'E') {sign digits : List Char}
    (hsign : sign = [] ∨ sign = ['+'] ∨ sign = ['-']) (hd : Css.isDigit d = true)
    (hdigits : digits.all Css.isDigit) (rest : List Char) :
    Carries opened (e :: sign ++ d :: digits) rest := by
  have hstart : Css.isIdentStart e = true := by rcases he with rfl | rfl <;> rfl
  have hident : Css.isIdent e = true := by rw [Css.isIdent, hstart, Bool.true_or, Bool.true_or]
  have hdident : Css.isIdent d = true := by rw [Css.isIdent, hd, Bool.or_true, Bool.true_or]
  intro joined mode hmode
  have hjoins (xs : List Char) : joins joined (e :: xs) = joins true xs := by
    rw [joins, hstart, Bool.true_or]
  obtain ⟨read, hread⟩ : ∃ read, ∀ xs,
      scan mode opened (e :: xs) = scan (.within read) opened xs := by
    cases hmode with
    | between =>
        refine ⟨[e], fun xs => ?_⟩
        have hname : CssUrlScanner.startsIdentAt (e :: xs) = true := by
          rcases he with rfl | rfl <;> rfl
        exact (scanCss_name hname opened).trans (scanName_char hident [] xs opened)
    | @within read h => exact ⟨read ++ [e], fun xs => scanName_char hident read xs opened⟩
  have hforeign (before : List Char) : Joined true (.within (before ++ [d])) := by
    apply Joined.within
    left
    rw [List.any_append, List.any_cons, hd, Bool.true_or, Bool.or_true]
  have htrue (xs : List Char) : joins true (d :: xs) = joins true xs := by
    rw [joins, hdident, Bool.and_true, Bool.or_true]
  rcases hsign with rfl | rfl | rfl
  · obtain ⟨mode', hmode', hscan⟩ := carries_digits opened hdigits rest true _ (hforeign read)
    refine ⟨mode', ?_, ?_⟩
    · rw [List.cons_append, List.nil_append, hjoins, htrue]
      exact hmode'
    · rw [List.cons_append, List.cons_append, List.nil_append, hread, List.cons_append, scan,
        scanName_char hdident]
      exact hscan
  · have hended : InStep false ('+' :: (d :: digits ++ rest)) (.within read) := .ended rfl rfl
    have hskip : Skipped '+' (d :: digits ++ rest) := by apply not_skipped_eq <;> decide
    have hall : (d :: digits).all Css.isDigit = true := by rw [List.all_cons, hd, hdigits]; rfl
    obtain ⟨mode', hmode', hscan⟩ := carries_digits opened hall rest false _ .between
    refine ⟨mode', ?_, ?_⟩
    · rw [List.cons_append, hjoins]
      exact hmode'
    · rw [List.cons_append, List.cons_append, hread]
      exact (scan_skip hended hskip rfl opened).trans hscan
  · obtain ⟨mode', hmode', hscan⟩ :=
      carries_digits opened hdigits rest true _ (hforeign (read ++ ['-']))
    refine ⟨mode', ?_, ?_⟩
    · rw [List.cons_append, hjoins]
      change Joined (joins true (d :: digits)) mode'
      rw [htrue]
      exact hmode'
    · rw [List.cons_append, List.cons_append, hread]
      have hminus : Css.isIdent '-' = true := rfl
      exact (scanName_char hminus read _ opened).trans
        ((scanName_char hdident _ _ opened).trans hscan)

/-- The loop takes what one stage of a number takes. -/
def Stage (stage : List Char → List Char) (cs : List Char) : Prop :=
  ∃ part, part ++ stage cs = cs ∧ Carries opened part (stage cs)

theorem Stage.comp {f g : List Char → List Char} {cs : List Char} (hf : Stage opened f cs)
    (hg : Stage opened g (f cs)) : Stage opened (g ∘ f) cs := by
  obtain ⟨part, hpart, hcarries⟩ := hf
  obtain ⟨more, hmore, hcarries'⟩ := hg
  refine ⟨part ++ more, ?_, ?_⟩
  · rw [List.append_assoc, Function.comp_apply, hmore, hpart]
  · apply Carries.append
    · rw [Function.comp_apply, hmore]
      exact hcarries
    · exact hcarries'

theorem stage_none {stage : List Char → List Char} {cs : List Char} (h : stage cs = cs) :
    Stage opened stage cs :=
  ⟨[], h, by rw [h]; exact carries_nil opened cs⟩

theorem stage_sign {c : Char} {rest : List Char} (h : Css.startsNumber (c :: rest) = true) :
    Stage opened Css.dropSign (c :: rest) := by
  by_cases hplus : c = '+'
  · subst hplus
    exact ⟨['+'], rfl, carries_plus opened rest⟩
  by_cases hminus : c = '-'
  · subst hminus
    refine ⟨['-'], rfl, ?_⟩
    unfold Css.startsNumber at h
    simp only [or_true, if_true] at h
    split at h
    · exact carries_minus opened (.inl rfl) _
    · exact carries_minus opened (.inr h) _
    · cases h
  · exact stage_none opened (Css.dropSign_of_not_sign (not_or.mpr ⟨hplus, hminus⟩) rest)

theorem stage_digits (cs : List Char) : Stage opened (List.dropWhile Css.isDigit) cs :=
  ⟨cs.takeWhile Css.isDigit, List.takeWhile_append_dropWhile, carries_takeWhile opened cs⟩

theorem stage_fraction (cs : List Char) : Stage opened Css.consumeFraction cs := by
  by_cases hnone : Css.consumeFraction cs = cs
  · exact stage_none opened hnone
  unfold Css.consumeFraction at hnone
  split at hnone
  · rename_i d rest
    split_ifs at hnone with hd
    · have hdrop : Css.consumeFraction ('.' :: d :: rest) = rest.dropWhile Css.isDigit := by
        rw [Css.consumeFraction, if_pos hd]
      refine ⟨['.'] ++ ([d] ++ rest.takeWhile Css.isDigit), ?_, ?_⟩
      · rw [hdrop, List.append_assoc, List.append_assoc, List.takeWhile_append_dropWhile]
        rfl
      · rw [hdrop]
        exact (carries_dot opened _).append opened
          ((carries_digit opened hd _).append opened (carries_takeWhile opened rest))
    · exact absurd rfl hnone
  · exact absurd rfl hnone

theorem stage_exponent (cs : List Char) : Stage opened Css.consumeExponent cs := by
  by_cases hnone : Css.consumeExponent cs = cs
  · exact stage_none opened hnone
  unfold Css.consumeExponent at hnone
  split at hnone
  · rename_i e rest
    split_ifs at hnone with h
    · have hdrop : Css.consumeExponent (e :: rest) = (Css.dropSign rest).dropWhile Css.isDigit := by
        rw [Css.consumeExponent, if_pos h]
      obtain ⟨he, hdigit⟩ := h
      obtain ⟨sign, hsign, hrest⟩ : ∃ sign, (sign = [] ∨ sign = ['+'] ∨ sign = ['-']) ∧
          sign ++ Css.dropSign rest = rest := by
        unfold Css.dropSign
        split
        · exact ⟨['+'], .inr (.inl rfl), rfl⟩
        · exact ⟨['-'], .inr (.inr rfl), rfl⟩
        · exact ⟨[], .inl rfl, rfl⟩
      cases hdigits : Css.dropSign rest with
      | nil =>
          rw [hdigits] at hdigit
          cases hdigit
      | cons d digits =>
          rw [hdigits] at hdigit hrest hdrop
          have hd : Css.isDigit d = true := hdigit
          rw [List.dropWhile_cons, if_pos hd] at hdrop
          refine ⟨e :: sign ++ d :: digits.takeWhile Css.isDigit, ?_, ?_⟩
          · rw [hdrop, List.append_assoc, List.cons_append, List.cons_append,
              List.takeWhile_append_dropWhile, hrest]
          · rw [hdrop]
            exact carries_exponent opened he hsign hd List.all_takeWhile _
    · exact absurd rfl hnone
  · exact absurd rfl hnone

theorem take_of_append {part rest cs : List Char} (h : part ++ rest = cs) :
    cs.take (cs.length - rest.length) = part := by
  rw [← h, List.length_append, Nat.add_sub_cancel]
  exact List.take_left

theorem carries_number {c : Char} {rest : List Char} (h : Css.startsNumber (c :: rest) = true) :
    (Css.consumeNumber (c :: rest)).1 ++ (Css.consumeNumber (c :: rest)).2 = c :: rest ∧
      Carries opened (Css.consumeNumber (c :: rest)).1 (Css.consumeNumber (c :: rest)).2 := by
  obtain ⟨part, hpart, hcarries⟩ := (((stage_sign opened h).comp opened
    (stage_digits opened _)).comp opened (stage_fraction opened _)).comp opened
    (stage_exponent opened _)
  have htext : (Css.consumeNumber (c :: rest)).1 = part := take_of_append hpart
  rw [htext]
  exact ⟨hpart, hcarries⟩

end Numbers

end Victauri.Plugin.Mcp
