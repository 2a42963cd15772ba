import Victauri.Plugin.Mcp.Css.Lockstep

/-!
# What injected CSS can fetch

`sanitize_injected_css` against the tokens of the text, as long as the scanner reads every
name that decides about a url where the tokenizer reads it.
-/

namespace Victauri.Plugin.Mcp

open Victauri.Library

/-! ## What the check is for -/

/-- The open functions and brackets after a token, innermost first, `[]` for a bracket. -/
def openedAfter (opened : List (List Char)) : Css.Token → List (List Char)
  | .function name => name.map Char.toLower :: opened
  | .leftParen => [] :: opened
  | .rightParen => opened.tail
  | _ => opened

/-- A token that can fetch from a remote origin. -/
def Remote (opened : List (List Char)) : Css.Token → Prop
  | .atKeyword name => Css.isWord "import" name = true
  | .url value => cssCheckUrl value true ≠ .ok ()
  | .string value => inUrlFunction opened = true ∧ cssCheckUrl value true ≠ .ok ()
  | _ => False

instance (opened : List (List Char)) (t : Css.Token) : Decidable (Remote opened t) := by
  unfold Remote
  split <;> infer_instance

def NoRemote (opened : List (List Char)) : List Css.Token → Prop
  | [] => True
  | t :: ts => ¬Remote opened t ∧ NoRemote (openedAfter opened t) ts

instance decidableNoRemote (opened : List (List Char)) :
    (ts : List Css.Token) → Decidable (NoRemote opened ts)
  | [] => .isTrue trivial
  | t :: ts =>
      have := decidableNoRemote (openedAfter opened t) ts
      inferInstanceAs (Decidable (¬Remote opened t ∧ NoRemote (openedAfter opened t) ts))

/-! ## Where the scanner and the tokenizer agree -/

/-- The first place in a run of ident code points where an ident sequence may start. -/
def nameStart : List Char → List Char
  | [] => []
  | c :: rest =>
      if Css.startsIdent (c :: rest) || !Css.isIdent c then c :: rest else nameStart rest

/-- Whether the scanner takes the text after a token for the rest of a name. -/
def joinedAfter (joined : Bool) : Css.Token → Bool
  | .cdo => true
  | .number text => joins joined text
  | _ => false

/-- The scanner reads the names of this token, as far as they decide about a url, where the
tokenizer reads them: a name joined to the text before it opens neither a url nor a function
of `CSS_URL_FUNCTIONS`, and no `url(` is read in a dimension or a hash. -/
def Aligned (joined : Bool) (l : Css.Lexeme) : Prop :=
  match l.token with
  | .url _ | .badUrl => joined = false
  | .function name => joined = true → cssUrlFunctions.contains (name.map Char.toLower) = false
  | .dimension text unit => joins joined text = false → opensUrl unit l.rest = false
  | .hash _ =>
      let name := Css.consumeIdent (nameStart (l.start.drop 1))
      opensUrl name.1 name.2 = false
  | _ => True

instance (joined : Bool) (l : Css.Lexeme) : Decidable (Aligned joined l) := by
  unfold Aligned
  split <;> infer_instance

/-- All tokens of a text are aligned; a comment ends a name. -/
def AllAligned (joined : Bool) (before : List Char) : List Css.Lexeme → Prop
  | [] => True
  | l :: ls =>
      let joined := joined && before == l.start
      Aligned joined l ∧ AllAligned (joinedAfter joined l.token) l.rest ls

instance decidableAllAligned (joined : Bool) (before : List Char) :
    (ls : List Css.Lexeme) → Decidable (AllAligned joined before ls)
  | [] => .isTrue trivial
  | l :: ls =>
      have := decidableAllAligned (joinedAfter (joined && before == l.start) l.token) l.rest ls
      inferInstanceAs (Decidable (Aligned (joined && before == l.start) l ∧
        AllAligned (joinedAfter (joined && before == l.start) l.token) l.rest ls))

/-! ## One token -/

/-- The scanner's open functions cover the tokenizer's. -/
def Covers (scanned opened : List (List Char)) : Prop :=
  List.Forall₂ (fun s o => cssUrlFunctions.contains o = true → cssUrlFunctions.contains s = true)
    scanned opened

theorem Covers.inUrlFunction {scanned opened : List (List Char)} (h : Covers scanned opened)
    (hopened : inUrlFunction opened = true) : inUrlFunction scanned = true := by
  induction h with
  | nil => cases hopened
  | cons hhead _ ih =>
      rw [Mcp.inUrlFunction, List.any_cons, Bool.or_eq_true] at hopened ⊢
      rcases hopened with hopened | hopened
      · exact .inl (hhead hopened)
      · exact .inr (ih hopened)

theorem Covers.bracket {scanned opened : List (List Char)} (h : Covers scanned opened)
    (name : List Char) : Covers (name :: scanned) ([] :: opened) := by
  apply List.Forall₂.cons _ h
  intro hurl
  exact absurd hurl (by decide)

theorem Covers.tail {scanned opened : List (List Char)} (h : Covers scanned opened) :
    Covers scanned.tail opened.tail := by
  cases h with
  | nil => exact .nil
  | cons _ h => exact h

/-- What one token leaves: it fetches nothing, and unless it ends the text the scanner goes
on in step. -/
def Follows (joined : Bool) (opened : List (List Char)) (t : Css.Token) (rest : List Char) :
    Prop :=
  ¬Remote opened t ∧
    (rest = [] ∨
      ∃ mode scanned, InStep (joinedAfter joined t) rest mode ∧
        Covers scanned (openedAfter opened t) ∧ scan mode scanned rest = .ok ())

theorem not_continues_of_isWhitespace {c : Char} (hc : Css.isWhitespace c = true)
    {rest : List Char} : Css.continuesIdent (c :: rest) = false := by
  simp only [Css.isWhitespace, Bool.or_eq_true, beq_iff_eq] at hc
  rcases hc with (rfl | rfl) | rfl <;> rfl

theorem scanCss_spaces (opened : List (List Char)) (cs : List Char) :
    scanCss opened cs = scanCss opened (cs.dropWhile Css.isWhitespace) := by
  induction cs with
  | nil => rfl
  | cons c rest ih =>
      rw [List.dropWhile_cons]
      split_ifs with hc
      · rw [← ih]
        exact scan_skip (.between _) (skipped_of_class rfl hc _)
          (not_continues_of_isWhitespace hc) opened
      · rfl

theorem consumeIdent_eof : Css.consumeIdent ['\\'] = (['\ufffd'], []) := by
  have hnil : Css.consumeIdent [] = ([], []) := by rw [Css.consumeIdent]
  rw [Css.consumeIdent, if_neg (by decide), if_pos (by decide)]
  change ('\ufffd' :: (Css.consumeIdent []).1, (Css.consumeIdent []).2) = _
  rw [hnil]

theorem consumeIdent_minus_eof : Css.consumeIdent ['-', '\\'] = (['-', '\ufffd'], []) := by
  rw [Css.consumeIdent, if_pos (by decide), consumeIdent_eof]

section Steps

variable {joined : Bool} {mode : Mode} {scanned opened : List (List Char)} {rest : List Char}

theorem follows_whitespace {c : Char} (hc : Css.isWhitespace c = true)
    (hmode : InStep joined (c :: rest) mode) (hcover : Covers scanned opened)
    (hok : scan mode scanned (c :: rest) = .ok ()) :
    Follows joined opened .whitespace (rest.dropWhile Css.isWhitespace) := by
  rw [scan_skip hmode (skipped_of_class rfl hc _) (not_continues_of_isWhitespace hc),
    scanCss_spaces] at hok
  exact ⟨id, .inr ⟨.between, scanned, .between _, hcover, hok⟩⟩

theorem follows_quote {c : Char} (hc : c = '"' ∨ c = '\'')
    (hmode : InStep joined (c :: rest) mode) (hcover : Covers scanned opened)
    (hok : scan mode scanned (c :: rest) = .ok ()) :
    let s := Css.consumeString c rest
    Follows joined opened (match s.1 with | some value => .string value | none => .badString)
      s.2 := by
  have hname : Css.continuesIdent (c :: rest) = false := by rcases hc with rfl | rfl <;> rfl
  have hopen : c ≠ '(' := by rcases hc with rfl | rfl <;> decide
  rw [scan_leave hmode hname hopen, scanCss_quote hc] at hok
  obtain ⟨hrest, hvalue⟩ := CssUrlScanner.consumeString_eq c rest
  rw [hrest] at hok
  cases hcheck : cssCheckUrl (CssUrlScanner.consumeString c rest).1 (inUrlFunction scanned) with
  | error e =>
      rw [hcheck] at hok
      cases hok
  | ok =>
      rw [hcheck] at hok
      cases hstring : (Css.consumeString c rest).1 with
      | none =>
          dsimp only
          rw [hstring]
          exact ⟨id, .inr ⟨.between, scanned, .between _, hcover, hok⟩⟩
      | some value =>
          dsimp only
          rw [hstring]
          refine ⟨?_, .inr ⟨.between, scanned, .between _, hcover, hok⟩⟩
          intro hremote
          obtain ⟨hinside, hreject⟩ := hremote
          rw [hvalue value hstring, hcover.inUrlFunction hinside] at hcheck
          exact hreject hcheck

/-- The loop at a name: it is read whole, unless a reverse solidus ends the text in it. -/
theorem scan_ident (scanned : List (List Char)) {cs : List Char} (hmode : InStep joined cs mode)
    (hstart : Css.startsIdent cs = true) :
    ∃ read, (if joined then Foreign read else read = []) ∧
      ((Css.consumeIdent cs).2 = [] ∨
        scan mode scanned cs =
          scanName (read ++ (Css.consumeIdent cs).1) scanned (Css.consumeIdent cs).2) := by
  cases hmode with
  | between =>
      refine ⟨[], rfl, ?_⟩
      by_cases heof : cs = ['\\']
      · left
        rw [heof, consumeIdent_eof]
      by_cases hminus : cs = ['-', '\\']
      · left
        rw [hminus, consumeIdent_minus_eof]
      cases cs with
      | nil => cases hstart
      | cons c rest =>
          rw [← CssUrlScanner.startsIdentAt_eq heof hminus] at hstart
          have hname := scanName_ident [] (c :: rest) scanned
          rw [← scanCss_name hstart] at hname
          exact hname.symm
  | @joined read _ h => exact ⟨read, h, (scanName_ident read cs scanned).symm⟩
  | ended hname _ =>
      rw [Css.continuesIdent_of_startsIdent hstart] at hname
      cases hname

theorem scanCss_nameStart (scanned : List (List Char)) (cs : List Char) :
    scanCss scanned cs = scanCss scanned (nameStart cs) := by
  induction cs with
  | nil => rfl
  | cons c rest ih =>
      rw [nameStart]
      split_ifs with hstop
      · rfl
      · obtain ⟨hstart, hident⟩ := not_or.mp (Bool.or_eq_true _ _ ▸ hstop)
        rw [← ih]
        apply scanCss_skip
        · exact skipped_of_class rfl (by simpa using hident) rest
        · exact CssUrlScanner.startsIdentAt_of_not_starts (by simpa using hstart)

theorem consumeIdent_nameStart (cs : List Char) :
    (Css.consumeIdent (nameStart cs)).2 = (Css.consumeIdent cs).2 := by
  induction cs with
  | nil => rfl
  | cons c rest ih =>
      rw [nameStart]
      split_ifs with hstop
      · rfl
      · obtain ⟨-, hident⟩ := not_or.mp (Bool.or_eq_true _ _ ▸ hstop)
        rw [ih, Css.consumeIdent.eq_def (c :: rest)]
        dsimp only
        rw [if_pos (by simpa using hident)]

theorem nameStart_starts (cs : List Char) :
    Css.startsIdent (nameStart cs) = true ∨ Css.continuesIdent (nameStart cs) = false := by
  induction cs with
  | nil => exact .inr rfl
  | cons c rest ih =>
      rw [nameStart]
      split_ifs with hstop
      · rcases Bool.or_eq_true_iff.mp hstop with hstart | hident
        · exact .inl hstart
        · by_cases hescape : c = '\\'
          · subst hescape
            cases hvalid : Css.validEscape ('\\' :: rest) with
            | true => exact .inl hvalid
            | false =>
                right
                rw [Css.continuesIdent, hvalid, Bool.or_false]
                rfl
          · right
            rw [Css.continuesIdent, Css.validEscape_of_ne hescape, Bool.or_false]
            exact Bool.not_eq_true' _ ▸ hident
      · exact ih

theorem follows_hash (hmode : InStep joined ('#' :: rest) mode) (hcover : Covers scanned opened)
    (hname : let name := Css.consumeIdent (nameStart rest)
      opensUrl name.1 name.2 = false)
    (hok : scan mode scanned ('#' :: rest) = .ok ()) :
    Follows joined opened (.hash (Css.consumeIdent rest).1) (Css.consumeIdent rest).2 := by
  have hskip : Skipped '#' rest := by apply not_skipped_eq <;> decide
  rw [scan_skip hmode hskip rfl, scanCss_nameStart] at hok
  rw [← consumeIdent_nameStart]
  refine ⟨id, ?_⟩
  rcases nameStart_starts rest with hstart | hended
  · obtain ⟨read, hread, hscan⟩ := scan_ident scanned (.between (nameStart rest)) hstart
    have hread : read = [] := hread
    subst hread
    rcases hscan with hnil | hscan
    · exact .inl hnil
    · rw [scan] at hscan
      rw [hscan] at hok
      exact .inr ⟨.within _, scanned, .ended (Css.continuesIdent_consumeIdent _) hname, hcover, hok⟩
  · rw [Css.consumeIdent_of_not_continues hended]
    exact .inr ⟨.between, scanned, .between _, hcover, hok⟩

theorem follows_open (hmode : InStep joined ('(' :: rest) mode) (hcover : Covers scanned opened)
    (hok : scan mode scanned ('(' :: rest) = .ok ()) :
    Follows joined opened .leftParen rest := by
  obtain ⟨name, hname⟩ := scan_open hmode scanned
  rw [hname] at hok
  exact ⟨id, .inr ⟨.between, name :: scanned, .between rest, hcover.bracket name, hok⟩⟩

theorem follows_close (hmode : InStep joined (')' :: rest) mode) (hcover : Covers scanned opened)
    (hok : scan mode scanned (')' :: rest) = .ok ()) :
    Follows joined opened .rightParen rest := by
  rw [scan_leave hmode rfl (by decide), scanCss_close] at hok
  exact ⟨id, .inr ⟨.between, scanned.tail, .between rest, hcover.tail, hok⟩⟩

/-- A token that changes neither the brackets nor the place in a name. -/
theorem follows_skip {c : Char} {t : Css.Token} (hskip : Skipped c rest)
    (hname : Css.continuesIdent (c :: rest) = false)
    (ht : ¬Remote opened t ∧ openedAfter opened t = opened ∧ joinedAfter joined t = false)
    (hmode : InStep joined (c :: rest) mode) (hcover : Covers scanned opened)
    (hok : scan mode scanned (c :: rest) = .ok ()) : Follows joined opened t rest := by
  rw [scan_skip hmode hskip hname] at hok
  refine ⟨ht.1, .inr ⟨.between, scanned, ?_, ?_, hok⟩⟩
  · rw [ht.2.2]
    exact .between rest
  · rw [ht.2.1]
    exact hcover

/-- Past the name before it, a number is read from between names or within a foreign one. -/
theorem scan_joined {c : Char} (hmode : InStep joined (c :: rest) mode) (hopen : c ≠ '(') :
    ∃ mode', Joined joined mode' ∧
      scan mode scanned (c :: rest) = scan mode' scanned (c :: rest) := by
  cases hmode with
  | between => exact ⟨.between, .between, rfl⟩
  | @joined read _ h => exact ⟨.within read, .within h, rfl⟩
  | ended hname hurl =>
      exact ⟨.between, .between, scan_leave (.ended hname hurl) hname hopen scanned⟩

theorem follows_numeric {c : Char} (hstart : Css.startsNumber (c :: rest) = true)
    (hmode : InStep joined (c :: rest) mode) (hcover : Covers scanned opened)
    (haligned : let t := Css.consumeNumeric (c :: rest)
      Aligned joined ⟨c :: rest, t.1, t.2⟩)
    (hok : scan mode scanned (c :: rest) = .ok ()) :
    let t := Css.consumeNumeric (c :: rest)
    Follows joined opened t.1 t.2 := by
  have hopen : c ≠ '(' := by
    rintro rfl
    cases hstart
  obtain ⟨mode₁, hjoined₁, heq⟩ := scan_joined hmode hopen
  obtain ⟨htext, hcarries⟩ := carries_number scanned hstart
  obtain ⟨mode₂, hjoined₂, hscan⟩ := hcarries joined mode₁ hjoined₁
  rw [heq, ← htext, hscan] at hok
  unfold Css.consumeNumeric at haligned ⊢
  generalize Css.consumeNumber (c :: rest) = number at *
  dsimp only at haligned ⊢
  by_cases hunit : Css.startsIdent number.2 = true
  · rw [if_pos hunit] at haligned ⊢
    obtain ⟨read, hread, hstep⟩ := scan_ident scanned (hjoined₂.inStep _) hunit
    refine ⟨id, ?_⟩
    rcases hstep with hnil | hstep
    · exact .inl hnil
    · rw [hstep] at hok
      have hurl : opensUrl (read ++ (Css.consumeIdent number.2).1)
          (Css.consumeIdent number.2).2 = false := by
        cases hjoins : joins joined number.1 with
        | true =>
            rw [hjoins, if_pos rfl] at hread
            exact (hread.append _).not_opensUrl _
        | false =>
            rw [hjoins, if_neg Bool.false_ne_true] at hread
            rw [hread]
            exact haligned hjoins
      exact .inr ⟨.within _, scanned, .ended (Css.continuesIdent_consumeIdent _) hurl, hcover, hok⟩
  · rw [if_neg hunit]
    by_cases hpercent : number.2.head? = some '%'
    · rw [if_pos hpercent]
      obtain ⟨after, hafter⟩ := List.head?_eq_some_iff.mp hpercent
      rw [hafter] at hok ⊢
      have hskip : Skipped '%' after := by apply not_skipped_eq <;> decide
      rw [scan_skip (hjoined₂.inStep _) hskip rfl] at hok
      exact ⟨id, .inr ⟨.between, scanned, .between _, hcover, hok⟩⟩
    · rw [if_neg hpercent]
      exact ⟨id, .inr ⟨mode₂, scanned, hjoined₂.inStep _, hcover, hok⟩⟩

theorem follows_cdc (hmode : InStep joined ('-' :: '-' :: '>' :: rest) mode)
    (hcover : Covers scanned opened)
    (hok : scan mode scanned ('-' :: '-' :: '>' :: rest) = .ok ()) :
    Follows joined opened .cdc rest := by
  have hminus : Css.isIdent '-' = true := rfl
  have hskip : Skipped '>' rest := by apply not_skipped_eq <;> decide
  have hname (read : List Char) :
      scanName read scanned ('-' :: '-' :: '>' :: rest) = scanCss scanned rest := by
    rw [scanName_char hminus, scanName_char hminus]
    have hended : InStep false ('>' :: rest) (.within (read ++ ['-'] ++ ['-'])) := .ended rfl rfl
    exact scan_skip hended hskip rfl scanned
  have hrest : scan mode scanned ('-' :: '-' :: '>' :: rest) = scanCss scanned rest := by
    cases hmode with
    | between => exact (scanCss_name rfl scanned).trans (hname [])
    | @joined read => exact hname read
    | ended hended _ => cases hended
  rw [hrest] at hok
  exact ⟨id, .inr ⟨.between, scanned, .between _, hcover, hok⟩⟩

theorem follows_cdo (hmode : InStep joined ('<' :: '!' :: '-' :: '-' :: rest) mode)
    (hcover : Covers scanned opened)
    (hok : scan mode scanned ('<' :: '!' :: '-' :: '-' :: rest) = .ok ()) :
    Follows joined opened .cdo rest := by
  have hminus : Css.isIdent '-' = true := rfl
  have hless : Skipped '<' ('!' :: '-' :: '-' :: rest) := by apply not_skipped_eq <;> decide
  have hbang : Skipped '!' ('-' :: '-' :: rest) := by apply not_skipped_eq <;> decide
  rw [scan_skip hmode hless rfl, scanCss_skip hbang rfl, scanCss_name rfl,
    scanName_char hminus, scanName_char hminus] at hok
  exact ⟨id, .inr ⟨.within _, scanned, .joined _ (.inr ⟨['-'], rfl⟩), hcover, hok⟩⟩

theorem follows_atKeyword (hstart : Css.startsIdent rest = true)
    (hmode : InStep joined ('@' :: rest) mode) (hcover : Covers scanned opened)
    (hok : scan mode scanned ('@' :: rest) = .ok ()) :
    Follows joined opened (.atKeyword (Css.consumeIdent rest).1) (Css.consumeIdent rest).2 := by
  rw [scan_leave hmode rfl (by decide)] at hok
  by_cases heof : rest = ['\\']
  · rw [heof, consumeIdent_eof]
    exact ⟨Bool.false_ne_true, .inl rfl⟩
  by_cases hminus : rest = ['-', '\\']
  · rw [hminus, consumeIdent_minus_eof]
    exact ⟨Bool.false_ne_true, .inl rfl⟩
  rw [← CssUrlScanner.startsIdentAt_eq heof hminus] at hstart
  rw [scanCss_at hstart] at hok
  rcases CssUrlScanner.consumeIdent_eq rest with heq | ⟨hnil, hmem⟩
  · rw [heq] at hok
    split_ifs at hok with himport
    refine ⟨?_, .inr ⟨.between, scanned, .between _, hcover, hok⟩⟩
    intro hremote
    exact himport (beq_iff_eq.mp hremote)
  · refine ⟨?_, .inl hnil⟩
    intro hremote
    have hmem := List.mem_map_of_mem (f := Char.toLower) hmem
    rw [beq_iff_eq.mp hremote] at hmem
    exact absurd hmem (by decide)

theorem follows_identLike {cs : List Char} (hstart : Css.startsIdent cs = true)
    (hmode : InStep joined cs mode) (hcover : Covers scanned opened)
    (haligned : let t := Css.consumeIdentLike cs
      Aligned joined ⟨cs, t.1, t.2⟩)
    (hok : scan mode scanned cs = .ok ()) :
    let t := Css.consumeIdentLike cs
    Follows joined opened t.1 t.2 := by
  obtain ⟨read, hread, hstep⟩ := scan_ident scanned hmode hstart
  by_cases hopen : ∃ inside, (Css.consumeIdent cs).2 = '(' :: inside
  · obtain ⟨inside, hinside⟩ := hopen
    rcases hstep with hnil | hstep
    · rw [hinside] at hnil
      cases hnil
    rw [hstep, hinside, scanName_over rfl] at hok
    rw [Css.consumeIdentLike_open hinside] at haligned ⊢
    generalize (Css.consumeIdent cs).1 = name at *
    cases hurl : opensUrl name ('(' :: inside) with
    | true =>
        have hword : (Css.isWord "url" name && !Css.quoteAhead inside) = true := hurl
        rw [hword, if_pos rfl] at haligned ⊢
        obtain ⟨hrest, hvalue⟩ :=
          CssUrlScanner.consumeUrl_eq (inside.dropWhile Css.isWhitespace)
        generalize Css.consumeUrl (inside.dropWhile Css.isWhitespace) = url at *
        obtain ⟨value, after⟩ := url
        dsimp only at haligned hrest hvalue ⊢
        have hjoined : joined = false := by cases value <;> exact haligned
        rw [hjoined, if_neg Bool.false_ne_true] at hread
        rw [hread, List.nil_append, scanAfterName_url hurl] at hok
        split at hok
        · cases hok
        · rename_i hcheck
          rw [hrest] at hok
          refine ⟨?_, .inr ⟨.between, scanned, ?_, ?_, hok⟩⟩
          · cases value with
            | none => exact id
            | some value =>
                intro hremote
                exact hremote (cssCheckUrl_of_urlValue (hvalue value rfl) hcheck)
          · cases value <;> exact .between _
          · cases value <;> exact hcover
    | false =>
        have hword : (Css.isWord "url" name && !Css.quoteAhead inside) = false := hurl
        rw [hword, if_neg Bool.false_ne_true] at haligned ⊢
        cases joined with
        | true =>
            rw [if_pos rfl] at hread
            rw [scanAfterName_open ((hread.append name).not_opensUrl _)] at hok
            refine ⟨id, .inr ⟨.between, _, .between _, .cons ?_ hcover, hok⟩⟩
            intro hcontains
            rw [haligned rfl] at hcontains
            cases hcontains
        | false =>
            rw [if_neg Bool.false_ne_true] at hread
            rw [hread, List.nil_append, scanAfterName_open hurl] at hok
            exact ⟨id, .inr ⟨.between, _, .between _, .cons id hcover, hok⟩⟩
  · rw [not_exists] at hopen
    rw [Css.consumeIdentLike_ident hopen]
    refine ⟨id, ?_⟩
    rcases hstep with hnil | hstep
    · exact .inl hnil
    · rw [hstep] at hok
      exact .inr ⟨.within _, scanned, .ended (Css.continuesIdent_consumeIdent cs)
        (opensUrl_of_ne hopen _), hcover, hok⟩

theorem continuesIdent_after_minus (hident : Css.startsIdent ('-' :: rest) = false)
    (hnumber : Css.startsNumber ('-' :: rest) = false) : Css.continuesIdent rest = false := by
  cases rest with
  | nil => rfl
  | cons d after =>
      rw [Css.startsIdent_minus, Bool.or_eq_false_iff, Bool.or_eq_false_iff] at hident
      obtain ⟨⟨hletter, hminus⟩, hescape⟩ := hident
      have hdigit : Css.isDigit d = false := by
        cases hd : Css.isDigit d with
        | false => rfl
        | true =>
            rw [Css.startsNumber_minus hd] at hnumber
            cases hnumber
      rw [Css.continuesIdent, hescape, Bool.or_false]
      change Css.isIdent d = false
      rw [Css.isIdent, hletter, hdigit, hminus]
      rfl

theorem eq_minus_of_continues {c : Char} (hname : Css.continuesIdent (c :: rest) = true)
    (hident : Css.startsIdent (c :: rest) = false)
    (hnumber : Css.startsNumber (c :: rest) = false) : c = '-' := by
  by_contra hminus
  have hescape : c ≠ '\\' := by
    rintro rfl
    have hvalid : Css.validEscape ('\\' :: rest) = false := hident
    rw [Css.continuesIdent, hvalid] at hname
    cases hname
  rw [Css.startsIdent_cons hminus hescape] at hident
  rw [Css.continuesIdent, Css.validEscape_of_ne hescape, Bool.or_false] at hname
  have hname : Css.isIdent c = true := hname
  rw [Css.isIdent, hident, Bool.false_or, beq_false_of_ne hminus, Bool.or_false] at hname
  rw [Css.startsNumber_of_isDigit hname] at hnumber
  cases hnumber

theorem follows_other {c : Char} (hcomment : ¬(c = '/' ∧ rest.head? = some '*'))
    (hother : Css.Start.Holds c rest .other)
    (hmode : InStep joined (c :: rest) mode) (hcover : Covers scanned opened)
    (hok : scan mode scanned (c :: rest) = .ok ()) : Follows joined opened (.delim c) rest := by
  obtain ⟨hdouble, hsingle, hopen, hclose, hat, hnumber, hident⟩ := hother
  have hskip : Skipped c rest := by
    refine ⟨hcomment, not_or.mpr ⟨hdouble, hsingle⟩, ?_, hopen, hclose⟩
    intro hname
    have hstarts := CssUrlScanner.startsIdent_of_startsIdentAt hname.2
    rw [hat hname.1] at hstarts
    cases hstarts
  cases hname : Css.continuesIdent (c :: rest) with
  | false =>
      rw [scan_skip hmode hskip hname] at hok
      exact ⟨id, .inr ⟨.between, scanned, .between _, hcover, hok⟩⟩
  | true =>
      cases hmode with
      | between =>
          rw [scan, scanCss_skip hskip (CssUrlScanner.startsIdentAt_of_not_starts hident)] at hok
          exact ⟨id, .inr ⟨.between, scanned, .between _, hcover, hok⟩⟩
      | @joined read _ hforeign =>
          have hc := eq_minus_of_continues hname hident hnumber
          subst hc
          have hminus : Css.isIdent '-' = true := rfl
          rw [scan, scanName_char hminus] at hok
          exact ⟨id, .inr ⟨.within _, scanned, .ended (continuesIdent_after_minus hident hnumber)
            ((hforeign.append _).not_opensUrl _), hcover, hok⟩⟩
      | ended hended _ =>
          rw [hended] at hname
          cases hname

theorem follows {c : Char} (hcomment : ¬(c = '/' ∧ rest.head? = some '*'))
    (hmode : InStep joined (c :: rest) mode) (hcover : Covers scanned opened)
    (haligned : let t := Css.consumeToken c rest
      Aligned joined ⟨c :: rest, t.1, t.2⟩)
    (hok : scan mode scanned (c :: rest) = .ok ()) :
    let t := Css.consumeToken c rest
    Follows joined opened t.1 t.2 := by
  have hholds := Css.startOf_holds c rest
  unfold Css.consumeToken at haligned ⊢
  cases hstart : Css.startOf c rest with
  | whitespace =>
      rw [hstart] at hholds
      exact follows_whitespace hholds hmode hcover hok
  | quote =>
      rw [hstart] at hholds
      exact follows_quote hholds hmode hcover hok
  | hash =>
      rw [hstart] at hholds haligned
      obtain rfl : c = '#' := hholds
      dsimp only at haligned ⊢
      split_ifs at haligned ⊢ with hname
      · exact follows_hash hmode hcover haligned hok
      · have hskip : Skipped '#' rest := by apply not_skipped_eq <;> decide
        exact follows_skip hskip rfl ⟨id, rfl, rfl⟩ hmode hcover hok
  | leftParen =>
      rw [hstart] at hholds
      obtain rfl : c = '(' := hholds
      exact follows_open hmode hcover hok
  | rightParen =>
      rw [hstart] at hholds
      obtain rfl : c = ')' := hholds
      exact follows_close hmode hcover hok
  | punctuation =>
      rw [hstart] at hholds
      have hname : Css.continuesIdent (c :: rest) = false := by
        have hmem : c ∈ [',', ':', ';', '[', ']', '\x7b', '\x7d'] := List.contains_iff_mem.mp hholds
        simp only [List.mem_cons, List.not_mem_nil, or_false] at hmem
        rcases hmem with rfl | rfl | rfl | rfl | rfl | rfl | rfl <;> rfl
      exact follows_skip (skipped_of_class rfl hholds rest) hname ⟨id, rfl, rfl⟩ hmode hcover hok
  | number =>
      rw [hstart] at hholds haligned
      exact follows_numeric hholds hmode hcover haligned hok
  | cdc =>
      rw [hstart] at hholds
      obtain ⟨rfl, after, rfl⟩ := hholds
      exact follows_cdc hmode hcover hok
  | cdo =>
      rw [hstart] at hholds
      obtain ⟨rfl, after, rfl⟩ := hholds
      exact follows_cdo hmode hcover hok
  | atKeyword =>
      rw [hstart] at hholds
      obtain ⟨rfl, hname⟩ := hholds
      exact follows_atKeyword hname hmode hcover hok
  | identLike =>
      rw [hstart] at hholds haligned
      exact follows_identLike hholds hmode hcover haligned hok
  | other =>
      rw [hstart] at hholds
      exact follows_other hcomment hholds hmode hcover hok

end Steps

/-! ## Whole texts -/

theorem scanCss_comments (scanned : List (List Char)) (cs : List Char) :
    scanCss scanned cs = scanCss scanned (Css.consumeComments cs) := by
  fun_induction Css.consumeComments cs with
  | case1 rest ih => rw [scanCss_comment, skipComment_eq, ih]
  | case2 => rfl

theorem consumeComments_head {cs rest : List Char} {c : Char}
    (h : Css.consumeComments cs = c :: rest) : ¬(c = '/' ∧ rest.head? = some '*') := by
  fun_induction Css.consumeComments cs with
  | case1 _ ih => exact ih h
  | case2 cs hne =>
      rintro ⟨rfl, hstar⟩
      obtain ⟨after, rfl⟩ := List.head?_eq_some_iff.mp hstar
      exact hne after h

theorem scan_comments {joined : Bool} {mode : Mode} {cs : List Char}
    (hmode : InStep joined cs mode) (scanned : List (List Char)) :
    ∃ mode', InStep (joined && cs == Css.consumeComments cs) (Css.consumeComments cs) mode' ∧
      scan mode scanned cs = scan mode' scanned (Css.consumeComments cs) := by
  by_cases hcomment : ∃ rest, cs = '/' :: '*' :: rest
  · obtain ⟨rest, rfl⟩ := hcomment
    refine ⟨.between, ?_, ?_⟩
    · have hlength := Css.consumeComments_length_le (Css.afterComment rest)
      have hafter := Css.afterComment_length_le rest
      have hne : ('/' :: '*' :: rest == Css.consumeComments ('/' :: '*' :: rest)) = false := by
        apply beq_false_of_ne
        intro heq
        have heq := congrArg List.length heq
        rw [Css.consumeComments, List.length_cons, List.length_cons] at heq
        omega
      rw [hne, Bool.and_false]
      exact .between _
    · rw [scan_leave hmode rfl (by decide), scanCss_comments]
      rfl
  · have hsame : Css.consumeComments cs = cs := by
      rw [Css.consumeComments.eq_def]
      split
      · exact absurd ⟨_, rfl⟩ hcomment
      · rfl
    rw [hsame, beq_self_eq_true, Bool.and_true]
    exact ⟨mode, hmode, rfl⟩

/-- A scan that passes keeps in step over a whole text. -/
theorem noRemote_of_scan {joined : Bool} {mode : Mode} {scanned opened : List (List Char)}
    {cs : List Char} (hmode : InStep joined cs mode) (hcover : Covers scanned opened)
    (haligned : AllAligned joined cs (Css.stream cs)) (hok : scan mode scanned cs = .ok ()) :
    NoRemote opened (Css.tokens cs) := by
  unfold Css.tokens
  fun_induction Css.stream cs generalizing joined mode scanned opened with
  | case1 => exact trivial
  | case2 =>
      rename_i cs c rest hcomments t ih
      obtain ⟨mode', hmode', hscan⟩ := scan_comments hmode scanned
      rw [hscan, hcomments] at hok
      rw [hcomments] at hmode'
      obtain ⟨hhead, htail⟩ := haligned
      obtain ⟨hremote, hrest⟩ :=
        follows (consumeComments_head hcomments) hmode' hcover hhead hok
      refine ⟨hremote, ?_⟩
      rcases hrest with hnil | ⟨mode₁, scanned₁, hmode₁, hcover₁, hok₁⟩
      · rw [hnil, Css.stream_nil]
        exact trivial
      · exact ih hmode₁ hcover₁ htail hok₁

/-- The texts on which the scanner reads the names of urls where the tokenizer reads them. -/
def CssAligned (css : String) : Prop :=
  let cs := Css.preprocess css.toList
  AllAligned false cs (Css.stream cs)

instance (css : String) : Decidable (CssAligned css) :=
  inferInstanceAs (Decidable (AllAligned _ _ _))

-- The unit of a dimension, read as `url(`, swallows the quotation mark before the url.
example : sanitizeInjectedCss "1url(a'b)c'url(//evil)'" false = .ok () ∧
    ¬NoRemote [] (Css.tokens (Css.preprocess "1url(a'b)c'url(//evil)'".toList)) := by
  decide +kernel

end Victauri.Plugin.Mcp
