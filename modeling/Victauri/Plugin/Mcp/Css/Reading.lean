import Mathlib
import Victauri.Library.CssSyntax
import Victauri.Plugin.Mcp.Css

/-!
# The scanner's reading functions beside the tokenizer's

The classes of characters, the preprocessing, comments, escapes and strings are the same.
The two part at one place: a reverse solidus that ends the text is a valid escape to the
tokenizer and none to the scanner.
-/

namespace Victauri.Plugin.Mcp

open Victauri.Library

/-! ## Characters -/

theorem cssIsWs_eq (c : Char) : cssIsWs c = Css.isWhitespace c := by
  unfold cssIsWs Css.isWhitespace
  cases c == '\n' <;> cases c == '\t' <;> cases c == ' ' <;> rfl

theorem isDigit_eq (c : Char) : c.isDigit = Css.isDigit c := by
  rw [Bool.eq_iff_iff]
  simp only [Char.isDigit, Css.isDigit, ge_iff_le, Bool.and_eq_true, decide_eq_true_eq,
    Char.le_def]

theorem isAlpha_eq (c : Char) : c.isAlpha = Css.isLetter c := by
  rw [Bool.eq_iff_iff]
  simp only [Char.isAlpha, Char.isUpper, Char.isLower, Css.isLetter, ge_iff_le,
    Bool.or_eq_true, Bool.and_eq_true, decide_eq_true_eq, Char.le_def]
  exact or_comm

theorem cssIsIdentStart_eq (c : Char) : cssIsIdentStart c = Css.isIdentStart c := by
  have hascii : (!isAscii c) = decide (0x80 ≤ c.toNat) := by
    rw [isAscii, ← decide_not, decide_eq_decide]
    exact Nat.not_lt
  rw [cssIsIdentStart, Css.isIdentStart, isAlpha_eq, hascii]
  cases Css.isLetter c <;> cases c == '_' <;> cases decide (0x80 ≤ c.toNat) <;> rfl

theorem cssIsIdentChar_eq (c : Char) : cssIsIdentChar c = Css.isIdent c := by
  rw [cssIsIdentChar, Css.isIdent, cssIsIdentStart_eq, isDigit_eq]

theorem toDigit16_eq (c : Char) : toDigit16 c = Css.hexDigit c := by
  have hdigit : c.isDigit = true ↔ '0' ≤ c ∧ c ≤ '9' := by
    rw [isDigit_eq, Css.isDigit, Bool.and_eq_true, decide_eq_true_eq, decide_eq_true_eq]
  unfold toDigit16 Css.hexDigit
  simp only [hdigit]

/-! ## Preprocessing and comments -/

theorem cssPreprocess_eq (cs : List Char) : cssPreprocess cs = Css.preprocess cs := by
  fun_induction cssPreprocess cs with
  | case1 => rfl
  | case2 rest ih => rw [ih, Css.preprocess]
  | case3 rest hrest ih =>
      rw [ih, Css.preprocess]
      · rfl
      · intro after _ heq
        exact hrest after heq
  | case4 rest ih => rw [ih]; rfl
  | case5 rest ih => rw [ih]; rfl
  | case6 c rest hcrlf hcr hff hnul ih =>
      rw [ih, Css.preprocess, if_neg (not_or.mpr ⟨hcr, hff⟩), if_neg hnul]
      intro after hc heq
      exact hcr hc

theorem skipComment_eq (cs : List Char) : skipComment cs = Css.afterComment cs := by
  fun_induction skipComment cs with
  | case1 rest => rfl
  | case2 c rest hne ih =>
      rw [ih, Css.afterComment]
      exact hne
  | case3 => rfl

/-! ## Escapes -/

namespace CssUrlScanner

theorem escapeDigits_eq (left value : Nat) (cs : List Char) :
    escapeDigits left value cs =
      let digits := (cs.take left).takeWhile fun d => (Css.hexDigit d).isSome
      (digits.foldl (fun n c => n * 16 + (Css.hexDigit c).getD 0) value,
        cs.drop digits.length) := by
  fun_induction escapeDigits left value cs with
  | case1 left value c rest d hd ih =>
      rw [toDigit16_eq] at hd
      rw [ih]
      simp [hd]
  | case2 left value c rest hd =>
      rw [toDigit16_eq] at hd
      simp [hd]
  | case3 left value cs hne =>
      cases left with
      | zero => simp
      | succ left =>
          cases cs with
          | nil => simp
          | cons c rest => exact absurd rfl (hne left c rest rfl)

theorem consumeEscape_eq (cs : List Char) : consumeEscape cs = Css.consumeEscaped cs := by
  cases cs with
  | nil => rfl
  | cons c rest =>
      have hws : cssIsWs = Css.isWhitespace := funext cssIsWs_eq
      rw [consumeEscape, Css.consumeEscaped, escapeDigits_eq, toDigit16_eq, hws]
      cases hc : (Css.hexDigit c).isSome with
      | false =>
          rw [if_pos (by simpa using hc), if_neg Bool.false_ne_true]
      | true =>
          rw [if_neg (by simp [← Option.isSome_iff_ne_none, hc]), if_pos rfl]
          have hchar (n : Nat) :
              (if n.isValidChar ∧ n ≠ 0 then Char.ofNat n else '\ufffd') = Css.escapedChar n := by
            unfold Css.escapedChar
            by_cases h : n = 0 ∨ ¬n.isValidChar
            · rw [if_pos h, if_neg (by tauto)]
            · rw [if_neg h, if_pos (by tauto)]
          exact Prod.ext (hchar _) rfl

theorem validEscapeAt_cons_cons (c d : Char) (rest : List Char) :
    validEscapeAt (c :: d :: rest) = (c == '\\' && d != '\n') := by
  unfold validEscapeAt
  split
  · rename_i heq
    simp only [List.cons.injEq] at heq
    rw [heq.1, heq.2.1]
    rfl
  · rename_i hne
    have hc : c ≠ '\\' := fun hc => hne d rest (by rw [hc])
    rw [beq_false_of_ne hc, Bool.false_and]

theorem validEscape_cons_cons (c d : Char) (rest : List Char) :
    Css.validEscape (c :: d :: rest) = (c == '\\' && d != '\n') := by
  unfold Css.validEscape
  split
  · rename_i heq
    simp only [List.cons.injEq] at heq
    rw [heq.1, heq.2.1]
    rfl
  · rename_i hne heq
    simp only [List.cons.injEq] at heq
    have hd : d ≠ '\n' := fun hd => hne rest (by rw [← heq.2, hd])
    rw [heq.1, bne_iff_ne.mpr hd]
    rfl
  · rename_i hne
    have hc : c ≠ '\\' := fun hc => hne (d :: rest) (by rw [hc])
    rw [beq_false_of_ne hc, Bool.false_and]

theorem validEscapeAt_eq {cs : List Char} (h : cs ≠ ['\\']) :
    validEscapeAt cs = Css.validEscape cs := by
  match cs, h with
  | [], _ => rfl
  | [c], h =>
      have hc : c ≠ '\\' := fun hc => h (by rw [hc])
      simp [validEscapeAt, Css.validEscape, hc]
  | c :: d :: rest, _ => rw [validEscapeAt_cons_cons, validEscape_cons_cons]

theorem startsIdentAt_eq {cs : List Char} (heof : cs ≠ ['\\']) (hminus : cs ≠ ['-', '\\']) :
    startsIdentAt cs = Css.startsIdent cs := by
  match cs, heof, hminus with
  | [], _, _ => rfl
  | c :: rest, heof, hminus =>
    by_cases hdash : c = '-'
    · subst hdash
      have hrest : rest ≠ ['\\'] := fun h => hminus (by rw [h])
      have hstart : cssIsIdentStart = Css.isIdentStart := funext cssIsIdentStart_eq
      have hhead := congrArg (fun p => rest.head?.any fun c => p c || c == '-') hstart
      exact congrArg₂ or hhead (validEscapeAt_eq hrest)
    · by_cases hback : c = '\\'
      · subst hback
        exact validEscapeAt_eq heof
      · simp only [startsIdentAt, Css.startsIdent, cssIsIdentStart_eq]

theorem startsIdent_of_startsIdentAt {cs : List Char} (h : startsIdentAt cs = true) :
    Css.startsIdent cs = true := by
  by_cases heof : cs = ['\\']
  · rw [heof]
    rfl
  by_cases hminus : cs = ['-', '\\']
  · rw [hminus]
    rfl
  rw [← startsIdentAt_eq heof hminus]
  exact h

theorem startsIdentAt_of_not_starts {cs : List Char} (h : Css.startsIdent cs = false) :
    startsIdentAt cs = false := by
  cases hstarts : startsIdentAt cs with
  | false => rfl
  | true =>
      rw [startsIdent_of_startsIdentAt hstarts] at h
      cases h

theorem startsIdentAt_of_not_continues {cs : List Char} (h : Css.continuesIdent cs = false) :
    startsIdentAt cs = false := by
  apply startsIdentAt_of_not_starts
  cases hstarts : Css.startsIdent cs with
  | false => rfl
  | true =>
      rw [Css.continuesIdent_of_startsIdent hstarts] at h
      cases h

/-! ## Names, strings and urls -/

/-- Names are the same, unless a reverse solidus ends the text in one. -/
theorem consumeIdent_eq (cs : List Char) :
    consumeIdent cs = Css.consumeIdent cs ∨
      ((Css.consumeIdent cs).2 = [] ∧ '\ufffd' ∈ (Css.consumeIdent cs).1) := by
  fun_induction Css.consumeIdent cs with
  | case1 =>
      left
      rw [consumeIdent]
  | case2 c rest hident r ih =>
      rw [consumeIdent, cssIsIdentChar_eq, if_pos hident]
      rcases ih with ih | ⟨hrest, hmem⟩
      · left
        rw [ih]
      · exact .inr ⟨hrest, List.mem_cons_of_mem c hmem⟩
  | case3 c rest hident hescape e r ih =>
      by_cases heof : c :: rest = ['\\']
      · right
        obtain ⟨-, rfl⟩ := List.cons.inj heof
        refine ⟨?_, List.mem_cons_self ..⟩
        change (Css.consumeIdent []).2 = []
        rw [Css.consumeIdent]
      · rw [consumeIdent, cssIsIdentChar_eq, if_neg hident, validEscapeAt_eq heof,
          if_pos hescape, consumeEscape_eq]
        rcases ih with ih | ⟨hrest, hmem⟩
        · left
          dsimp only
          rw [ih]
        · exact .inr ⟨hrest, List.mem_cons_of_mem e.1 hmem⟩
  | case4 c rest hident hescape =>
      left
      have heof : c :: rest ≠ ['\\'] := by
        intro heq
        rw [heq] at hescape
        exact hescape rfl
      rw [consumeIdent, cssIsIdentChar_eq, if_neg hident, validEscapeAt_eq heof,
        if_neg hescape]

theorem consumeString_eq (quote : Char) (cs : List Char) :
    (consumeString quote cs).2 = (Css.consumeString quote cs).2 ∧
      ∀ value, (Css.consumeString quote cs).1 = some value →
        (consumeString quote cs).1 = value := by
  fun_induction Css.consumeString quote cs with
  | case1 =>
      rw [consumeString]
      exact ⟨rfl, fun value h => Option.some.inj h⟩
  | case2 rest =>
      rw [consumeString.eq_def]
      dsimp only
      rw [if_pos rfl]
      exact ⟨rfl, fun value h => Option.some.inj h⟩
  | case3 rest hquote =>
      rw [consumeString.eq_def]
      dsimp only
      rw [if_neg hquote, if_pos rfl]
      exact ⟨rfl, fun value h => by cases h⟩
  | case4 hquote hnewline =>
      rw [consumeString.eq_def]
      dsimp only
      rw [if_neg hquote, if_neg hnewline, if_pos rfl]
      exact ⟨rfl, fun value h => Option.some.inj h⟩
  | case5 rest hquote hnewline ih =>
      rw [consumeString.eq_def]
      dsimp only
      rw [if_neg hquote, if_neg hnewline, if_pos rfl]
      exact ih
  | case6 d rest hd e r hquote hnewline ih =>
      rw [consumeString.eq_def]
      dsimp only
      rw [if_neg hquote, if_neg hnewline, if_pos rfl]
      split
      · contradiction
      · rename_i heq
        exact absurd (List.cons.inj heq).1 hd
      · rename_i d' rest' _ heq
        obtain ⟨rfl, rfl⟩ := List.cons.inj heq
        rw [consumeEscape_eq]
        refine ⟨ih.1, ?_⟩
        intro value h
        obtain ⟨tail, htail, rfl⟩ := Option.map_eq_some_iff.mp h
        exact congrArg (e.1 :: ·) (ih.2 tail htail)
  | case7 c rest hquote hnewline hescape r ih =>
      rw [consumeString.eq_def]
      dsimp only
      rw [if_neg hquote, if_neg hnewline, if_neg hescape]
      refine ⟨ih.1, ?_⟩
      intro value h
      obtain ⟨tail, htail, rfl⟩ := Option.map_eq_some_iff.mp h
      exact congrArg (c :: ·) (ih.2 tail htail)

/-! ## Unquoted urls -/

/-- The scanner's value of a url beside the tokenizer's: white space before the closing
bracket stays, and so does a reverse solidus that ends the text. -/
def UrlValue (value read : List Char) : Prop :=
  (∃ ws, ws.all Css.isWhitespace ∧ read = value ++ ws) ∨
    ∃ before, value = before ++ ['\ufffd'] ∧ read = before ++ ['\\']

theorem UrlValue.spaces {ws : List Char} (hws : ws.all Css.isWhitespace) : UrlValue [] ws :=
  .inl ⟨ws, hws, rfl⟩

theorem UrlValue.cons (c : Char) {value read : List Char} (h : UrlValue value read) :
    UrlValue (c :: value) (c :: read) := by
  rcases h with ⟨ws, hws, rfl⟩ | ⟨before, rfl, rfl⟩
  · exact .inl ⟨ws, hws, rfl⟩
  · exact .inr ⟨c :: before, rfl, rfl⟩

theorem consumeUrl_escape {rest : List Char} (h : Css.validEscape ('\\' :: rest) = true)
    (hrest : rest ≠ []) :
    consumeUrl ('\\' :: rest) =
      ((Css.consumeEscaped rest).1 :: (consumeUrl (Css.consumeEscaped rest).2).1,
        (consumeUrl (Css.consumeEscaped rest).2).2) := by
  have heof : '\\' :: rest ≠ ['\\'] := fun heq => hrest (List.cons.inj heq).2
  rw [consumeUrl, if_neg (by decide), validEscapeAt_eq heof, if_pos h, consumeEscape_eq]

theorem consumeUrl_plain {c : Char} {rest : List Char} (hclose : c ≠ ')')
    (h : Css.validEscape (c :: rest) = false) :
    consumeUrl (c :: rest) = (c :: (consumeUrl rest).1, (consumeUrl rest).2) := by
  have heof : c :: rest ≠ ['\\'] := by
    intro heq
    rw [heq] at h
    cases h
  rw [consumeUrl, if_neg hclose, validEscapeAt_eq heof, h, if_neg Bool.false_ne_true]

theorem consumeUrl_eof : consumeUrl ['\\'] = (['\\'], []) := by
  rw [consumeUrl, if_neg (by decide), if_neg (by decide), consumeUrl]

/-- The end of a url is where the remnants of a bad url end. -/
theorem consumeUrl_bad (cs : List Char) : (consumeUrl cs).2 = Css.consumeBadUrl cs := by
  fun_induction Css.consumeBadUrl cs with
  | case1 => rw [consumeUrl]
  | case2 rest => rw [consumeUrl, if_pos rfl]
  | case3 c rest hclose hescape ih =>
      have hc : c = '\\' := by
        by_contra hc
        rw [Css.validEscape_of_ne hc] at hescape
        cases hescape
      subst hc
      cases rest with
      | nil =>
          rw [consumeUrl_eof, ← ih]
          change [] = (consumeUrl []).2
          rw [consumeUrl]
      | cons d rest =>
          rw [consumeUrl_escape hescape (List.cons_ne_nil d rest)]
          exact ih
  | case4 c rest hclose hescape ih =>
      rw [consumeUrl_plain hclose (by simpa using hescape)]
      exact ih

theorem consumeUrl_spaces {ws : List Char} (hws : ws.all Css.isWhitespace) (cs : List Char) :
    consumeUrl (ws ++ cs) = (ws ++ (consumeUrl cs).1, (consumeUrl cs).2) := by
  induction ws with
  | nil => rfl
  | cons c ws ih =>
      rw [List.all_cons, Bool.and_eq_true] at hws
      have hclose : c ≠ ')' := by
        rintro rfl
        exact absurd hws.1 (by decide)
      have hescape : c ≠ '\\' := by
        rintro rfl
        exact absurd hws.1 (by decide)
      rw [List.cons_append, consumeUrl_plain hclose (Css.validEscape_of_ne hescape _), ih hws.2]
      rfl

theorem consumeUrl_eq (cs : List Char) :
    (consumeUrl cs).2 = (Css.consumeUrl cs).2 ∧
      ∀ value, (Css.consumeUrl cs).1 = some value → UrlValue value (consumeUrl cs).1 := by
  have hall (c : Char) (rest : List Char) (hws : Css.isWhitespace c = true) :
      (c :: rest.takeWhile Css.isWhitespace).all Css.isWhitespace = true := by
    rw [List.all_cons, hws, Bool.true_and]
    exact List.all_takeWhile
  have hspaces (c : Char) (rest : List Char) (hws : Css.isWhitespace c = true) :
      consumeUrl (c :: rest) =
        (c :: rest.takeWhile Css.isWhitespace ++ (consumeUrl (rest.dropWhile Css.isWhitespace)).1,
          (consumeUrl (rest.dropWhile Css.isWhitespace)).2) := by
    rw [← consumeUrl_spaces (hall c rest hws), List.cons_append,
      List.takeWhile_append_dropWhile]
  fun_induction Css.consumeUrl cs with
  | case1 =>
      rw [consumeUrl]
      refine ⟨rfl, ?_⟩
      intro value h
      rw [← Option.some.inj h]
      exact .spaces rfl
  | case2 rest =>
      rw [consumeUrl, if_pos rfl]
      refine ⟨rfl, ?_⟩
      intro value h
      rw [← Option.some.inj h]
      exact .spaces rfl
  | case3 c rest hclose hws hrest =>
      rw [hspaces c rest hws, hrest, consumeUrl]
      refine ⟨rfl, ?_⟩
      intro value h
      rw [← Option.some.inj h]
      rw [List.append_nil]
      exact .spaces (hall c rest hws)
  | case4 c rest hclose hws after hrest =>
      rw [hspaces c rest hws, hrest, consumeUrl, if_pos rfl]
      refine ⟨rfl, ?_⟩
      intro value h
      rw [← Option.some.inj h]
      rw [List.append_nil]
      exact .spaces (hall c rest hws)
  | case5 c rest hclose hws hnil hparen =>
      rw [hspaces c rest hws, ← consumeUrl_bad]
      exact ⟨rfl, fun value h => by cases h⟩
  | case6 c rest hclose hws hbad =>
      have hescape : c ≠ '\\' := by
        rintro rfl
        exact absurd hbad (by decide)
      rw [consumeUrl_plain hclose (Css.validEscape_of_ne hescape rest), ← consumeUrl_bad]
      exact ⟨rfl, fun value h => by cases h⟩
  | case7 =>
      rename_i rest e r hclose hws hbad hescape ih
      cases rest with
      | nil =>
          have hempty : r = (some [], []) := by
            change Css.consumeUrl [] = _
            rw [Css.consumeUrl]
          rw [consumeUrl_eof, hempty]
          refine ⟨rfl, ?_⟩
          intro value h
          rw [← Option.some.inj h]
          exact .inr ⟨[], rfl, rfl⟩
      | cons d rest =>
          rw [consumeUrl_escape hescape (List.cons_ne_nil d rest)]
          refine ⟨ih.1, ?_⟩
          intro value h
          obtain ⟨tail, htail, rfl⟩ := Option.map_eq_some_iff.mp h
          exact (ih.2 tail htail).cons e.1
  | case8 =>
      rename_i rest hclose hws hbad hescape
      rw [consumeUrl_plain hclose (by simpa using hescape), ← consumeUrl_bad]
      exact ⟨rfl, fun value h => by cases h⟩
  | case9 c rest hclose hws hbad hescape r ih =>
      rw [consumeUrl_plain hclose (Css.validEscape_of_ne hescape rest)]
      refine ⟨ih.1, ?_⟩
      intro value h
      obtain ⟨tail, htail, rfl⟩ := Option.map_eq_some_iff.mp h
      exact (ih.2 tail htail).cons c

end CssUrlScanner

/-! ## The check of a url -/

theorem cssCheckUrl_ok_iff (raw : List Char) (strict : Bool) :
    cssCheckUrl raw strict = .ok () ↔ cssIsRemote (cssUrlNormalize raw) strict = false := by
  unfold cssCheckUrl
  cases h : cssIsRemote (cssUrlNormalize raw) strict with
  | true => simp [h]
  | false => simp [h]

theorem dropWhile_append_of_all {α : Type*} {p : α → Bool} {xs : List α} (h : xs.all p)
    (ys : List α) : (xs ++ ys).dropWhile p = ys.dropWhile p := by
  induction xs with
  | nil => rfl
  | cons x xs ih =>
      rw [List.all_cons, Bool.and_eq_true] at h
      rw [List.cons_append, List.dropWhile_cons, if_pos h.1, ih h.2]

/-- White space at the end of a value is not seen. -/
theorem cssUrlNormalize_append_spaces (value : List Char) {ws : List Char}
    (hws : ws.all Css.isWhitespace) : cssUrlNormalize (value ++ ws) = cssUrlNormalize value := by
  unfold cssUrlNormalize
  dsimp only
  rw [List.filter_append]
  generalize value.filter _ = kept
  have hspaces : (ws.filter fun c => !(c == '\t' || c == '\n' || c == '\r')).all (· ≤ ' ') := by
    rw [List.all_eq_true] at hws ⊢
    intro c hc
    have hc := hws c (List.mem_of_mem_filter hc)
    simp only [Css.isWhitespace, Bool.or_eq_true, beq_iff_eq] at hc
    rcases hc with (rfl | rfl) | rfl <;> decide
  generalize ws.filter _ = spaces at hspaces ⊢
  rw [List.dropWhile_append]
  cases hkept : (kept.dropWhile (· ≤ ' ')).isEmpty with
  | true =>
      rw [if_pos rfl, List.isEmpty_iff.mp hkept]
      have hnil := dropWhile_append_of_all hspaces []
      rw [List.append_nil] at hnil
      rw [hnil]
      rfl
  | false =>
      rw [if_neg Bool.false_ne_true, List.reverse_append, dropWhile_append_of_all]
      rw [List.all_reverse]
      exact hspaces

/-- A last character that is kept ends the normalized value. -/
theorem cssUrlNormalize_append_last (before : List Char) :
    ∃ kept, ∀ last, last = '\ufffd' ∨ last = '\\' →
      cssUrlNormalize (before ++ [last]) = kept ++ [last] := by
  refine ⟨(before.filter fun c => !(c == '\t' || c == '\n' || c == '\r')).dropWhile (· ≤ ' '), ?_⟩
  intro last hlast
  have hfilter : ([last].filter fun c => !(c == '\t' || c == '\n' || c == '\r')) = [last] := by
    rcases hlast with rfl | rfl <;> rfl
  have hspace : decide (last ≤ ' ') = false := by
    rcases hlast with rfl | rfl <;> decide
  unfold cssUrlNormalize
  dsimp only
  rw [List.filter_append, hfilter]
  generalize before.filter _ = kept
  have hdrop : (kept ++ [last]).dropWhile (· ≤ ' ') = kept.dropWhile (· ≤ ' ') ++ [last] := by
    rw [List.dropWhile_append]
    cases hkept : (kept.dropWhile (· ≤ ' ')).isEmpty with
    | true =>
        rw [if_pos rfl, List.isEmpty_iff.mp hkept, List.dropWhile_cons, hspace,
          if_neg Bool.false_ne_true]
        rfl
    | false => rw [if_neg Bool.false_ne_true]
  rw [hdrop, List.reverse_append, List.reverse_singleton, List.singleton_append,
    List.dropWhile_cons, hspace, if_neg Bool.false_ne_true, List.reverse_cons,
    List.reverse_reverse]

theorem cssUrlScheme_append {kept : List Char} {scheme rest : List Char}
    (h : cssUrlScheme (kept ++ ['\ufffd']) = some (scheme, rest)) (last : Char) :
    ∃ after, cssUrlScheme (kept ++ [last]) = some (scheme, after) := by
  cases kept with
  | nil => cases h
  | cons first tail =>
      rw [List.cons_append, cssUrlScheme] at h
      split_ifs at h with hfirst
      have hmark : ['\ufffd'].dropWhile isSchemeChar = ['\ufffd'] := rfl
      rw [List.dropWhile_append, hmark] at h
      cases htail : tail.dropWhile isSchemeChar with
      | nil =>
          rw [htail] at h
          cases h
      | cons c after =>
          have htake (xs : List Char) :
              (tail ++ xs).takeWhile isSchemeChar = tail.takeWhile isSchemeChar := by
            have hlength := congrArg List.length (@List.takeWhile_append_dropWhile _ isSchemeChar tail)
            rw [htail, List.length_append, List.length_cons] at hlength
            rw [List.takeWhile_append, if_neg (by omega)]
          rw [htail, htake, List.isEmpty_cons, if_neg Bool.false_ne_true, List.cons_append] at h
          rw [List.cons_append, cssUrlScheme, if_neg hfirst, List.dropWhile_append, htail, htake,
            List.isEmpty_cons, if_neg Bool.false_ne_true, List.cons_append]
          split at h
          · rename_i heq
            obtain ⟨rfl, -⟩ := List.cons.inj heq
            have hscheme := congrArg Prod.fst (Option.some.inj h)
            exact ⟨after ++ [last], congrArg (fun s => some (s, after ++ [last])) hscheme⟩
          · cases h

theorem cssIsRemote_append_last {kept : List Char}
    (h : cssIsRemote (kept ++ ['\ufffd']) true = true) :
    cssIsRemote (kept ++ ['\\']) true = true := by
  unfold cssIsRemote at h ⊢
  by_cases hslash : cssStartsWithAuthority (kept ++ ['\\'])
  · rw [if_pos hslash]
  · have hauthority : ¬cssStartsWithAuthority (kept ++ ['\ufffd']) := by
      match kept with
      | [] => exact Bool.false_ne_true
      | [a] =>
          intro h
          rw [List.singleton_append, cssStartsWithAuthority, Bool.and_eq_true] at h
          exact absurd h.2 (by decide)
      | a :: b :: _ => exact hslash
    rw [if_neg hauthority] at h
    rw [if_neg hslash]
    split at h
    · rename_i scheme rest hscheme
      obtain ⟨after, hafter⟩ := cssUrlScheme_append hscheme '\\'
      rw [hafter]
      exact h
    · cases h

theorem cssCheckUrl_of_urlValue {value read : List Char} (hread : CssUrlScanner.UrlValue value read)
    (hok : cssCheckUrl read true = .ok ()) : cssCheckUrl value true = .ok () := by
  rw [cssCheckUrl_ok_iff] at hok ⊢
  rcases hread with ⟨ws, hws, rfl⟩ | ⟨before, rfl, rfl⟩
  · rw [cssUrlNormalize_append_spaces value hws] at hok
    exact hok
  · obtain ⟨kept, hkept⟩ := cssUrlNormalize_append_last before
    rw [hkept _ (.inr rfl)] at hok
    rw [hkept _ (.inl rfl)]
    by_contra hremote
    rw [Bool.not_eq_false] at hremote
    rw [cssIsRemote_append_last hremote] at hok
    cases hok

end Victauri.Plugin.Mcp
