import Victauri.Core.Json.Reader
import Victauri.Plugin.Mcp.Envelope

/-!
# What becomes of a page's text

A text that `JSON.stringify` prints has an escape for every unpaired surrogate.  Sanitizing
replaces exactly those, so what the parser then reads is a text of the same value.
-/

namespace Victauri.Plugin.Mcp

open Victauri.Core.Json Victauri.Plugin.Page

-- A quantifier over the characters of a text is decided along the text.
attribute [local instance (1100)] List.decidableBAll

/-! ## Unpaired surrogates -/

/-- Every lone code unit is a surrogate, and no two of them would make a pair. -/
def WellPaired : List CodePoint → Prop
  | [] => True
  | .scalar _ :: cps => WellPaired cps
  | .lone u :: cps =>
      (isHighSurrogate u.toNat = true ∨ isLowSurrogate u.toNat = true) ∧
      (isHighSurrogate u.toNat = true →
        ∀ l, cps.head? = some (.lone l) → isLowSurrogate l.toNat = false) ∧
      WellPaired cps

theorem wellPaired_ofUnit {u : UInt16} {cps : List CodePoint}
    (hnext : isHighSurrogate u.toNat = true →
      ∀ l, cps.head? = some (.lone l) → isLowSurrogate l.toNat = false)
    (h : WellPaired cps) : WellPaired (.ofUnit u :: cps) := by
  unfold CodePoint.ofUnit
  split_ifs with hsurrogate
  · exact ⟨by simpa using hsurrogate, hnext, h⟩
  · exact h

theorem head_codePoints {u l : UInt16} {us : JsString}
    (h : (codePoints (u :: us)).head? = some (.lone l)) : l = u := by
  have hunit : (some (CodePoint.ofUnit u) = some (.lone l)) → l = u := by
    unfold CodePoint.ofUnit
    split_ifs
    · rintro ⟨⟩
      rfl
    · rintro ⟨⟩
  cases us with
  | nil => exact hunit h
  | cons v us =>
      rw [codePoints] at h
      split_ifs at h
      · cases h
      · exact hunit h

theorem wellPaired_codePoints (s : JsString) : WellPaired (codePoints s) := by
  induction s using codePoints.induct with
  | case1 => exact trivial
  | case2 u => exact wellPaired_ofUnit (fun _ l hl => by cases hl) trivial
  | case3 u l us hpair ih =>
      rw [codePoints, if_pos hpair]
      exact ih
  | case4 u l us hpair ih =>
      rw [codePoints, if_neg hpair]
      refine wellPaired_ofUnit (fun hhigh l' hl' => ?_) ih
      rw [head_codePoints hl']
      simpa [hhigh] using hpair

/-! ## Sanitizing a printed text -/

/-- How a code point stands in the sanitized text. -/
def quoteClean : CodePoint → List Char
  | .scalar c => quoteScalar c
  | .lone _ => "\\ufffd".toList

theorem hexOf_ne_plus (n : Nat) : Nat.digitChar (n / 4096 % 16) ≠ '+' :=
  digitChar_ne (Nat.mod_lt _ (by decide)) (by decide)

/-- The forms a quoted character has. -/
theorem quoteScalar_cases (c : Char) :
    (∃ e, e ≠ 'u' ∧ quoteScalar c = ['\\', e]) ∨
    (c.toNat < 0x20 ∧ quoteScalar c = unicodeEscape c.toNat) ∨
    (c ≠ '\\' ∧ quoteScalar c = [c]) := by
  unfold quoteScalar
  cases hescape : quoteEscape c with
  | some e =>
      refine .inl ⟨e, ?_, rfl⟩
      rintro rfl
      have hmem := quoteEscape_mem hescape
      simp [simpleEscapes] at hmem
  | none =>
      dsimp only
      split_ifs with hcontrol
      · exact .inr (.inl ⟨hcontrol, rfl⟩)
      · exact .inr (.inr ⟨(quoteEscape_none hescape).2, rfl⟩)

theorem unicodeEscapeAt_unicodeEscape {n : Nat} (h : n < 65536) (rest : List Char) :
    unicodeEscapeAt (unicodeEscape n ++ rest) = some n :=
  (unicodeEscapeAt_unicode (hexOf_ne_plus n) rest).trans (hexNumber_hexOf h)

theorem sanitize_quoteScalar (c : Char) (rest : List Char) :
    sanitizeLoneSurrogates (quoteScalar c ++ rest) =
      quoteScalar c ++ sanitizeLoneSurrogates rest := by
  obtain ⟨e, he, heq⟩ | ⟨hcontrol, heq⟩ | ⟨hslash, heq⟩ := quoteScalar_cases c
  · rw [heq]
    exact sanitize_simple he rest
  · rw [heq]
    exact sanitize_unicode (hexOf_ne_plus _) (hexNumber_hexOf (by omega))
      (by simp [isHighSurrogate]; omega) (by simp [isLowSurrogate]; omega)
  · rw [heq]
    exact sanitize_cons hslash rest

/-- What follows a code point in a string does not look like the second half of a pair,
unless it is a lone low surrogate. -/
theorem no_low_follows {cps : List CodePoint} (rest : List Char)
    (h : ∀ l, cps.head? = some (.lone l) → isLowSurrogate l.toNat = false) :
    (unicodeEscapeAt (cps.flatMap quoteCodePoint ++ '"' :: rest)).any isLowSurrogate = false := by
  match cps with
  | [] => rw [List.flatMap_nil, List.nil_append, unicodeEscapeAt_of_ne (by decide)]; rfl
  | .scalar c :: cps =>
      rw [List.flatMap_cons, List.append_assoc, quoteCodePoint]
      obtain ⟨e, he, heq⟩ | ⟨hcontrol, heq⟩ | ⟨hslash, heq⟩ := quoteScalar_cases c
      · rw [heq, List.cons_append, List.cons_append, unicodeEscapeAt_simple he]
        rfl
      · rw [heq, unicodeEscapeAt_unicodeEscape (by omega)]
        simp [isLowSurrogate]
        omega
      · rw [heq, List.cons_append, unicodeEscapeAt_of_ne hslash]
        rfl
  | .lone l :: cps =>
      rw [List.flatMap_cons, List.append_assoc, quoteCodePoint,
        unicodeEscapeAt_unicodeEscape l.toNat_lt]
      exact h l rfl

theorem sanitize_codePoints {cps : List CodePoint} (h : WellPaired cps) (rest : List Char) :
    sanitizeLoneSurrogates (cps.flatMap quoteCodePoint ++ '"' :: rest) =
      cps.flatMap quoteClean ++ '"' :: sanitizeLoneSurrogates rest := by
  induction cps with
  | nil => exact sanitize_cons (by decide) rest
  | cons cp cps ih =>
      rw [List.flatMap_cons, List.append_assoc, List.flatMap_cons, List.append_assoc]
      cases cp with
      | scalar c => rw [quoteCodePoint, sanitize_quoteScalar, ih h, quoteClean]
      | lone u =>
          obtain ⟨hsurrogate, hnext, hrest⟩ := h
          rw [← ih hrest]
          exact sanitize_lone (hexOf_ne_plus _) (hexNumber_hexOf u.toNat_lt) hsurrogate
            fun hhigh => no_low_follows rest (hnext hhigh)

theorem sanitize_quoteWith (s : JsString) (rest : List Char) :
    sanitizeLoneSurrogates (quoteWith quoteCodePoint s ++ rest) =
      quoteWith quoteClean s ++ sanitizeLoneSurrogates rest := by
  have happend (quote : CodePoint → List Char) (rest : List Char) :
      quoteWith quote s ++ rest = '"' :: ((codePoints s).flatMap quote ++ '"' :: rest) := by
    simp [quoteWith]
  rw [happend, happend, sanitize_cons (by decide), sanitize_codePoints (wellPaired_codePoints s)]

theorem number_ne_slash {t : List Char} (h : IsNumber t) : ∀ c ∈ t, c ≠ '\\' := by
  rintro c hc rfl
  cases h.numberChars _ hc

variable {number : NumberFormat}

mutual

theorem sanitize_render (v : JsValue number) (rest : List Char) :
    sanitizeLoneSurrogates (v.render quoteCodePoint ++ rest) =
      v.render quoteClean ++ sanitizeLoneSurrogates rest := by
  match v with
  | .null => exact sanitize_append (t := ['n', 'u', 'l', 'l']) (by decide) rest
  | .bool true => exact sanitize_append (t := ['t', 'r', 'u', 'e']) (by decide) rest
  | .bool false => exact sanitize_append (t := ['f', 'a', 'l', 's', 'e']) (by decide) rest
  | .number token => exact sanitize_append (number_ne_slash (number.isNumber _ token.2)) rest
  | .string s => exact sanitize_quoteWith s rest
  | .array items =>
      rw [JsValue.render, JsValue.render, List.cons_append, List.append_assoc,
        sanitize_cons (by decide), sanitize_renderItems items, List.singleton_append,
        sanitize_cons (by decide)]
      simp
  | .object members =>
      rw [JsValue.render, JsValue.render, List.cons_append, List.append_assoc,
        sanitize_cons (by decide), sanitize_renderMembers members, List.singleton_append,
        sanitize_cons (by decide)]
      simp

theorem sanitize_renderItems (vs : List (JsValue number)) (rest : List Char) :
    sanitizeLoneSurrogates (JsValue.renderItems quoteCodePoint vs ++ rest) =
      JsValue.renderItems quoteClean vs ++ sanitizeLoneSurrogates rest := by
  match vs with
  | [] => rfl
  | [v] => exact sanitize_render v rest
  | v :: v' :: vs =>
      rw [JsValue.renderItems, JsValue.renderItems, List.append_assoc, List.cons_append,
        sanitize_render v, sanitize_cons (by decide), sanitize_renderItems (v' :: vs)]
      simp

theorem sanitize_renderMembers (ms : List (JsString × JsValue number)) (rest : List Char) :
    sanitizeLoneSurrogates (JsValue.renderMembers quoteCodePoint ms ++ rest) =
      JsValue.renderMembers quoteClean ms ++ sanitizeLoneSurrogates rest := by
  match ms with
  | [] => rfl
  | [(k, v)] =>
      rw [JsValue.renderMembers, JsValue.renderMembers, List.append_assoc, List.cons_append,
        sanitize_quoteWith, sanitize_cons (by decide), sanitize_render v]
      simp
  | (k, v) :: m :: ms =>
      rw [JsValue.renderMembers, JsValue.renderMembers, List.append_assoc, List.cons_append,
        List.append_assoc, List.cons_append, sanitize_quoteWith, sanitize_cons (by decide),
        sanitize_render v, sanitize_cons (by decide), sanitize_renderMembers (m :: ms)]
      simp

end

/-! ## The sanitized text denotes the value -/

theorem stringBody_quoteClean (cps : List CodePoint) :
    StringBody (cps.flatMap quoteClean) (cps.map CodePoint.toChar) := by
  induction cps with
  | nil => exact .nil
  | cons cp cps ih =>
      rw [List.flatMap_cons, List.map_cons]
      cases cp with
      | scalar c => exact .quoteScalar_append c ih
      | lone u => exact .unicode (u := 0xfffd) (by decide) (by decide) (by decide) ih

theorem stringLiteral_quoteClean (s : JsString) :
    StringLiteral (quoteWith quoteClean s) (rustString s) :=
  .mk (stringBody_quoteClean (codePoints s))

mutual

theorem text_render (v : JsValue number) :
    Text number (v.render quoteClean) v.toValue v.depth := by
  match v with
  | .null => exact .null
  | .bool true => exact .true
  | .bool false => exact .false
  | .number token => exact .number token.2
  | .string s => exact .string (stringLiteral_quoteClean s)
  | .array [] => exact .emptyArray
  | .array (v :: vs) => exact .array (items_render (v :: vs) (List.cons_ne_nil _ _))
  | .object [] => exact .emptyObject
  | .object (m :: ms) => exact .object (members_render (m :: ms) (List.cons_ne_nil _ _))

theorem items_render (vs : List (JsValue number)) (hne : vs ≠ []) :
    Items number (JsValue.renderItems quoteClean vs) (JsValue.toValues vs)
      (JsValue.depthItems vs) := by
  match vs with
  | [] => exact absurd rfl hne
  | [v] =>
      rw [JsValue.depthItems, JsValue.depthItems, Nat.max_zero]
      exact .one (text_render v)
  | v :: v' :: vs =>
      exact .cons (text_render v) (items_render (v' :: vs) (List.cons_ne_nil _ _))

theorem members_render (ms : List (JsString × JsValue number)) (hne : ms ≠ []) :
    Members number (JsValue.renderMembers quoteClean ms) (JsValue.toMembers ms)
      (JsValue.depthMembers ms) := by
  match ms with
  | [] => exact absurd rfl hne
  | [(k, v)] =>
      rw [JsValue.depthMembers, JsValue.depthMembers, Nat.max_zero]
      exact .one (stringLiteral_quoteClean k) (text_render v)
  | (k, v) :: m :: ms =>
      exact .cons (stringLiteral_quoteClean k) (text_render v)
        (members_render (m :: ms) (List.cons_ne_nil _ _))

end

end Victauri.Plugin.Mcp
