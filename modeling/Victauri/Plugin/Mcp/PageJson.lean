import Victauri.Core.Json.Text

/-!
# JSON produced by the page

`page_json.rs`: a `\u` escape of an unpaired surrogate is JSON to JavaScript but not to
the Rust parser, so every one is replaced before a text of the page is parsed.  The code
goes through bytes; its escapes are ASCII, so here it goes through characters.
-/

namespace Victauri.Plugin.Mcp

open Victauri.Core.Json

/-- `u32::from_str_radix` in base 16, which takes a leading `+`. -/
def fromStrRadix16 : List Char → Option Nat
  | [] => none
  | ['+'] => none
  | '+' :: ds => hexNumber ds
  | ds => hexNumber ds

/-- The code unit of a `\uXXXX` escape at the start of `cs`, if there is one. -/
def unicodeEscapeAt : List Char → Option Nat
  | '\\' :: 'u' :: w :: x :: y :: z :: _ => fromStrRadix16 [w, x, y, z]
  | _ => none

/-- Rewrite every escape of an unpaired surrogate to `\ufffd`. -/
def sanitizeLoneSurrogates (cs : List Char) : List Char :=
  match cs with
  | [] => []
  | c :: rest =>
      if c ≠ '\\' then c :: sanitizeLoneSurrogates rest
      else
        match unicodeEscapeAt cs with
        -- Any other escape is two characters: an escaped backslash is skipped whole.
        | none => cs.take 2 ++ sanitizeLoneSurrogates (rest.drop 1)
        | some cp =>
            if isHighSurrogate cp && (unicodeEscapeAt (cs.drop 6)).any isLowSurrogate then
              cs.take 12 ++ sanitizeLoneSurrogates (rest.drop 11)
            else if isHighSurrogate cp || isLowSurrogate cp then
              "\\ufffd".toList ++ sanitizeLoneSurrogates (rest.drop 5)
            else cs.take 6 ++ sanitizeLoneSurrogates (rest.drop 5)
termination_by cs.length
decreasing_by all_goals simp only [List.length_cons, List.length_drop]; omega

theorem sanitize_nil : sanitizeLoneSurrogates [] = [] := by
  rw [sanitizeLoneSurrogates]

theorem sanitize_cons {c : Char} (h : c ≠ '\\') (rest : List Char) :
    sanitizeLoneSurrogates (c :: rest) = c :: sanitizeLoneSurrogates rest := by
  rw [sanitizeLoneSurrogates, if_pos h]

theorem sanitize_append {t : List Char} (h : ∀ c ∈ t, c ≠ '\\') (rest : List Char) :
    sanitizeLoneSurrogates (t ++ rest) = t ++ sanitizeLoneSurrogates rest := by
  induction t with
  | nil => rfl
  | cons c t ih =>
      rw [List.cons_append, sanitize_cons (h c List.mem_cons_self),
        ih fun d hd => h d (List.mem_cons_of_mem _ hd), List.cons_append]

theorem unicodeEscapeAt_simple {e : Char} (h : e ≠ 'u') (rest : List Char) :
    unicodeEscapeAt ('\\' :: e :: rest) = none := by
  unfold unicodeEscapeAt
  split
  · rename_i heq
    simp_all
  · rfl

theorem unicodeEscapeAt_of_ne {c : Char} (h : c ≠ '\\') (rest : List Char) :
    unicodeEscapeAt (c :: rest) = none := by
  unfold unicodeEscapeAt
  split
  · rename_i heq
    exact absurd (List.cons.inj heq).1 h
  · rfl

theorem unicodeEscapeAt_unicode {w x y z : Char} (h : w ≠ '+') (rest : List Char) :
    unicodeEscapeAt ('\\' :: 'u' :: w :: x :: y :: z :: rest) = hexNumber [w, x, y, z] := by
  rw [unicodeEscapeAt]
  unfold fromStrRadix16
  split <;> simp_all

theorem sanitize_simple {e : Char} (h : e ≠ 'u') (rest : List Char) :
    sanitizeLoneSurrogates ('\\' :: e :: rest) = '\\' :: e :: sanitizeLoneSurrogates rest := by
  rw [sanitizeLoneSurrogates, if_neg (by simp)]
  simp only [unicodeEscapeAt_simple h]
  rfl

section Unicode

variable {w x y z : Char} {u : Nat} {rest : List Char}

/-- An escape that is no surrogate is kept. -/
theorem sanitize_unicode (hw : w ≠ '+') (hu : hexNumber [w, x, y, z] = some u)
    (hhigh : isHighSurrogate u = false) (hlow : isLowSurrogate u = false) :
    sanitizeLoneSurrogates ('\\' :: 'u' :: w :: x :: y :: z :: rest) =
      '\\' :: 'u' :: w :: x :: y :: z :: sanitizeLoneSurrogates rest := by
  rw [sanitizeLoneSurrogates, if_neg (by simp)]
  simp only [unicodeEscapeAt_unicode hw, hu, hhigh, hlow, Bool.false_and, Bool.or_self,
    Bool.false_eq_true, if_false]
  rfl

/-- An escape of a surrogate is replaced, unless it is the first half of a pair. -/
theorem sanitize_lone (hw : w ≠ '+') (hu : hexNumber [w, x, y, z] = some u)
    (hsurrogate : isHighSurrogate u = true ∨ isLowSurrogate u = true)
    (hnext : isHighSurrogate u = true → (unicodeEscapeAt rest).any isLowSurrogate = false) :
    sanitizeLoneSurrogates ('\\' :: 'u' :: w :: x :: y :: z :: rest) =
      "\\ufffd".toList ++ sanitizeLoneSurrogates rest := by
  have hor : (isHighSurrogate u || isLowSurrogate u) = true := by simpa using hsurrogate
  have hand : (isHighSurrogate u && (unicodeEscapeAt rest).any isLowSurrogate) = false := by
    cases hhigh : isHighSurrogate u with
    | false => rfl
    | true => rw [hnext hhigh, Bool.and_false]
  rw [sanitizeLoneSurrogates, if_neg (by simp)]
  simp only [unicodeEscapeAt_unicode hw, hu, List.drop_succ_cons, List.drop_zero, hand,
    Bool.false_eq_true, if_false, hor, if_true]

end Unicode

end Victauri.Plugin.Mcp
