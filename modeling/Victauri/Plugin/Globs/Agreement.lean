import Victauri.Library.Utf16
import Victauri.Plugin.Globs.Greedy
import Victauri.Plugin.Globs.Resuming

/-!
# The two matchers agree

The bridge sees UTF-16 code units and the server characters.  A star may take half of a surrogate
pair, but no piece of a pattern begins with the other half.
-/

namespace Victauri.Plugin.Globs

open Glob Utf16

theorem encodeChar_star : encodeChar '*' = [starUnit] := by decide

theorem plain_encodeChar {c : Char} (hc : c ≠ '*') : Plain (encodeChar c) := by
  intro u hu hstar
  by_cases hsmall : c.toNat < 0x10000
  · rw [encodeChar_small hsmall, List.mem_singleton] at hu
    have hnat := congrArg UInt16.toNat (hu.symm.trans hstar)
    rw [toNat_ofNat hsmall] at hnat
    exact hc (eq_of_toNat_eq hnat)
  · obtain ⟨high, low, hunits, hhigh, hlow, -, -⟩ := encodeChar_large hsmall
    have hunit : starUnit.toNat = 0x2A := rfl
    rw [hunits, List.mem_cons, List.mem_singleton] at hu
    rcases hu with rfl | rfl
    · rw [hstar, hunit] at hhigh
      omega
    · rw [hstar, hunit] at hlow
      omega

/-- A text that begins a character, or in the middle of one. -/
theorem obtained_of_encode {pattern text : List Char} {units : List UInt16}
    (hunits : units = encode text ∨ ∃ low, IsLow low ∧ units = low :: encode text)
    (h : Obtained (Keeps starUnit) (encode pattern) units) :
    Obtained (Keeps '*') pattern text := by
  induction pattern generalizing text units with
  | nil =>
    rw [encode_nil, obtained_nil] at h
    subst h
    rcases hunits with hunits | ⟨low, -, hunits⟩
    · cases text with
      | nil => exact obtained_nil.mpr rfl
      | cons c text =>
        obtain ⟨u, us, hu, -, -⟩ := encodeChar_eq_cons c
        rw [encode_cons, hu] at hunits
        cases hunits
    · cases hunits
  | cons c pattern ih =>
    by_cases hc : c = '*'
    · subst hc
      rw [encode_cons, encodeChar_star] at h
      obtain ⟨rest, hsuffix, hrest⟩ := (obtained_star_cons (isStar_keeps starUnit)).mp h
      have hcut : ∃ text', text' <:+ text ∧
          (rest = encode text' ∨ ∃ low, IsLow low ∧ rest = low :: encode text') := by
        rcases hunits with rfl | ⟨low, hlow, rfl⟩
        · exact suffix_encode hsuffix
        · rcases List.suffix_cons_iff.mp hsuffix with hwhole | hsuffix
          · exact ⟨text, List.suffix_rfl, Or.inr ⟨low, hlow, hwhole⟩⟩
          · exact suffix_encode hsuffix
      obtain ⟨text', htext, hcut⟩ := hcut
      exact (obtained_star_cons (isStar_keeps '*')).mpr ⟨text', htext, ih hcut hrest⟩
    · rw [encode_cons] at h
      obtain ⟨front, back, hfront, hback, rfl⟩ := obtained_append.mp h
      rw [obtained_plain (plain_encodeChar hc)] at hfront
      obtain ⟨u, us, hu, hlow, -⟩ := encodeChar_eq_cons c
      rcases hunits with hunits | ⟨low, hl, hunits⟩
      · cases text with
        | nil =>
          rw [hfront, hu] at hunits
          cases hunits
        | cons d text =>
          rw [hfront, encode_cons] at hunits
          obtain ⟨rfl, hrest⟩ := encodeChar_append_inj hunits
          exact (obtained_literal_cons (isLiteral_keeps hc)).mpr
            ⟨text, ih (Or.inl hrest) hback, rfl⟩
      · rw [hfront, hu] at hunits
        rw [(List.cons.inj hunits).1] at hlow
        exact absurd hl hlow

theorem obtained_encode {pattern text : List Char} (h : Obtained (Keeps '*') pattern text) :
    Obtained (Keeps starUnit) (encode pattern) (encode text) := by
  induction pattern generalizing text with
  | nil =>
    rw [obtained_nil.mp h]
    exact obtained_nil.mpr rfl
  | cons c pattern ih =>
    by_cases hc : c = '*'
    · subst hc
      obtain ⟨rest, ⟨skipped, rfl⟩, hrest⟩ := (obtained_star_cons (isStar_keeps '*')).mp h
      rw [encode_cons, encodeChar_star, encode_append]
      exact (obtained_star_cons (isStar_keeps starUnit)).mpr
        ⟨encode rest, List.suffix_append _ _, ih hrest⟩
    · obtain ⟨rest, hrest, rfl⟩ := (obtained_literal_cons (isLiteral_keeps hc)).mp h
      exact obtained_append.mpr
        ⟨_, _, (obtained_plain (plain_encodeChar hc)).mpr rfl, ih hrest, rfl⟩

theorem obtained_encode_iff (pattern text : List Char) :
    Obtained (Keeps starUnit) (encode pattern) (encode text) ↔
      Obtained (Keeps '*') pattern text :=
  ⟨obtained_of_encode (Or.inl rfl), obtained_encode⟩

/-- Without a question mark the two relations are one. -/
theorem obtained_fills_iff {pattern text : List Char} (h : '?' ∉ pattern) :
    Obtained Fills pattern text ↔ Obtained (Keeps '*') pattern text := by
  apply obtained_congr
  intro c hc piece
  have hne : c ≠ '?' := fun heq => h (heq ▸ hc)
  unfold Fills Keeps
  apply or_congr_right
  exact or_iff_right fun hone => hne hone.1

/-- Each matcher accepts what the pattern stands for, and they agree where both know the pattern. -/
theorem matchers_exact :
    (∀ glob url : List UInt16, globHits glob url = true ↔ Obtained (Keeps starUnit) glob url) ∧
    (∀ name pattern : List Char,
      globLoop name pattern ((name.length + 1) * (pattern.length + 1) + name.length) .init =
          some (matchesGlob name pattern) ∧
        (matchesGlob name pattern = true ↔ Obtained Fills pattern name)) ∧
    ∀ name pattern : List Char, '?' ∉ pattern →
      globHits (encode pattern) (encode name) = matchesGlob name pattern := by
  refine ⟨globHits_iff, ?_, ?_⟩
  · intro name pattern
    refine ⟨?_, matchesGlob_iff name pattern⟩
    obtain ⟨b, hb, -⟩ := globLoop_init name pattern
    unfold matchesGlob
    rw [hb]
    exact hb
  · intro name pattern h
    rw [Bool.eq_iff_iff, globHits_iff, obtained_encode_iff, matchesGlob_iff, obtained_fills_iff h]

end Victauri.Plugin.Globs
