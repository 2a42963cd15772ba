import Mathlib.Algebra.Group.Nat.Defs
import Victauri.Core.Codegen
import Victauri.Library.RustText

/-!
# What is escaped is read back

An escaped string is one literal with the string as its value, and a sanitized comment stays on its
line.
-/

namespace Victauri.Core.Codegen

open RustText

/-! ## Hexadecimal -/

theorem hexDigit_digitChar : ∀ d < 16, hexDigit (Nat.digitChar d) = some d ∧
    Nat.digitChar d ≠ '\x7d' ∧ Nat.digitChar d ≠ '_' ∧ Nat.digitChar d ≠ '\n' := by
  decide

theorem readDigits_digit {d : Nat} (hd : d < 16) {digits : Nat} (hdigits : digits < 6)
    (number : Nat) (rest : List Char) :
    readDigits digits number (Nat.digitChar d :: rest) =
      readDigits (digits + 1) (number * 16 + d) rest := by
  obtain ⟨hhex, hclose, hunderscore, -⟩ := hexDigit_digitChar d hd
  rw [readDigits, if_neg hclose, if_neg hunderscore, hhex]
  exact if_pos hdigits

theorem length_hexText {n k : Nat} (hk : 0 < k) (hn : n < 16 ^ k) : (hexText n).length ≤ k := by
  induction n using hexText.induct generalizing k with
  | case1 n hsmall =>
    rw [hexText, if_pos hsmall]
    exact hk
  | case2 n hbig ih =>
    rw [hexText, if_neg hbig, List.length_append, List.length_singleton]
    cases k with
    | zero => exact absurd hk (Nat.lt_irrefl 0)
    | succ k =>
      cases k with
      | zero => exact absurd hn hbig
      | succ k =>
        apply Nat.succ_le_succ
        apply ih (Nat.succ_pos k)
        rw [Nat.div_lt_iff_lt_mul (by decide)]
        exact hn

theorem readDigits_hexText {n digits : Nat} (h : digits + (hexText n).length ≤ 6) (rest : List Char) :
    readDigits digits 0 (hexText n ++ rest) =
      readDigits (digits + (hexText n).length) n rest := by
  induction n using hexText.induct generalizing rest with
  | case1 n hsmall =>
    rw [hexText, if_pos hsmall] at h ⊢
    rw [List.singleton_append, readDigits_digit hsmall (Nat.lt_of_succ_le h), Nat.zero_mul,
      Nat.zero_add]
    rfl
  | case2 n hbig ih =>
    rw [hexText, if_neg hbig, List.length_append, List.length_singleton] at h ⊢
    have hmod : n % 16 < 16 := Nat.mod_lt n (by decide)
    rw [List.append_assoc, ih (by omega), List.singleton_append, readDigits_digit hmod (by omega),
      Nat.div_add_mod', Nat.add_assoc]

theorem readEscape_hexText (c : Char) (rest : List Char) :
    readEscape ('u' :: '\x7b' :: (hexText c.toNat ++ '\x7d' :: rest)) = some ([c], rest) := by
  have hlt : c.toNat < 16 ^ 6 := by
    rcases c.valid with hlow | hhigh
    · exact Nat.lt_trans hlow (by decide)
    · exact Nat.lt_trans hhigh.2 (by decide)
  have hlength := length_hexText (by decide) hlt
  have hpos : (hexText c.toNat).length ≠ 0 := by
    unfold hexText
    split_ifs
    · exact Nat.one_ne_zero
    · rw [List.length_append]
      exact Nat.succ_ne_zero _
  have hread : readDigits 0 0 (hexText c.toNat ++ '\x7d' :: rest) = some (c.toNat, rest) := by
    rw [readDigits_hexText (by omega), readDigits, if_pos rfl, Nat.zero_add, if_neg hpos]
  rw [readEscape, hread]
  have hvalid : c.toNat.isValidChar := c.valid
  dsimp only
  rw [if_pos hvalid, Char.ofNat_toNat]

theorem not_mem_hexText {n : Nat} : '\n' ∉ hexText n := by
  induction n using hexText.induct with
  | case1 n hsmall =>
    rw [hexText, if_pos hsmall, List.mem_singleton]
    exact ((hexDigit_digitChar n hsmall).2.2.2).symm
  | case2 n hbig ih =>
    rw [hexText, if_neg hbig, List.mem_append, List.mem_singleton]
    have hmod : n % 16 < 16 := Nat.mod_lt n (by decide)
    exact not_or.mpr ⟨ih, ((hexDigit_digitChar _ hmod).2.2.2).symm⟩

/-! ## Literals -/

variable (unprintable : Unprintable)

/-- An escaped character is read back. -/
theorem readLiteral_escapeDebug {c : Char} (happ : c ≠ '\'') (rest : List Char) :
    readLiteral (escapeDebug unprintable c ++ rest) =
      (readLiteral rest).map fun out => (c :: out.1, out.2) := by
  have hnamed : ∀ e d, readEscape (e :: rest) = some ([d], rest) →
      readLiteral ('\\' :: e :: rest) = (readLiteral rest).map fun out => (d :: out.1, out.2) :=
    fun e d h => readLiteral_escape h
  unfold escapeDebug
  by_cases hnul : c = '\x00'
  · rw [if_pos hnul, hnul]
    exact hnamed '0' '\x00' rfl
  rw [if_neg hnul]
  by_cases htab : c = '\t'
  · rw [if_pos htab, htab]
    exact hnamed 't' '\t' rfl
  rw [if_neg htab]
  by_cases hreturn : c = '\r'
  · rw [if_pos hreturn, hreturn]
    exact hnamed 'r' '\r' rfl
  rw [if_neg hreturn]
  by_cases hnewline : c = '\n'
  · rw [if_pos hnewline, hnewline]
    exact hnamed 'n' '\n' rfl
  rw [if_neg hnewline]
  by_cases hslash : c = '\\'
  · rw [if_pos hslash, hslash]
    exact hnamed '\\' '\\' rfl
  rw [if_neg hslash]
  by_cases hquote : c = '"'
  · rw [if_pos hquote, hquote]
    exact hnamed '"' '"' rfl
  rw [if_neg hquote, if_neg happ]
  split_ifs
  · have hread := readEscape_hexText c rest
    rw [List.cons_append, List.cons_append, List.cons_append, List.append_assoc,
      List.singleton_append, readLiteral_escape hread]
    rfl
  · exact readLiteral_plain hquote hslash hreturn rest

theorem writes_escapeRustStr : Writes (escapeRustStr unprintable) := by
  intro value rest
  induction value with
  | nil => exact readLiteral_quote rest
  | cons c value ih =>
    have hcons : escapeRustStr unprintable (c :: value) =
        (if c = '\'' then [c] else escapeDebug unprintable c) ++
          escapeRustStr unprintable value := List.flatMap_cons
    rw [hcons, List.append_assoc]
    by_cases happ : c = '\''
    · rw [if_pos happ, happ, List.singleton_append,
        readLiteral_plain (by decide) (by decide) (by decide), ih]
      rfl
    · rw [if_neg happ, readLiteral_escapeDebug unprintable happ, ih]
      rfl

/-- Printable ASCII but for quotes and backslashes is written as it is. -/
theorem escapeRustStr_ascii {s : List Char}
    (h : ∀ c ∈ s, ' ' ≤ c ∧ c ≤ '~' ∧ c ≠ '"' ∧ c ≠ '\\') : escapeRustStr unprintable s = s := by
  induction s with
  | nil => rfl
  | cons c s ih =>
    have hcons : escapeRustStr unprintable (c :: s) =
        (if c = '\'' then [c] else escapeDebug unprintable c) ++ escapeRustStr unprintable s :=
      List.flatMap_cons
    obtain ⟨hlow, hhigh, hquote, hslash⟩ := h c List.mem_cons_self
    have hspace : ∀ d : Char, d < ' ' → c ≠ d := by
      rintro d hd rfl
      exact absurd hlow (UInt32.not_le.mpr hd)
    rw [hcons, ih fun d hd => h d (List.mem_cons_of_mem _ hd)]
    by_cases happ : c = '\''
    · rw [if_pos happ]
      rfl
    · rw [if_neg happ, escapeDebug, if_neg (hspace _ (by decide)), if_neg (hspace _ (by decide)),
        if_neg (hspace _ (by decide)), if_neg (hspace _ (by decide)), if_neg hslash,
        if_neg hquote, if_neg happ, unprintable.ascii c hlow hhigh]
      rfl

/-! ## Comments -/

theorem not_mem_escapeDebug {c : Char} (hc : c ≠ '\n') : '\n' ∉ escapeDebug unprintable c := by
  unfold escapeDebug
  split_ifs
  · decide
  · decide
  · decide
  · decide
  · decide
  · decide
  · simp only [List.mem_cons, List.mem_append, not_or]
    exact ⟨by decide, by decide, by decide, not_mem_hexText, by decide, List.not_mem_nil⟩
  · rw [List.mem_singleton]
    exact hc.symm

theorem not_mem_sanitizeComment (s : List Char) : '\n' ∉ sanitizeComment unprintable s := by
  unfold sanitizeComment
  rw [List.mem_flatMap]
  rintro ⟨c, -, hc⟩
  split_ifs at hc with hline hplain
  · exact absurd hc (by decide)
  · rw [List.mem_singleton] at hc
    exact hline (Or.inl hc.symm)
  · exact not_mem_escapeDebug unprintable (fun h => hline (Or.inl h)) hc

theorem not_mem_intText (n : Int) : '\n' ∉ intText n := by
  have hdigits : '\n' ∉ Nat.toDigits 10 n.natAbs := by
    intro h
    have hdigit := Nat.isDigit_of_mem_toDigits (by decide) (by decide) h
    exact absurd hdigit (by decide)
  unfold intText
  split_ifs
  · rw [List.mem_cons]
    exact not_or.mpr ⟨by decide, hdigits⟩
  · exact hdigits

end Victauri.Core.Codegen
