import Victauri.Core.Json.Printer
import Victauri.Core.Json.Reader
import Victauri.Test.Terminal

/-!
# JSON for a terminal

`json_terminal_safe` of the CLI's `logs.rs`, on a compact JSON text.  What it escapes occurs in
strings only, so the text keeps its value.  A JSON text has no character below U+0020; of the control
characters that leaves U+007F, which stays as it is.
-/

namespace Victauri.Cli.Logs

open Victauri.Core.Json
open Victauri.Test (Discovery.isControl Discovery.isBidiControl Discovery.singleLine)
open Victauri.Test.Terminal

-- A quantifier over the characters of a text is decided along the text.
attribute [local instance (1100)] List.decidableBAll

def isBidi (c : Char) : Bool :=
  c.toNat = 0x061c || c.toNat = 0x200e || c.toNat = 0x200f ||
    (0x202a ≤ c.toNat && c.toNat ≤ 0x202e) || (0x2066 ≤ c.toNat && c.toNat ≤ 0x2069)

def isEscaped (c : Char) : Bool := isBidi c || (0x80 ≤ c.toNat && c.toNat ≤ 0x9f)

/-- How a character of the JSON text is written. -/
def safeChar (c : Char) : List Char := if isEscaped c then unicodeEscape c.toNat else [c]

def jsonTerminalSafe (json : List Char) : List Char := json.flatMap safeChar

/-! ## Characters -/

/-- Both encoders turn the same characters that change the direction. -/
theorem isBidi_eq : isBidi = Discovery.isBidiControl := rfl

theorem isEscaped_bounds {c : Char} (h : isEscaped c = true) :
    0x80 ≤ c.toNat ∧ c.toNat < 0xd800 := by
  simp only [isEscaped, isBidi, Bool.or_eq_true, Bool.and_eq_true, decide_eq_true_eq] at h
  omega

theorem safeChar_ascii {c : Char} (h : c.toNat < 0x80) : safeChar c = [c] := by
  rw [safeChar, if_neg]
  intro hescaped
  have hbounds := isEscaped_bounds hescaped
  omega

theorem isNeutral_unicodeEscape {n : Nat} {d : Char} (h : d ∈ unicodeEscape n) : IsNeutral d := by
  have hdigit (m : Nat) : IsNeutral (Nat.digitChar (m % 16)) := by
    have hlt := Nat.mod_lt m (show 0 < 16 by decide)
    generalize m % 16 = digit at hlt
    have hall : ∀ digit < 16,
        0x20 ≤ (Nat.digitChar digit).toNat ∧ (Nat.digitChar digit).toNat < 0x7f := by
      decide
    exact isNeutral_of_ascii (hall digit hlt).1 (hall digit hlt).2
  simp only [unicodeEscape, hexOf, List.mem_cons, List.not_mem_nil, or_false] at h
  rcases h with rfl | rfl | rfl | rfl | rfl | rfl
  · exact isNeutral_of_ascii (by decide) (by decide)
  · exact isNeutral_of_ascii (by decide) (by decide)
  · exact hdigit (n / 4096)
  · exact hdigit (n / 256)
  · exact hdigit (n / 16)
  · exact hdigit n

/-- From U+0020 on, what is written is neutral but for U+007F. -/
theorem isNeutral_safeChar {c d : Char} (h : d ∈ safeChar c) (hlow : 0x20 ≤ c.toNat)
    (hdel : c ≠ '\x7f') : IsNeutral d := by
  rw [safeChar] at h
  split_ifs at h with hescaped
  · exact isNeutral_unicodeEscape h
  · obtain rfl := List.mem_singleton.mp h
    rw [isEscaped, Bool.or_eq_true, not_or, Bool.not_eq_true, isBidi_eq] at hescaped
    refine ⟨?_, hescaped.1⟩
    have hdel' : d.toNat ≠ 0x7f := fun heq => hdel (Char.toNat_inj.mp heq)
    have hhigh := hescaped.2
    simp only [Bool.and_eq_true, decide_eq_true_eq] at hhigh
    simp only [Discovery.isControl, Bool.or_eq_false_iff, Bool.and_eq_false_iff,
      decide_eq_false_iff_not]
    omega

theorem safeChar_of_neutral {c : Char} (h : IsNeutral c) : safeChar c = [c] := by
  rw [safeChar, if_neg]
  intro hescaped
  rw [isEscaped, isBidi_eq, h.2, Bool.false_or] at hescaped
  have hcontrol := h.1
  simp only [Bool.and_eq_true, decide_eq_true_eq] at hescaped
  simp only [Discovery.isControl, Bool.or_eq_false_iff, Bool.and_eq_false_iff,
    decide_eq_false_iff_not] at hcontrol
  omega

theorem jsonTerminalSafe_append (t t' : List Char) :
    jsonTerminalSafe (t ++ t') = jsonTerminalSafe t ++ jsonTerminalSafe t' :=
  List.flatMap_append

theorem jsonTerminalSafe_ascii {t : List Char} (h : ∀ c ∈ t, c.toNat < 0x80) :
    jsonTerminalSafe t = t :=
  flatMap_of_forall fun c hc => safeChar_ascii (h c hc)

theorem jsonTerminalSafe_cons {c : Char} (h : c.toNat < 0x80) (t : List Char) :
    jsonTerminalSafe (c :: t) = c :: jsonTerminalSafe t := by
  rw [jsonTerminalSafe, List.flatMap_cons, safeChar_ascii h]
  rfl

/-! ## Strings -/

theorem toNat_of_hexDigit {c : Char} {n : Nat} (h : hexDigit c = some n) :
    0x20 ≤ c.toNat ∧ c.toNat < 0x80 := by
  rw [hexDigit] at h
  simp only [Char.le_def, UInt32.le_iff_toNat_le] at h
  change 0x20 ≤ c.val.toNat ∧ c.val.toNat < 0x80
  split_ifs at h with hdigit hlower hupper
  · exact ⟨Nat.le_trans (by decide) hdigit.1, Nat.lt_of_le_of_lt hdigit.2 (by decide)⟩
  · exact ⟨Nat.le_trans (by decide) hlower.1, Nat.lt_of_le_of_lt hlower.2 (by decide)⟩
  · exact ⟨Nat.le_trans (by decide) hupper.1, Nat.lt_of_le_of_lt hupper.2 (by decide)⟩

theorem hexNumber_cons {c : Char} {ds : List Char} {n u : Nat}
    (h : List.foldlM (fun n c => (hexDigit c).map fun d => n * 16 + d) n (c :: ds) = some u) :
    (0x20 ≤ c.toNat ∧ c.toNat < 0x80) ∧
      ∃ n', List.foldlM (fun n c => (hexDigit c).map fun d => n * 16 + d) n' ds = some u := by
  rw [List.foldlM_cons] at h
  cases hdigit : hexDigit c with
  | none =>
    rw [hdigit] at h
    cases h
  | some d =>
    rw [hdigit] at h
    exact ⟨toNat_of_hexDigit hdigit, _, h⟩

/-- Hexadecimal digits are of ASCII. -/
theorem ascii_of_hexNumber {ds : List Char} {u : Nat} (h : hexNumber ds = some u) :
    ∀ c ∈ ds, 0x20 ≤ c.toNat ∧ c.toNat < 0x80 := by
  rw [hexNumber] at h
  generalize 0 = n at h
  induction ds generalizing n with
  | nil => exact List.forall_mem_nil _
  | cons c ds ih =>
    obtain ⟨hc, n', hrest⟩ := hexNumber_cons h
    exact List.forall_mem_cons.mpr ⟨hc, ih n' hrest⟩

theorem ascii_of_simpleEscape {e c : Char} (h : (e, c) ∈ simpleEscapes) :
    0x20 ≤ e.toNat ∧ e.toNat < 0x80 := by
  have hall : ∀ m ∈ simpleEscapes, 0x20 ≤ m.1.toNat ∧ m.1.toNat < 0x80 := by decide
  exact hall (e, c) h

/-- A string keeps what it denotes. -/
theorem stringBody_safe {t s : List Char} (h : StringBody t s) :
    StringBody (jsonTerminalSafe t) s := by
  induction h with
  | nil => exact .nil
  | @plain c t s hcontrol hquote hslash h ih =>
    rw [jsonTerminalSafe, List.flatMap_cons, safeChar]
    split_ifs with hescaped
    · obtain ⟨-, hhigh⟩ := isEscaped_bounds hescaped
      have hu := hexNumber_hexOf (n := c.toNat) (Nat.lt_trans hhigh (by decide))
      have hbody := StringBody.unicode hu (by simp [isHighSurrogate]; omega)
        (by simp [isLowSurrogate]; omega) ih
      rw [Char.ofNat_toNat] at hbody
      exact hbody
    · exact .plain hcontrol hquote hslash ih
  | @simple e c t s he h ih =>
    rw [jsonTerminalSafe_cons (by decide), jsonTerminalSafe_cons (ascii_of_simpleEscape he).2]
    exact .simple he ih
  | @unicode w x y z u t s hu hhigh hlow h ih =>
    have hdigits := jsonTerminalSafe_ascii fun c hc => (ascii_of_hexNumber hu c hc).2
    rw [jsonTerminalSafe_cons (by decide), jsonTerminalSafe_cons (by decide),
      show w :: x :: y :: z :: t = [w, x, y, z] ++ t from rfl, jsonTerminalSafe_append, hdigits]
    exact .unicode hu hhigh hlow ih
  | @pair w x y z w' x' y' z' u u' t s hu hu' hhigh hlow h ih =>
    have hdigits := jsonTerminalSafe_ascii fun c hc => (ascii_of_hexNumber hu c hc).2
    have hdigits' := jsonTerminalSafe_ascii fun c hc => (ascii_of_hexNumber hu' c hc).2
    have hlow' : jsonTerminalSafe ('\\' :: 'u' :: ([w', x', y', z'] ++ t)) =
        '\\' :: 'u' :: ([w', x', y', z'] ++ jsonTerminalSafe t) := by
      rw [jsonTerminalSafe_cons (by decide), jsonTerminalSafe_cons (by decide),
        jsonTerminalSafe_append, hdigits']
    rw [jsonTerminalSafe_cons (by decide), jsonTerminalSafe_cons (by decide),
      show w :: x :: y :: z :: '\\' :: 'u' :: w' :: x' :: y' :: z' :: t =
        [w, x, y, z] ++ ('\\' :: 'u' :: ([w', x', y', z'] ++ t)) from rfl,
      jsonTerminalSafe_append [w, x, y, z], hdigits, hlow']
    exact .pair hu hu' hhigh hlow ih

/-- No character of a string is below U+0020. -/
theorem printable_of_stringBody {t s : List Char} (h : StringBody t s) :
    ∀ c ∈ t, 0x20 ≤ c.toNat := by
  have hslash : 0x20 ≤ '\\'.toNat := by decide
  have hu : 0x20 ≤ 'u'.toNat := by decide
  induction h with
  | nil => exact List.forall_mem_nil _
  | plain hcontrol _ _ _ ih => exact List.forall_mem_cons.mpr ⟨hcontrol, ih⟩
  | simple he _ ih =>
    exact List.forall_mem_cons.mpr
      ⟨hslash, List.forall_mem_cons.mpr ⟨(ascii_of_simpleEscape he).1, ih⟩⟩
  | unicode hdigits _ _ _ ih =>
    have hall := List.forall_mem_append.mpr
      ⟨fun c hc => (ascii_of_hexNumber hdigits c hc).1, ih⟩
    exact List.forall_mem_cons.mpr ⟨hslash, List.forall_mem_cons.mpr ⟨hu, hall⟩⟩
  | pair hdigits hdigits' _ _ _ ih =>
    have hlow := List.forall_mem_append.mpr
      ⟨fun c hc => (ascii_of_hexNumber hdigits' c hc).1, ih⟩
    have hall := List.forall_mem_append.mpr
      ⟨fun c hc => (ascii_of_hexNumber hdigits c hc).1,
        List.forall_mem_cons.mpr ⟨hslash, List.forall_mem_cons.mpr ⟨hu, hlow⟩⟩⟩
    exact List.forall_mem_cons.mpr ⟨hslash, List.forall_mem_cons.mpr ⟨hu, hall⟩⟩

/-! ## Values -/

/-- Text between two characters of ASCII. -/
theorem jsonTerminalSafe_between {first last : Char} (hfirst : first.toNat < 0x80)
    (hlast : last.toNat < 0x80) (t : List Char) :
    jsonTerminalSafe (first :: (t ++ [last])) = first :: (jsonTerminalSafe t ++ [last]) := by
  rw [jsonTerminalSafe_cons hfirst, jsonTerminalSafe_append, jsonTerminalSafe_cons hlast]
  rfl

theorem printable_between {first last : Char} (hfirst : 0x20 ≤ first.toNat)
    (hlast : 0x20 ≤ last.toNat) {t : List Char} (h : ∀ c ∈ t, 0x20 ≤ c.toNat) :
    ∀ c ∈ first :: (t ++ [last]), 0x20 ≤ c.toNat :=
  List.forall_mem_cons.mpr
    ⟨hfirst, List.forall_mem_append.mpr ⟨h, List.forall_mem_singleton.mpr hlast⟩⟩

theorem printable_append {t t' : List Char} {c : Char} (h : ∀ c ∈ t, 0x20 ≤ c.toNat)
    (hc : 0x20 ≤ c.toNat) (h' : ∀ c ∈ t', 0x20 ≤ c.toNat) :
    ∀ d ∈ t ++ c :: t', 0x20 ≤ d.toNat :=
  List.forall_mem_append.mpr ⟨h, List.forall_mem_cons.mpr ⟨hc, h'⟩⟩

theorem stringLiteral_safe {t : List Char} {s : String} (h : StringLiteral t s) :
    StringLiteral (jsonTerminalSafe t) s := by
  cases h with
  | mk hbody =>
    rw [jsonTerminalSafe_between (by decide) (by decide)]
    exact .mk (stringBody_safe hbody)

theorem printable_of_stringLiteral {t : List Char} {s : String} (h : StringLiteral t s) :
    ∀ c ∈ t, 0x20 ≤ c.toNat := by
  cases h with
  | mk hbody => exact printable_between (by decide) (by decide) (printable_of_stringBody hbody)

theorem ascii_of_isNumberChar {c : Char} (h : isNumberChar c = true) :
    0x20 ≤ c.toNat ∧ c.toNat < 0x80 := by
  simp only [isNumberChar, Bool.or_eq_true, beq_iff_eq] at h
  rcases h with ((((hdigit | rfl) | rfl) | rfl) | rfl) | rfl
  · have hbounds : 48 ≤ c.toNat ∧ c.toNat ≤ 57 := Char.isDigit_iff_toNat.mp hdigit
    omega
  · decide
  · decide
  · decide
  · decide
  · decide

section Values

variable {number : NumberFormat}

mutual

/-- A text of a value stays a text of it, and has no character below U+0020. -/
theorem text_safe {t : List Char} {v : Value} {d : Nat} (h : Text number t v d) :
    Text number (jsonTerminalSafe t) v d ∧ ∀ c ∈ t, 0x20 ≤ c.toNat := by
  match h with
  | .null => exact ⟨.null, by decide⟩
  | .true => exact ⟨.true, by decide⟩
  | .false => exact ⟨.false, by decide⟩
  | .number (t := t) htoken =>
    have hchars := (number.isNumber t htoken).numberChars
    rw [jsonTerminalSafe_ascii fun c hc => (ascii_of_isNumberChar (hchars c hc)).2]
    exact ⟨.number htoken, fun c hc => (ascii_of_isNumberChar (hchars c hc)).1⟩
  | .string hliteral =>
    exact ⟨.string (stringLiteral_safe hliteral), printable_of_stringLiteral hliteral⟩
  | .emptyArray => exact ⟨.emptyArray, by decide⟩
  | .emptyObject => exact ⟨.emptyObject, by decide⟩
  | .array hitems =>
    rw [jsonTerminalSafe_between (by decide) (by decide)]
    obtain ⟨htext, hprintable⟩ := items_safe hitems
    exact ⟨.array htext, printable_between (by decide) (by decide) hprintable⟩
  | .object hmembers =>
    rw [jsonTerminalSafe_between (by decide) (by decide)]
    obtain ⟨htext, hprintable⟩ := members_safe hmembers
    exact ⟨.object htext, printable_between (by decide) (by decide) hprintable⟩

theorem items_safe {t : List Char} {vs : List Value} {d : Nat} (h : Items number t vs d) :
    Items number (jsonTerminalSafe t) vs d ∧ ∀ c ∈ t, 0x20 ≤ c.toNat := by
  match h with
  | .one h =>
    obtain ⟨htext, hprintable⟩ := text_safe h
    exact ⟨.one htext, hprintable⟩
  | .cons h h' =>
    obtain ⟨htext, hprintable⟩ := text_safe h
    obtain ⟨hitems, hprintable'⟩ := items_safe h'
    rw [jsonTerminalSafe_append, jsonTerminalSafe_cons (by decide)]
    exact ⟨.cons htext hitems, printable_append hprintable (by decide) hprintable'⟩

theorem members_safe {t : List Char} {ms : List (String × Value)} {d : Nat}
    (h : Members number t ms d) :
    Members number (jsonTerminalSafe t) ms d ∧ ∀ c ∈ t, 0x20 ≤ c.toNat := by
  match h with
  | .one hk h =>
    obtain ⟨htext, hprintable⟩ := text_safe h
    rw [jsonTerminalSafe_append, jsonTerminalSafe_cons (by decide)]
    exact ⟨.one (stringLiteral_safe hk) htext,
      printable_append (printable_of_stringLiteral hk) (by decide) hprintable⟩
  | .cons hk h h' =>
    obtain ⟨htext, hprintable⟩ := text_safe h
    obtain ⟨hmembers, hprintable'⟩ := members_safe h'
    rw [jsonTerminalSafe_append, jsonTerminalSafe_cons (by decide), jsonTerminalSafe_append,
      jsonTerminalSafe_cons (by decide)]
    exact ⟨.cons (stringLiteral_safe hk) htext hmembers,
      printable_append (printable_of_stringLiteral hk) (by decide)
        (printable_append hprintable (by decide) hprintable')⟩

end

/-- What `json_terminal_safe` is for, on a text that denotes `v`. -/
structure SafeJson (number : NumberFormat) (t : List Char) (v : Value) : Prop where
  neutral : ∀ c ∈ jsonTerminalSafe t, IsNeutral c
  denotes : ∃ d, Text number (jsonTerminalSafe t) v d
  unchanged : (∀ c ∈ t, IsNeutral c) → jsonTerminalSafe t = t

theorem safeJson_iff {t : List Char} {v : Value} {d : Nat} (h : Text number t v d) :
    SafeJson number t v ↔ '\x7f' ∉ t := by
  obtain ⟨htext, hprintable⟩ := text_safe h
  constructor
  · intro hsafe hmem
    have hraw : '\x7f' ∈ jsonTerminalSafe t :=
      List.mem_flatMap.mpr ⟨'\x7f', hmem, List.mem_singleton_self _⟩
    exact absurd (hsafe.neutral _ hraw).1 (by decide)
  · intro hdel
    refine ⟨?_, ⟨d, htext⟩, ?_⟩
    · intro c hc
      obtain ⟨source, hsource, hmem⟩ := List.mem_flatMap.mp hc
      refine isNeutral_safeChar hmem (hprintable source hsource) ?_
      rintro rfl
      exact hdel hsource
    · intro hneutral
      exact flatMap_of_forall fun c hc => safeChar_of_neutral (hneutral c hc)

/-- The three encoders are safe exactly on JSON texts without U+007F. -/
theorem encoders_safe_iff (line : String) (block : List Char) {t : List Char} {v : Value} {d : Nat}
    (h : Text number t v d) :
    SafeLine line ∧ SafeBlock block ∧ SafeJson number t v ↔ '\x7f' ∉ t := by
  rw [← safeJson_iff h]
  constructor
  · rintro ⟨-, -, hjson⟩
    exact hjson
  · intro hjson
    exact ⟨singleLine_safe line, untrustedMultiLine_safe block, hjson⟩

end Values

/-- A string of U+007F is printed with the character as it is. -/
theorem delete_stays_raw :
    Text oneDigit (print oneDigitPrinter (.string "\x7f")) (.string "\x7f") 0 ∧
      jsonTerminalSafe (print oneDigitPrinter (.string "\x7f")) = ['"', '\x7f', '"'] ∧
      Discovery.isControl '\x7f' = true ∧
      ¬SafeJson oneDigit (print oneDigitPrinter (.string "\x7f")) (.string "\x7f") := by
  refine ⟨.string (.quote "\x7f"), by decide, by decide, ?_⟩
  intro hsafe
  exact absurd (hsafe.neutral '\x7f' (by decide)).1 (by decide)

/-- A colour on a line, a command in a block and a C1 control in a JSON string. -/
theorem encoders_safe_of_escapes :
    SafeLine "\x1b[31m" ∧ SafeBlock "ok\n::error".toList ∧
      SafeJson oneDigit (quote ['\u009b']) (.string "\u009b") := by
  refine (encoders_safe_iff _ _ (.string (.quote "\u009b"))).mpr ?_
  decide

end Victauri.Cli.Logs
