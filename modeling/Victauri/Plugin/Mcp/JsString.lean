import Victauri.Core.Json.Printer
import Victauri.Library.JsText

/-!
# Arguments in scripts

`js_string` of the plugin's `helpers.rs`, on the characters of the string.
-/

namespace Victauri.Plugin.Mcp

open Victauri.Core.Json (unicodeEscape)

/-- `char::is_ascii_graphic`. -/
def isAsciiGraphic (c : Char) : Bool := '!' ≤ c && c ≤ '~'

def jsChar (c : Char) : List Char :=
  if c = '"' then ['\\', '"']
  else if c = '\\' then ['\\', '\\']
  else if c = '\n' then ['\\', 'n']
  else if c = '\r' then ['\\', 'r']
  else if c = '\t' then ['\\', 't']
  else if c = '\x00' then ['\\', 'u', '0', '0', '0', '0']
  else if isAsciiGraphic c ∨ c = ' ' then [c]
  else (Utf16.encodeChar c).flatMap fun unit => unicodeEscape unit.toNat

/-- `js_string`. -/
def jsString (s : List Char) : List Char := '"' :: (s.flatMap jsChar ++ ['"'])

/-! ## Printable ASCII -/

def IsPrintable (c : Char) : Prop := ' ' ≤ c ∧ c ≤ '~'

theorem isPrintable_unicodeEscape (n : Nat) : ∀ c ∈ unicodeEscape n, IsPrintable c := by
  have hdigit : ∀ d < 16, IsPrintable (Nat.digitChar d) := by
    unfold IsPrintable
    decide
  intro c hc
  simp only [unicodeEscape, Core.Json.hexOf, List.mem_cons, List.not_mem_nil, or_false] at hc
  rcases hc with rfl | rfl | rfl | rfl | rfl | rfl
  · exact ⟨by decide, by decide⟩
  · exact ⟨by decide, by decide⟩
  · exact hdigit _ (Nat.mod_lt _ (by decide))
  · exact hdigit _ (Nat.mod_lt _ (by decide))
  · exact hdigit _ (Nat.mod_lt _ (by decide))
  · exact hdigit _ (Nat.mod_lt _ (by decide))

theorem isPrintable_jsChar (c : Char) : ∀ d ∈ jsChar c, IsPrintable d := by
  have hall {ds : List Char} (h : ds.all (fun d => ' ' ≤ d && d ≤ '~') = true) :
      ∀ d ∈ ds, IsPrintable d := by
    intro d hd
    have hboth := List.all_eq_true.mp h d hd
    rw [Bool.and_eq_true, decide_eq_true_eq, decide_eq_true_eq] at hboth
    exact hboth
  unfold jsChar
  split_ifs with _ _ _ _ _ _ hgraphic
  · exact hall (by decide)
  · exact hall (by decide)
  · exact hall (by decide)
  · exact hall (by decide)
  · exact hall (by decide)
  · exact hall (by decide)
  · intro d hd
    rw [List.mem_singleton.mp hd]
    rcases hgraphic with h | rfl
    · rw [isAsciiGraphic, Bool.and_eq_true, decide_eq_true_eq, decide_eq_true_eq] at h
      exact ⟨UInt32.le_trans (by decide) h.1, h.2⟩
    · exact ⟨by decide, by decide⟩
  · intro d hd
    obtain ⟨unit, -, hunit⟩ := List.mem_flatMap.mp hd
    exact isPrintable_unicodeEscape unit.toNat d hunit

/-! ## The value -/

theorem readBody_unicodeEscape (unit : UInt16) (rest : List Char) :
    JsText.readBody (unicodeEscape unit.toNat ++ rest) =
      (JsText.readBody rest).map fun out => (unit :: out.1, out.2) := by
  have hunit := JsText.readUnit_digits unit.toNat_lt rest
  rw [UInt16.ofNat_toNat] at hunit
  exact JsText.readBody_escape (JsText.readEscape_unit hunit)

theorem readBody_units (units : List UInt16) (rest : List Char) :
    JsText.readBody ((units.flatMap fun unit => unicodeEscape unit.toNat) ++ rest) =
      (JsText.readBody rest).map fun out => (units ++ out.1, out.2) := by
  induction units with
  | nil =>
    cases h : JsText.readBody rest with
    | none =>
      rw [List.flatMap_nil, List.nil_append, h]
      rfl
    | some out =>
      rw [List.flatMap_nil, List.nil_append, h]
      rfl
  | cons unit units ih =>
    rw [List.flatMap_cons, List.append_assoc, readBody_unicodeEscape, ih, Option.map_map]
    rfl

theorem readBody_jsChar (c : Char) (rest : List Char) :
    JsText.readBody (jsChar c ++ rest) =
      (JsText.readBody rest).map fun out => (Utf16.encodeChar c ++ out.1, out.2) := by
  unfold jsChar
  by_cases hquote : c = '"'
  · rw [if_pos hquote, hquote]
    exact JsText.readBody_escape rfl
  rw [if_neg hquote]
  by_cases hslash : c = '\\'
  · rw [if_pos hslash, hslash]
    exact JsText.readBody_escape rfl
  rw [if_neg hslash]
  by_cases hnewline : c = '\n'
  · rw [if_pos hnewline, hnewline]
    exact JsText.readBody_escape rfl
  rw [if_neg hnewline]
  by_cases hreturn : c = '\r'
  · rw [if_pos hreturn, hreturn]
    exact JsText.readBody_escape rfl
  rw [if_neg hreturn]
  by_cases htab : c = '\t'
  · rw [if_pos htab, htab]
    exact JsText.readBody_escape rfl
  rw [if_neg htab]
  by_cases hnul : c = '\x00'
  · rw [if_pos hnul, hnul]
    exact JsText.readBody_escape rfl
  rw [if_neg hnul]
  split_ifs
  · exact JsText.readBody_plain hquote hslash ⟨hnewline, hreturn⟩ rest
  · exact readBody_units (Utf16.encodeChar c) rest

/-- A script argument is one literal of printable ASCII whose value is the string, whatever
follows it. -/
theorem jsString_literal (s : List Char) :
    (∀ c ∈ jsString s, IsPrintable c) ∧
      ∀ rest, JsText.readLiteral (jsString s ++ rest) = some (Utf16.encode s, rest) := by
  constructor
  · intro c hc
    rw [jsString, List.mem_cons, List.mem_append, List.mem_flatMap, List.mem_singleton] at hc
    rcases hc with rfl | ⟨d, -, hd⟩ | rfl
    · exact ⟨by decide, by decide⟩
    · exact isPrintable_jsChar d c hd
    · exact ⟨by decide, by decide⟩
  · intro rest
    have hbody : ∀ s, JsText.readBody (s.flatMap jsChar ++ '"' :: rest) =
        some (Utf16.encode s, rest) := by
      intro s
      induction s with
      | nil => exact JsText.readBody_quote rest
      | cons c s ih =>
        rw [List.flatMap_cons, List.append_assoc, readBody_jsChar, ih]
        rfl
    rw [jsString, List.cons_append, List.append_assoc]
    exact hbody s

end Victauri.Plugin.Mcp
