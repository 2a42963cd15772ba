import Victauri.Cli.Jsonc.Strict
import Victauri.Core.Verification.NumberTexts
import Victauri.Library.Separated
import Victauri.Plugin.Database.QueryRows.Document
import Victauri.Plugin.Database.QueryRows.Sizes

/-!
# When a cell's JSON is decoded

`same_json_content` counts bytes.  Whatever parsing and encoding loses makes the text lighter, if
an upper-case hexadecimal digit weighs more than another byte, so that no two losses cancel.
-/

namespace Victauri.Plugin.Database

open Victauri.Core.Json
open Victauri.Core.Verification (FloatTexts readInteger printInteger printNumber)
open Victauri.Cli.Jsonc (Mark Token Rendered Gap IsSpace Makes CopiesStrings)
open Utf8 (encode encode_cons encode_append)

/-! ## The numbers -/

theorem isNumber_printInteger (z : Int) : IsNumber (printInteger z) := by
  have hdigits : IsDigits (Nat.toDigits 10 z.natAbs) :=
    ⟨Nat.toDigits_ne_nil, fun c hc => Nat.isDigit_of_mem_toDigits (by decide) (by decide) hc⟩
  have hzero : (Nat.toDigits 10 z.natAbs).head? = some '0' → Nat.toDigits 10 z.natAbs = ['0'] := by
    intro hhead
    rw [Core.Verification.head_toDigits _ hhead]
    rfl
  unfold printInteger
  split_ifs
  · exact ⟨['-'], _, [], [], by simp, .inr rfl, ⟨hdigits, hzero⟩, .inl rfl, .inl rfl⟩
  · exact ⟨[], _, [], [], by simp, .inl rfl, ⟨hdigits, hzero⟩, .inl rfl, .inl rfl⟩

/-- The integers of `i64` and `u64`, in decimal. -/
def integers : NumberFormat where
  token t := ∃ z : Int, -2 ^ 63 ≤ z ∧ z < 2 ^ 64 ∧ t = printInteger z
  isNumber := by
    rintro t ⟨z, -, -, rfl⟩
    exact isNumber_printInteger z
  read t := (readInteger t).getD (.posInt 0)

theorem print_read_integers (floats : FloatTexts) {t : List Char} (h : integers.token t) :
    printNumber floats (integers.read t) = t := by
  obtain ⟨z, hlow, hhigh, rfl⟩ := h
  obtain ⟨n, hread, hvalue⟩ := Core.Verification.readInteger_printInteger hlow hhigh
  change printNumber floats ((readInteger (printInteger z)).getD (.posInt 0)) = printInteger z
  rw [hread]
  exact Core.Verification.printNumber_of_integerValue floats hvalue

def integerPrinter (floats : FloatTexts) : NumberPrinter integers where
  write := printNumber floats
  token t h := by rwa [print_read_integers floats h]
  read t h := by rw [print_read_integers floats h]

/-! ## The counted bytes -/

theorem sameJsonContent_iff_perm (source encoded : List UInt8) :
    sameJsonContent source encoded = true ↔ (countedBytes false false source).Perm encoded := by
  rw [sameJsonContent, List.all_eq_true, List.perm_iff_count]
  constructor
  · intro h b
    have hcount := h b.toNat (List.mem_range.mpr b.toNat_lt)
    rw [beq_iff_eq, UInt8.ofNat_toNat] at hcount
    exact hcount
  · intro h n _
    exact beq_iff_eq.mpr (h (UInt8.ofNat n))

/-- The loop of `same_json_content` that is not behind a backslash. -/
def counting (inString : Bool) : List UInt8 → List UInt8 := countedBytes inString false

theorem copiesStrings_counting : CopiesStrings counting where
  escape d rest := by
    unfold counting
    rw [countedBytes, if_neg Bool.false_ne_true, if_pos rfl, countedBytes, if_pos rfl]
  close rest := by
    unfold counting
    rw [countedBytes, if_neg Bool.false_ne_true, if_neg (by decide), if_pos rfl]
  inside c rest hslash hquote := by
    unfold counting
    rw [countedBytes, if_neg Bool.false_ne_true, if_neg hslash, if_neg hquote]
  quote rest := by
    unfold counting
    rw [countedBytes, if_pos rfl]

theorem makes_counting_gap {g : List Char} (h : Gap false g) : Makes counting g [] := by
  induction h with
  | nil => exact fun _ => rfl
  | @space c g hc _ ih =>
    intro rest
    have hspace : encode [c] = [c.toUInt8] ∧
        ∀ bs, counting false (c.toUInt8 :: bs) = counting false bs := by
      unfold counting
      rcases hc with rfl | rfl | rfl | rfl <;>
        exact ⟨rfl, fun bs => by rw [countedBytes, if_neg (by decide), if_pos (by decide)]⟩
    rw [encode_cons, ← List.append_nil (String.utf8EncodeChar c)]
    change counting false (encode [c] ++ encode g ++ rest) = _
    rw [hspace.1, List.append_assoc, List.singleton_append, hspace.2, ih]
  | line hcomments => cases hcomments
  | block hcomments => cases hcomments

theorem makes_counting_plain {text : List Char}
    (h : ∀ c ∈ text, c ≠ '"' ∧ c ≠ ' ' ∧ c ≠ '\t' ∧ c ≠ '\n' ∧ c ≠ '\r') :
    Makes counting text text := by
  intro rest
  have hbytes : ∀ b ∈ encode text, b ≠ '"'.toUInt8 ∧
      ¬(b = ' '.toUInt8 ∨ b = '\t'.toUInt8 ∨ b = '\n'.toUInt8 ∨ b = '\r'.toUInt8) := by
    intro b hb
    have hmem {d : Char} (hd : d.toNat < 0x80) (hne : ∀ c ∈ text, c ≠ d) : b ≠ d.toUInt8 := by
      rintro rfl
      exact hne d ((Utf8.mem_encode hd).mp hb) rfl
    refine ⟨hmem (by decide) fun c hc => (h c hc).1, ?_⟩
    rintro (heq | heq | heq | heq)
    · exact hmem (by decide) (fun c hc => (h c hc).2.1) heq
    · exact hmem (by decide) (fun c hc => (h c hc).2.2.1) heq
    · exact hmem (by decide) (fun c hc => (h c hc).2.2.2.1) heq
    · exact hmem (by decide) (fun c hc => (h c hc).2.2.2.2) heq
  generalize encode text = bs at hbytes ⊢
  induction bs with
  | nil => rfl
  | cons b bs ih =>
    obtain ⟨hquote, hspace⟩ := hbytes b List.mem_cons_self
    have hstep : counting false (b :: (bs ++ rest)) = b :: counting false (bs ++ rest) := by
      unfold counting
      rw [countedBytes, if_neg hquote, if_neg hspace]
    rw [List.cons_append, hstep, ih fun d hd => hbytes d (List.mem_cons_of_mem b hd)]
    rfl

theorem makes_counting_token {tok : Token} (h : tok.Lexes) :
    Makes counting tok.text tok.text := by
  cases tok with
  | mark m =>
    apply makes_counting_plain
    rw [Token.text, List.forall_mem_singleton]
    cases m <;> decide
  | string body =>
    obtain ⟨s, hs⟩ := h
    exact copiesStrings_counting.makes_string hs
  | word text =>
    apply makes_counting_plain
    intro c hc
    have hne {d : Char} (hd : d ∈ Cli.Jsonc.marks) : c ≠ d := by
      rintro rfl
      exact h.2 c hc hd
    exact ⟨hne (by decide), hne (by decide), hne (by decide), hne (by decide), hne (by decide)⟩

/-- What is counted of a text is the text without its white space. -/
theorem countedBytes_rendered {ts : List Token} {text : List Char} (h : Rendered false ts text)
    (hts : ∀ tok ∈ ts, tok.Lexes) :
    countedBytes false false (encode text) = encode (ts.flatMap Token.text) := by
  change counting false (encode text) = _
  induction h with
  | done hg =>
    have hmade := makes_counting_gap hg []
    rwa [List.append_nil] at hmade
  | line hcomments => cases hcomments
  | token hg _ ih =>
    obtain ⟨htok, hts⟩ := List.forall_mem_cons.mp hts
    rw [encode_append, encode_append, makes_counting_gap hg, makes_counting_token htok, ih hts,
      List.flatMap_cons, encode_append]
    rfl

end Victauri.Plugin.Database
