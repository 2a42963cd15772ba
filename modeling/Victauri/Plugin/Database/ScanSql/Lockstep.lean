import Mathlib.Data.List.TakeWhile
import Victauri.Plugin.Database.ScanSql

/-!
# The scanner and the tokenizer

At the start of a token the scanner is between words, and it comes to the start of the next one
having kept the semicolon or the bracket that the token is.  It loses its place in two kinds of
token only: a numbered parameter and a number that ends in its decimal point, when a `$` or a
U+FEFF follows.
-/

namespace Victauri.Plugin.Database

open Victauri.Library.Sqlite

/-! ## Marks -/

/-- A semicolon or a round bracket. -/
def isMark (c : Char) : Bool := c == ';' || c == '(' || c == ')'

/-- The mark a character leaves in the masked text. -/
def Written.mark : Written → Option Placed
  | kept p => if isMark p.char then some p else none
  | _ => none

def marks (written : List Written) : List Placed := written.filterMap Written.mark

/-- The marks a token is to leave: itself, if it is one, and the brackets of a parameter's
suffix. -/
def tokenMarks (t : Token) : List Placed :=
  match t.kind with
  | .semi => t.text
  | .lp => t.text
  | .rp => t.text
  | _ =>
      if t.text.head?.any fun p => isSigil p.char then
        t.text.filter fun p => p.char == '(' || p.char == ')'
      else []

@[simp] theorem marks_append (ws ws' : List Written) :
    marks (ws ++ ws') = marks ws ++ marks ws' :=
  List.filterMap_append

theorem marks_kept {ps : List Placed} (h : ∀ p ∈ ps, isMark p.char = false) :
    marks (ps.map .kept) = [] := by
  rw [marks, List.filterMap_eq_nil_iff]
  intro w hw
  obtain ⟨p, hp, rfl⟩ := List.mem_map.mp hw
  rw [Written.mark, h p hp]
  rfl

/-! ## Characters -/

/-- A character that both texts take as it is, whatever is around it. -/
def isPlain (c : Char) : Bool :=
  c != '\ufeff' && !isSigil c && c != '-' && c != '/' && !isQuote c

/-- `$` and U+FEFF: what they mean depends on the character before. -/
def glues (c : Char) : Bool := c == '$' || c == '\ufeff'

theorem isSqliteIdChar_eq (c : Char) : isSqliteIdChar c = isIdChar c := by
  rw [isSqliteIdChar, isIdChar, isLetter, isDigit]

theorem isSqliteSpace_eq (c : Char) : isSqliteSpace c = isSpace c := rfl

theorem scan_plain {c : Placed} (h : isPlain c.char = true) (w : Bool) (ps : List Placed) :
    scan w (c :: ps) = .kept c :: scan (isIdChar c.char) ps := by
  simp only [isPlain, Bool.and_eq_true, bne_iff_ne, ne_eq, Bool.not_eq_true'] at h
  obtain ⟨⟨⟨⟨hbom, hsigil⟩, hminus⟩, hslash⟩, hquote⟩ := h
  rw [scan, if_neg (fun hand => hbom hand.1), if_neg (fun hand => ?_),
    if_neg (fun hand => hminus hand.1), if_neg (fun hand => hslash hand.1), if_neg (fun hand => ?_),
    isSqliteIdChar_eq]
  · rw [hquote] at hand
    exact Bool.false_ne_true hand
  · rw [hsigil] at hand
    exact Bool.false_ne_true hand.1

theorem ne_of_isIdChar {c d : Char} (h : isIdChar c = true) (hd : isIdChar d = false) : c ≠ d := by
  rintro rfl
  rw [hd] at h
  exact Bool.false_ne_true h

theorem isQuote_of_isIdChar {c : Char} (h : isIdChar c = true) : isQuote c = false := by
  simp only [isQuote, Bool.or_eq_false_iff, beq_eq_false_iff_ne]
  exact ⟨⟨⟨ne_of_isIdChar h rfl, ne_of_isIdChar h rfl⟩, ne_of_isIdChar h rfl⟩,
    ne_of_isIdChar h rfl⟩

/-- `$` is the only identifier character that is a sigil. -/
theorem eq_dollar_of_isSigil {c : Char} (h : isIdChar c = true) (hsigil : isSigil c = true) :
    c = '$' := by
  simp only [isSigil, Bool.or_eq_true, beq_iff_eq] at hsigil
  rcases hsigil with ((hdollar | hcolon) | hat) | hhash
  · exact hdollar
  · exact absurd hcolon (ne_of_isIdChar h rfl)
  · exact absurd hat (ne_of_isIdChar h rfl)
  · exact absurd hhash (ne_of_isIdChar h rfl)

theorem scan_idChar {c : Placed} (h : isIdChar c.char = true) (ps : List Placed) :
    scan true (c :: ps) = .kept c :: scan true ps := by
  rw [scan, if_neg (fun hand => Bool.false_ne_true hand.2.symm), if_neg (fun hand => ?_),
    if_neg (fun hand => ne_of_isIdChar h rfl hand.1),
    if_neg (fun hand => ne_of_isIdChar h rfl hand.1), if_neg (fun hand => ?_),
    isSqliteIdChar_eq, h]
  · rw [isQuote_of_isIdChar h] at hand
    exact Bool.false_ne_true hand
  · exact hand.2.1 ⟨eq_dollar_of_isSigil h hand.1, rfl⟩

/-- An identifier character that is not `$` or U+FEFF is plain. -/
theorem isPlain_of_isIdChar {c : Char} (h : isIdChar c = true) (hglues : glues c = false) :
    isPlain c = true := by
  simp only [glues, Bool.or_eq_false_iff, beq_eq_false_iff_ne] at hglues
  simp only [isPlain, Bool.and_eq_true, bne_iff_ne, ne_eq, Bool.not_eq_true']
  refine ⟨⟨⟨⟨hglues.2, ?_⟩, ne_of_isIdChar h rfl⟩, ne_of_isIdChar h rfl⟩, isQuote_of_isIdChar h⟩
  rw [Bool.eq_false_iff]
  intro hsigil
  exact hglues.1 (eq_dollar_of_isSigil h hsigil)

/-- What the scanner remembers of the character before matters to `$` and U+FEFF only. -/
theorem scan_true {ps : List Placed} (h : ps.head?.any (fun p => glues p.char) = false) :
    scan true ps = scan false ps := by
  cases ps with
  | nil => rw [scan, scan]
  | cons c ps =>
      rw [List.head?_cons, Option.any_some, glues, Bool.or_eq_false_iff, beq_eq_false_iff_ne,
        beq_eq_false_iff_ne] at h
      rw [scan, scan]
      simp only [h.1, h.2, false_and, if_false, not_false_eq_true, true_and]

/-! ## Runs -/

theorem mem_run {sort : Char → Bool} {ps : List Placed} {p : Placed} (h : p ∈ run sort ps) :
    sort p.char = true :=
  List.mem_takeWhile_imp (p := fun q : Placed => sort q.char) h

theorem afterRun_head (sort : Char → Bool) (ps : List Placed) :
    (afterRun sort ps).head?.any (fun p => sort p.char) = false := by
  induction ps with
  | nil => rfl
  | cons p ps ih =>
      by_cases hp : sort p.char = true
      · rw [afterRun_cons_of_pos hp]
        exact ih
      · rw [afterRun_cons_of_neg hp, List.head?_cons, Option.any_some]
        exact Bool.eq_false_iff.mpr hp

theorem not_glues_of_not_idChar {ps : List Placed}
    (h : ps.head?.any (fun p => isIdChar p.char) = false) :
    ps.head?.any (fun p => glues p.char) = false := by
  cases ps with
  | nil => rfl
  | cons p ps =>
      rw [List.head?_cons, Option.any_some] at h ⊢
      rw [glues, Bool.or_eq_false_iff, beq_eq_false_iff_ne, beq_eq_false_iff_ne]
      constructor
      · intro heq
        rw [heq] at h
        exact absurd h (by decide)
      · intro heq
        rw [heq] at h
        exact absurd h (by decide)

/-- The rest of a word, to where the next token starts. -/
theorem scan_word (ps : List Placed) :
    scan true ps = (run isIdChar ps).map .kept ++ scan false (afterRun isIdChar ps) := by
  induction ps with
  | nil => rw [scan_true rfl]; rfl
  | cons p ps ih =>
      by_cases hp : isIdChar p.char = true
      · rw [scan_idChar hp, run_cons_of_pos hp, afterRun_cons_of_pos hp, ih]
        rfl
      · rw [run_cons_of_neg hp, afterRun_cons_of_neg hp]
        refine scan_true (not_glues_of_not_idChar ?_)
        exact Bool.eq_false_iff.mpr hp

/-- A run of plain characters that belong to no name. -/
theorem scan_run {sort : Char → Bool}
    (hsort : ∀ c, sort c = true → isPlain c = true ∧ isIdChar c = false) (ps : List Placed) :
    scan false ps = (run sort ps).map .kept ++ scan false (afterRun sort ps) := by
  induction ps with
  | nil => rfl
  | cons p ps ih =>
      by_cases hp : sort p.char = true
      · rw [scan_plain (hsort _ hp).1, (hsort _ hp).2, run_cons_of_pos hp, afterRun_cons_of_pos hp,
          ih]
        rfl
      · rw [run_cons_of_neg hp, afterRun_cons_of_neg hp]
        rfl

theorem isMark_of_isIdChar {c : Char} (h : isIdChar c = true) : isMark c = false := by
  simp only [isMark, Bool.or_eq_false_iff, beq_eq_false_iff_ne]
  exact ⟨⟨ne_of_isIdChar h rfl, ne_of_isIdChar h rfl⟩, ne_of_isIdChar h rfl⟩

theorem isSpace_cases {c : Char} (h : isSpace c = true) :
    isPlain c = true ∧ isIdChar c = false ∧ isMark c = false := by
  simp only [isSpace, Bool.or_eq_true, beq_iff_eq] at h
  rcases h with ((((rfl | rfl) | rfl) | rfl) | rfl) | rfl <;> decide

theorem isDigit_idChar {c : Char} (h : isDigit c = true) :
    isIdChar c = true ∧ glues c = false := by
  constructor
  · rw [isIdChar, h]
    simp only [Bool.or_true, Bool.true_or]
  · rw [glues, Bool.or_eq_false_iff, beq_eq_false_iff_ne, beq_eq_false_iff_ne]
    constructor
    · rintro rfl
      exact absurd h (by decide)
    · rintro rfl
      exact absurd h (by decide)

theorem scan_minus {c : Placed} (hc : c.char = '-') {ps : List Placed} (h : next ps '-' = false)
    (w : Bool) : scan w (c :: ps) = .kept c :: scan false ps := by
  have hid : isSqliteIdChar '-' = false := rfl
  rw [scan, hc, if_neg (fun hand => absurd hand.1 (by decide)),
    if_neg (fun hand => absurd hand.1 (by decide)), h,
    if_neg (fun hand => Bool.false_ne_true hand.2), if_neg (fun hand => absurd hand.1 (by decide)),
    if_neg (by decide), hid]

/-! ## Smooth texts -/

/-- From one state to another, the scanner takes a text as it is. -/
inductive Smooth : Bool → List Placed → Bool → Prop
  | nil {w} : Smooth w [] w
  | plain {w c xs w'} (hplain : isPlain c.char = true ∧ isMark c.char = false)
      (h : Smooth (isIdChar c.char) xs w') : Smooth w (c :: xs) w'
  | word {c xs w'} (hid : isIdChar c.char = true) (h : Smooth true xs w') :
      Smooth true (c :: xs) w'
  | sign {w c d xs w'} (hminus : c.char = '-') (hdigit : isDigit d.char = true)
      (h : Smooth true xs w') : Smooth w (c :: d :: xs) w'

theorem Smooth.scan {w w' : Bool} {xs : List Placed} (h : Smooth w xs w') (ps : List Placed) :
    scan w (xs ++ ps) = xs.map .kept ++ Database.scan w' ps := by
  induction h with
  | nil => rfl
  | plain hplain _ ih =>
      rw [List.cons_append, scan_plain hplain.1, ih]
      rfl
  | word hid _ ih =>
      rw [List.cons_append, scan_idChar hid, ih]
      rfl
  | @sign w c d xs w' hminus hdigit _ ih =>
      have hd := isDigit_idChar hdigit
      have hnext : next (d :: (xs ++ ps)) '-' = false := by
        rw [next, List.head?_cons, Option.any_some, beq_eq_false_iff_ne]
        exact ne_of_isIdChar hd.1 rfl
      rw [List.cons_append, List.cons_append, scan_minus hminus hnext, scan_plain (isPlain_of_isIdChar hd.1 hd.2), hd.1, ih]
      rfl

theorem Smooth.unmarked {w w' : Bool} {xs : List Placed} (h : Smooth w xs w') :
    ∀ p ∈ xs, isMark p.char = false := by
  induction h with
  | nil => exact fun p hp => absurd hp List.not_mem_nil
  | plain hplain _ ih => exact List.forall_mem_cons.mpr ⟨hplain.2, ih⟩
  | word hid _ ih => exact List.forall_mem_cons.mpr ⟨isMark_of_isIdChar hid, ih⟩
  | sign hminus hdigit _ ih =>
      refine List.forall_mem_cons.mpr ⟨?_, List.forall_mem_cons.mpr ⟨?_, ih⟩⟩
      · rw [hminus]
        rfl
      · exact isMark_of_isIdChar (isDigit_idChar hdigit).1

theorem Smooth.append {w w' w'' : Bool} {xs ys : List Placed} (h : Smooth w xs w')
    (h' : Smooth w' ys w'') : Smooth w (xs ++ ys) w'' := by
  induction h with
  | nil => exact h'
  | plain hplain _ ih => exact .plain hplain (ih h')
  | word hid _ ih => exact .word hid (ih h')
  | sign hminus hdigit _ ih => exact .sign hminus hdigit (ih h')

theorem Smooth.word_list {xs : List Placed} (h : ∀ p ∈ xs, isIdChar p.char = true) :
    Smooth true xs true := by
  induction xs with
  | nil => exact .nil
  | cons p xs ih =>
      rw [List.forall_mem_cons] at h
      exact .word h.1 (ih h.2)

theorem isNumberDigit_idChar {c : Char} (h : isNumberDigit c = true) :
    isIdChar c = true ∧ isPlain c = true := by
  rw [isNumberDigit, Bool.or_eq_true, beq_iff_eq] at h
  rcases h with hdigit | rfl
  · have hid := isDigit_idChar hdigit
    exact ⟨hid.1, isPlain_of_isIdChar hid.1 hid.2⟩
  · decide

/-- Digits leave the scanner in a word, if there are any. -/
theorem Smooth.digits (w : Bool) (ps : List Placed) :
    Smooth w (run isNumberDigit ps) (w || !(run isNumberDigit ps).isEmpty) := by
  cases hrun : run isNumberDigit ps with
  | nil =>
      rw [List.isEmpty_nil, Bool.not_true, Bool.or_false]
      exact .nil
  | cons p xs =>
      have hall : ∀ q ∈ p :: xs, isNumberDigit q.char = true := by
        intro q hq
        rw [← hrun] at hq
        exact mem_run hq
      rw [List.forall_mem_cons] at hall
      have hp := isNumberDigit_idChar hall.1
      rw [List.isEmpty_cons, Bool.not_false, Bool.or_true]
      refine .plain ⟨hp.2, isMark_of_isIdChar hp.1⟩ ?_
      rw [hp.1]
      exact .word_list fun q hq => (isNumberDigit_idChar (hall.2 q hq)).1

theorem Smooth.fraction (w : Bool) (ps : List Placed) :
    ∃ w', Smooth w (cutFraction ps).1 w' ∧
      (w' = true ∨ (∃ p, (cutFraction ps).1 = [p] ∧ p.char = '.') ∨
        ((cutFraction ps).1 = [] ∧ w' = w)) := by
  rw [cutFraction.eq_def]
  split
  · rename_i p rest
    split_ifs with hdot
    · have hplain : isPlain p.char = true ∧ isMark p.char = false := by
        rw [hdot]
        decide
      have hid : isIdChar p.char = false := by
        rw [hdot]
        decide
      refine ⟨!(run isNumberDigit rest).isEmpty, .plain hplain ?_, ?_⟩
      · rw [hid]
        exact Smooth.digits false rest
      · cases hrun : run isNumberDigit rest with
        | nil => exact .inr (.inl ⟨p, rfl, hdot⟩)
        | cons q qs => exact .inl rfl
    · exact ⟨w, .nil, .inr (.inr ⟨rfl, rfl⟩)⟩
  · exact ⟨w, .nil, .inr (.inr ⟨rfl, rfl⟩)⟩

theorem Smooth.exponent (w : Bool) (ps : List Placed) :
    ∃ w', Smooth w (cutExponent ps).1 w' ∧
      (w' = true ∨ ((cutExponent ps).1 = [] ∧ w' = w)) := by
  have hletter {c : Char} (h : c = 'e' ∨ c = 'E') : isPlain c = true ∧ isMark c = false := by
    rcases h with rfl | rfl <;> decide
  have hdigits (d : Placed) (rest : List Placed) (hd : isDigit d.char = true) (w : Bool) :
      Smooth w (run isNumberDigit (d :: rest)) true := by
    have hfirst : isNumberDigit d.char = true := by
      rw [isNumberDigit, hd]
      rfl
    have h := Smooth.digits w (d :: rest)
    rw [run_cons_of_pos hfirst] at h ⊢
    rwa [List.isEmpty_cons, Bool.not_false, Bool.or_true] at h
  rw [cutExponent.eq_def]
  split
  · rename_i p q rest
    split_ifs with hwhole hsigned
    · refine ⟨true, .plain (hletter hwhole.1) ?_, .inl rfl⟩
      exact hdigits q rest hwhole.2 _
    · refine ⟨true, .plain (hletter hsigned.1) ?_, .inl rfl⟩
      obtain ⟨-, hsign, hnext⟩ := hsigned
      cases rest with
      | nil => cases hnext
      | cons d rest =>
          rcases hsign with hplus | hminus
          · have hplain : isPlain q.char = true ∧ isMark q.char = false := by
              rw [hplus]
              decide
            exact .plain hplain (hdigits d rest hnext _)
          · have hrun := hdigits d rest hnext true
            have hfirst : isNumberDigit d.char = true := by
              rw [isNumberDigit, show isDigit d.char = true from hnext]
              rfl
            rw [run_cons_of_pos hfirst]
            refine .sign hminus hnext (.word_list fun x hx => ?_)
            exact (isNumberDigit_idChar (mem_run hx)).1
    · exact ⟨w, .nil, .inr ⟨rfl, rfl⟩⟩
  · exact ⟨w, .nil, .inr ⟨rfl, rfl⟩⟩

/-- Digits, a fraction and an exponent end in a word or in a bare point. -/
theorem Smooth.decimal {ps : List Placed} (hne : (cutDecimal ps).1 ≠ []) :
    ∃ w', Smooth false (cutDecimal ps).1 w' ∧
      (w' = true ∨ ∃ xs p, (cutDecimal ps).1 = xs ++ [p] ∧ p.char = '.') := by
  obtain ⟨w₂, hfraction, hfrom⟩ := Smooth.fraction (false || !(run isNumberDigit ps).isEmpty)
    (afterRun isNumberDigit ps)
  obtain ⟨w₃, hexponent, hto⟩ := Smooth.exponent w₂ (cutFraction (afterRun isNumberDigit ps)).2
  have htext : (cutDecimal ps).1 = run isNumberDigit ps ++
      (cutFraction (afterRun isNumberDigit ps)).1 ++
        (cutExponent (cutFraction (afterRun isNumberDigit ps)).2).1 := rfl
  refine ⟨w₃, ?_, ?_⟩
  · rw [htext]
    exact ((Smooth.digits false ps).append hfraction).append hexponent
  · rcases hto with hto | ⟨hnone, hto⟩
    · exact .inl hto
    · rcases hfrom with hfrom | ⟨p, hpoint, hdot⟩ | ⟨hnone', hfrom⟩
      · exact .inl (hto.trans hfrom)
      · refine .inr ⟨run isNumberDigit ps, p, ?_, hdot⟩
        rw [htext, hnone, hpoint, List.append_nil]
      · rw [htext, hnone, hnone', List.append_nil, List.append_nil] at hne
        left
        rw [hto, hfrom, Bool.false_or, Bool.not_eq_true', List.isEmpty_eq_false_iff]
        exact hne

/-- A `$` or U+FEFF directly after a point. -/
def gluesAfterPoint : List Placed → Bool
  | p :: q :: ps => (p.char == '.' && glues q.char) || gluesAfterPoint (q :: ps)
  | _ => false

theorem gluesAfterPoint_append (xs : List Placed) {p q : Placed} (hp : p.char = '.')
    (hq : glues q.char = true) (ys : List Placed) :
    gluesAfterPoint (xs ++ p :: q :: ys) = true := by
  induction xs with
  | nil =>
      rw [List.nil_append, gluesAfterPoint, hp, hq]
      rfl
  | cons x xs ih =>
      cases xs with
      | nil =>
          rw [List.nil_append] at ih
          rw [List.cons_append, List.nil_append, gluesAfterPoint, ih, Bool.or_true]
      | cons y xs =>
          rw [List.cons_append] at ih
          rw [List.cons_append, List.cons_append, gluesAfterPoint, ih, Bool.or_true]

theorem Smooth.hex {ps : List Placed} {cut : List Placed × List Placed} (h : cutHex ps = some cut) :
    Smooth false cut.1 true := by
  rw [cutHex.eq_def] at h
  split at h
  · rename_i zero x digit rest
    split_ifs at h with hand
    cases h
    refine .plain (by rw [hand.1]; decide) ?_
    rw [hand.1]
    refine .word ?_ (.word_list fun q hq => ?_)
    · rcases hand.2.1 with hx | hx
      · rw [hx]
        decide
      · rw [hx]
        decide
    · have hdigit := mem_run hq
      simp only [isHexDigit, Bool.or_eq_true, Bool.and_eq_true, decide_eq_true_eq,
        beq_iff_eq] at hdigit
      simp only [isIdChar, isLetter, Bool.or_eq_true, Bool.and_eq_true, decide_eq_true_eq,
        beq_iff_eq]
      rcases hdigit with ((hdigit | hlower) | hupper) | hline
      · exact .inl (.inl (.inl (.inr hdigit)))
      · exact .inl (.inl (.inl (.inl (.inl ⟨hlower.1, Char.le_trans hlower.2 (show 'f' ≤ 'z' by decide)⟩))))
      · exact .inl (.inl (.inl (.inl (.inr ⟨hupper.1, Char.le_trans hupper.2 (show 'F' ≤ 'Z' by decide)⟩))))
      · exact .inl (.inl (.inr hline))
  · cases h

/-- A number is taken as it is, unless its point is what the scanner stumbles over. -/
theorem Smooth.number {p : Placed} (hfirst : isDigit p.char = true ∨ p.char = '.')
    {ps : List Placed} (hpoint : gluesAfterPoint (cutNumber (p :: ps)).text = false) :
    ∃ w', Smooth false (cutNumber (p :: ps)).text w' := by
  have htail (ps : List Placed) : ∀ q ∈ run isIdChar ps, isIdChar q.char = true :=
    fun q hq => mem_run hq
  rw [cutNumber] at hpoint ⊢
  cases hhex : cutHex (p :: ps) with
  | some cut => exact ⟨true, (Smooth.hex hhex).append (.word_list (htail cut.2))⟩
  | none =>
      rw [hhex, Option.getD_none] at hpoint
      obtain ⟨w', hdecimal, hend⟩ := Smooth.decimal (cutDecimal_ne_nil hfirst ps)
      rcases hend with rfl | ⟨xs, point, htext, hdot⟩
      · exact ⟨true, hdecimal.append (.word_list (htail _))⟩
      · dsimp only [Option.getD_none]
        have hids := htail (cutDecimal (p :: ps)).2
        cases hrun : run isIdChar (cutDecimal (p :: ps)).2 with
        | nil =>
            rw [List.append_nil]
            exact ⟨w', hdecimal⟩
        | cons q qs =>
            rw [hrun, List.forall_mem_cons] at hids
            have hglues : glues q.char = false := by
              rw [Bool.eq_false_iff]
              intro hglues
              dsimp only at hpoint
              rw [hrun, htext, List.append_assoc, List.singleton_append,
                gluesAfterPoint_append xs hdot hglues] at hpoint
              exact Bool.false_ne_true hpoint.symm
            refine ⟨true, hdecimal.append (.plain ?_ ?_)⟩
            · exact ⟨isPlain_of_isIdChar hids.1 hglues, isMark_of_isIdChar hids.1⟩
            · rw [hids.1]
              exact .word_list hids.2

theorem scan_number {p : Placed} (hfirst : isDigit p.char = true ∨ p.char = '.')
    {ps : List Placed} (hpoint : gluesAfterPoint (cutNumber (p :: ps)).text = false) :
    scan false (p :: ps) = (cutNumber (p :: ps)).text.map .kept ++
        scan false (cutNumber (p :: ps)).rest ∧
      marks ((cutNumber (p :: ps)).text.map .kept) = [] := by
  obtain ⟨w', hsmooth⟩ := Smooth.number hfirst hpoint
  have hrest : scan w' (cutNumber (p :: ps)).rest = scan false (cutNumber (p :: ps)).rest := by
    cases w' with
    | false => rfl
    | true => exact scan_true (not_glues_of_not_idChar (afterRun_head isIdChar _))
  refine ⟨?_, marks_kept hsmooth.unmarked⟩
  rw [← hrest, ← hsmooth.scan, cutNumber_append]

end Victauri.Plugin.Database
