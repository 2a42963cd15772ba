import Victauri.Test.Reporting

/-!
# Reading the report back

What a CI server finds in a report: the suite, its counts and the outcome of each case.
-/

namespace Victauri.Test.Reporting

open Xml

/-! ## The contents of a report -/

inductive Outcome where
  | passed
  | failed (failureType message : List Char)
  | skipped (message : List Char)
  deriving DecidableEq

def Outcome.isFailed : Outcome → Bool
  | .failed _ _ => true
  | _ => false

def Outcome.isSkipped : Outcome → Bool
  | .skipped _ => true
  | _ => false

structure Case where
  name : List Char
  classname : List Char
  outcome : Outcome
  deriving DecidableEq

structure Suite where
  name : List Char
  tests : Nat
  failures : Nat
  skipped : Nat
  cases : List Case
  deriving DecidableEq

def valueOf (attrs : List (List Char × List Char)) (n : String) : Option (List Char) :=
  (attrs.find? fun a => a.1 == n.toList).map Prod.snd

def readNat (value : List Char) : Option Nat :=
  if !value.isEmpty && value.all Char.isDigit then some (Nat.ofDigitChars 10 value 0) else none

/-- The elements among the children of a node. -/
def elements (children : List Node) : List (List Char × List (List Char × List Char)) :=
  children.filterMap fun child =>
    match child with
    | .element n attrs _ => some (n, attrs)
    | .text _ => none

def readOutcome (children : List Node) : Option Outcome :=
  match elements children with
  | [] => some .passed
  | [(n, attrs)] => do
      let message ← valueOf attrs "message"
      if n = "skipped".toList then some (.skipped message)
      else if n = "failure".toList then
        (valueOf attrs "type").map fun failureType => .failed failureType message
      else none
  | _ => none

/-- The case of an element; text between the elements is skipped. -/
def readCase (node : Node) : Option (Option Case) :=
  match node with
  | .text _ => some none
  | .element n attrs children =>
      if n = "testcase".toList then do
        let name ← valueOf attrs "name"
        let classname ← valueOf attrs "classname"
        let outcome ← readOutcome children
        return some { name, classname, outcome }
      else none

def readSuite (node : Node) : Option Suite :=
  match node with
  | .text _ => none
  | .element n attrs children =>
      if n = "testsuite".toList then do
        let name ← valueOf attrs "name"
        let tests ← (valueOf attrs "tests").bind readNat
        let failures ← (valueOf attrs "failures").bind readNat
        let skipped ← (valueOf attrs "skipped").bind readNat
        let cases ← children.mapM readCase
        return { name, tests, failures, skipped, cases := cases.filterMap id }
      else none

/-! ## What is to be read -/

/-- A character that XML cannot carry is replaced. -/
def clean (c : Char) : Char := if isChar c then c else '\uFFFD'

def JunitTestCase.outcome (tc : JunitTestCase) : Outcome :=
  match tc.failure with
  | none => .passed
  | some failure =>
      if failure.failureType = skippedType then .skipped (failure.message.map clean)
      else .failed (failure.failureType.map clean) (failure.message.map clean)

def JunitTestCase.case (tc : JunitTestCase) : Case :=
  { name := tc.name.map clean
    classname := tc.classname.map clean
    outcome := tc.outcome }

/-! ## Escaping -/

theorem clean_of_isChar {c : Char} (h : isChar c = true) : clean c = c := if_pos h

theorem stands_escapeChar (c : Char) : Stands (escapeChar c) (clean c) := by
  unfold escapeChar
  by_cases hamp : c = '&'
  · subst hamp
    exact @stands_reference "amp".toList '&' (by decide) (by decide)
  rw [if_neg hamp]
  by_cases hlt : c = '<'
  · subst hlt
    exact @stands_reference "lt".toList '<' (by decide) (by decide)
  rw [if_neg hlt]
  by_cases hgt : c = '>'
  · subst hgt
    exact @stands_reference "gt".toList '>' (by decide) (by decide)
  rw [if_neg hgt]
  by_cases hquot : c = '"'
  · subst hquot
    exact @stands_reference "quot".toList '"' (by decide) (by decide)
  rw [if_neg hquot]
  by_cases hapos : c = '\''
  · subst hapos
    exact @stands_reference "apos".toList '\'' (by decide) (by decide)
  rw [if_neg hapos]
  by_cases htab : c = '\t'
  · subst htab
    exact @stands_reference "#9".toList '\t' (by decide) (by decide)
  rw [if_neg htab]
  by_cases hlf : c = '\n'
  · subst hlf
    exact @stands_reference "#10".toList '\n' (by decide) (by decide)
  rw [if_neg hlf]
  by_cases hcr : c = '\r'
  · subst hcr
    exact @stands_reference "#13".toList '\r' (by decide) (by decide)
  rw [if_neg hcr]
  by_cases hforbidden : c.toNat < 0x20 ∨ c = '\uFFFE' ∨ c = '\uFFFF'
  · rw [if_pos hforbidden]
    have hclean : clean c = '\uFFFD' := by
      apply if_neg
      rcases hforbidden with h | rfl | rfl
      · intro hchar
        simp only [isChar, Bool.or_eq_true, Bool.and_eq_true, decide_eq_true_eq, htab, hlf, hcr,
          false_or] at hchar
        omega
      · decide
      · decide
    rw [hclean]
    exact stands_char (by decide) (by decide) (by decide) (by decide)
  · rw [if_neg hforbidden]
    push Not at hforbidden
    obtain ⟨hlow, hfffe, hffff⟩ := hforbidden
    have hclean : clean c = c := by
      apply clean_of_isChar
      have hnat : ∀ d : Char, c ≠ d → c.toNat ≠ d.toNat := fun d hne heq =>
        hne (Char.ext (UInt32.toNat_inj.mp heq))
      have h1 : c.toNat ≠ 0xFFFE := hnat _ hfffe
      have h2 : c.toNat ≠ 0xFFFF := hnat _ hffff
      have hvalid : c.toNat < 0xD800 ∨ 0xDFFF < c.toNat ∧ c.toNat < 0x110000 := c.valid
      simp only [isChar, Bool.or_eq_true, Bool.and_eq_true, decide_eq_true_eq]
      omega
    rw [hclean]
    apply stands_char hquot hlt hamp
    intro hspace
    simp only [isSpace, Bool.or_eq_true, decide_eq_true_eq] at hspace
    rcases hspace with ((h | h) | h) | h
    · exact h
    · exact absurd h htab
    · exact absurd h hlf
    · exact absurd h hcr

/-- `xml_escape` as an encoding of attribute values. -/
def encoding : Encoding :=
  { piece := escapeChar
    clean := clean
    stands := stands_escapeChar }

theorem encode_eq (value : List Char) : encoding.encode value = xmlEscape value := rfl

/-- Digits and points are written as they are. -/
theorem plain_digits {value : List Char} (h : ∀ c ∈ value, c.isDigit = true ∨ c = '.') :
    xmlEscape value = value ∧ value.map clean = value := by
  induction value with
  | nil => exact ⟨rfl, rfl⟩
  | cons c value ih =>
    obtain ⟨hescape, hclean⟩ := ih fun d hd => h d (List.mem_cons_of_mem c hd)
    have hrange : 0x2E ≤ c.toNat ∧ c.toNat ≤ 0x39 ∧ c.toNat ≠ 0x2F := by
      rcases h c List.mem_cons_self with hc | rfl
      · simp only [Char.isDigit, Bool.and_eq_true, decide_eq_true_eq, ge_iff_le,
          UInt32.le_iff_toNat_le] at hc
        have h1 : 48 ≤ c.toNat := hc.1
        have h2 : c.toNat ≤ 57 := hc.2
        omega
      · decide
    have hne : ∀ d : Char, (d.toNat < 0x2E ∨ 0x39 < d.toNat) → c ≠ d := by
      rintro d hd rfl
      omega
    have hchar : escapeChar c = [c] := by
      unfold escapeChar
      rw [if_neg (hne _ (by decide)), if_neg (hne _ (by decide)), if_neg (hne _ (by decide)),
        if_neg (hne _ (by decide)), if_neg (hne _ (by decide)), if_neg (hne _ (by decide)),
        if_neg (hne _ (by decide)), if_neg (hne _ (by decide)), if_neg]
      rintro (hlow | hc | hc)
      · omega
      · exact hne _ (by decide) hc
      · exact hne _ (by decide) hc
    have hcleanChar : clean c = c := by
      apply clean_of_isChar
      simp only [isChar, Bool.or_eq_true, Bool.and_eq_true, decide_eq_true_eq]
      omega
    constructor
    · rw [xmlEscape, List.flatMap_cons, hchar]
      exact congrArg (c :: ·) hescape
    · rw [List.map_cons, hcleanChar, hclean]

theorem digits_showNat (n : Nat) : ∀ c ∈ showNat n, c.isDigit = true ∨ c = '.' :=
  fun _ hc => Or.inl (Nat.isDigit_of_mem_toDigits (by decide) (by decide) hc)

theorem readNat_showNat (n : Nat) : readNat (showNat n) = some n := by
  have hne : (showNat n).isEmpty = false := by
    rw [List.isEmpty_eq_false_iff]
    exact Nat.toDigits_ne_nil
  have hall : (showNat n).all Char.isDigit = true := by
    rw [List.all_eq_true]
    intro c hc
    exact Nat.isDigit_of_mem_toDigits (by decide) (by decide) hc
  unfold readNat
  rw [hne, hall]
  exact congrArg some Nat.ofDigitChars_ten_toDigits

/-! ## The elements of a report -/

def nameTag : Tag := ⟨"name".toList, by decide, by decide⟩
def classnameTag : Tag := ⟨"classname".toList, by decide, by decide⟩
def timeTag : Tag := ⟨"time".toList, by decide, by decide⟩
def typeTag : Tag := ⟨"type".toList, by decide, by decide⟩
def messageTag : Tag := ⟨"message".toList, by decide, by decide⟩
def testsTag : Tag := ⟨"tests".toList, by decide, by decide⟩
def failuresTag : Tag := ⟨"failures".toList, by decide, by decide⟩
def errorsTag : Tag := ⟨"errors".toList, by decide, by decide⟩
def skippedTag : Tag := ⟨"skipped".toList, by decide, by decide⟩
def failureTag : Tag := ⟨"failure".toList, by decide, by decide⟩
def testcaseTag : Tag := ⟨"testcase".toList, by decide, by decide⟩
def testsuiteTag : Tag := ⟨"testsuite".toList, by decide, by decide⟩
def versionTag : Tag := ⟨"version".toList, by decide, by decide⟩
def encodingTag : Tag := ⟨"encoding".toList, by decide, by decide⟩

/-- The element of a failure or of a skipped check. -/
def failureAttributes (failure : JunitFailure) : Tag × List (Tag × List Char) :=
  if failure.failureType = skippedType then (skippedTag, [(messageTag, failure.message)])
  else (failureTag, [(typeTag, failure.failureType), (messageTag, failure.message)])

def failureNode (failure : JunitFailure) : Node :=
  .element (failureAttributes failure).1.chars (encoding.read (failureAttributes failure).2) []

variable (f : DurationFormat)

def caseAttributes (tc : JunitTestCase) : List (Tag × List Char) :=
  [(nameTag, tc.name), (classnameTag, tc.classname), (timeTag, f.formatDuration tc.duration)]

def caseChildren (tc : JunitTestCase) : List Node :=
  match tc.failure with
  | none => []
  | some failure =>
      [.text ['\n', ' ', ' ', ' ', ' '], failureNode failure, .text ['\n', ' ', ' ']]

def caseNode (tc : JunitTestCase) : Node :=
  .element testcaseTag.chars (encoding.read (caseAttributes f tc)) (caseChildren tc)

/-- What a case writes behind its `<`. -/
def caseText (tc : JunitTestCase) : List Char :=
  testcaseTag.chars ++ (encoding.print (caseAttributes f tc) ++
    match tc.failure with
    | none => [' ', '/', '>']
    | some failure =>
        '>' :: '\n' :: ' ' :: ' ' :: ' ' :: ' ' :: '<' :: ((failureAttributes failure).1.chars ++
          (encoding.print (failureAttributes failure).2 ++
            ' ' :: '/' :: '>' :: '\n' :: ' ' :: ' ' :: '<' :: '/' :: (testcaseTag.chars ++ ['>']))))

theorem escape_formatDuration (d : Duration) : xmlEscape (f.formatDuration d) = f.formatDuration d :=
  (plain_digits (f.digits d)).1

/-! The literals of the source, taken apart at their tags. -/

theorem opening_testcase : "  <testcase name=\"".toList =
    ' ' :: ' ' :: '<' :: (testcaseTag.chars ++ ' ' :: (nameTag.chars ++ ['=', '"'])) := by decide

theorem before_classname : "\" classname=\"".toList =
    '"' :: ' ' :: (classnameTag.chars ++ ['=', '"']) := by decide

theorem before_time : "\" time=\"".toList = '"' :: ' ' :: (timeTag.chars ++ ['=', '"']) := by decide

theorem opening_skipped : "    <skipped message=\"".toList =
    ' ' :: ' ' :: ' ' :: ' ' :: '<' ::
      (skippedTag.chars ++ ' ' :: (messageTag.chars ++ ['=', '"'])) := by decide

theorem opening_failure : "    <failure type=\"".toList =
    ' ' :: ' ' :: ' ' :: ' ' :: '<' ::
      (failureTag.chars ++ ' ' :: (typeTag.chars ++ ['=', '"'])) := by decide

theorem before_message : "\" message=\"".toList =
    '"' :: ' ' :: (messageTag.chars ++ ['=', '"']) := by decide

theorem closing_empty : "\" />\n".toList = ['"', ' ', '/', '>', '\n'] := by decide

theorem closing_open : "\">\n".toList = ['"', '>', '\n'] := by decide

theorem closing_testcase : "  </testcase>\n".toList =
    ' ' :: ' ' :: '<' :: '/' :: (testcaseTag.chars ++ ['>', '\n']) := by decide

theorem toXml_failure (failure : JunitFailure) :
    (if failure.failureType = skippedType then
        "    <skipped message=\"".toList ++ xmlEscape failure.message ++ "\" />\n".toList
      else
        "    <failure type=\"".toList ++ xmlEscape failure.failureType ++
          "\" message=\"".toList ++ xmlEscape failure.message ++ "\" />\n".toList) =
      ' ' :: ' ' :: ' ' :: ' ' :: '<' :: ((failureAttributes failure).1.chars ++
        (encoding.print (failureAttributes failure).2 ++ [' ', '/', '>', '\n'])) := by
  unfold failureAttributes
  by_cases h : failure.failureType = skippedType
  · rw [if_pos h, if_pos h, opening_skipped, closing_empty]
    simp only [Encoding.print, Encoding.printAttribute, encode_eq, List.flatMap_cons,
      List.flatMap_nil, List.append_assoc, List.cons_append, List.nil_append]
  · rw [if_neg h, if_neg h, opening_failure, before_message, closing_empty]
    simp only [Encoding.print, Encoding.printAttribute, encode_eq, List.flatMap_cons,
      List.flatMap_nil, List.append_assoc, List.cons_append, List.nil_append]

theorem toXml_case (tc : JunitTestCase) :
    tc.toXml f = ' ' :: ' ' :: '<' :: (caseText f tc ++ ['\n']) := by
  unfold JunitTestCase.toXml caseText
  cases tc.failure with
  | none =>
    simp only [opening_testcase, before_classname, before_time, closing_empty, caseAttributes,
      Encoding.print, Encoding.printAttribute, encode_eq, escape_formatDuration,
      List.flatMap_cons, List.flatMap_nil, List.append_assoc, List.cons_append, List.nil_append,
      List.append_nil]
  | some failure =>
    simp only [toXml_failure, opening_testcase, before_classname, before_time, closing_open,
      closing_testcase, caseAttributes]
    simp only [Encoding.print, Encoding.printAttribute, encode_eq, escape_formatDuration,
      List.flatMap_cons, List.flatMap_nil, List.append_assoc, List.cons_append, List.nil_append,
      List.append_nil]

/-! ## The parse -/

theorem distinct_case (tc : JunitTestCase) :
    ((caseAttributes f tc).map fun a => a.1.chars).Nodup := by
  change [nameTag.chars, classnameTag.chars, timeTag.chars].Nodup
  decide

theorem distinct_failure (failure : JunitFailure) :
    ((failureAttributes failure).2.map fun a => a.1.chars).Nodup := by
  unfold failureAttributes
  by_cases h : failure.failureType = skippedType
  · rw [if_pos h]
    change [messageTag.chars].Nodup
    decide
  · rw [if_neg h]
    change [typeTag.chars, messageTag.chars].Nodup
    decide

theorem plain_of_all {text : List Char} (h : text.all isSpace = true) : IsPlain text := by
  intro c hc
  have hspace := List.all_eq_true.mp h c hc
  refine ⟨?_, ?_, ?_⟩
  · rintro rfl
    exact absurd hspace (by decide)
  · rintro rfl
    exact absurd hspace (by decide)
  · rintro rfl
    exact absurd hspace (by decide)

theorem head?_tag (n : Tag) (rest : List Char) : (n.chars ++ rest).head? ≠ some '/' := by
  intro h
  have hstart := n.start
  cases hchars : n.chars with
  | nil => exact n.ne_nil hchars
  | cons c chars =>
    rw [hchars] at h hstart
    have hc : c = '/' := Option.some.inj h
    subst hc
    have hslash : isNameStart '/' = true := hstart
    exact absurd hslash (by decide)

theorem elementIs_case (tc : JunitTestCase) (rest : List Char) :
    ElementIs (caseText f tc ++ rest) (caseNode f tc) rest := by
  unfold caseText caseNode caseChildren
  cases tc.failure with
  | none =>
    simp only [List.append_assoc, List.cons_append, List.nil_append]
    exact encoding.elementIs_empty testcaseTag _ (distinct_case f tc) rest
  | some failure =>
    simp only [List.append_assoc, List.cons_append, List.nil_append]
    apply encoding.elementIs_children testcaseTag _ (distinct_case f tc)
    have hclosing := contentIs_end (testcaseTag.chars ++ '>' :: rest)
    have htail := contentIs_text (List.cons_ne_nil '\n' [' ', ' ']) (plain_of_all (by decide)) hclosing
    have helement := encoding.elementIs_empty (failureAttributes failure).1
      (failureAttributes failure).2 (distinct_failure failure)
      ('\n' :: ' ' :: ' ' :: '<' :: '/' :: (testcaseTag.chars ++ '>' :: rest))
    have hbody := contentIs_element helement (head?_tag _ _) (by
      simp only [List.length_append, List.length_cons]
      omega) htail
    exact contentIs_text (List.cons_ne_nil '\n' [' ', ' ', ' ', ' ']) (plain_of_all (by decide)) hbody

/-- The children of the suite: the cases, and the white space around them. -/
def suiteChildren : List JunitTestCase → List Node
  | [] => [.text ['\n']]
  | tc :: cases => .text ['\n', ' ', ' '] :: caseNode f tc :: suiteChildren cases

theorem contentIs_cases (cases : List JunitTestCase) (rest : List Char) :
    ContentIs ('\n' :: (cases.flatMap (JunitTestCase.toXml f) ++ '<' :: '/' :: rest))
      (suiteChildren f cases) ('<' :: '/' :: rest) := by
  induction cases with
  | nil =>
    exact contentIs_text (List.cons_ne_nil '\n' []) (plain_of_all (by decide)) (contentIs_end rest)
  | cons tc cases ih =>
    have hsplit : '\n' :: ((tc :: cases).flatMap (JunitTestCase.toXml f) ++ '<' :: '/' :: rest) =
        ['\n', ' ', ' '] ++ '<' :: (caseText f tc ++
          '\n' :: (cases.flatMap (JunitTestCase.toXml f) ++ '<' :: '/' :: rest)) := by
      rw [List.flatMap_cons, toXml_case]
      simp only [List.append_assoc, List.cons_append, List.nil_append]
    rw [hsplit]
    have hbody := contentIs_element (elementIs_case f tc _) (by
      unfold caseText
      rw [List.append_assoc]
      exact head?_tag _ _) (by
      rw [List.length_append]
      omega) ih
    exact contentIs_text (List.cons_ne_nil '\n' [' ', ' ']) (plain_of_all (by decide)) hbody

/-! ## The document -/

variable (r : JunitReport)

def JunitReport.skipped : Nat := r.testCases.countP JunitTestCase.isSkipped

def JunitReport.failures : Nat :=
  (r.testCases.countP fun t => t.failure.isSome) - r.skipped

def suiteAttributes : List (Tag × List Char) :=
  [(nameTag, r.name), (testsTag, showNat r.testCases.length), (failuresTag, showNat r.failures),
    (errorsTag, ['0']), (skippedTag, showNat r.skipped), (timeTag, f.formatDuration r.duration)]

def suiteNode : Node :=
  .element testsuiteTag.chars (encoding.read (suiteAttributes f r)) (suiteChildren f r.testCases)

def declarationAttributes : List (Tag × List Char) :=
  [(versionTag, "1.0".toList), (encodingTag, "UTF-8".toList)]

/-- What a report writes behind the `<` of its suite. -/
def suiteText : List Char :=
  testsuiteTag.chars ++ (encoding.print (suiteAttributes f r) ++
    '>' :: '\n' :: (r.testCases.flatMap (JunitTestCase.toXml f) ++
      '<' :: '/' :: (testsuiteTag.chars ++ ['>', '\n'])))

theorem opening_declaration : "<?xml version=\"1.0\" encoding=\"UTF-8\"?>\n".toList =
    "<?xml".toList ++ (encoding.print declarationAttributes ++ ['?', '>', '\n']) := by decide

theorem opening_testsuite : "<testsuite name=\"".toList =
    '<' :: (testsuiteTag.chars ++ ' ' :: (nameTag.chars ++ ['=', '"'])) := by decide

theorem before_tests : "\" tests=\"".toList = '"' :: ' ' :: (testsTag.chars ++ ['=', '"']) := by
  decide

theorem before_failures : "\" failures=\"".toList =
    '"' :: ' ' :: (failuresTag.chars ++ ['=', '"']) := by decide

theorem before_skipped : "\" errors=\"0\" skipped=\"".toList =
    '"' :: ' ' :: (errorsTag.chars ++ '=' :: '"' :: '0' :: '"' :: ' ' ::
      (skippedTag.chars ++ ['=', '"'])) := by decide

theorem closing_testsuite : "</testsuite>\n".toList =
    '<' :: '/' :: (testsuiteTag.chars ++ ['>', '\n']) := by decide

theorem escape_showNat (n : Nat) : xmlEscape (showNat n) = showNat n :=
  (plain_digits (digits_showNat n)).1

theorem toXml_eq :
    r.toXml f = "<?xml".toList ++ (encoding.print declarationAttributes ++
      '?' :: '>' :: '\n' :: '<' :: suiteText f r) := by
  have hzero : xmlEscape ['0'] = ['0'] := by decide
  unfold JunitReport.toXml suiteText
  simp only [opening_declaration, opening_testsuite, before_tests, before_failures, before_skipped,
    before_time, closing_open, closing_testsuite, suiteAttributes]
  simp only [List.append_assoc, List.cons_append, List.nil_append, List.append_cancel_left_eq]
  simp only [Encoding.print, Encoding.printAttribute, encode_eq, escape_formatDuration,
    escape_showNat, hzero, List.flatMap_cons, List.flatMap_nil, List.append_assoc,
    List.cons_append, List.nil_append, JunitReport.failures, JunitReport.skipped]

/-! Every character of the document is one of XML's, and there is no carriage return. -/

def Fine (c : Char) : Bool := isChar c && c != '\r'

theorem fine_escapeChar (c : Char) : (escapeChar c).all Fine = true := by
  unfold escapeChar
  split_ifs with hamp hlt hgt hquot hapos htab hlf hcr hforbidden
  iterate 9 decide
  push Not at hforbidden
  obtain ⟨hlow, hfffe, hffff⟩ := hforbidden
  have hnat : ∀ d : Char, c ≠ d → c.toNat ≠ d.toNat := fun d hne heq =>
    hne (Char.ext (UInt32.toNat_inj.mp heq))
  have h1 : c.toNat ≠ 0xFFFE := hnat _ hfffe
  have h2 : c.toNat ≠ 0xFFFF := hnat _ hffff
  have hvalid : c.toNat < 0xD800 ∨ 0xDFFF < c.toNat ∧ c.toNat < 0x110000 := c.valid
  have hchar : isChar c = true := by
    simp only [isChar, Bool.or_eq_true, Bool.and_eq_true, decide_eq_true_eq]
    omega
  rw [List.all_cons, List.all_nil, Bool.and_true, Fine, hchar, Bool.true_and, bne_iff_ne]
  exact hcr

theorem fine_xmlEscape (value : List Char) : (xmlEscape value).all Fine = true := by
  rw [List.all_eq_true]
  intro c hc
  obtain ⟨d, -, hd⟩ := List.mem_flatMap.mp hc
  exact List.all_eq_true.mp (fine_escapeChar d) c hd

theorem fine_digits {value : List Char} (h : ∀ c ∈ value, c.isDigit = true ∨ c = '.') :
    value.all Fine = true := by
  rw [← (plain_digits h).1]
  exact fine_xmlEscape value

theorem fine_case (tc : JunitTestCase) : (tc.toXml f).all Fine = true := by
  have hname := fine_xmlEscape tc.name
  have hclassname := fine_xmlEscape tc.classname
  have htime := fine_digits (f.digits tc.duration)
  unfold JunitTestCase.toXml
  cases tc.failure with
  | none =>
    simp only [List.all_append, hname, hclassname, htime]
    decide
  | some failure =>
    have htype := fine_xmlEscape failure.failureType
    have hmessage := fine_xmlEscape failure.message
    by_cases h : failure.failureType = skippedType
    · simp only [if_pos h, List.all_append, hname, hclassname, htime, hmessage]
      decide
    · simp only [if_neg h, List.all_append, hname, hclassname, htime, htype, hmessage]
      decide

theorem fine_toXml : (r.toXml f).all Fine = true := by
  have hname := fine_xmlEscape r.name
  have hnumber := fun n => fine_digits (digits_showNat n)
  have htime := fine_digits (f.digits r.duration)
  have hcases : (r.testCases.flatMap (JunitTestCase.toXml f)).all Fine = true := by
    rw [List.all_eq_true]
    intro c hc
    obtain ⟨tc, -, htc⟩ := List.mem_flatMap.mp hc
    exact List.all_eq_true.mp (fine_case f tc) c htc
  unfold JunitReport.toXml
  simp only [List.all_append, hname, hnumber, htime, hcases]
  decide

theorem normalizeLineEnds_of_fine {text : List Char} (h : text.all Fine = true) :
    normalizeLineEnds text = text := by
  induction text with
  | nil => rfl
  | cons c text ih =>
    rw [List.all_cons, Bool.and_eq_true] at h
    have hcr : c ≠ '\r' := by
      rintro rfl
      exact absurd h.1 (by decide)
    rw [normalizeLineEnds, ih h.2]
    · rintro rest rfl
      exact fun _ => hcr rfl
    · exact hcr

theorem elementIs_suite : ElementIs (suiteText f r) (suiteNode f r) ['\n'] := by
  unfold suiteText suiteNode
  apply encoding.elementIs_children testsuiteTag
  · change [nameTag.chars, testsTag.chars, failuresTag.chars, errorsTag.chars, skippedTag.chars,
      timeTag.chars].Nodup
    decide
  · exact contentIs_cases f r.testCases (testsuiteTag.chars ++ '>' :: ['\n'])

theorem declaration_toXml (rest : List Char) :
    declaration ("<?xml".toList ++ (encoding.print declarationAttributes ++ '?' :: '>' :: rest)) =
      some rest := by
  have hattrs := encoding.attributes_print declarationAttributes (by decide)
    (show Encoding.Closed ('?' :: '>' :: rest) from ⟨rfl, rfl⟩)
    ((encoding.print declarationAttributes ++ '?' :: '>' :: rest).length + 1) (by
      have hlength := encoding.length_le_print declarationAttributes
      rw [List.length_append]
      omega)
  unfold declaration
  rw [literal_append]
  change ((attributes ((encoding.print declarationAttributes ++ '?' :: '>' :: rest).length + 1)
    (encoding.print declarationAttributes ++ '?' :: '>' :: rest)).bind fun attrs =>
      if isDeclaration attrs.1 then literal ['?', '>'] (skipSpace attrs.2) else none) = _
  rw [hattrs]
  rfl

theorem parse_toXml : parse (r.toXml f) = some (suiteNode f r) := by
  have hfine := fine_toXml f r
  have hchars : (r.toXml f).all isChar = true := by
    rw [List.all_eq_true] at hfine ⊢
    intro c hc
    exact (Bool.and_eq_true_iff.mp (hfine c hc)).1
  unfold parse
  rw [normalizeLineEnds_of_fine hfine]
  simp only [hchars, if_true]
  rw [toXml_eq, declaration_toXml]
  change ((element ((suiteText f r).length + 1) (suiteText f r)).bind fun root =>
    if (skipSpace root.2).isEmpty then some root.1 else none) = _
  rw [elementIs_suite f r _ (Nat.lt_succ_self _)]
  rfl

/-! ## Reading it back -/

theorem readOutcome_caseChildren (tc : JunitTestCase) :
    readOutcome (caseChildren tc) = some tc.outcome := by
  unfold caseChildren JunitTestCase.outcome
  cases tc.failure with
  | none => rfl
  | some failure =>
    unfold failureNode failureAttributes
    by_cases h : failure.failureType = skippedType
    · simp only [if_pos h]
      rfl
    · simp only [if_neg h]
      rfl

theorem readCase_caseNode (tc : JunitTestCase) : readCase (caseNode f tc) = some (some tc.case) := by
  have hname : valueOf (encoding.read (caseAttributes f tc)) "name" = some (tc.name.map clean) := rfl
  have hclassname : valueOf (encoding.read (caseAttributes f tc)) "classname" =
      some (tc.classname.map clean) := rfl
  have htag : testcaseTag.chars = "testcase".toList := rfl
  unfold readCase caseNode
  simp only [htag, if_true, hname, hclassname, readOutcome_caseChildren]
  rfl

theorem mapM_suiteChildren (cases : List JunitTestCase) :
    ∃ read, (suiteChildren f cases).mapM readCase = some read ∧
      read.filterMap id = cases.map JunitTestCase.case := by
  induction cases with
  | nil => exact ⟨[none], rfl, rfl⟩
  | cons tc cases ih =>
    obtain ⟨read, hread, hcases⟩ := ih
    refine ⟨none :: some tc.case :: read, ?_, ?_⟩
    · unfold suiteChildren
      rw [List.mapM_cons, List.mapM_cons, readCase_caseNode, hread]
      rfl
    · rw [List.map_cons, ← hcases]
      rfl

theorem isSkipped_outcome (tc : JunitTestCase) : tc.outcome.isSkipped = tc.isSkipped := by
  unfold JunitTestCase.outcome JunitTestCase.isSkipped
  cases tc.failure with
  | none => rfl
  | some failure =>
    by_cases h : failure.failureType = skippedType
    · simp [h, Outcome.isSkipped]
    · simp [h, Outcome.isSkipped]

theorem isSome_failure (tc : JunitTestCase) :
    tc.failure.isSome = (tc.outcome.isFailed || tc.outcome.isSkipped) := by
  unfold JunitTestCase.outcome
  cases tc.failure with
  | none => rfl
  | some failure =>
    by_cases h : failure.failureType = skippedType
    · simp [h, Outcome.isSkipped]
    · simp [h, Outcome.isFailed]

theorem isFailed_isSkipped (outcome : Outcome) :
    (outcome.isFailed && outcome.isSkipped) = false := by
  cases outcome with
  | passed => rfl
  | failed failureType message => rfl
  | skipped message => rfl

theorem countP_failure (cases : List JunitTestCase) :
    (cases.countP fun tc => tc.failure.isSome) =
      (cases.countP fun tc => tc.outcome.isFailed) + cases.countP fun tc => tc.outcome.isSkipped := by
  induction cases with
  | nil => rfl
  | cons tc cases ih =>
    have hsome := isSome_failure tc
    have hexclusive := isFailed_isSkipped tc.outcome
    rw [List.countP_cons, List.countP_cons, List.countP_cons, ih, hsome]
    cases hf : tc.outcome.isFailed with
    | false =>
      simp only [Bool.false_or, Bool.false_eq_true, if_false]
      omega
    | true =>
      rw [hf, Bool.true_and] at hexclusive
      simp only [hexclusive, Bool.or_false, Bool.false_eq_true, if_true, if_false]
      omega

theorem failures_eq : r.failures = r.testCases.countP fun tc => tc.outcome.isFailed := by
  have hskipped : r.skipped = r.testCases.countP fun tc => tc.outcome.isSkipped := by
    unfold JunitReport.skipped
    simp only [isSkipped_outcome]
  unfold JunitReport.failures
  rw [hskipped, countP_failure]
  omega

end Victauri.Test.Reporting
