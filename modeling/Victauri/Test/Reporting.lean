import Victauri.Library.Xml.Reading

/-!
# The JUnit report

`reporting.rs`: what `to_xml` writes for a list of checks.  A text is its list of characters.
-/

namespace Victauri.Test.Reporting

structure Duration where
  secs : UInt64
  nanos : UInt32

/-- `format!("{:.3}", d.as_secs_f64())`: digits and a point. -/
structure DurationFormat where
  formatDuration : Duration → List Char
  digits : ∀ d, ∀ c ∈ formatDuration d, c.isDigit = true ∨ c = '.'

structure JunitFailure where
  failureType : List Char
  message : List Char

structure JunitTestCase where
  name : List Char
  classname : List Char
  duration : Duration
  failure : Option JunitFailure

structure JunitReport where
  name : List Char
  duration : Duration
  testCases : List JunitTestCase

/-- `SKIPPED_TYPE`. -/
def skippedType : List Char := "skipped".toList

/-- The body of the loop of `xml_escape`. -/
def escapeChar (ch : Char) : List Char :=
  if ch = '&' then "&amp;".toList
  else if ch = '<' then "&lt;".toList
  else if ch = '>' then "&gt;".toList
  else if ch = '"' then "&quot;".toList
  else if ch = '\'' then "&apos;".toList
  else if ch = '\t' then "&#9;".toList
  else if ch = '\n' then "&#10;".toList
  else if ch = '\r' then "&#13;".toList
  else if ch.toNat < 0x20 ∨ ch = '\uFFFE' ∨ ch = '\uFFFF' then ['\uFFFD']
  else [ch]

def xmlEscape (s : List Char) : List Char := s.flatMap escapeChar

/-- A number as `format!` writes it. -/
def showNat (n : Nat) : List Char := Nat.toDigits 10 n

def JunitTestCase.isSkipped (t : JunitTestCase) : Bool :=
  t.failure.any fun f => f.failureType == skippedType

variable (f : DurationFormat)

def JunitTestCase.toXml (tc : JunitTestCase) : List Char :=
  let tcName := xmlEscape tc.name
  let classname := xmlEscape tc.classname
  let tcTime := f.formatDuration tc.duration
  match tc.failure with
  | some failure =>
      let ftype := xmlEscape failure.failureType
      let msg := xmlEscape failure.message
      "  <testcase name=\"".toList ++ tcName ++ "\" classname=\"".toList ++ classname ++
        "\" time=\"".toList ++ tcTime ++ "\">\n".toList ++
      (if failure.failureType = skippedType then
        "    <skipped message=\"".toList ++ msg ++ "\" />\n".toList
      else
        "    <failure type=\"".toList ++ ftype ++ "\" message=\"".toList ++ msg ++
          "\" />\n".toList) ++
      "  </testcase>\n".toList
  | none =>
      "  <testcase name=\"".toList ++ tcName ++ "\" classname=\"".toList ++ classname ++
        "\" time=\"".toList ++ tcTime ++ "\" />\n".toList

def JunitReport.toXml (r : JunitReport) : List Char :=
  let tests := r.testCases.length
  let skipped := r.testCases.countP JunitTestCase.isSkipped
  let failures := (r.testCases.countP fun t => t.failure.isSome) - skipped
  let time := f.formatDuration r.duration
  let name := xmlEscape r.name
  "<?xml version=\"1.0\" encoding=\"UTF-8\"?>\n".toList ++
    "<testsuite name=\"".toList ++ name ++ "\" tests=\"".toList ++ showNat tests ++
    "\" failures=\"".toList ++ showNat failures ++ "\" errors=\"0\" skipped=\"".toList ++
    showNat skipped ++ "\" time=\"".toList ++ time ++ "\">\n".toList ++
    r.testCases.flatMap (JunitTestCase.toXml f) ++
    "</testsuite>\n".toList

end Victauri.Test.Reporting
