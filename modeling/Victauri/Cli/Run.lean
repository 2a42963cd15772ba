import Mathlib.Algebra.GroupWithZero.Nat
import Mathlib.Logic.Function.Basic
import Victauri.Library.Utf8

/-!
# Capturing an app's output

The `Capture` of the CLI's `run.rs`: the bytes of the two streams are assembled into lines, and
each line becomes a record of the capture file.  A text is its characters.  Whether a write would
pass the size bound depends on the serialized record and its time stamp, and whether a rotation
succeeds on the file system: both are given for the write's number.  Failed writes are not
modelled.
-/

namespace Victauri.Cli.Run

abbrev Bytes : Type := List UInt8

abbrev Text : Type := List Char

/-! ## Constants -/

/-- `MAX_CAPTURE_BYTES`. -/
def maxCaptureBytes : Nat := 64 * 1024 * 1024

/-- `MAX_LINE_BYTES`. -/
def maxLineBytes : Nat := 64 * 1024

/-- `EXIT_TAIL_LINES`. -/
def exitTailLines : Nat := 12

def newline : UInt8 := 10

/-! ## Texts -/

def escape : Char := '\x1b'

/-- After `ESC [`: parameters and intermediates until a final byte. -/
def dropCsi (cs : Text) : Text :=
  (cs.dropWhile fun c => !decide ('\x40' ≤ c ∧ c ≤ '\x7e')).drop 1

/-- After `ESC ]`: until BEL or `ESC \`. -/
def dropOsc : Text → Text
  | [] => []
  | c :: rest =>
      if c = '\x07' then rest
      else if c = escape ∧ rest.head? = some '\\' then rest.drop 1
      else dropOsc rest

theorem dropCsi_length (cs : Text) : (dropCsi cs).length ≤ cs.length := by
  unfold dropCsi
  rw [List.length_drop]
  have hsuffix := List.dropWhile_suffix (l := cs) fun c => !decide ('\x40' ≤ c ∧ c ≤ '\x7e')
  have := hsuffix.length_le
  omega

theorem dropOsc_length (cs : Text) : (dropOsc cs).length ≤ cs.length := by
  induction cs with
  | nil => simp [dropOsc]
  | cons c rest ih =>
      unfold dropOsc
      split_ifs <;> simp <;> omega

def stripEscapes : Text → Text
  | [] => []
  | c :: rest =>
      if c ≠ escape then c :: stripEscapes rest
      else
        match rest with
        | [] => []
        | '[' :: rest => stripEscapes (dropCsi rest)
        | ']' :: rest => stripEscapes (dropOsc rest)
        | _ :: rest => stripEscapes rest
termination_by cs => cs.length
decreasing_by
  · exact Nat.lt_succ_self _
  · exact Nat.lt_succ_of_le (Nat.le_succ_of_le (dropCsi_length _))
  · exact Nat.lt_succ_of_le (Nat.le_succ_of_le (dropOsc_length _))
  · exact Nat.lt_succ_of_le (Nat.le_succ _)

/-- `strip_ansi`. -/
def stripAnsi (cs : Text) : Text :=
  let out := stripEscapes cs
  if out.getLast? = some '\r' then out.dropLast else out

/-- `text.len()`. -/
def byteLength (cs : Text) : Nat := (cs.map Char.utf8Size).sum

/-- `text.truncate(cut)` at the last character boundary up to `cut`. -/
def truncate : Nat → Text → Text
  | _, [] => []
  | cut, c :: rest =>
      if c.utf8Size ≤ cut then c :: truncate (cut - c.utf8Size) rest else []

def truncatedMark : Text := "…[truncated]".toList

/-- `char::is_whitespace`. -/
def isWhitespace (c : Char) : Bool :=
  let n := c.toNat
  decide (0x9 ≤ n ∧ n ≤ 0xD) || decide (0x2000 ≤ n ∧ n ≤ 0x200A) ||
    n ∈ [0x20, 0x85, 0xA0, 0x1680, 0x2028, 0x2029, 0x202F, 0x205F, 0x3000]

/-! ## Records -/

inductive Stream where
  | out
  | err
  deriving DecidableEq

inductive Record where
  | line (s : Stream) (l : Text)
  | exit (l : Text) (tail : List Text)
  deriving DecidableEq

def stoppedNote : Record :=
  .line .err "[victauri run: capture stopped — the file could not be rotated]".toList

/-- What decides whether a record is written: how many bytes the record with this number takes,
and whether a rotation for it succeeds. -/
structure Disk where
  size : Nat → Record → Nat
  rotates : Nat → Bool

/-- `records` is what the files were given, oldest first; `writes` numbers them. -/
structure Capture where
  records : List Record
  writes : Nat
  written : Nat
  recentErr : List Text
  pending : Stream → Bytes
  stopped : Bool

namespace Capture

variable (disk : Disk)

/-- `Capture::create` on a file that already holds `written` bytes. -/
def create (written : Nat) : Capture :=
  { records := [], writes := 0, written := written, recentErr := [], pending := fun _ => [],
    stopped := false }

def writeRecord (c : Capture) (rec : Record) : Capture :=
  let bytes := disk.size c.writes rec
  let next := { c with writes := c.writes + 1 }
  if c.written + bytes ≤ maxCaptureBytes then
    { next with records := c.records ++ [rec], written := c.written + bytes }
  else if disk.rotates c.writes then
    { next with records := c.records ++ [rec], written := bytes }
  else
    match rec with
    | .exit .. => { next with records := c.records ++ [rec], written := c.written + bytes }
    | .line .. =>
        if c.stopped then next
        else { next with records := c.records ++ [stoppedNote], stopped := true }

/-- The text `record` stores for a line. -/
def text (line : Text) : Text :=
  let text := stripAnsi line
  if maxLineBytes < byteLength text then truncate maxLineBytes text ++ truncatedMark else text

/-- `recent_err` with a text pushed. -/
def pushErr (c : Capture) (s : Stream) (text : Text) : Capture :=
  if s = .err ∧ ¬ text.all isWhitespace then
    let recent := if c.recentErr.length = exitTailLines then c.recentErr.drop 1 else c.recentErr
    { c with recentErr := recent ++ [text] }
  else c

def record (c : Capture) (s : Stream) (line : Text) : Capture :=
  if c.stopped then c
  else (c.pushErr s (text line)).writeRecord disk (.line s (text line))

def setPending (c : Capture) (s : Stream) (bytes : Bytes) : Capture :=
  { c with pending := Function.update c.pending s bytes }

/-- A line that ended, in records of at most `MAX_LINE_BYTES`. -/
def recordLine (c : Capture) (s : Stream) (line : Bytes) : Capture :=
  if maxLineBytes < line.length then
    recordLine (c.record disk s (Utf8.decode (line.take maxLineBytes))) s (line.drop maxLineBytes)
  else c.record disk s (Utf8.decode line)
termination_by line.length
decreasing_by
  have : 0 < maxLineBytes := by decide
  simp only [List.length_drop]
  omega

/-- The unfinished line, with all that makes a full record taken off. -/
def recordPending (c : Capture) (s : Stream) (pending : Bytes) : Capture :=
  if maxLineBytes ≤ pending.length then
    recordPending (c.record disk s (Utf8.decode (pending.take maxLineBytes))) s
      (pending.drop maxLineBytes)
  else c.setPending s pending
termination_by pending.length
decreasing_by
  have : 0 < maxLineBytes := by decide
  simp only [List.length_drop]
  omega

def feed (c : Capture) (s : Stream) (bytes : Bytes) : Capture :=
  match hstop : bytes.findIdx? (· == newline) with
  | some stop =>
      let line := c.pending s ++ bytes.take stop
      feed (recordLine disk (c.setPending s []) s line) s (bytes.drop (stop + 1))
  | none => recordPending disk c s (c.pending s ++ bytes)
termination_by bytes.length
decreasing_by
  cases bytes with
  | nil => simp at hstop
  | cons =>
      simp only [List.drop_succ_cons, List.length_drop, List.length_cons]
      omega

def flushPartial (c : Capture) (s : Stream) : Capture :=
  let line := c.pending s
  let c := c.setPending s []
  if line = [] then c else c.record disk s (Utf8.decode line)

/-- `record_exit`. -/
def recordExit (c : Capture) (summary : Text) : Capture :=
  let c := flushPartial disk (flushPartial disk c .out) .err
  c.writeRecord disk (.exit summary c.recentErr)

end Capture

end Victauri.Cli.Run
