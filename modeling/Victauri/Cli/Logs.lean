import Victauri.Plugin.BackendLogs.ConsoleCapture

/-!
# Following a capture from the CLI

The capture follower of the CLI's `logs.rs` beside the writer of `run.rs`, each cut at its file
operations.  An open file is its place in the order of creation: a rename or a removal changes
what a name opens, not what is open.  The loop over the lines of a read is the plugin's
(`readChunks`), and what a record says is a parameter as there.
-/

namespace Victauri.Cli.Logs

open Plugin.BackendLogs (Bytes newline splitInclusive readChunks)

/-- `MAX_READ`. -/
def maxRead : Nat := 32 * 1024 * 1024

/-- `CAPTURE_HEAD_BYTES`. -/
def captureHeadBytes : Nat := 256

/-! ## Reads -/

/-- `CaptureCursor`. -/
structure CaptureCursor where
  offset : Nat
  head : Bytes
  deriving DecidableEq

/-- `open_capture_head`. -/
def captureHead (file : Bytes) : Bytes := file.take captureHeadBytes

def sameCapture (seen now : Bytes) : Bool :=
  if seen = [] then true
  else
    let n := min seen.length now.length
    decide (0 < n) && decide (seen.take n = now.take n)

section Parse

variable {α : Type} (parse : Bytes → Option α)

/-- `read_open_capture`: the records, and where to read on.  `len` is the length the file's
metadata gave. -/
def readOpenCapture (len : Nat) (file : Bytes) (offset : Option Nat) : List α × Nat :=
  let tailStart := offset.isNone && decide (maxRead < len)
  let wanted := offset.getD (len - maxRead)
  let start := if len < wanted then 0 else wanted
  let buf := (file.drop start).take maxRead
  -- a tail read starts mid-record: the first complete line
  match if tailStart then (buf.findIdx? (· == newline)).map (· + 1) else some 0 with
  | none => ([], start + buf.length)
  | some skipped =>
      let (lines, consumed) :=
        readChunks parse false (start + skipped) (splitInclusive (buf.drop skipped))
      (lines.map Prod.snd, start + skipped + consumed)

end Parse

/-! ## The writer -/

/-- `write_record` past the size limit: the old rotated file is removed, the current one renamed, a
new one opened, and the record written. -/
inductive Writer where
  | idle
  | unlinked (rec : Bytes)
  | renamed (rec : Bytes)
  | opened (rec : Bytes)
  deriving DecidableEq

/-! ## The follower -/

/-- The next operation of `read_capture_and_end` (the first four) or `read_followed_noting_loss`. -/
inductive Poll where
  | attach
  | attachHead (file : Nat)
  | attachLength (file : Nat) (head : Bytes)
  | attachBytes (file : Nat) (head : Bytes) (len : Nat)
  | idle
  | head (file : Nat)
  | old (file : Nat) (head : Bytes)
  | oldHead (file : Nat) (head : Bytes) (old : Nat)
  | oldLength (file : Nat) (head : Bytes) (old : Nat)
  | oldBytes (file : Nat) (head : Bytes) (old len : Nat)
  | length (file : Nat) (lost : Bool)
  | bytes (file : Nat) (lost : Bool) (len : Nat)

/-- `older` and `current` are all the files there have been, the last the one the writer has open.
`named` says whether the capture's name is that file's, and `rotated` which file has the name
`.jsonl.1`.  `file` is the one the cursor is in and `start` where the first read ended; `results`
is what the polls returned. -/
structure System (α : Type) where
  older : List Bytes
  current : Bytes
  named : Bool
  rotated : Option Nat
  written : Nat
  writer : Writer
  poll : Poll
  cursor : CaptureCursor
  file : Nat
  start : Nat × Nat
  results : List (List α × Bool)

namespace System

variable {α : Type} (parse : Bytes → Option α) (limit : Nat)

/-- A capture that holds `current` already, with an older one's files beside it. -/
def create (older : List Bytes) (current : Bytes) : System α :=
  { older := older
    current := current
    named := true
    rotated := if older = [] then none else some (older.length - 1)
    written := current.length
    writer := .idle
    poll := .attach
    cursor := { offset := 0, head := [] }
    file := older.length
    start := (older.length, 0)
    results := [] }

def files (s : System α) : List Bytes := s.older ++ [s.current]

/-- What an open file holds. -/
def content (s : System α) (file : Nat) : Bytes := s.files[file]?.getD []

def append (s : System α) (rec : Bytes) : System α :=
  { s with current := s.current ++ rec, written := s.written + rec.length }

/-- `write_record`, as far as its first operation. -/
def write (s : System α) (rec : Bytes) : System α :=
  if s.written + rec.length ≤ limit then s.append rec
  else { s with rotated := none, writer := .unlinked rec }

/-- The next operation of a rotation. -/
def writerNext (s : System α) : System α :=
  match s.writer with
  | .idle => s
  | .unlinked rec =>
      { s with rotated := some s.older.length, named := false, writer := .renamed rec }
  | .renamed rec =>
      { s with
        older := s.older ++ [s.current]
        current := []
        named := true
        written := 0
        writer := .opened rec }
  | .opened rec => { s.append rec with writer := .idle }

/-- The end of a poll. -/
def answer (s : System α) (lines : List α) (lost : Bool) : System α :=
  { s with poll := .idle, results := s.results ++ [(lines, lost)] }

/-- Nothing more is to come from the file that was followed. -/
def settle (s : System α) (file : Nat) (head : Bytes) (lost : Bool) : System α :=
  -- a new file with no head yet could not tell the next rotation from itself
  if head = [] then s.answer [] false
  else { s with cursor := { offset := 0, head := head }, file := file, poll := .length file lost }

/-- The next operation of a poll; an idle follower begins one. -/
def pollNext (s : System α) : System α :=
  match s.poll with
  | .attach => if s.named then { s with poll := .attachHead s.older.length } else s
  | .attachHead file => { s with poll := .attachLength file (captureHead (s.content file)) }
  | .attachLength file head => { s with poll := .attachBytes file head (s.content file).length }
  | .attachBytes file head len =>
      let (_, offset) := readOpenCapture parse len (s.content file) none
      { s with
        cursor := { offset := offset, head := head }
        file := file
        start := (file, offset)
        poll := .idle }
  | .idle => if s.named then { s with poll := .head s.older.length } else s.answer [] false
  | .head file =>
      let head := captureHead (s.content file)
      if sameCapture s.cursor.head head then
        let seen := if s.cursor.head.length < head.length then head else s.cursor.head
        { s with cursor := { s.cursor with head := seen }, poll := .length file false }
      else { s with poll := .old file head }
  | .old file head =>
      match s.rotated with
      | none => s.settle file head true
      | some old => { s with poll := .oldHead file head old }
  | .oldHead file head old =>
      if sameCapture s.cursor.head (captureHead (s.content old)) then
        { s with poll := .oldLength file head old }
      else s.settle file head true
  | .oldLength file head old =>
      { s with poll := .oldBytes file head old (s.content old).length }
  | .oldBytes file head old len =>
      let (lines, next) := readOpenCapture parse len (s.content old) (some s.cursor.offset)
      -- larger than one read: stay on it until it is drained
      if next ≠ s.cursor.offset then
        { s with cursor := { s.cursor with offset := next } }.answer lines false
      else s.settle file head false
  | .length file lost => { s with poll := .bytes file lost (s.content file).length }
  | .bytes file lost len =>
      let (lines, next) := readOpenCapture parse len (s.content file) (some s.cursor.offset)
      { s with cursor := { s.cursor with offset := next } }.answer lines lost

inductive Event where
  | write (rec : Bytes)
  | writer
  | poll

def next (s : System α) : Event → System α
  | .write rec => if s.writer = .idle then s.write limit rec else s
  | .writer => s.writerNext
  | .poll => s.pollNext parse

end System

end Victauri.Cli.Logs
