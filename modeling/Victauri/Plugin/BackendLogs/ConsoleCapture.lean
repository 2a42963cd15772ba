import Mathlib.Data.List.Basic

/-!
# Reading a console capture

`read_console_cursor` of `backend_logs.rs`: incremental reads of the capture file that
`victauri run` appends to and rotates.  A read works on what the two files hold at one moment; a
file is its bytes.  What a record says is a parameter: `parse` is `None` where
`serde_json::from_slice` fails.
-/

namespace Victauri.Plugin.BackendLogs

abbrev Bytes : Type := List UInt8

def newline : UInt8 := 10

/-! ## Files -/

/-- `CURSOR_OFFSET_BITS`. -/
def cursorOffsetBits : Nat := 33

/-- `CURSOR_TAG_BITS`. -/
def cursorTagBits : Nat := 20

/-- `CURSOR_TAG_HEAD_BYTES`. -/
def cursorTagHeadBytes : Nat := 256

/-- `CONSOLE_READ_WINDOW`. -/
def consoleReadWindow : Nat := 16 * 1024 * 1024

/-- `STDOUT_TAIL_BYTES`. -/
def stdoutTailBytes : Nat := 256 * 1024

/-- What a file's tag is made of: its first record, or as much of it as the head holds. -/
def firstRecord (file : Bytes) : Option Bytes :=
  let head := file.take cursorTagHeadBytes
  match head.findIdx? (· == newline) with
  | some stop => some (head.take stop)
  | none => if head.length = cursorTagHeadBytes then some head else none

/-- FNV-1a. -/
def fnv (bytes : Bytes) : UInt64 :=
  bytes.foldl (fun hash byte => (hash ^^^ byte.toUInt64) * 0x100000001b3) 0xcbf29ce484222325

/-- Which capture file this is; never 0. -/
def fileTag (file : Bytes) : Option Nat :=
  (firstRecord file).map fun first =>
    let hash := fnv first
    max ((hash ^^^ (hash >>> 20)) &&& 0xfffff).toNat 1

/-- `offset` is inside the file and just after a line break. -/
def atRecordBoundary (file : Bytes) (offset : Nat) : Bool := file[offset - 1]? == some newline

/-! ## Records -/

/-- `split_inclusive` at line breaks. -/
def splitInclusive : Bytes → List Bytes
  | [] => []
  | b :: bs =>
      if b = newline then [b] :: splitInclusive bs
      else
        match splitInclusive bs with
        | chunk :: rest => (b :: chunk) :: rest
        | [] => [[b]]

section Parse

variable {α : Type} (parse : Bytes → Option α)

/-- The loop of `read_open_capture`: the lines with their offsets, and how much it consumed.
`first` says that a first, perhaps partial, record is to be skipped. -/
def readChunks (first : Bool) (offset : Nat) : List Bytes → List (Nat × α) × Nat
  | [] => ([], 0)
  | chunk :: rest =>
      -- a partial record still being written
      if chunk.getLast? ≠ some newline then ([], 0)
      else
        let (lines, consumed) := readChunks false (offset + chunk.length) rest
        let line := if first then [] else (parse chunk).toList.map fun line => (offset, line)
        (line ++ lines, chunk.length + consumed)

/-- The window from `start` on: lines, where to read on, and whether there is more. -/
def readWindow (file : Bytes) (first : Bool) (start window : Nat) : List (Nat × α) × Nat × Bool :=
  let buf := (file.drop start).take window
  let more := decide (start + buf.length < file.length)
  let (lines, consumed) := readChunks parse first start (splitInclusive buf)
  (lines, start + consumed, more && decide (0 < consumed))

def readOpenCapture (file : Bytes) (start? : Option Nat) (tailBytes window : Nat) :
    List (Nat × α) × Nat × Bool :=
  let wanted := start?.getD (file.length - tailBytes)
  -- past the end: the file was rotated or truncated
  let start := if file.length < wanted then 0 else wanted
  readWindow parse file (start?.isNone && decide (0 < start)) start window

/-! ## Reads -/

structure ConsoleRead (α : Type) where
  lines : List (Nat × α)
  next : Nat
  more : Bool
  lost : Bool
  tag : Option Nat
  deriving DecidableEq

/-- The cursor for `offset` in the file this read ended in. -/
def ConsoleRead.cursor (read : ConsoleRead α) (offset : Nat) : Nat :=
  match read.tag with
  | some tag =>
      if 0 < offset ∧ offset < 1 <<< cursorOffsetBits then tag <<< cursorOffsetBits ||| offset
      else offset
  | none => offset

/-- `finish`: a record it read makes the file's tag. -/
def finish (file : Bytes) (read : List (Nat × α) × Nat × Bool) (lost : Bool) : ConsoleRead α :=
  { lines := read.1, next := read.2.1, more := read.2.2, lost := lost, tag := fileTag file }

/-- Whether a cursor is in the rotated file, and whether its file is gone. -/
def locate (current rotated : Option Bytes) (tag offset : Nat) : Bool × Bool :=
  let currentTag := current.bind fileTag
  if tag = 0 then
    (decide (0 < offset) && !(current.any fun file => atRecordBoundary file offset) &&
      rotated.any fun file => atRecordBoundary file offset, false)
  else if currentTag = some tag then (false, false)
  else
    let inRotated := decide (rotated.bind fileTag = some tag)
    (inRotated, !inRotated)

/-- `read_console_cursor`; `none` where there is no current file to read. -/
def readConsoleCursor (current rotated : Option Bytes) (since : Option Nat)
    (tailBytes window : Nat) : Option (ConsoleRead α) :=
  match since with
  | none => current.map fun file => finish file (readOpenCapture parse file none tailBytes window) false
  | some cursor =>
      let tag := cursor >>> cursorOffsetBits
      let offset := cursor &&& (1 <<< cursorOffsetBits - 1)
      let (inRotated, lost) := locate current rotated tag offset
      let readCurrent (start : Nat) : Option (ConsoleRead α) := current.map fun file =>
        finish file (readOpenCapture parse file (some start) tailBytes window) lost
      match inRotated, rotated with
      | true, some old =>
          let (lines, next, _) := readOpenCapture parse old (some offset) 0 window
          if next ≠ offset then some (finish old (lines, next, true) false)
          else if current.bind fileTag = none then some (finish old (lines, next, false) false)
          else readCurrent 0
      | _, _ =>
          if lost = true ∧ current.bind fileTag = none then
            some { lines := [], next := offset, more := false, lost := false, tag := some tag }
          else readCurrent (if lost then 0 else offset)

end Parse

end Victauri.Plugin.BackendLogs
