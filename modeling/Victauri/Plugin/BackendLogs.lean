import Mathlib.Algebra.GroupWithZero.Nat
import Mathlib.Data.List.Infix
import Victauri.Core.Json

/-!
# The backend log buffer

`LogBuffer` of `backend_logs.rs`: a ring of captured records, bounded by count and by bytes,
read by cursor.  Every operation is the function it computes under the ring's lock; a query
works on the entries it copied there.  Sequence numbers and byte counts are `Nat`s.

The texts a filter compares go through `str::to_lowercase` and the `Display` of a JSON value,
which are parameters.
-/

namespace Victauri.Plugin.BackendLogs

open Victauri.Core

/-! ## Entries -/

inductive LogLevel where
  | trace
  | debug
  | info
  | warn
  | error
  deriving DecidableEq

def LogLevel.index : LogLevel → Nat
  | trace => 0
  | debug => 1
  | info => 2
  | warn => 3
  | error => 4

/-- Which capture path produced an entry. -/
inductive LogSource where
  | tracing
  | log
  | panic
  deriving DecidableEq

/-- One captured backend log record. -/
structure BackendLogEntry where
  seq : Nat
  tsMs : Nat
  level : LogLevel
  target : String
  message : String
  fields : List (String × Json.Value)
  spans : List String
  thread : Option String
  location : Option String
  source : LogSource

def valueLen : Json.Value → Nat
  | .string s => s.utf8ByteSize
  | _ => 16

def BackendLogEntry.approxBytes (e : BackendLogEntry) : Nat :=
  96 + e.target.utf8ByteSize + e.message.utf8ByteSize +
    (e.fields.map fun f => f.1.utf8ByteSize + valueLen f.2).sum +
    (e.spans.map String.utf8ByteSize).sum

/-! ## The ring -/

structure Ring where
  entries : List BackendLogEntry
  nextSeq : Nat
  bytes : Nat
  /-- Entries evicted to respect capacity. -/
  evicted : Nat
  /-- Where the last `clear` left off. -/
  clearedBefore : Nat
  /-- Lifetime totals per level. -/
  totals : List Nat

namespace Ring

/-- `Ring::default`. -/
def empty : Ring :=
  { entries := [], nextSeq := 0, bytes := 0, evicted := 0, clearedBefore := 0
    totals := [0, 0, 0, 0, 0] }

/-- Where in `entries` the first entry with sequence number `seq` or later is. -/
def indexOf (ring : Ring) (seq : Nat) : Nat :=
  ring.entries.head?.elim 0 fun front => min (seq - front.seq) ring.entries.length

def oldestSeq (ring : Ring) : Nat := ring.entries.head?.elim ring.nextSeq fun e => e.seq

/-- Entries from `start` on that were evicted, not cleared, before they could be read. -/
def evictedSince (ring : Ring) (start : Nat) : Nat :=
  ring.oldestSeq - max start ring.clearedBefore

/-- The entries from a cursor on. -/
def since (ring : Ring) (start : Nat) : List BackendLogEntry :=
  ring.entries.drop (ring.indexOf start)

/-- Drop the oldest entries until the ring fits. -/
def evict (capacity maxBytes : Nat) (ring : Ring) : Ring :=
  match _h : ring.entries with
  | [] => ring
  | old :: rest =>
      if capacity < ring.entries.length ∨ (maxBytes < ring.bytes ∧ 1 < ring.entries.length) then
        evict capacity maxBytes
          { ring with
            entries := rest
            bytes := ring.bytes - old.approxBytes
            evicted := ring.evicted + 1 }
      else ring
termination_by ring.entries.length
decreasing_by
  rw [_h]
  exact Nat.lt_succ_self _

/-- `push_locked`. -/
def push (capacity maxBytes : Nat) (ring : Ring) (entry : BackendLogEntry) : Ring :=
  let entry := { entry with seq := ring.nextSeq }
  evict capacity maxBytes
    { ring with
      nextSeq := ring.nextSeq + 1
      totals := ring.totals.modify entry.level.index (· + 1)
      bytes := ring.bytes + entry.approxBytes
      entries := ring.entries ++ [entry] }

/-- Drop every entry; the sequence counter keeps increasing. -/
def clear (ring : Ring) : Ring :=
  { ring with entries := [], bytes := 0, clearedBefore := ring.nextSeq }

end Ring

/-! ## Filters -/

/-- Filter and paging of a query. -/
structure LogQuery where
  minLevel : LogLevel
  targets : List String
  contains : Option String
  sinceSeq : Option Nat
  sinceMs : Option Nat
  fields : List (String × Json.Value)
  limit : Nat

/-- `str::to_lowercase`, and `Display` of a JSON value. -/
structure TextFunctions where
  toLowercase : String → String
  jsonText : Json.Value → String

/-- `str::contains`. -/
def containsText (s needle : String) : Bool := decide (needle.toList <:+: s.toList)

/-- `trim_matches` of quotation marks. -/
def trimQuotes (s : String) : String :=
  String.ofList (((s.toList.dropWhile (· == '"')).reverse.dropWhile (· == '"')).reverse)

section Filters

variable (texts : TextFunctions)

/-- The text a field's value is compared as. -/
def fieldText : Json.Value → String
  | .string s => texts.toLowercase (trimQuotes s)
  | other => texts.toLowercase (texts.jsonText other)

def fieldMatches (entry : BackendLogEntry) (key : String) (expected : Json.Value) : Bool :=
  (entry.fields.find? fun f => f.1 == key).any fun f =>
    fieldText texts f.2 == fieldText texts expected

def entryFieldsMatch (entry : BackendLogEntry) (fields : List (String × Json.Value)) : Bool :=
  fields.all fun f => fieldMatches texts entry f.1 f.2

/-- Substring search over every text of an entry; `needle` is in lower case. -/
def entryContains (e : BackendLogEntry) (needle : String) : Bool :=
  containsText (texts.toLowercase e.message) needle ||
    containsText (texts.toLowercase e.target) needle ||
    e.spans.any (fun s => containsText (texts.toLowercase s) needle) ||
    e.fields.any fun f =>
      containsText (texts.toLowercase f.1) needle ||
        match f.2 with
        | .string s => containsText (texts.toLowercase s) needle
        | other => containsText (texts.toLowercase (texts.jsonText other)) needle

/-- `Matcher::matches`. -/
def LogQuery.matches (q : LogQuery) (e : BackendLogEntry) : Bool :=
  if e.level.index < q.minLevel.index then false
  else if q.sinceMs.any fun ms => e.tsMs < ms then false
  else if !q.targets.isEmpty && !q.targets.any (fun t => t.toList.isPrefixOf e.target.toList) then
    false
  else if !entryFieldsMatch texts e q.fields then false
  else
    match q.contains with
    | some needle => entryContains texts e (texts.toLowercase needle)
    | none => true

end Filters

/-! ## Pages -/

structure LogPage where
  entries : List BackendLogEntry
  /-- How many buffered entries matched in total. -/
  totalMatched : Nat
  /-- The limit cut the result. -/
  truncated : Bool
  /-- The cursor to go on from. -/
  nextSeq : Nat
  oldestSeq : Nat
  evicted : Nat
  /-- Entries from the cursor on were evicted unseen. -/
  gap : Bool

/-- The cursor a page hands back: the end of the buffer, unless the limit cut a cursor read. -/
def pageNextSeq (sinceSeq : Option Nat) (truncated : Bool) (entries : List BackendLogEntry)
    (bufferNextSeq : Nat) : Nat :=
  match sinceSeq, entries.getLast? with
  | some since, last =>
      if truncated then last.elim since fun last => last.seq + 1 else bufferNextSeq
  | none, _ => bufferNextSeq

/-- The newest `limit` entries. -/
def keepNewest (limit : Nat) (entries : List BackendLogEntry) : List BackendLogEntry :=
  entries.drop (entries.length - limit)

/-- The buffer: a ring and its bounds, both at least 1. -/
structure LogBuffer where
  ring : Ring
  capacity : Nat
  maxBytes : Nat
  capacity_pos : 1 ≤ capacity
  maxBytes_pos : 1 ≤ maxBytes

namespace LogBuffer

def new (capacity maxBytes : Nat) : LogBuffer :=
  { ring := .empty
    capacity := max capacity 1
    maxBytes := max maxBytes 1
    capacity_pos := Nat.le_max_right _ _
    maxBytes_pos := Nat.le_max_right _ _ }

def push (b : LogBuffer) (entry : BackendLogEntry) : LogBuffer :=
  { b with ring := b.ring.push b.capacity b.maxBytes entry }

def clear (b : LogBuffer) : LogBuffer := { b with ring := b.ring.clear }

def query (texts : TextFunctions) (b : LogBuffer) (q : LogQuery) : LogPage :=
  let candidates := b.ring.entries.drop (q.sinceSeq.elim 0 b.ring.indexOf)
  let all := candidates.filter (q.matches texts)
  -- A cursor read keeps the oldest matches, any other read the newest.
  let matched := if q.sinceSeq.isSome then all.take q.limit else keepNewest q.limit all
  let truncated := decide (matched.length < all.length)
  { entries := matched
    totalMatched := all.length
    truncated
    nextSeq := pageNextSeq q.sinceSeq truncated matched b.ring.nextSeq
    oldestSeq := b.ring.oldestSeq
    evicted := b.ring.evicted
    gap := q.sinceSeq.any fun s => 0 < b.ring.evictedSince s }

end LogBuffer

/-! ## Waiting -/

/-- What the loop of `wait_for` carries from one round to the next. -/
structure WaitFor where
  scannedTo : Nat
  /-- Entries evicted before the waiter could check them. -/
  missed : Nat

namespace WaitFor

/-- Where a wait starts. -/
def start (fromSeq : Nat) : WaitFor := { scannedTo := fromSeq, missed := 0 }

/-- The entries a round checks. -/
def fresh (w : WaitFor) (ring : Ring) : List BackendLogEntry := ring.since w.scannedTo

/-- One round: the answer, if an entry it checks is the one waited for, and what is carried on. -/
def round (pred : BackendLogEntry → Bool) (w : WaitFor) (ring : Ring) :
    Option (BackendLogEntry × Nat) × WaitFor :=
  let missed := w.missed + ring.evictedSince w.scannedTo
  (((w.fresh ring).find? pred).map fun e => (e, missed),
    { scannedTo := max w.scannedTo ring.nextSeq, missed })

end WaitFor

end Victauri.Plugin.BackendLogs
