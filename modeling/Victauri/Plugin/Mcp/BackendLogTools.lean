import Victauri.Core.Usize
import Victauri.Plugin.BackendLogs

/-!
# The backend log tool

`logs backend` of `backend_log_tools.rs`, from the query on: a redacting profile is to see, and
to filter, the entries as they are after redaction.  The redactor is a parameter, as is the
parser of JSON texts.
-/

namespace Victauri.Plugin.Mcp

open Victauri.Core Victauri.Plugin.BackendLogs

structure PrivacyConfig where
  redactionEnabled : Bool
  /-- `Redactor::redact`. -/
  redact : String → String

def PrivacyConfig.redactOutput (privacy : PrivacyConfig) (output : String) : String :=
  if privacy.redactionEnabled then privacy.redact output else output

section Tool

variable (texts : TextFunctions) (fromStr : String → Option Json.Value) (privacy : PrivacyConfig)

/-- The fields of an entry after redaction of their JSON text. -/
def redactedFields (fields : List (String × Json.Value)) : List (String × Json.Value) :=
  match fromStr (privacy.redactOutput (texts.jsonText (.object fields))) with
  | some (.object redacted) => redacted
  | _ => fields

/-- The entry as the caller sees it under a redacting profile. -/
def visibleEntry (e : BackendLogEntry) : Option BackendLogEntry :=
  if privacy.redactionEnabled then
    some
      { e with
        message := privacy.redactOutput e.message
        target := privacy.redactOutput e.target
        spans := e.spans.map privacy.redactOutput
        fields := redactedFields texts fromStr privacy e.fields }
  else none

def seen (e : BackendLogEntry) : BackendLogEntry :=
  (visibleEntry texts fromStr privacy e).getD e

/-- `query` for a redacting profile: the text and field filters are matched against the
redacted entry. -/
def queryVisible (b : LogBuffer) (q : LogQuery) : LogPage :=
  let needle := q.contains.map texts.toLowercase
  let page := b.query texts { q with contains := none, fields := [], limit := usizeMax }
  let visible := page.entries.filter fun e =>
    needle.all (fun n => entryContains texts (seen texts fromStr privacy e) n) &&
      entryFieldsMatch texts (seen texts fromStr privacy e) q.fields
  let truncated := decide (q.limit < visible.length)
  let matched :=
    if truncated then
      if q.sinceSeq.isSome then visible.take q.limit else keepNewest q.limit visible
    else visible
  { page with
    entries := matched
    totalMatched := visible.length
    truncated
    nextSeq := pageNextSeq q.sinceSeq truncated matched page.nextSeq }

/-- The page `logs_backend` reads. -/
def logsBackend (b : LogBuffer) (q : LogQuery) : LogPage :=
  if privacy.redactionEnabled && (q.contains.isSome || !q.fields.isEmpty) then
    queryVisible texts fromStr privacy b q
  else b.query texts q

/-- A page as it is returned: its entries are redacted. -/
def shown (page : LogPage) : LogPage :=
  { page with entries := page.entries.map (seen texts fromStr privacy) }

end Tool

end Victauri.Plugin.Mcp
