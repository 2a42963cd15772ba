import Victauri.Core.Event
import Victauri.Core.Usize
import Victauri.Library.Ring

/-!
# The event recorder

The recorder of `recording.rs`: one active recording at a time, with its bounded
rings of events and checkpoints, and the last session that was stopped.  Every
operation is written here as the function it computes while it holds its locks;
`Victauri.Core.Recording.System` puts the locks back.

An event counter is a `Nat` kept below `usizeMax` by saturating arithmetic; a
generation is a `UInt64`, which wraps.
-/

namespace Victauri.Core

open Victauri.Library

/-- `DEFAULT_MAX_CHECKPOINTS`. -/
def defaultMaxCheckpoints : Nat := 1000

/-- The errors a recorder reports. -/
inductive VictauriError where
  | invalidInput (message : String)
  | noActiveRecording
  | recordingAlreadyActive
  | checkpointNotFound (id : String)

/-- A snapshot of application state taken at a specific point during recording. -/
structure StateCheckpoint where
  id : String
  label : Option String
  timestamp : DateTime
  state : Json.Value
  /-- Index into the event stream at the time of this checkpoint. -/
  eventIndex : Nat

/-- A single event captured during a recording session, with its sequence index. -/
structure RecordedEvent where
  index : Nat
  timestamp : DateTime
  event : AppEvent

/-- A complete recorded session with events and state checkpoints. -/
structure RecordedSession where
  id : String
  startedAt : DateTime
  events : List RecordedEvent
  checkpoints : List StateCheckpoint

/-- The events between two checkpoints. -/
structure CheckpointWindow where
  /-- The events still retained, oldest first. -/
  events : List RecordedEvent
  /-- How many events of the window the ring has evicted. -/
  dropped : Nat

structure ActiveRecording where
  sessionId : String
  generation : UInt64
  startedAt : DateTime
  events : List RecordedEvent
  checkpoints : List StateCheckpoint
  eventCounter : Nat
  maxEvents : Nat
  maxCheckpoints : Nat

/-! ## What is read from a list of events and checkpoints

Every reader looks at the active recording or, without one, at the last session,
and computes the same from either.
-/

def selectSince (index : Nat) (events : List RecordedEvent) : List RecordedEvent :=
  events.filter fun e => index ≤ e.index

def selectBetween (lo hi : DateTime) (events : List RecordedEvent) : List RecordedEvent :=
  events.filter fun e => lo ≤ e.timestamp && e.timestamp ≤ hi

def ipcCalls (events : List RecordedEvent) : List IpcCall :=
  events.filterMap fun e => e.event.ipcCall

/-- The `event_index` of the checkpoint `id`. -/
def checkpointIndex (checkpoints : List StateCheckpoint) (id : String) :
    Except VictauriError Nat :=
  match checkpoints.find? fun c => c.id == id with
  | some c => .ok c.eventIndex
  | none => .error (.checkpointNotFound id)

/-- The events with an index in `[lo, hi)`, and how many of those are gone. -/
def windowBetween (lo hi : Nat) (events : List RecordedEvent) : CheckpointWindow :=
  let kept := events.filter fun e => lo ≤ e.index && e.index < hi
  { events := kept, dropped := (hi - lo) - kept.length }

/-- The window between two checkpoints, given in either order. -/
def windowOf (fromId toId : String) (checkpoints : List StateCheckpoint)
    (events : List RecordedEvent) : Except VictauriError CheckpointWindow := do
  let fromIdx ← checkpointIndex checkpoints fromId
  let toIdx ← checkpointIndex checkpoints toId
  if fromIdx ≤ toIdx then
    return windowBetween fromIdx toIdx events
  else
    return windowBetween toIdx fromIdx events

/-! ## The active recording -/

namespace ActiveRecording

/-- Append an event, evicting the oldest if at capacity. -/
def append (active : ActiveRecording) (event : AppEvent) : ActiveRecording :=
  { active with
    eventCounter := saturatingAdd active.eventCounter 1
    events := Ring.push active.maxEvents active.events
      { index := active.eventCounter, timestamp := event.timestamp, event } }

def pushCheckpoint (active : ActiveRecording) (c : StateCheckpoint) : ActiveRecording :=
  { active with checkpoints := Ring.push active.maxCheckpoints active.checkpoints c }

/-- Create a checkpoint at the current event index; an id this recording still
holds is refused. -/
def checkpoint (active : ActiveRecording) (id : String) (label : Option String)
    (state : Json.Value) (now : DateTime) : Except VictauriError ActiveRecording :=
  if active.checkpoints.any fun c => c.id == id then
    .error (.invalidInput s!"checkpoint id '{id}' already exists in this recording")
  else
    .ok (active.pushCheckpoint
      { id, label, timestamp := now, state, eventIndex := active.eventCounter })

/-- The recording as a session: what `finish` keeps and `export` returns. -/
def session (active : ActiveRecording) : RecordedSession :=
  { id := active.sessionId
    startedAt := active.startedAt
    events := active.events
    checkpoints := active.checkpoints }

/-- The empty recording a start makes. -/
def started (sessionId : String) (generation : UInt64) (now : DateTime)
    (maxEvents : Nat) : ActiveRecording :=
  { sessionId, generation, startedAt := now, events := [], checkpoints := []
    eventCounter := 0, maxEvents, maxCheckpoints := defaultMaxCheckpoints }

/-- Past every index of `events` and `checkpoints`, as far as a `usize` goes. -/
def seed (events : List RecordedEvent) (checkpoints : List StateCheckpoint) : Nat :=
  (events.map (fun e => saturatingAdd e.index 1) ++
    checkpoints.map (fun c => c.eventIndex)).max?.getD 0

/-- The recording an import makes: collections clamped to the configured caps
(keeping the most recent entries), counter past what they hold. -/
def imported (session : RecordedSession) (generation : UInt64) (maxEvents : Nat) :
    ActiveRecording :=
  let events := Ring.clamp maxEvents session.events
  let checkpoints := Ring.clamp defaultMaxCheckpoints session.checkpoints
  { sessionId := session.id, generation, startedAt := session.startedAt
    events, checkpoints, eventCounter := seed events checkpoints
    maxEvents, maxCheckpoints := defaultMaxCheckpoints }

end ActiveRecording

/-! ## The recorder -/

structure EventRecorder where
  recording : Option ActiveRecording
  lastSession : Option RecordedSession
  maxEvents : Nat
  /-- Source of recording generations. -/
  generations : UInt64

namespace EventRecorder

def new (maxEvents : Nat) : EventRecorder :=
  { recording := none, lastSession := none, maxEvents, generations := 0 }

/-- Draw a fresh generation (`fetch_add(1) + 1`). -/
def nextGeneration (r : EventRecorder) : UInt64 × EventRecorder :=
  (r.generations + 1, { r with generations := r.generations + 1 })

/-- What a start does once it knows that nothing is being recorded. -/
def beginRecording (r : EventRecorder) (sessionId : String) (now : DateTime) :
    UInt64 × EventRecorder :=
  let (generation, r) := r.nextGeneration
  (generation,
    { r with recording := some (.started sessionId generation now r.maxEvents) })

/-- Start a new recording; refused while one is active. -/
def startSession (r : EventRecorder) (sessionId : String) (now : DateTime) :
    Except VictauriError UInt64 × EventRecorder :=
  match r.recording with
  | some _ => (.error .recordingAlreadyActive, r)
  | none =>
      let (generation, r) := r.beginRecording sessionId now
      (.ok generation, r)

/-- Take the active recording out, as a session. -/
def takeRecording (r : EventRecorder) : Option RecordedSession × EventRecorder :=
  match r.recording with
  | some active => (some active.session, { r with recording := none })
  | none => (none, r)

def keepSession (r : EventRecorder) (session : RecordedSession) : EventRecorder :=
  { r with lastSession := some session }

/-- Take the active recording out and keep it as the last session (`finish`). -/
def stop (r : EventRecorder) : Option RecordedSession × EventRecorder :=
  match r.takeRecording with
  | (some session, r) => (some session, r.keepSession session)
  | (none, r) => (none, r)

def stopIfSession (r : EventRecorder) (sessionId : String) :
    Option RecordedSession × EventRecorder :=
  if r.recording.any fun a => a.sessionId == sessionId then r.stop else (none, r)

def stopIfGeneration (r : EventRecorder) (generation : UInt64) :
    Option RecordedSession × EventRecorder :=
  if r.recording.any fun a => a.generation == generation then r.stop else (none, r)

def recordEvent (r : EventRecorder) (event : AppEvent) : EventRecorder :=
  { r with recording := r.recording.map fun a => a.append event }

/-- Append only to the recording of `generation`; says whether it did. -/
def recordEventIf (r : EventRecorder) (generation : UInt64) (event : AppEvent) :
    Bool × EventRecorder :=
  match r.recording with
  | some active =>
      if active.generation == generation then
        (true, { r with recording := some (active.append event) })
      else (false, r)
  | none => (false, r)

def checkpoint (r : EventRecorder) (id : String) (label : Option String)
    (state : Json.Value) (now : DateTime) : Except VictauriError Unit × EventRecorder :=
  match r.recording with
  | some active =>
      match active.checkpoint id label state now with
      | .ok active => (.ok (), { r with recording := some active })
      | .error e => (.error e, r)
  | none => (.error .noActiveRecording, r)

def install (r : EventRecorder) (active : ActiveRecording) : EventRecorder :=
  { r with recording := some active }

/-- Import a session, replacing any active recording. -/
def importSession (r : EventRecorder) (session : RecordedSession) : EventRecorder :=
  let (generation, r) := r.nextGeneration
  r.install (.imported session generation r.maxEvents)

/-- `import`, but only if no recording is active.  The generation is drawn first,
so a refused import uses one up. -/
def importIfIdle (r : EventRecorder) (session : RecordedSession) :
    Except VictauriError UInt64 × EventRecorder :=
  let (generation, r) := r.nextGeneration
  match r.recording with
  | some _ => (.error .recordingAlreadyActive, r)
  | none => (.ok generation, r.install (.imported session generation r.maxEvents))

def eventCount (r : EventRecorder) : Nat :=
  r.recording.elim 0 fun a => a.events.length

def eventsSince (r : EventRecorder) (index : Nat) : List RecordedEvent :=
  match r.recording with
  | some active => selectSince index active.events
  | none => r.lastSession.elim [] fun s => selectSince index s.events

def eventsBetween (r : EventRecorder) (lo hi : DateTime) : List RecordedEvent :=
  match r.recording with
  | some active => selectBetween lo hi active.events
  | none => r.lastSession.elim [] fun s => selectBetween lo hi s.events

def getCheckpoints (r : EventRecorder) : List StateCheckpoint :=
  match r.recording with
  | some active => active.checkpoints
  | none => r.lastSession.elim [] fun s => s.checkpoints

def checkpointWindow (r : EventRecorder) (fromId toId : String) :
    Except VictauriError CheckpointWindow :=
  match r.recording with
  | some active => windowOf fromId toId active.checkpoints active.events
  | none =>
      match r.lastSession with
      | some s => windowOf fromId toId s.checkpoints s.events
      | none => .error .noActiveRecording

/-- Snapshot the current recording as a session without stopping it. -/
def exportSession (r : EventRecorder) : Option RecordedSession :=
  match r.recording with
  | some active => some active.session
  | none => r.lastSession

def ipcReplaySequence (r : EventRecorder) : List IpcCall :=
  match r.recording with
  | some active => ipcCalls active.events
  | none => r.lastSession.elim [] fun s => ipcCalls s.events

end EventRecorder

/-- What a client may do to a recording that stays active. -/
inductive Op where
  | recordEvent (event : AppEvent)
  | recordEventIf (generation : UInt64) (event : AppEvent)
  | checkpoint (id : String) (label : Option String) (state : Json.Value) (now : DateTime)

/-- Whether an operation appends an event to the recording of generation
`generation`. -/
def Op.records (generation : UInt64) : Op → Bool
  | recordEvent _ => true
  | recordEventIf g _ => generation == g
  | checkpoint _ _ _ _ => false

namespace EventRecorder

def perform (r : EventRecorder) : Op → EventRecorder
  | .recordEvent event => r.recordEvent event
  | .recordEventIf generation event => (r.recordEventIf generation event).2
  | .checkpoint id label state now => (r.checkpoint id label state now).2

def performAll (r : EventRecorder) (ops : List Op) : EventRecorder :=
  ops.foldl perform r

end EventRecorder

end Victauri.Core
