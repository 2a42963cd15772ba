import Victauri.Core.Json

/-!
# Application events

The events a recording is made of.  A recorder reads only an event's timestamp
and, for a replay, the IPC call it may carry; everything else is kept as it came.
-/

namespace Victauri.Core

/-- A point in time, in nanoseconds since the epoch. -/
abbrev DateTime := Int

/-- Outcome of an IPC call: pending, success with a JSON value, or error. -/
inductive IpcResult where
  | pending
  | ok (value : Json.Value)
  | err (message : String)

/-- A single IPC call with timing, result, and source webview. -/
structure IpcCall where
  id : String
  command : String
  timestamp : DateTime
  durationMs : Option UInt64
  result : IpcResult
  argSizeBytes : Nat
  webviewLabel : String
  mocked : Bool
  transport : Option String

/-- The kind of user interaction captured from the DOM. -/
inductive InteractionKind where
  | click
  | doubleClick
  | fill
  | keyPress
  | select
  | navigate
  | scroll

/-- Application event captured by the introspection layer. -/
inductive AppEvent where
  | ipc (call : IpcCall)
  | stateChange (key : String) (timestamp : DateTime) (causedBy : Option String)
  | domMutation (webviewLabel : String) (timestamp : DateTime) (mutationCount : UInt32)
  | domInteraction (action : InteractionKind) (selector : String) (value : Option String)
      (timestamp : DateTime) (webviewLabel : String)
  | windowEvent (label : String) (event : String) (timestamp : DateTime)
  | console (level : String) (message : String) (timestamp : DateTime)

namespace AppEvent

/-- The timestamp of an event, regardless of variant. -/
def timestamp : AppEvent → DateTime
  | ipc call => call.timestamp
  | stateChange _ timestamp _ => timestamp
  | domMutation _ timestamp _ => timestamp
  | domInteraction _ _ _ timestamp _ => timestamp
  | windowEvent _ _ timestamp => timestamp
  | console _ _ timestamp => timestamp

/-- The IPC call an event carries, if it is one. -/
def ipcCall : AppEvent → Option IpcCall
  | ipc call => some call
  | _ => none

end AppEvent

end Victauri.Core
