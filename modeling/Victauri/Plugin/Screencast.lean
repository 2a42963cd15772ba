import Mathlib.Algebra.GroupWithZero.Nat
import Victauri.Library.Run

/-!
# The screencast of the trace tool

`screencast.rs`.  Whether a trace is active, its generation and the recording it owns are under one
lock, which a start and a push also hold while they change the frames, so each call is one step.
`stop` reads the frame count after it released the lock; that read is a step of its own.
-/

namespace Victauri.Plugin

/-- `MAX_TRACE_BYTES`. -/
def maxTraceBytes : Nat := 256 * 1024 * 1024

/-- `MAX_INTERVAL_MS`. -/
def maxIntervalMs : Nat := 60000

structure TraceFrame where
  tMs : Nat
  dataB64 : String
  deriving DecidableEq

structure TraceState where
  active : Bool
  generation : UInt64
  ownedRecording : Option UInt64
  deriving DecidableEq

structure Screencast where
  intervalMs : Nat
  maxFrames : Nat
  trace : TraceState
  frames : List TraceFrame
  label : Option String
  deriving DecidableEq

namespace Screencast

def default : Screencast :=
  { intervalMs := 500
    maxFrames := 60
    trace := { active := false, generation := 0, ownedRecording := none }
    frames := []
    label := none }

def clamp (lo hi n : Nat) : Nat := max lo (min hi n)

def isCurrent (s : Screencast) (generation : UInt64) : Bool :=
  s.trace.active && s.trace.generation == generation

def start (s : Screencast) (intervalMs maxFrames : Nat) (label : Option String) :
    Screencast × UInt64 × Option UInt64 :=
  ({ intervalMs := clamp 50 maxIntervalMs intervalMs
     maxFrames := clamp 1 600 maxFrames
     trace := { active := true, generation := s.trace.generation + 1, ownedRecording := none }
     frames := []
     label := label },
    s.trace.generation + 1, s.trace.ownedRecording)

def stop (s : Screencast) : Screencast × Option UInt64 :=
  ({ s with trace :=
      { active := false, generation := s.trace.generation + 1, ownedRecording := none } },
    s.trace.ownedRecording)

def stopIfGeneration (s : Screencast) (generation : UInt64) : Screencast × Option (Option UInt64) :=
  if s.isCurrent generation then
    ({ s with trace :=
        { active := false, generation := s.trace.generation + 1, ownedRecording := none } },
      some s.trace.ownedRecording)
  else (s, none)

def setOwnedRecording (s : Screencast) (generation recorderGeneration : UInt64) :
    Screencast × Bool :=
  if s.isCurrent generation then
    ({ s with trace := { s.trace with ownedRecording := some recorderGeneration } }, true)
  else (s, false)

/-- The loop that evicts the oldest frames, but never the newest. -/
def evict (maxBytes : Nat) : Nat → List TraceFrame → List TraceFrame
  | total, frame :: newer :: frames =>
      if maxBytes < total then
        evict maxBytes (total - frame.dataB64.utf8ByteSize) (newer :: frames)
      else frame :: newer :: frames
  | _, frames => frames

def pushFrameCapped (s : Screencast) (frame : TraceFrame) (maxBytes : Nat) : Screencast :=
  let all := s.frames ++ [frame]
  let kept := all.drop (all.length - s.maxFrames)
  { s with frames := evict maxBytes (kept.map fun f => f.dataB64.utf8ByteSize).sum kept }

def pushFrame (s : Screencast) (frame : TraceFrame) : Screencast :=
  s.pushFrameCapped frame maxTraceBytes

def pushFrameIfCurrent (s : Screencast) (generation : UInt64) (frame : TraceFrame) :
    Screencast × Bool :=
  if s.isCurrent generation then (s.pushFrame frame, true) else (s, false)

/-! ## Calls -/

/-- A call and what it returned. -/
inductive Call where
  | start (intervalMs maxFrames : Nat) (label : Option String) (generation : UInt64)
      (superseded : Option UInt64)
  | stop (owned : Option UInt64)
  | frameCount (count : Nat)
  | stopIfGeneration (generation : UInt64) (stopped : Option (Option UInt64))
  | setOwnedRecording (generation recorderGeneration : UInt64) (registered : Bool)
  | pushFrameIfCurrent (generation : UInt64) (frame : TraceFrame) (pushed : Bool)
  deriving DecidableEq

/-- `s.Step call t`: in state `s` some client may make the call, with what it returned. -/
def Step (s : Screencast) : Call → Screencast → Prop
  | .start intervalMs maxFrames label generation superseded, t =>
      s.start intervalMs maxFrames label = (t, generation, superseded)
  | .stop owned, t => s.stop = (t, owned)
  | .frameCount count, t => t = s ∧ count = s.frames.length
  | .stopIfGeneration generation stopped, t => s.stopIfGeneration generation = (t, stopped)
  | .setOwnedRecording generation recorderGeneration registered, t =>
      s.setOwnedRecording generation recorderGeneration = (t, registered)
  | .pushFrameIfCurrent generation frame pushed, t =>
      s.pushFrameIfCurrent generation frame = (t, pushed)

instance (s : Screencast) (call : Call) (t : Screencast) : Decidable (s.Step call t) :=
  match call with
  | .start .. => inferInstanceAs (Decidable (_ = _))
  | .stop _ => inferInstanceAs (Decidable (_ = _))
  | .frameCount _ => inferInstanceAs (Decidable (_ ∧ _))
  | .stopIfGeneration .. => inferInstanceAs (Decidable (_ = _))
  | .setOwnedRecording .. => inferInstanceAs (Decidable (_ = _))
  | .pushFrameIfCurrent .. => inferInstanceAs (Decidable (_ = _))

/-- It ended the trace there was. -/
def Call.ends : Call → Bool
  | .start .. => true
  | .stop _ => true
  | .stopIfGeneration _ stopped => stopped.isSome
  | _ => false

def Call.isStart : Call → Bool
  | .start .. => true
  | _ => false

/-- The generations the starts returned. -/
def started : Call → Option UInt64
  | .start _ _ _ generation _ => some generation
  | _ => none

/-- A frame that was taken, with the generation it was pushed under. -/
def pushed : Call → Option (UInt64 × TraceFrame)
  | .pushFrameIfCurrent generation frame true => some (generation, frame)
  | _ => none

/-- A recording that was registered, with the generation of its trace. -/
def registered : Call → Option (UInt64 × UInt64)
  | .setOwnedRecording generation recorderGeneration true => some (generation, recorderGeneration)
  | _ => none

/-- The recording a caller was given to stop. -/
def handedOut : Call → Option UInt64
  | .start _ _ _ _ superseded => superseded
  | .stop owned => owned
  | .stopIfGeneration _ stopped => stopped.join
  | _ => none

/-- Between the start that returned `generation` and the next start or stop. -/
def Current (calls : List Call) (generation : UInt64) : Prop :=
  ∃ before after intervalMs maxFrames label superseded,
    calls = before ++ .start intervalMs maxFrames label generation superseded :: after ∧
      ∀ call ∈ after, call.ends = false

end Screencast

end Victauri.Plugin
