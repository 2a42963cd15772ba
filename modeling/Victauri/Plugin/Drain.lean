import Mathlib.Order.Basic
import Mathlib.Logic.Function.Basic
import Victauri.Core.EventLog
import Victauri.Core.Recording
import Victauri.Library.Run

/-!
# The recording drain

The event stream of a page (`js_bridge.rs`), the drain positions of the windows (`introspection.rs`)
and the drain of a window into a recording (`server.rs`).  Any number of drains run while pages log,
load and go, recordings begin and end and the positions of closed windows are dropped: every step
that another party may see on its own is a step of the system.

A page is known by its `DRAIN_INSTANCE`, an entry of its logs by the number of its object.  What an
entry holds once it is complete is `content`; how an event is read is `parse`.
-/

namespace Victauri.Plugin.Drain

open Victauri.Core Victauri.Library

/-! ## The page -/

/-- An entry of one of the logs, with the event that is emitted for it. -/
structure Entry (Time : Type) where
  id : Nat
  /-- `status === 'pending'`. -/
  pending : Bool
  /-- A call of the plugin itself. -/
  victauri : Bool
  timestamp : Time
  key : Time
  event : Json.Value

/-- What `forEachStreamEvent` visits: a pending call is skipped if asked for, a call of the plugin
always. -/
def emitted {Time : Type} (skipPending : Bool)
    (console mutations network navigations interactions : List (Entry Time)) :
    List (Entry Time) :=
  console ++ mutations ++
    (network.filter fun n => !(n.pending && skipPending) && !n.victauri) ++
      navigations ++ interactions

/-- An object is in one log, once. -/
structure Logs (Time : Type) where
  consoleLogs : List (Entry Time)
  mutationLog : List (Entry Time)
  networkLog : List (Entry Time)
  navigationLog : List (Entry Time)
  interactionLog : List (Entry Time)
  nodup : ((emitted true consoleLogs mutationLog networkLog navigationLog interactionLog).map
    Entry.id).Nodup

def Logs.stream {Time : Type} (logs : Logs Time) : List (Entry Time) :=
  emitted true logs.consoleLogs logs.mutationLog logs.networkLog logs.navigationLog
    logs.interactionLog

structure Page (Time : Type) where
  instanceId : String
  logs : Logs Time
  drainSeq : Nat
  /-- The `WeakMap` of the sequence numbers. -/
  drainSeqs : Nat → Option Nat

/-- What `drainEvents` answers. -/
structure Reply (Time : Type) where
  instanceId : String
  seq : Nat
  events : List (Entry Time)

namespace Page

variable {Time : Type}

/-- A page that has just loaded. -/
def loaded (instanceId : String) (logs : Logs Time) : Page Time :=
  { instanceId, logs, drainSeq := 0, drainSeqs := fun _ => none }

/-- The sequence number of an entry, which gets one the first time it is seen. -/
def sequence (p : Page Time) (id : Nat) : Nat × Page Time :=
  match p.drainSeqs id with
  | some seq => (seq, p)
  | none => (p.drainSeq + 1,
      { p with
        drainSeq := p.drainSeq + 1
        drainSeqs := Function.update p.drainSeqs id (some (p.drainSeq + 1)) })

variable [LinearOrder Time] [Zero Time]

/-- The loop of `drainEvents`. -/
def drainLoop (after : Nat) (floor : Time) : List (Entry Time) → Page Time →
    List (Entry Time) × Page Time
  | [], p => ([], p)
  | e :: es, p =>
      let (seq, p) := p.sequence e.id
      let (events, p) := drainLoop after floor es p
      if seq ≤ after then (events, p)
      else if 0 < floor ∧ ¬ floor < e.key then (events, p)
      else (e :: events, p)

def drainEvents (p : Page Time) (afterSeq : Nat) (instanceId : Option String) (floorMs : Time) :
    Reply Time × Page Time :=
  let after := if instanceId = some p.instanceId then afterSeq else 0
  let floor := if after = 0 then floorMs else 0
  let (events, p) := drainLoop after floor p.logs.stream p
  ({ instanceId := p.instanceId
     seq := p.drainSeq
     events := events.mergeSort fun a b => a.timestamp ≤ b.timestamp }, p)

end Page

/-! ## The positions -/

structure DrainMark where
  instanceId : String
  seq : Nat
  deriving DecidableEq

structure DrainCursor (Time : Type) where
  epoch : UInt64
  floorMs : Time
  mark : Option DrainMark

/-- The watermarks.  A lock is known by its number, which counts the locks made. -/
structure WatermarkState (Time : Type) where
  floorMs : Time
  epoch : UInt64
  perLabel : String → Option DrainMark
  locks : String → Option Nat
  locksMade : Nat

namespace WatermarkState

variable {Time : Type}

def new [Zero Time] : WatermarkState Time :=
  { floorMs := 0, epoch := 0, perLabel := fun _ => none, locks := fun _ => none, locksMade := 0 }

def cursor (w : WatermarkState Time) (label : String) : DrainCursor Time :=
  { epoch := w.epoch, floorMs := w.floorMs, mark := w.perLabel label }

/-- A position of another epoch is not stored. -/
def advance (w : WatermarkState Time) (label : String) (epoch : UInt64) (mark : DrainMark) :
    WatermarkState Time :=
  if w.epoch ≠ epoch then w
  else { w with perLabel := Function.update w.perLabel label (some mark) }

/-- A reset for an epoch that is not ahead is ignored. -/
def reset (w : WatermarkState Time) (floorMs : Time) (epoch : UInt64) : WatermarkState Time :=
  if epoch ≤ w.epoch then w
  else { w with floorMs := floorMs, epoch := epoch, perLabel := fun _ => none }

def retain (w : WatermarkState Time) (labels : List String) : WatermarkState Time :=
  { w with
    perLabel := fun label => if label ∈ labels then w.perLabel label else none
    locks := fun label => if label ∈ labels then w.locks label else none }

def lockFor (w : WatermarkState Time) (label : String) : Nat × WatermarkState Time :=
  match w.locks label with
  | some lock => (lock, w)
  | none => (w.locksMade,
      { w with
        locks := Function.update w.locks label (some w.locksMade)
        locksMade := w.locksMade + 1 })

theorem lockFor_spec (w : WatermarkState Time) (label : String) :
    (w.lockFor label).2.epoch = w.epoch ∧ (w.lockFor label).2.floorMs = w.floorMs ∧
      (w.lockFor label).2.perLabel = w.perLabel ∧
      (w.lockFor label).2.locks label = some (w.lockFor label).1 ∧
      ∀ l lock, w.locks l = some lock → (w.lockFor label).2.locks l = some lock := by
  unfold lockFor
  cases hlock : w.locks label with
  | some lock => exact ⟨rfl, rfl, rfl, hlock, fun _ _ h => h⟩
  | none =>
    refine ⟨rfl, rfl, rfl, Function.update_self .., fun l lock hl => ?_⟩
    have hne : l ≠ label := by
      rintro rfl
      rw [hlock] at hl
      cases hl
    exact (Function.update_of_ne hne _ _).trans hl

theorem advance_spec (w : WatermarkState Time) (label : String) (epoch : UInt64)
    (mark : DrainMark) :
    (w.advance label epoch mark).epoch = w.epoch ∧
      (w.advance label epoch mark).floorMs = w.floorMs ∧
      (w.advance label epoch mark).locks = w.locks ∧
      (w.advance label epoch mark).perLabel =
        if w.epoch = epoch then Function.update w.perLabel label (some mark) else w.perLabel := by
  unfold advance
  by_cases h : w.epoch = epoch
  · rw [if_neg (not_not.mpr h), if_pos h]
    exact ⟨rfl, rfl, rfl, rfl⟩
  · rw [if_pos h, if_neg h]
    exact ⟨rfl, rfl, rfl, rfl⟩

theorem reset_spec (w : WatermarkState Time) (floorMs : Time) (epoch : UInt64) :
    w.reset floorMs epoch = w ∨ w.epoch < epoch ∧ (w.reset floorMs epoch).epoch = epoch ∧
      (w.reset floorMs epoch).locks = w.locks ∧
      (w.reset floorMs epoch).perLabel = fun _ => none := by
  unfold reset
  by_cases h : epoch ≤ w.epoch
  · exact .inl (if_pos h)
  · rw [if_neg h]
    exact .inr ⟨UInt64.not_le.mp h, rfl, rfl, rfl⟩

end WatermarkState

/-! ## The system -/

/-- A drain that has its cursor, which is of the recording it was pinned to. -/
structure Read (Time : Type) where
  label : String
  lock : Nat
  generation : UInt64
  cursor : DrainCursor Time
  current : cursor.epoch = generation

/-- What `drainEvents` is asked for: only the first read of a window in a recording has a floor. -/
def Read.ask {Time : Type} [Zero Time] (r : Read Time) : Nat × Option String × Time :=
  match r.cursor.mark with
  | some m => (m.seq, some m.instanceId, 0)
  | none => (0, none, r.cursor.floorMs)

/-- Where a drain is.  `seen` are the entries that were complete when the page was read. -/
inductive Pc (Time : Type) where
  | idle
  | waiting (label : String) (lock : Nat)
  | locked (label : String) (lock : Nat)
  | pinned (label : String) (lock : Nat) (generation : UInt64)
  | reading (r : Read Time)
  | replied (r : Read Time) (reply : Reply Time) (seen : List Nat)
  | recording (r : Read Time) (reply : Reply Time) (seen : List Nat) (left : List (Entry Time))
      (recorded : Nat)

/-- The window and the lock that a drain has in use. -/
def Pc.uses {Time : Type} : Pc Time → Option (String × Nat)
  | .idle => none
  | .waiting label lock | .locked label lock | .pinned label lock _ => some (label, lock)
  | .reading r | .replied r _ _ | .recording r _ _ _ _ => some (r.label, r.lock)

/-- The lock that a drain holds. -/
def Pc.holds {Time : Type} : Pc Time → Option Nat
  | .idle | .waiting _ _ => none
  | .locked _ lock | .pinned _ lock _ => some lock
  | .reading r | .replied r _ _ | .recording r _ _ _ _ => some r.lock

/-- `recorder.generation()`. -/
def generation (r : EventRecorder) : Option UInt64 :=
  r.recording.map ActiveRecording.generation

/-- An entry that went into a recording. -/
structure Recorded where
  generation : UInt64
  instanceId : String
  entry : Nat
  deriving DecidableEq

structure System (Task Time : Type) where
  recorder : EventRecorder
  eventLog : EventLog
  watermarks : WatermarkState Time
  /-- Who holds a lock. -/
  owner : Nat → Option Task
  windows : String → Option (Page Time)
  drains : Task → Pc Time
  /-- The generations that have begun. -/
  begun : List UInt64
  /-- The window of each page that was ever loaded. -/
  home : String → Option String
  /-- The entries recorded, the last one first. -/
  ledger : List Recorded

namespace System

variable {Task Time : Type}

def init [Zero Time] (maxEvents maxCapacity : Nat) : System Task Time :=
  { recorder := .new maxEvents
    eventLog := .new maxCapacity
    watermarks := .new
    owner := fun _ => none
    windows := fun _ => none
    drains := fun _ => .idle
    begun := []
    home := fun _ => none
    ledger := [] }

def setWindow (s : System Task Time) (label : String) (page : Option (Page Time)) :
    System Task Time :=
  { s with windows := Function.update s.windows label page }

theorem windows_setWindow {s : System Task Time} {label l : String} {page : Option (Page Time)}
    {p : Page Time} (h : (s.setWindow l page).windows label = some p) :
    label = l ∧ page = some p ∨ label ≠ l ∧ s.windows label = some p := by
  change Function.update s.windows l page label = some p at h
  by_cases hl : label = l
  · rw [hl, Function.update_self] at h
    exact .inl ⟨hl, h⟩
  · rw [Function.update_of_ne hl] at h
    exact .inr ⟨hl, h⟩

variable [DecidableEq Task]

def goto (s : System Task Time) (t : Task) (pc : Pc Time) : System Task Time :=
  { s with drains := Function.update s.drains t pc }

/-- The drain ends and lets go of its lock. -/
def leave (s : System Task Time) (t : Task) (lock : Nat) : System Task Time :=
  { s.goto t .idle with owner := Function.update s.owner lock none }

end System

inductive Action (Task Time : Type) where
  | call (t : Task) (label : String)
  | acquire (t : Task)
  | pin (t : Task)
  | readCursor (t : Task)
  | execute (t : Task)
  | receive (t : Task)
  /-- The drain is given up: it cannot be delivered, its answer does not come in time or cannot be
  read, or its future is dropped. -/
  | fail (t : Task)
  | record (t : Task)
  | advance (t : Task)
  /-- The script of a drain that was given up runs. -/
  | stray (label : String) (afterSeq : Nat) (instanceId : Option String) (floorMs : Time)
  | recorder (r : EventRecorder)
  | reset (floorMs : Time) (epoch : UInt64)
  | retain (labels : List String)
  | load (label : String) (instanceId : String) (logs : Logs Time)
  | close (label : String)
  | log (label : String) (logs : Logs Time)

section

variable {Task Time : Type} [DecidableEq Task] [LinearOrder Time] [Zero Time]
  (parse : String → Json.Value → Option AppEvent) (content : String → Nat → Time × Json.Value)

/-- The logs of a page hold for each complete entry what it completes to. -/
def Logs.Agrees (logs : Logs Time) (instanceId : String) : Prop :=
  ∀ e ∈ logs.stream, (e.key, e.event) = content instanceId e.id

/-- An entry that left the logs does not come back. -/
def Page.Continues (p : Page Time) (logs : Logs Time) : Prop :=
  ∀ e ∈ logs.stream, e.id ∈ p.logs.stream.map Entry.id ∨ p.drainSeqs e.id = none

/-- One round of the loop over the events of the answer. -/
def System.record (s : System Task Time) (r : Read Time) (reply : Reply Time)
    (e : Entry Time) : System Task Time × Nat :=
  match parse r.label e.event with
  | none => (s, 0)
  | some event =>
      let (kept, recorder) := s.recorder.recordEventIf r.generation event
      if kept then
        ({ s with
            recorder := recorder
            eventLog := s.eventLog.push event
            ledger := ⟨r.generation, reply.instanceId, e.id⟩ :: s.ledger }, 1)
      else (s, 0)

inductive Step : System Task Time → Action Task Time → System Task Time → Prop
  | call {s t label} (h : s.drains t = .idle) :
      Step s (.call t label)
        ({ s with watermarks := (s.watermarks.lockFor label).2 }.goto t
          (.waiting label (s.watermarks.lockFor label).1))
  | acquire {s t label lock} (h : s.drains t = .waiting label lock) (hfree : s.owner lock = none) :
      Step s (.acquire t)
        ({ s with owner := Function.update s.owner lock (some t) }.goto t (.locked label lock))
  | pin {s t label lock g} (h : s.drains t = .locked label lock)
      (hg : generation s.recorder = some g) :
      Step s (.pin t) (s.goto t (.pinned label lock g))
  | unpinned {s t label lock} (h : s.drains t = .locked label lock)
      (hg : generation s.recorder = none) :
      Step s (.pin t) (s.leave t lock)
  | readCursor {s t label lock g} (h : s.drains t = .pinned label lock g)
      (hg : (s.watermarks.cursor label).epoch = g) :
      Step s (.readCursor t)
        (s.goto t (.reading ⟨label, lock, g, s.watermarks.cursor label, hg⟩))
  | early {s t label lock g} (h : s.drains t = .pinned label lock g)
      (hg : (s.watermarks.cursor label).epoch ≠ g) :
      Step s (.readCursor t) (s.leave t lock)
  | execute {s t r p} (h : s.drains t = .reading r) (hp : s.windows r.label = some p) :
      Step s (.execute t)
        ((s.setWindow r.label (some (p.drainEvents r.ask.1 r.ask.2.1 r.ask.2.2).2)).goto t
          (.replied r (p.drainEvents r.ask.1 r.ask.2.1 r.ask.2.2).1
            (p.logs.stream.map Entry.id)))
  | receive {s t r reply seen} (h : s.drains t = .replied r reply seen) :
      Step s (.receive t) (s.goto t (.recording r reply seen reply.events 0))
  | drop {s t label lock} (h : s.drains t = .waiting label lock) :
      Step s (.fail t) (s.goto t .idle)
  | unanswered {s t r} (h : s.drains t = .reading r) : Step s (.fail t) (s.leave t r.lock)
  | unread {s t r reply seen} (h : s.drains t = .replied r reply seen) :
      Step s (.fail t) (s.leave t r.lock)
  | record {s t r reply seen e left n} (h : s.drains t = .recording r reply seen (e :: left) n) :
      Step s (.record t)
        ((s.record parse r reply e).1.goto t
          (.recording r reply seen left (n + (s.record parse r reply e).2)))
  | advance {s t r reply seen n} (h : s.drains t = .recording r reply seen [] n) :
      Step s (.advance t)
        ({ s with watermarks :=
            s.watermarks.advance r.label r.cursor.epoch ⟨reply.instanceId, reply.seq⟩ }.leave
          t r.lock)
  | stray {s label p afterSeq instanceId floorMs} (hp : s.windows label = some p) :
      Step s (.stray label afterSeq instanceId floorMs)
        (s.setWindow label (some (p.drainEvents afterSeq instanceId floorMs).2))
  /-- Another party uses the recorder: a recording that begins has a generation of its own. -/
  | recorder {s r} (h : ∀ g, generation r = some g →
        generation s.recorder = some g ∨ g ∉ s.begun) :
      Step s (.recorder r)
        { s with recorder := r, begun := (generation r).toList ++ s.begun }
  | reset {s floorMs epoch} :
      Step s (.reset floorMs epoch) { s with watermarks := s.watermarks.reset floorMs epoch }
  | retain {s labels} :
      Step s (.retain labels) { s with watermarks := s.watermarks.retain labels }
  /-- A window opens or its page is replaced. -/
  | load {s label instanceId logs} (hnew : s.home instanceId = none)
      (hagrees : logs.Agrees content instanceId) :
      Step s (.load label instanceId logs)
        { s.setWindow label (some (.loaded instanceId logs)) with
          home := Function.update s.home instanceId (some label) }
  | close {s label} : Step s (.close label) (s.setWindow label none)
  /-- The page logs: entries are appended, complete or are dropped. -/
  | log {s label p logs} (hp : s.windows label = some p)
      (hagrees : logs.Agrees content p.instanceId) (hlogs : p.Continues logs) :
      Step s (.log label logs) (s.setWindow label (some { p with logs := logs }))

/-- A step that drops no window which is open or is being drained. -/
def Orderly (s : System Task Time) : Action Task Time → Prop
  | .retain labels => ∀ label, label ∉ labels →
      s.windows label = none ∧ ∀ t lock, (s.drains t).uses ≠ some (label, lock)
  | _ => True

end

end Victauri.Plugin.Drain
