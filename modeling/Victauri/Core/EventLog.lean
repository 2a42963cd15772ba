import Mathlib.Data.Finset.Lattice.Lemmas
import Mathlib.Data.Finset.Dedup
import Victauri.Core.Event
import Victauri.Library.Ring

/-!
# The event log

`EventLog` of `event.rs`: a ring of the newest events and the queries over it.  Every operation
holds the lock throughout, so a history of the log is a list of its writes.
-/

namespace Victauri.Core

open Victauri.Library

structure EventLog where
  events : List AppEvent
  maxCapacity : Nat

namespace EventLog

def new (maxCapacity : Nat) : EventLog := { events := [], maxCapacity := maxCapacity }

def push (log : EventLog) (event : AppEvent) : EventLog :=
  { log with events := Ring.push log.maxCapacity log.events event }

def clear (log : EventLog) : EventLog := { log with events := [] }

/-! ## Queries -/

def snapshot (log : EventLog) : List AppEvent := log.events

def snapshotRange (log : EventLog) (offset limit : Nat) : List AppEvent :=
  (log.events.drop offset).take limit

def since (log : EventLog) (timestamp : DateTime) : List AppEvent :=
  log.events.filter fun e => timestamp ≤ e.timestamp

def ipcCalls (log : EventLog) : List IpcCall := log.events.filterMap AppEvent.ipcCall

def recentIpcCalls (log : EventLog) (limit : Nat) : List IpcCall :=
  ((log.events.reverse.filterMap AppEvent.ipcCall).take limit).reverse

/-- One round of the loop of `ipc_command_names`. -/
def addCommandName (names : Finset String) : AppEvent → Finset String
  | .ipc call => if call.command ∈ names then names else insert call.command names
  | _ => names

def ipcCommandNames (log : EventLog) : Finset String := log.events.foldl addCommandName ∅

/-- `for_each_ipc_call`, whose callback carries a state. -/
def forEachIpcCall {σ : Type} (log : EventLog) (f : σ → IpcCall → σ) (state : σ) : σ :=
  log.events.foldl (fun state event =>
    match event with
    | .ipc call => f state call
    | _ => state) state

def ipcCallsSince (log : EventLog) (timestamp : DateTime) : List IpcCall :=
  log.events.filterMap fun
    | .ipc call => if timestamp ≤ call.timestamp then some call else none
    | _ => none

def len (log : EventLog) : Nat := log.events.length

def isEmpty (log : EventLog) : Bool := log.events.isEmpty

/-- What the queries say of a log that holds `held`. -/
structure Shows (log : EventLog) (held : List AppEvent) : Prop where
  snapshot : log.snapshot = held
  snapshotRange : ∀ offset limit, log.snapshotRange offset limit = (held.drop offset).take limit
  since : ∀ timestamp, log.since timestamp = held.filter fun e => timestamp ≤ e.timestamp
  ipcCalls : log.ipcCalls = held.filterMap AppEvent.ipcCall
  recentIpcCalls : ∀ limit,
    log.recentIpcCalls limit = Ring.clamp limit (held.filterMap AppEvent.ipcCall)
  ipcCommandNames :
    log.ipcCommandNames = ((held.filterMap AppEvent.ipcCall).map IpcCall.command).toFinset
  forEachIpcCall : ∀ {σ : Type} (f : σ → IpcCall → σ) (state : σ),
    log.forEachIpcCall f state = (held.filterMap AppEvent.ipcCall).foldl f state
  ipcCallsSince : ∀ timestamp, log.ipcCallsSince timestamp =
    (held.filterMap AppEvent.ipcCall).filter fun call => timestamp ≤ call.timestamp
  len : log.len = held.length
  isEmpty : log.isEmpty = true ↔ held = []

theorem recentIpcCalls_eq (log : EventLog) (limit : Nat) :
    log.recentIpcCalls limit = Ring.clamp limit (log.events.filterMap AppEvent.ipcCall) := by
  rw [recentIpcCalls, List.filterMap_reverse, List.take_reverse, List.reverse_reverse]
  rfl

theorem foldl_addCommandName (events : List AppEvent) (names : Finset String) :
    events.foldl addCommandName names =
      names ∪ ((events.filterMap AppEvent.ipcCall).map IpcCall.command).toFinset := by
  induction events generalizing names with
  | nil => simp
  | cons event events ih =>
    rw [List.foldl_cons, ih]
    cases event with
    | ipc call =>
      have hadded : addCommandName names (.ipc call) = insert call.command names := by
        rw [addCommandName]
        split_ifs with hmem
        · exact (Finset.insert_eq_of_mem hmem).symm
        · rfl
      ext name
      rw [hadded]
      simp [AppEvent.ipcCall]
    | _ => rfl

theorem foldl_ipcCall {σ : Type} (f : σ → IpcCall → σ) (events : List AppEvent) (state : σ) :
    forEachIpcCall { events := events, maxCapacity := 0 } f state =
      (events.filterMap AppEvent.ipcCall).foldl f state := by
  induction events generalizing state with
  | nil => rfl
  | cons event events ih =>
    cases event with
    | ipc call => exact ih (f state call)
    | _ => exact ih state

theorem ipcCallsSince_eq (log : EventLog) (timestamp : DateTime) :
    log.ipcCallsSince timestamp =
      (log.events.filterMap AppEvent.ipcCall).filter fun call => timestamp ≤ call.timestamp := by
  rw [ipcCallsSince, List.filter_filterMap]
  congr 1
  ext event : 1
  cases event with
  | ipc call => simp [AppEvent.ipcCall, Option.filter]
  | _ => rfl

theorem shows (log : EventLog) : log.Shows log.events where
  snapshot := rfl
  snapshotRange := fun _ _ => rfl
  since := fun _ => rfl
  ipcCalls := rfl
  recentIpcCalls := log.recentIpcCalls_eq
  ipcCommandNames := by
    rw [EventLog.ipcCommandNames, foldl_addCommandName, Finset.empty_union]
  forEachIpcCall := fun f state => foldl_ipcCall f log.events state
  ipcCallsSince := log.ipcCallsSince_eq
  len := rfl
  isEmpty := List.isEmpty_iff

/-! ## Histories -/

/-- A write to the log. -/
inductive Write where
  | push (event : AppEvent)
  | clear

def write (log : EventLog) : Write → EventLog
  | .push event => log.push event
  | .clear => log.clear

def run (log : EventLog) (writes : List Write) : EventLog := writes.foldl write log

/-- The events pushed since the latest clear, after one more write. -/
def pushedAfter (pushed : List AppEvent) : Write → List AppEvent
  | .push event => pushed ++ [event]
  | .clear => []

/-- The events pushed since the latest clear. -/
def pushedSinceClear (writes : List Write) : List AppEvent := writes.foldl pushedAfter []

theorem events_write {log : EventLog} {pushed : List AppEvent}
    (h : log.events = Ring.newest log.maxCapacity pushed) (w : Write) :
    (log.write w).events = Ring.newest log.maxCapacity (pushedAfter pushed w) := by
  cases w with
  | push event =>
    change Ring.push log.maxCapacity log.events event = _
    rw [h, Ring.push_newest]
    rfl
  | clear => exact (Ring.newest_nil _).symm

theorem maxCapacity_write (log : EventLog) (w : Write) :
    (log.write w).maxCapacity = log.maxCapacity := by
  cases w <;> rfl

theorem events_run {log : EventLog} {pushed : List AppEvent}
    (h : log.events = Ring.newest log.maxCapacity pushed) (writes : List Write) :
    (log.run writes).events =
      Ring.newest log.maxCapacity (writes.foldl pushedAfter pushed) := by
  induction writes generalizing log pushed with
  | nil => exact h
  | cons w writes ih =>
    have hstep := events_write h w
    rw [← maxCapacity_write log w] at hstep
    have hrun := ih hstep
    rw [maxCapacity_write] at hrun
    exact hrun

/-- After any history the log shows the newest events since the latest clear. -/
theorem run_shows (maxCapacity : Nat) (writes : List Write) :
    ((new maxCapacity).run writes).Shows (Ring.newest maxCapacity (pushedSinceClear writes)) := by
  have hstart : (new maxCapacity).events = Ring.newest maxCapacity [] :=
    (Ring.newest_nil maxCapacity).symm
  have hevents := events_run hstart writes
  have hshows := ((new maxCapacity).run writes).shows
  rw [hevents] at hshows
  exact hshows

end EventLog

end Victauri.Core
