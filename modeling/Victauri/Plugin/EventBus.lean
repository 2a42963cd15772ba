import Victauri.Core.EventLog
import Victauri.Library.Utf8.Prefixes
import Victauri.Library.WeightedRing

/-!
# Captured Tauri events

`EventBusMonitor` of `introspection.rs`: the newest captured events, bounded by their count and by
the bytes of their payloads.  A payload is cut before it is kept, so the history of the monitor is
that of the events as they are kept.
-/

namespace Victauri.Plugin

open Victauri.Core Victauri.Library

structure CapturedTauriEvent where
  name : String
  payload : List Char
  timestamp : String

namespace CapturedTauriEvent

def maxEventPayloadBytes : Nat := 64 * 1024

def truncatedMark (dropped : Nat) : List Char :=
  "…[truncated ".toList ++ (Nat.repr dropped).toList ++ " bytes]".toList

/-- The event as `push` keeps it. -/
def kept (event : CapturedTauriEvent) : CapturedTauriEvent :=
  if maxEventPayloadBytes < Utf8.size event.payload then
    let cut := Utf8.floorBoundary event.payload maxEventPayloadBytes
    let dropped := Utf8.size event.payload - cut
    { event with payload := Utf8.sliceTo event.payload cut ++ truncatedMark dropped }
  else event

def payloadLen (event : CapturedTauriEvent) : Nat := Utf8.size event.payload

/-- A payload that is cut keeps the longest prefix that fits, and says how much is gone. -/
theorem payload_kept (event : CapturedTauriEvent) :
    event.kept.payload =
      let front := Utf8.upTo maxEventPayloadBytes event.payload
      if maxEventPayloadBytes < Utf8.size event.payload then
        front ++ truncatedMark (Utf8.size event.payload - Utf8.size front)
      else event.payload := by
  rw [kept]
  split_ifs with hlong
  · dsimp only
    rw [Utf8.sliceTo_floorBoundary, Utf8.floorBoundary_eq]
  · rfl

end CapturedTauriEvent

/-- `EventBusBuffer`. -/
structure EventBusBuffer where
  events : List CapturedTauriEvent
  payloadBytes : Nat

structure EventBusMonitor where
  inner : EventBusBuffer
  capacity : Nat

namespace EventBusMonitor

open CapturedTauriEvent

def maxEventBusBytes : Nat := 16 * 1024 * 1024

def new (capacity : Nat) : EventBusMonitor :=
  { inner := { events := [], payloadBytes := 0 }, capacity := capacity }

def push (bus : EventBusMonitor) (event : CapturedTauriEvent) : EventBusMonitor :=
  let (payloadBytes, events) := WeightedRing.push payloadLen bus.capacity maxEventBusBytes
    (bus.inner.payloadBytes, bus.inner.events) event.kept
  { bus with inner := { events := events, payloadBytes := payloadBytes } }

/-- `clear`, and how many events were removed. -/
def clear (bus : EventBusMonitor) : EventBusMonitor × Nat :=
  ({ bus with inner := { events := [], payloadBytes := 0 } }, bus.inner.events.length)

def events (bus : EventBusMonitor) : List CapturedTauriEvent := bus.inner.events

/-- A write to the monitor. -/
inductive Write where
  | push (event : CapturedTauriEvent)
  | clear

def write (bus : EventBusMonitor) : Write → EventBusMonitor
  | .push event => bus.push event
  | .clear => bus.clear.1

def run (bus : EventBusMonitor) (writes : List Write) : EventBusMonitor := writes.foldl write bus

/-- The events kept since the latest clear, after one more write. -/
def keptAfter (history : List CapturedTauriEvent) : Write → List CapturedTauriEvent
  | .push event => history ++ [event.kept]
  | .clear => []

/-- The events recorded since the latest clear, as they are kept. -/
def keptSinceClear (writes : List Write) : List CapturedTauriEvent := writes.foldl keptAfter []

/-- Within both bounds. -/
def Fits (capacity : Nat) (events : List CapturedTauriEvent) : Prop :=
  events.length ≤ capacity ∧ (events.map payloadLen).sum ≤ maxEventBusBytes

/-- The monitor counts its bytes and retains the longest suffix of the history that fits. -/
structure Retains (bus : EventBusMonitor) (history : List CapturedTauriEvent) : Prop where
  payloadBytes : bus.inner.payloadBytes = (bus.events.map payloadLen).sum
  suffix : bus.events <:+ history
  fits : Fits bus.capacity bus.events
  longest : ∀ other, other <:+ history → Fits bus.capacity other →
    other.length ≤ bus.events.length

/-- The ring under the monitor. -/
def Holds (bus : EventBusMonitor) (history : List CapturedTauriEvent) : Prop :=
  WeightedRing.Holds payloadLen bus.capacity maxEventBusBytes
    (bus.inner.payloadBytes, bus.inner.events) history

theorem Holds.retains {bus : EventBusMonitor} {history : List CapturedTauriEvent}
    (h : bus.Holds history) : bus.Retains history where
  payloadBytes := h.counter
  suffix := h.ending
  fits := h.fits
  longest := fun other hother hfits => (h.longest other hother hfits).length_le

theorem Holds.write {bus : EventBusMonitor} {history : List CapturedTauriEvent}
    (h : bus.Holds history) (w : Write) : (bus.write w).Holds (keptAfter history w) := by
  cases w with
  | push event => exact WeightedRing.Holds.push h event.kept
  | clear => exact WeightedRing.Holds.nil

theorem Holds.run {bus : EventBusMonitor} {history : List CapturedTauriEvent}
    (h : bus.Holds history) (writes : List Write) :
    (bus.run writes).Holds (writes.foldl keptAfter history) := by
  induction writes generalizing bus history with
  | nil => exact h
  | cons w writes ih => exact ih (h.write w)

theorem capacity_run (bus : EventBusMonitor) (writes : List Write) :
    (bus.run writes).capacity = bus.capacity := by
  induction writes generalizing bus with
  | nil => rfl
  | cons w writes ih =>
    refine (ih (bus.write w)).trans ?_
    cases w <;> rfl

/-- The counter of a monitor stays a `usize`: no payload is longer than half of them. -/
theorem Retains.no_overflow {bus : EventBusMonitor} {history : List CapturedTauriEvent}
    (h : bus.Retains history) {event : CapturedTauriEvent} (hlen : payloadLen event < 2 ^ 63) :
    bus.inner.payloadBytes + payloadLen event < 2 ^ 64 := by
  have hbytes : (bus.events.map payloadLen).sum ≤ maxEventBusBytes := h.fits.2
  rw [← h.payloadBytes, maxEventBusBytes] at hbytes
  omega

theorem run_retains (capacity : Nat) (writes : List Write) :
    ((new capacity).run writes).Retains (keptSinceClear writes) := by
  have hstart : (new capacity).Holds [] := WeightedRing.Holds.nil
  exact (hstart.run writes).retains

/-- Both rings show the end of their histories. -/
theorem rings_show_histories :
    (∀ maxCapacity (writes : List EventLog.Write),
      ((EventLog.new maxCapacity).run writes).Shows
        (Ring.newest maxCapacity (EventLog.pushedSinceClear writes))) ∧
    ∀ capacity (writes : List Write),
      ((new capacity).run writes).capacity = capacity ∧
      ((new capacity).run writes).Retains (keptSinceClear writes) := by
  constructor
  · exact EventLog.run_shows
  · intro capacity writes
    exact ⟨capacity_run (new capacity) writes, run_retains capacity writes⟩

end EventBusMonitor

end Victauri.Plugin
