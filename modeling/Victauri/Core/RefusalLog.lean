import Mathlib.Algebra.GroupWithZero.Nat
import Victauri.Core.RateLimiter

/-!
# The log of refused requests

`RefusalLog` of the core's `middleware.rs`.  A call to `admit` takes a step for each operation on
one of the two atomics, and the steps of different threads come in any order, with any clock
readings.
-/

namespace Victauri.Core

open Victauri.Library

structure RefusalLog where
  /-- Milliseconds since the Unix epoch of the last line; 0 means none yet. -/
  lastMs : UInt64
  /-- Refusals since then. -/
  suppressed : UInt64
  deriving DecidableEq

namespace RefusalLog

def new : RefusalLog := { lastMs := 0, suppressed := 0 }

def refusalLogIntervalMs : UInt64 := 10000

/-- Where a thread is in `admit`. -/
inductive Pc where
  | idle
  | load (now : UInt64)
  | exchange (now last : UInt64)
  | add
  | swap (now : UInt64)
  deriving DecidableEq

/-- What a step amounts to: a refusal is logged, with the number of those not logged before it, or
it is not. -/
inductive Event where
  | quiet
  | logged (now covered : UInt64)
  | suppressed

/-- The next step of a call. -/
def act (l : RefusalLog) : Pc → RefusalLog × Pc × Event
  | .idle => (l, .idle, .quiet)
  | .load now =>
      if l.lastMs = 0 ∨ refusalLogIntervalMs ≤ RateLimiter.saturatingSub now l.lastMs then
        (l, .exchange now l.lastMs, .quiet)
      else (l, .add, .quiet)
  | .exchange now last =>
      if l.lastMs = last then ({ l with lastMs := max now 1 }, .swap now, .quiet)
      else (l, .add, .quiet)
  | .add => ({ l with suppressed := l.suppressed + 1 }, .idle, .suppressed)
  | .swap now => ({ l with suppressed := 0 }, .idle, .logged now l.suppressed)

/-! ## Threads -/

/-- What happened: how many refusals came and how many were dealt with, and the lines logged, each
with its clock reading and the count it reported. -/
structure History where
  begun : Nat
  seen : Nat
  lines : List (UInt64 × UInt64)

def History.after (h : History) : Event → History
  | .quiet => h
  | .logged now covered => { h with seen := h.seen + 1, lines := h.lines ++ [(now, covered)] }
  | .suppressed => { h with seen := h.seen + 1 }

/-- The counts the lines reported. -/
def History.reported (h : History) : Nat := (h.lines.map fun line => line.2.toNat).sum

structure System (Thread : Type) where
  log : RefusalLog
  pcs : Thread → Pc
  history : History

inductive Action (Thread : Type) where
  | call (thread : Thread) (now : UInt64)
  | act (thread : Thread)

namespace System

variable {Thread : Type} [DecidableEq Thread]

def init : System Thread :=
  { log := new
    pcs := fun _ => .idle
    history := { begun := 0, seen := 0, lines := [] } }

def goto (s : System Thread) (thread : Thread) (pc : Pc) : System Thread :=
  { s with pcs := Function.update s.pcs thread pc }

def step (s : System Thread) : Action Thread → Option (System Thread)
  | .call thread now =>
      if s.pcs thread = .idle then
        some ({ s with history := { s.history with begun := s.history.begun + 1 } }.goto thread
          (.load now))
      else none
  | .act thread =>
      if s.pcs thread = .idle then none
      else
        let next := s.log.act (s.pcs thread)
        some ({ s with log := next.1, history := s.history.after next.2.2 }.goto thread next.2.1)

abbrev Runs (s : System Thread) (as : List (Action Thread)) (t : System Thread) : Prop :=
  Run (fun s a t => step s a = some t) s as t

/-- The refusals that are being dealt with. -/
def inFlight [Fintype Thread] (s : System Thread) : Nat :=
  ∑ thread, if s.pcs thread = .idle then 0 else 1

end System

end RefusalLog

end Victauri.Core
