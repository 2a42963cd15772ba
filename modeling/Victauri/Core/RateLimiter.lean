import Victauri.Library.Run
import Mathlib.Algebra.BigOperators.Group.Finset.Basic
import Mathlib.Data.Fintype.Basic
import Mathlib.Logic.Function.Basic

/-!
# The rate limiter

`RateLimiter` of `security.rs`.  Two atomics and no lock: a call to `try_acquire` takes a step for
each load and each compare-exchange of them, and the steps of different threads come in any order.
A weak compare-exchange may also fail for no reason.
-/

namespace Victauri.Core

open Victauri.Library

structure RateLimiter where
  tokens : UInt64
  maxTokens : UInt64
  lastRefillMs : UInt64
  refillRatePerSec : UInt64
  deriving DecidableEq

namespace RateLimiter

def new (maxRequestsPerSec : UInt64) : RateLimiter :=
  { tokens := maxRequestsPerSec
    maxTokens := maxRequestsPerSec
    lastRefillMs := 0
    refillRatePerSec := maxRequestsPerSec }

/-- A refill under way: the clock it read, the last refill it found and what it is to add. -/
structure Refill where
  now : UInt64
  last : UInt64
  add : UInt64
  deriving DecidableEq

/-- Where a thread is in `try_acquire`. -/
inductive Pc where
  | idle
  | readClock
  | readLast (now : UInt64)
  | claim (refill : Refill)
  | readForAdd (refill : Refill)
  | add (refill : Refill) (current : UInt64)
  | readForTake
  | take (current : UInt64)
  deriving DecidableEq

/-- What a step amounts to. -/
inductive Event where
  | quiet
  | claimed (refill : Refill)
  | credited (refill : Refill)
  | granted
  | refused
  deriving DecidableEq

/-- `now.saturating_sub(last)`. -/
def saturatingSub (now last : UInt64) : UInt64 := if last ≤ now then now - last else 0

/-- The next step of a call; the clock has the milliseconds since `epoch`. -/
def act (l : RateLimiter) (clock : Nat) : Pc → RateLimiter × Pc × Event
  | .idle => (l, .idle, .quiet)
  | .readClock => (l, .readLast (UInt64.ofNat clock), .quiet)
  | .readLast now =>
      let last := l.lastRefillMs
      let elapsedMs := saturatingSub now last
      if elapsedMs = 0 then (l, .readForTake, .quiet)
      else
        let add := elapsedMs * l.refillRatePerSec / 1000
        if add = 0 then (l, .readForTake, .quiet) else (l, .claim ⟨now, last, add⟩, .quiet)
  | .claim refill =>
      if l.lastRefillMs = refill.last then
        ({ l with lastRefillMs := refill.now }, .readForAdd refill, .claimed refill)
      else (l, .readForTake, .quiet)
  | .readForAdd refill => (l, .add refill l.tokens, .quiet)
  | .add refill current =>
      if l.tokens = current then
        ({ l with tokens := min (current + refill.add) l.maxTokens }, .readForTake,
          .credited refill)
      else (l, .readForAdd refill, .quiet)
  | .readForTake => if l.tokens = 0 then (l, .idle, .refused) else (l, .take l.tokens, .quiet)
  | .take current =>
      if l.tokens = current then ({ l with tokens := current - 1 }, .idle, .granted)
      else (l, .readForTake, .quiet)

/-- Where a thread is after its weak compare-exchange failed. -/
def Pc.afterFailure : Pc → Option Pc
  | .add refill _ => some (.readForAdd refill)
  | .take _ => some .readForTake
  | _ => none

/-- What a refill has claimed and not yet added. -/
def Pc.pending : Pc → Option Refill
  | .readForAdd refill => some refill
  | .add refill _ => some refill
  | _ => none

/-! ## Threads -/

/-- What happened: how many requests were granted, the intervals that were claimed, and those whose
tokens were added. -/
structure History where
  granted : Nat
  claimed : List Refill
  credited : List Refill

def History.after (h : History) : Event → History
  | .claimed refill => { h with claimed := h.claimed ++ [refill] }
  | .credited refill => { h with credited := h.credited ++ [refill] }
  | .granted => { h with granted := h.granted + 1 }
  | _ => h

structure System (Thread : Type) where
  limiter : RateLimiter
  clock : Nat
  pcs : Thread → Pc
  history : History

inductive Action (Thread : Type) where
  | tick (ms : Nat)
  | call (thread : Thread)
  | act (thread : Thread)
  | fail (thread : Thread)

namespace System

variable {Thread : Type} [DecidableEq Thread]

def init (maxRequestsPerSec : UInt64) : System Thread :=
  { limiter := new maxRequestsPerSec
    clock := 0
    pcs := fun _ => .idle
    history := { granted := 0, claimed := [], credited := [] } }

def goto (s : System Thread) (thread : Thread) (pc : Pc) : System Thread :=
  { s with pcs := Function.update s.pcs thread pc }

def step (s : System Thread) : Action Thread → Option (System Thread)
  | .tick ms => some { s with clock := s.clock + ms }
  | .call thread => if s.pcs thread = .idle then some (s.goto thread .readClock) else none
  | .act thread =>
      if s.pcs thread = .idle then none
      else
        let next := s.limiter.act s.clock (s.pcs thread)
        some ({ s with limiter := next.1, history := s.history.after next.2.2 }.goto thread next.2.1)
  | .fail thread => (s.pcs thread).afterFailure.map (s.goto thread)

abbrev Runs (s : System Thread) (as : List (Action Thread)) (t : System Thread) : Prop :=
  Run (fun s a t => step s a = some t) s as t

/-- The tokens that are claimed and not yet added. -/
def pending [Fintype Thread] (s : System Thread) : Nat :=
  ∑ thread, ((s.pcs thread).pending.elim 0 fun refill => refill.add.toNat)

end System

end RateLimiter

end Victauri.Core
