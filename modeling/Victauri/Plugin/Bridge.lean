import Mathlib.Data.List.Infix
import Mathlib.Logic.Function.Basic
import Mathlib.Logic.Relation

/-!
# Round trips to the main thread

The dispatch gate of `bridge.rs`.  A call of `serialized_round_trip` takes the gate's
lock, waits until no closure is in flight, posts its job to the main thread and waits
for the outcome; the job and a caller that gives up race through one compare-and-swap.

A round trip is the state of one call: where the caller is, where its job is, and what
the two share.  `Step` is one operation on a lock, an atomic, the queue or a channel,
by a caller or by the main thread.  Time is left open: any wait may run out at any
point.
-/

namespace Victauri.Plugin.Bridge

/-- `str::contains`. -/
def contains (s pat : String) : Bool := decide (pat.toList <:+: s.toList)

/-! ## Error texts -/

/-- Error text of a main-thread closure that started but outlived its grace. -/
def startedOutcomeUnknown : String :=
  "started on the main thread but did not finish in time; its outcome is unknown"

/-- Error text of a main-thread closure that panicked. -/
def panickedOnMain : String := "panicked on the main thread"

/-- Whether a bridge error means the closure started on the main thread. -/
def closureMayHaveRun (error : String) : Bool :=
  contains error startedOutcomeUnknown || contains error panickedOnMain

def lockTimeout (what : String) : String :=
  what ++ " did not complete on the main thread: ran out of time waiting for the " ++
    "main-thread dispatch lock (it will not run)"

def earlierStillRunning (what : String) : String :=
  what ++ " did not complete on the main thread: timed out waiting for an earlier " ++
    "main-thread call that is still running (it will not run)"

def eventLoopDropped (what : String) : String :=
  what ++ " did not complete on the main thread: the event loop dropped it"

def timedOutBeforeStart (what : String) : String :=
  what ++ " did not complete on the main thread: timed out before it started " ++
    "(it will not run)"

/-! ## One round trip -/

/-- The states of a job: not started, started, given up on before it started. -/
inductive JobState where
  | queued
  | running
  | abandoned

/-- Where a caller is. -/
inductive Pc (V : Type) where
  | idle
  /-- Trying the lock. -/
  | locking
  /-- Has the lock; waiting for `in_flight` to be zero. -/
  | draining
  /-- Saw zero in time, about to post. -/
  | posting
  /-- In `rx.recv_timeout(remaining)`. -/
  | receiving
  /-- That wait ran out: about to give up on the job. -/
  | timedOut
  /-- Too late, the job started: in `rx.recv_timeout(grace)`. -/
  | graced
  /-- Has its result, and still the lock. -/
  | unlocking (result : Except String V)
  | returned (result : Except String V)

/-- Where a job is.  A result `none` is a panic. -/
inductive JobPc (V : Type) where
  | unposted
  | queued
  /-- Taken by the main thread, not counted in `in_flight` yet. -/
  | taken
  /-- Counted, before its compare-and-swap. -/
  | counted
  /-- The closure is running. -/
  | running
  | finished (result : Option V)
  /-- Sent, or refused by the compare-and-swap; about to be uncounted. -/
  | leaving
  /-- Uncounted, dropped or refused by `post`. -/
  | gone

structure Trip (V : Type) where
  pc : Pc V
  job : JobPc V
  /-- The job's atomic. -/
  state : JobState
  /-- What the job has sent. -/
  sent : Option (Option V)
  /-- How often the closure was started.  No step reads it. -/
  starts : Nat
  /-- What the closure's runs came to.  No step reads it. -/
  results : List (Option V)

def Trip.new (V : Type) : Trip V :=
  { pc := .idle, job := .unposted, state := .queued, sent := none, starts := 0, results := [] }

/-- What a caller makes of a job's outcome. -/
def outcome {V : Type} (what : String) : Option V → Except String V
  | some v => .ok v
  | none => .error (what ++ " " ++ panickedOnMain)

/-- The caller stopped waiting for a closure that started. -/
def outcomeUnknown (what : String) : String := what ++ " " ++ startedOutcomeUnknown

/-! ## All round trips through one gate -/

/-- The gate, the main thread and every call. -/
structure Dispatch (Call V : Type) where
  /-- Who holds the gate's lock. -/
  holder : Option Call
  inFlight : Nat
  /-- The jobs posted to the main thread and not taken, oldest first. -/
  queue : List Call
  /-- The jobs on the main thread's stack, innermost first: a closure may pump the event
  loop, and the loop then takes another job. -/
  executing : List Call
  trips : Call → Trip V

namespace Dispatch

variable {Call V : Type} [DecidableEq Call]

def init : Dispatch Call V :=
  { holder := none, inFlight := 0, queue := [], executing := [], trips := fun _ => .new V }

def set (s : Dispatch Call V) (c : Call) (x : Trip V) : Dispatch Call V :=
  { s with trips := Function.update s.trips c x }

/-- The main thread takes jobs when it runs none, or from inside a closure. -/
def Pumping (s : Dispatch Call V) : Prop :=
  ∀ c ∈ s.executing.head?, (s.trips c).job = .running

/-- One operation of a caller or of the main thread.  `what c` is the name call `c`
gives its work; a post that fails keeps nothing of the job. -/
inductive Step (what : Call → String) : Dispatch Call V → Dispatch Call V → Prop
  | call {s c} (h : (s.trips c).pc = .idle) :
      Step what s (s.set c { s.trips c with pc := .locking })
  | lock {s c} (h : (s.trips c).pc = .locking) (hfree : s.holder = none) :
      Step what s ({ s with holder := some c }.set c { s.trips c with pc := .draining })
  | lockLate {s c} (h : (s.trips c).pc = .locking) (hheld : s.holder ≠ none) :
      Step what s (s.set c
        { s.trips c with pc := .returned (.error (lockTimeout (what c))) })
  | drained {s c} (h : (s.trips c).pc = .draining) (hzero : s.inFlight = 0) :
      Step what s (s.set c { s.trips c with pc := .posting })
  | drainedLate {s c} (h : (s.trips c).pc = .draining) (hzero : s.inFlight = 0) :
      Step what s (s.set c
        { s.trips c with pc := .unlocking (.error (lockTimeout (what c))) })
  | drainLate {s c} (h : (s.trips c).pc = .draining) (hbusy : s.inFlight ≠ 0) :
      Step what s (s.set c
        { s.trips c with pc := .unlocking (.error (earlierStillRunning (what c))) })
  | post {s c} (h : (s.trips c).pc = .posting) :
      Step what s ({ s with queue := s.queue ++ [c] }.set c
        { s.trips c with pc := .receiving, job := .queued })
  | postFailed {s c} (error : String) (h : (s.trips c).pc = .posting) :
      Step what s (s.set c
        { s.trips c with pc := .unlocking (.error error), job := .gone })
  | receive {s c r} (h : (s.trips c).pc = .receiving) (hsent : (s.trips c).sent = some r) :
      Step what s (s.set c { s.trips c with pc := .unlocking (outcome (what c) r) })
  | disconnected {s c} (h : (s.trips c).pc = .receiving) (hsent : (s.trips c).sent = none)
      (hgone : (s.trips c).job = .leaving ∨ (s.trips c).job = .gone) :
      Step what s (s.set c
        { s.trips c with pc := .unlocking (.error (eventLoopDropped (what c))) })
  | timeout {s c} (h : (s.trips c).pc = .receiving) :
      Step what s (s.set c { s.trips c with pc := .timedOut })
  | abandon {s c} (h : (s.trips c).pc = .timedOut) (hswap : (s.trips c).state = .queued) :
      Step what s (s.set c { s.trips c with
        pc := .unlocking (.error (timedOutBeforeStart (what c))), state := .abandoned })
  | tooLate {s c} (h : (s.trips c).pc = .timedOut) (hswap : (s.trips c).state ≠ .queued) :
      Step what s (s.set c { s.trips c with pc := .graced })
  | receiveGraced {s c r} (h : (s.trips c).pc = .graced)
      (hsent : (s.trips c).sent = some r) :
      Step what s (s.set c { s.trips c with pc := .unlocking (outcome (what c) r) })
  | graceOver {s c} (h : (s.trips c).pc = .graced) :
      Step what s (s.set c
        { s.trips c with pc := .unlocking (.error (outcomeUnknown (what c))) })
  | unlock {s c r} (h : (s.trips c).pc = .unlocking r) :
      Step what s ({ s with holder := none }.set c { s.trips c with pc := .returned r })
  | take {s c rest} (hqueue : s.queue = c :: rest) (hpump : s.Pumping) :
      Step what s ({ s with queue := rest, executing := c :: s.executing }.set c
        { s.trips c with job := .taken })
  | discard {s c} (hqueue : c ∈ s.queue) :
      Step what s ({ s with queue := s.queue.erase c }.set c { s.trips c with job := .gone })
  | count {s c rest} (htop : s.executing = c :: rest) (h : (s.trips c).job = .taken) :
      Step what s ({ s with inFlight := s.inFlight + 1 }.set c
        { s.trips c with job := .counted })
  | start {s c rest} (htop : s.executing = c :: rest) (h : (s.trips c).job = .counted)
      (hswap : (s.trips c).state = .queued) :
      Step what s (s.set c { s.trips c with
        job := .running, state := .running, starts := (s.trips c).starts + 1 })
  | refuse {s c rest} (htop : s.executing = c :: rest) (h : (s.trips c).job = .counted)
      (hswap : (s.trips c).state ≠ .queued) :
      Step what s (s.set c { s.trips c with job := .leaving })
  | finish {s c rest} (r : Option V) (htop : s.executing = c :: rest)
      (h : (s.trips c).job = .running) :
      Step what s (s.set c { s.trips c with
        job := .finished r, results := (s.trips c).results ++ [r] })
  | send {s c rest r} (htop : s.executing = c :: rest) (h : (s.trips c).job = .finished r) :
      Step what s (s.set c { s.trips c with job := .leaving, sent := some r })
  | uncount {s c rest} (htop : s.executing = c :: rest) (h : (s.trips c).job = .leaving) :
      Step what s ({ s with inFlight := s.inFlight - 1, executing := rest }.set c
        { s.trips c with job := .gone })

/-- Any interleaving of the callers and the main thread. -/
abbrev Reaches (what : Call → String) : Dispatch Call V → Dispatch Call V → Prop :=
  Relation.ReflTransGen (Step what)

end Dispatch

end Victauri.Plugin.Bridge
