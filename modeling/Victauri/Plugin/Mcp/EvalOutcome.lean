import Mathlib.Logic.Relation
import Victauri.Plugin.Bridge
import Victauri.Plugin.Mcp.Envelope
import Victauri.Plugin.Page.Evals

/-!
# Eval calls and their page

`eval_outcome` of `mod.rs`, with the scripts it injects and the page they run in.  `Step`
is one step of a call, of the page, or of what carries scripts and outcomes between them.
Time is left open: any wait may run out at any point.

The page runs the injected scripts in any order, except that an eval's wrapper goes before
its check; any script and any outcome may be lost, and the page may be reloaded at any
point.  A wrapper whose code does not parse is a lost one.
-/

namespace Victauri.Plugin.Mcp

open Victauri.Core.Json Victauri.Plugin.Bridge Victauri.Plugin.Page

/-! ## Failures -/

def notSent (message : String) : EvalFailure := { kind := .notSent, message }

def aborted (message : String) : EvalFailure := { kind := .aborted, message }

def shuttingDownFailure : EvalFailure :=
  notSent "the app is shutting down, so the call was not sent"

/-- The liveness probe failed with `e`; `elapsed` and `timeout` are the formatted times. -/
def probeFailure (elapsed timeout e : String) (prevTimedOut : Bool) : EvalFailure :=
  if Bridge.contains e "(it will not run)" then
    notSent ("eval ran out of time before the code was sent (" ++ elapsed ++
      " elapsed, timeout " ++ timeout ++ ") — the app's UI thread is busy (the liveness probe " ++
      "could not be delivered: " ++ e ++ "). The code did NOT run; retry when the app is " ++
      "responsive, or pass a longer timeout.")
  else if prevTimedOut then
    notSent (e ++ " (a previous eval on this window also timed out — the webview likely " ++
      "reloaded or the app stopped responding)")
  else notSent e

def tooManyFailure : EvalFailure := notSent "too many concurrent eval requests (limit: 100)"

def lateProbeFailure (elapsed timeout : String) : EvalFailure :=
  notSent ("eval ran out of time before the code was sent (" ++ elapsed ++
    " elapsed, timeout " ++ timeout ++ ") — the app's UI thread is busy (the page answered the " ++
    "liveness probe late). The code did NOT run; retry when the app is responsive, or pass a " ++
    "longer timeout.")

/-- Delivering the wrapper failed with `e`. -/
def deliveryFailure (elapsed timeout e : String) : EvalFailure :=
  if closureMayHaveRun e then
    aborted ("eval delivery did not finish: " ++ e ++ ". The code may or may not have run — " ++
      "check the app's state before re-running it.")
  else if Bridge.contains e "(it will not run)" then
    notSent ("eval ran out of time before the code was sent (" ++ elapsed ++
      " elapsed, timeout " ++ timeout ++ ") — the app's UI thread is busy (" ++ e ++
      "). The code did NOT run; retry when the app is responsive, or pass a longer timeout.")
  else notSent ("eval injection failed: " ++ e)

/-- Why a call stops waiting for its outcome. -/
inductive GiveUp where
  | pageReplaced (label : String)
  | shuttingDown
  | windowClosed (label : String)
  | timedOut (timeout : String)
  | channelClosed

def giveUpFailure (parseCheckArmed : Bool) : GiveUp → EvalFailure
  | .pageReplaced label =>
      aborted ("window '" ++ label ++ "' loaded a new page (a reload or navigation) while the " ++
        "call was in flight, so no result will arrive. The code may or may not have run before " ++
        "the reload — check the app's state before re-running it.")
  | .shuttingDown =>
      aborted ("the app began shutting down while the call was in flight, so no result will " ++
        "arrive. If the code/command quits or restarts the app, this is the expected outcome " ++
        "and it most likely ran — do not re-run it blindly.")
  | .windowClosed label =>
      aborted ("window '" ++ label ++ "' was closed while the call was in flight, so no result " ++
        "will arrive. If the code/command closes this window (or quits the app), this is the " ++
        "expected outcome and it most likely ran — do not re-run it blindly.")
  | .timedOut timeout =>
      let (began, parseNote) :=
        if parseCheckArmed then
          ("the code began executing but never resolved",
            "(A syntax/parse error is reported immediately, so this is NOT a parse error.) " ++
              "Common causes")
        else
          ("no result arrived",
            "(The fast syntax-error check could not run for this call, so a parse error could " ++
              "not be ruled out — check the code's syntax.) Other causes")
      aborted ("eval timed out after " ++ timeout ++ " — " ++ began ++ ". " ++ parseNote ++
        ": an unresolved promise, an infinite loop, an `await` on something that never " ++
        "settles, or the webview reloaded / the app stopped responding mid-eval. If the app " ++
        "may have navigated or crashed, retry (the next call fails fast if the bridge is gone).")
  | .channelClosed => aborted "eval callback channel closed"

/-- `MAX_EVAL_RESULT_LEN`. -/
def maxEvalResultLen : Nat := 5000000

def tooLargeFailure (length : Nat) : EvalFailure :=
  { kind := .page
    message := "eval result too large (" ++ toString length ++ " bytes, limit 5000000)" }

/-- What a call makes of the body it received. -/
def receivedResult (parse : List Char → Option Value) (print : Value → List Char)
    (raw : List Char) : Except EvalFailure (List Char) :=
  let length := (String.ofList raw).utf8ByteSize
  if maxEvalResultLen < length then .error (tooLargeFailure length)
  else unwrapEvalEnvelope parse print raw

/-! ## One eval -/

/-- Where a call is. -/
inductive HostPc where
  | idle
  /-- In `probe_bridge`. -/
  | probing
  /-- In `reserve_pending`. -/
  | reserving
  /-- Has its slot; about to inject the wrapper. -/
  | sending
  /-- The wrapper is delivered; about to inject the check. -/
  | checking
  /-- Waiting for the outcome. -/
  | waiting (parseCheckArmed : Bool)
  | returned (result : Except EvalFailure (List Char))
  /-- The caller dropped the call. -/
  | dropped

/-- Where an injected script is. -/
inductive Script where
  | unsent
  | inFlight
  /-- Run or lost. -/
  | gone
  deriving DecidableEq

/-- Where the code is; `page` counts the pages up to the one it began in. -/
inductive CodePc where
  | notBegun
  | running (page : Nat)
  /-- Settled its result, whose callback is awaited: if that is rejected it settles again. -/
  | settling (page : Nat)
  | ended (page : Nat)

structure Eval (Nonce : Type) (number : NumberFormat) where
  host : HostPc
  probe : Script
  /-- The nonce of the page that answered the probe. -/
  answer : Option Nonce
  /-- `armed_nonce`. -/
  armed : Option Nonce
  wrapper : Script
  check : Script
  code : CodePc
  /-- Bodies on their way to `victauri_eval_callback`. -/
  mail : List (List Char)
  /-- Whether the id is in `pending_evals`. -/
  slot : Bool
  /-- What the channel of the slot holds. -/
  received : Option (List Char)
  /-- How often the code began.  No step reads it. -/
  starts : Nat
  /-- The outcomes the page sent.  No step reads it. -/
  sent : List (Outcome number)

def Eval.new (Nonce : Type) (number : NumberFormat) : Eval Nonce number :=
  { host := .idle, probe := .unsent, answer := none, armed := none, wrapper := .unsent
    check := .unsent, code := .notBegun, mail := [], slot := false, received := none
    starts := 0, sent := [] }

/-- The page sends an outcome, if it has one to send. -/
def Eval.post {Nonce : Type} {number : NumberFormat} (e : Eval Nonce number)
    (outcome : Option (Outcome number)) : Eval Nonce number :=
  { e with
    mail := e.mail ++ outcome.toList.map outcomeBody
    sent := e.sent ++ outcome.toList }

@[simp] theorem Eval.post_none {Nonce : Type} {number : NumberFormat} (e : Eval Nonce number) :
    e.post none = e := by
  simp [Eval.post]

/-- A delivery that failed with `e`: what was to be run may still be. -/
def Script.failed (e : String) : Script := if closureMayHaveRun e then .inFlight else .unsent

/-- Where the code is once it has settled an outcome. -/
def CodePc.settled {number : NumberFormat} (page : Nat) : Outcome number → CodePc
  | .error _ => .ended page
  | _ => .settling page

/-! ## All evals of one page -/

/-- An eval takes a step in the page, and may finish by it. -/
structure PageStep (Id : Type) where
  id : Id
  finishes : Bool

structure Evals (Id Nonce : Type) (number : NumberFormat) where
  bridge : Bridge Id Nonce
  /-- The nonces of the pages there were, the current one last. -/
  pages : List Nonce
  evals : Id → Eval Nonce number
  /-- The steps evals took in the page.  No step reads it. -/
  history : List (PageStep Id)
  /-- How many of them were taken before the page was loaded.  No step reads it. -/
  loaded : Nat

namespace Evals

variable {Id Nonce : Type} [DecidableEq Id] [DecidableEq Nonce] {number : NumberFormat}

def init (nonce : Nonce) : Evals Id Nonce number :=
  { bridge := .new Id nonce, pages := [nonce], evals := fun _ => .new Nonce number
    history := [], loaded := 0 }

def page (s : Evals Id Nonce number) : Nat := s.pages.length

def set (s : Evals Id Nonce number) (k : Id) (e : Eval Nonce number) : Evals Id Nonce number :=
  { s with evals := Function.update s.evals k e }

/-- A step of `k` in the page, which leaves the bridge `b` and may send an outcome. -/
def inPage (s : Evals Id Nonce number) (k : Id) (e : Eval Nonce number)
    (r : Option (Outcome number) × Bridge Id Nonce) : Evals Id Nonce number :=
  { s.set k (e.post r.1) with
    bridge := r.2
    history := s.history ++ [{ id := k, finishes := r.1.isSome }] }

/-- The wrapper of `k` starts: `_evalBegin`, and the code if that allows it. -/
def begun (s : Evals Id Nonce number) (k : Id) : Evals Id Nonce number :=
  let e := { s.evals k with wrapper := .gone }
  let (allowed, bridge) := s.bridge.evalBegin k
  s.inPage k (if allowed then { e with code := .running s.page, starts := e.starts + 1 } else e)
    (none, bridge)

variable (parse : List Char → Option Value) (print : Value → List Char)

/-- One step of a call, of the page, or of what is between them. -/
inductive Step : Evals Id Nonce number → Evals Id Nonce number → Prop
  -- the call
  | refuse {s k} (h : (s.evals k).host = .idle) :
      Step s (s.set k { s.evals k with host := .returned (.error shuttingDownFailure) })
  | probe {s k} (h : (s.evals k).host = .idle) :
      Step s (s.set k { s.evals k with host := .probing, probe := .inFlight })
  | probeFails {s k} (elapsed timeout e prevTimedOut) (h : (s.evals k).host = .probing) :
      Step s (s.set k { s.evals k with
        host := .returned (.error (probeFailure elapsed timeout e prevTimedOut)) })
  | probed {s k nonce} (h : (s.evals k).host = .probing) (ha : (s.evals k).answer = some nonce) :
      Step s (s.set k { s.evals k with host := .reserving, armed := some nonce })
  | tooMany {s k} (h : (s.evals k).host = .reserving) :
      Step s (s.set k { s.evals k with host := .returned (.error tooManyFailure) })
  | reserve {s k} (h : (s.evals k).host = .reserving) :
      Step s (s.set k { s.evals k with host := .sending, slot := true })
  | late {s k} (elapsed timeout) (h : (s.evals k).host = .sending) :
      Step s (s.set k { s.evals k with
        host := .returned (.error (lateProbeFailure elapsed timeout)), slot := false })
  | deliver {s k} (h : (s.evals k).host = .sending) :
      Step s (s.set k { s.evals k with host := .checking, wrapper := .inFlight })
  | deliveryFails {s k} (elapsed timeout e) (h : (s.evals k).host = .sending) :
      Step s (s.set k { s.evals k with
        host := .returned (.error (deliveryFailure elapsed timeout e)), slot := false
        wrapper := .failed e })
  | deliverCheck {s k} (h : (s.evals k).host = .checking) :
      Step s (s.set k { s.evals k with
        host := .waiting (s.evals k).armed.isSome, check := .inFlight })
  | checkFails {s k} (e) (h : (s.evals k).host = .checking) :
      Step s (s.set k { s.evals k with host := .waiting false, check := .failed e })
  | receive {s k armed raw} (h : (s.evals k).host = .waiting armed)
      (hr : (s.evals k).received = some raw) :
      Step s (s.set k { s.evals k with
        host := .returned (receivedResult parse print raw), slot := false })
  | giveUp {s k armed} (why : GiveUp) (h : (s.evals k).host = .waiting armed)
      (hr : (s.evals k).received = none) :
      Step s (s.set k { s.evals k with
        host := .returned (.error (giveUpFailure armed why)), slot := false })
  | drop {s k} (h : ∀ result, (s.evals k).host ≠ .returned result)
      (hidle : (s.evals k).host ≠ .idle) :
      Step s (s.set k { s.evals k with host := .dropped, slot := false })
  -- the page
  | answer {s k} (h : (s.evals k).probe = .inFlight) :
      Step s (s.set k { s.evals k with probe := .gone, answer := some s.bridge.pageNonce })
  | begin {s k} (h : (s.evals k).wrapper = .inFlight) : Step s (s.begun k)
  | check {s k} (h : (s.evals k).check = .inFlight) (horder : (s.evals k).wrapper = .gone) :
      Step s (s.inPage k { s.evals k with check := .gone }
        (s.bridge.evalCheck k (s.evals k).armed))
  | settle {s k} (outcome : Outcome number) (h : (s.evals k).code = .running s.page)
      (hran : outcome ≠ .notRun) :
      Step s (s.inPage k { s.evals k with code := .settled s.page outcome }
        (s.bridge.evalSettle k outcome))
  | settleAgain {s k} (message : JsString) (h : (s.evals k).code = .settling s.page) :
      Step s (s.inPage k { s.evals k with code := .ended s.page }
        (s.bridge.evalSettle k (.error message)))
  | accepted {s k} (h : (s.evals k).code = .settling s.page) :
      Step s (s.set k { s.evals k with code := .ended s.page })
  | reload {s} (nonce : Nonce) (hnew : nonce ∉ s.pages) :
      Step s { s with
        bridge := .new Id nonce, pages := s.pages ++ [nonce], loaded := s.history.length }
  -- what is between them
  | loseProbe {s k} (h : (s.evals k).probe = .inFlight) :
      Step s (s.set k { s.evals k with probe := .gone })
  | loseWrapper {s k} (h : (s.evals k).wrapper = .inFlight) :
      Step s (s.set k { s.evals k with wrapper := .gone })
  | loseCheck {s k} (h : (s.evals k).check = .inFlight) :
      Step s (s.set k { s.evals k with check := .gone })
  | callback {s k body before after} (hm : (s.evals k).mail = before ++ body :: after)
      (hslot : (s.evals k).slot = true) :
      Step s (s.set k { s.evals k with
        mail := before ++ after, slot := false, received := some body })
  | loseMail {s k body before after} (hm : (s.evals k).mail = before ++ body :: after) :
      Step s (s.set k { s.evals k with mail := before ++ after })

/-- Any order of steps. -/
abbrev Reaches : Evals Id Nonce number → Evals Id Nonce number → Prop :=
  Relation.ReflTransGen (Step parse print)

end Evals

end Victauri.Plugin.Mcp
