import Victauri.Cli.Bridge
import Victauri.Library.Run

/-!
# The bridge among its backends

A backend under the bridge, with the sessions it issues; the state that a forward and the
availability poller share; and the histories of both, in which backends come and go.
-/

namespace Victauri.Cli.Bridge

open Core.Json Library Program

/-! ## Backends -/

/-- The sessions of a stateful backend, of which it knows the last it issued.  What it answers
to any other is one of the statuses of a stale session. -/
structure Sessions where
  mint : Nat → String
  issued : Nat
  echo : Bool
  refusal : Option String → Nat
  stale : ∀ session, refusal session = 404 ∨ refusal session = 409 ∨ refusal session = 422

def Sessions.current (sessions : Sessions) : Option String :=
  match sessions.issued with
  | 0 => none
  | n + 1 => some (sessions.mint n)

/-- A stateless backend issues no session; `label` is what a build of it puts in its place. -/
inductive Kind where
  | stateless (label : Option String)
  | stateful (sessions : Sessions)

structure Backend where
  info : ServerInfo
  answer : Value → List Value
  kind : Kind

/-- The backend processes a message. -/
def Backend.process (backend : Backend) (label : Option String) (msg : Value) : PostOutcome :=
  if expectsReply msg then ⟨200, label, backend.answer msg⟩ else ⟨202, label, []⟩

/-- What the backend makes of a post. -/
def Backend.post (backend : Backend) (session : Option String) (msg : Value) :
    PostOutcome × Backend :=
  match backend.kind with
  | .stateless label => (backend.process label msg, backend)
  | .stateful sessions =>
      if session = none ∧ method msg = "initialize" then
        (backend.process (some (sessions.mint sessions.issued)) msg,
          { backend with kind := .stateful { sessions with issued := sessions.issued + 1 } })
      else if session.isSome ∧ session = sessions.current then
        (backend.process (if sessions.echo then session else none) msg, backend)
      else (⟨sessions.refusal session, none, []⟩, backend)

/-- A backend that has just started has issued no session. -/
def Backend.isFresh (backend : Backend) : Prop :=
  match backend.kind with
  | .stateless _ => True
  | .stateful sessions => sessions.issued = 0

/-! ## The shared state -/

/-- Where the poller is: between two looks, or having seen no backend, before it drops the session
or after that and before it drops the flag. -/
inductive Poller where
  | watching
  | sawDown
  | sessionDropped
  deriving DecidableEq

structure World where
  backend : Option Backend
  session : Option String
  stateless : Bool
  cachedInit : Option InitMessage
  poller : Poller

/-- Nothing listens there. -/
def refused : PostError := ⟨true, false, "connection refused"⟩

/-- One call, on the state as it is. -/
def perform {β : Type} (op : Op β) (w : World) : β × World :=
  match op with
  | .scan => (w.backend.elim .none fun backend => .one backend.info, w)
  | .rediscover => (w.backend.map fun backend => backend.info, w)
  | .post info session msg =>
      match w.backend with
      | none => (.error refused, w)
      | some backend =>
          if backend.info = info then
            (.ok (backend.post session msg).1,
              { w with backend := some (backend.post session msg).2 })
          else (.error refused, w)
  | .stateless => (w.stateless, w)
  | .setStateless => ((), { w with stateless := true })
  | .session => (w.session, w)
  | .setSession session => ((), { w with session := some session })
  | .clearSessionIf used => ((), if w.session = used then { w with session := none } else w)
  | .cachedInit => (w.cachedInit, w)
  | .cacheInit init => ((), { w with cachedInit := some init })

/-- `spawn_availability_poller`: a look that sees a backend changes nothing here. -/
inductive Poll : World → World → Prop
  | sawDown {w : World} : w.poller = .watching → w.backend = none →
      Poll w { w with poller := .sawDown }
  | dropSession {w : World} : w.poller = .sawDown →
      Poll w { w with session := none, poller := .sessionDropped }
  | dropFlag {w : World} : w.poller = .sessionDropped →
      Poll w { w with stateless := false, poller := .watching }

/-! ## Histories -/

inductive Event where
  | line (msg : Value)
  | call
  | poll
  | gone
  | appears (backend : Backend)

section Histories

variable (same : Value → Value → Bool) (fallbackTools : List Value)

/-- Lines are handled one after another, among the poller's steps and the comings and goings of
backends. -/
inductive Step : World × Program Op (List Value) → Event → World × Program Op (List Value) → Prop
  | line {w : World} {lines : List Value} {backendUp permit queued : Bool} {msg : Value} :
      Step (w, .done lines) (.line msg)
        (w, lineProgram same fallbackTools backendUp permit queued msg)
  | call {w : World} {β : Type} {op : Op β} {next : β → Program Op (List Value)} :
      Step (w, .call op next) .call ((perform op w).2, next (perform op w).1)
  | poll {w w' : World} {p : Program Op (List Value)} : Poll w w' → Step (w, p) .poll (w', p)
  | gone {w : World} {p : Program Op (List Value)} :
      Step (w, p) .gone ({ w with backend := none }, p)
  | appears {w : World} {p : Program Op (List Value)} {backend : Backend} :
      w.backend = none → backend.isFresh →
        Step (w, p) (.appears backend) ({ w with backend := some backend }, p)

/-- `Bridge::new`. -/
def start : World × Program Op (List Value) :=
  (⟨none, none, false, none, .watching⟩, .done [])

def Reachable (w : World) : Prop :=
  ∃ events lines, Run (Step same fallbackTools) start events (w, .done lines)

end Histories

/-! ## Recovery -/

/-- The backend that is up will get the session it needs: it needs none; or the bridge may still
shake hands; or it holds the current session, and the poller is not about to drop it. -/
def Recoverable (backend : Backend) (w : World) : Prop :=
  match backend.kind with
  | .stateless _ => True
  | .stateful sessions =>
      (w.stateless = false ∧ w.cachedInit.isSome = true) ∨
        (w.session.isSome = true ∧ w.session = sessions.current ∧ w.poller ≠ .sawDown)

/-! ## What a step can change -/

/-- Everything a step of the poller can do. -/
theorem Poll.effect {w w' : World} (h : Poll w w') :
    w'.backend = w.backend ∧ w'.cachedInit = w.cachedInit ∧
      (w'.stateless = w.stateless ∨ w'.stateless = false) ∧
      (w'.session = w.session ∧ (w'.poller = .sawDown → w.poller = .watching ∧ w.backend = none) ∨
        w.poller = .sawDown ∧ w'.session = none ∧ w'.poller = .sessionDropped) := by
  cases h with
  | sawDown hpoller hdown => exact ⟨rfl, rfl, Or.inl rfl, Or.inl ⟨rfl, fun _ => ⟨hpoller, hdown⟩⟩⟩
  | dropSession hpoller => exact ⟨rfl, rfl, Or.inl rfl, Or.inr ⟨hpoller, rfl, rfl⟩⟩
  | dropFlag hpoller =>
      have hnot : Poller.watching ≠ .sawDown := by decide
      exact ⟨rfl, rfl, Or.inr rfl, Or.inl ⟨rfl, fun h => absurd h hnot⟩⟩

/-- How many more times the poller may drop the session while a backend is up. -/
def pending (w : World) : Nat := if w.poller = .sawDown then 1 else 0

/-- While a backend is up the session stays, or it goes with one of the drops. -/
theorem Poll.session {w w' : World} (h : Poll w w') (hup : w.backend ≠ none) :
    (w'.session = w.session ∧ pending w' ≤ pending w) ∨
      (w'.session = none ∧ pending w' + 1 = pending w) := by
  obtain ⟨-, -, -, ⟨hsession, hpoller⟩ | ⟨hdown, hsession, hpoller⟩⟩ := h.effect
  · refine Or.inl ⟨hsession, ?_⟩
    have hnot : w'.poller ≠ .sawDown := fun h => hup (hpoller h).2
    rw [pending, if_neg hnot]
    exact Nat.zero_le _
  · refine Or.inr ⟨hsession, ?_⟩
    rw [pending, pending, hpoller, hdown]
    rfl

end Victauri.Cli.Bridge
