import Mathlib.Data.List.AList
import Victauri.Library.Run
import Victauri.Plugin.Mcp.Envelope

/-!
# Pending evals

The map of pending evals and the map of their windows (`lib.rs`, `tools.rs`, `mcp/mod.rs`), with a
step for each lock that is taken.  An eval is known by the number of its reservation, which stands
for its sender in the map.  A `try_lock` may fail at any time; what it leaves for later is a step
of its own.
-/

namespace Victauri.Plugin.PendingEvals

open Library Mcp

/-! ## Ids -/

/-- `PAGE_EVAL_PREFIX`. -/
def pageEvalPrefix : List Char := "page:".toList

/-- `Uuid::new_v4().to_string()`. -/
structure Uuid where
  text : List Char
  length_eq : text.length = 36
  isHex : ∀ c ∈ text, c.isDigit = true ∨ c ∈ ['a', 'b', 'c', 'd', 'e', 'f', '-']

/-- An agent's eval, or one that script of the page in a window started. -/
inductive Origin where
  | agent
  | page (label : List Char)
  deriving DecidableEq

def Origin.isPage : Origin → Bool
  | .agent => false
  | .page _ => true

def Origin.id (origin : Origin) (uuid : Uuid) : List Char :=
  match origin with
  | .agent => uuid.text
  | .page label => pageEvalPrefix ++ uuid.text ++ ':' :: label

/-- `str::get(n..)`, in bytes. -/
def getFrom : Nat → List Char → Option (List Char)
  | 0, text => some text
  | _ + 1, [] => none
  | n + 1, c :: text => if c.utf8Size ≤ n + 1 then getFrom (n + 1 - c.utf8Size) text else none

def pageEvalWindow (id : List Char) : Option (List Char) :=
  (stripPrefix pageEvalPrefix id).bind fun rest => (getFrom 36 rest).bind (stripPrefix [':'])

/-! ## The state -/

/-- `MAX_PENDING_EVALS`. -/
def maxPendingEvals : Nat := 100

/-- `MAX_PAGE_PENDING_EVALS`. -/
def maxPagePendingEvals : Nat := 25

/-- `MAX_PAGE_PENDING_EVALS_PER_WINDOW`. -/
def maxPagePendingEvalsPerWindow : Nat := 10

inductive EvalTarget where
  | window (label : List Char)
  | defaultWindow
  deriving DecidableEq

structure Response where
  caller : List Char
  result : String
  deriving DecidableEq

/-- Where a slot is: reserved by a page and not yet bound; held; dropped, with its entry to be
removed at once, or by a task; or gone. -/
inductive Phase where
  | binding
  | live
  | dropping
  | deferred
  | removed
  deriving DecidableEq

structure Eval where
  uuid : Uuid
  origin : Origin
  phase : Phase
  received : List Response

def Eval.id (e : Eval) : List Char := e.origin.id e.uuid

/-- A result that was accepted and is on its way to the eval. -/
structure Delivery where
  id : List Char
  response : Response
  deferred : Bool
  deriving DecidableEq

structure State where
  count : Nat
  evals : Nat → Option Eval
  pending : AList fun _ : List Char => Nat
  targets : AList fun _ : List Char => EvalTarget
  deliveries : List Delivery
  /-- The page's reservation that holds the lock of the pending map over its binding. -/
  holder : Option Nat

def initial : State := ⟨0, fun _ => none, ∅, ∅, [], none⟩

namespace State

def modify (s : State) (i : Nat) (f : Eval → Eval) : State :=
  { s with evals := Function.update s.evals i ((s.evals i).map f) }

def setPhase (s : State) (i : Nat) (phase : Phase) : State :=
  s.modify i fun e => { e with phase := phase }

/-! ## Reservations -/

/-- `PendingSlot::insert`. -/
def insert (s : State) (uuid : Uuid) (origin : Origin) (phase : Phase) : State :=
  { s with
    count := s.count + 1
    evals := Function.update s.evals s.count (some ⟨uuid, origin, phase, []⟩)
    pending := s.pending.insert (origin.id uuid) s.count }

def reservePending (s : State) (uuid : Uuid) : Except String State :=
  if maxPendingEvals ≤ s.pending.keys.length then
    .error ("too many concurrent eval requests (limit: " ++ toString maxPendingEvals ++ ")")
  else .ok (s.insert uuid .agent .live)

/-- `reserve_page_eval`, up to the binding of the slot. -/
def reservePageEval (s : State) (label : List Char) (uuid : Uuid) : Except String State :=
  let pageKeys := s.pending.keys.filter fun key => pageEvalPrefix.isPrefixOf key
  if maxPagePendingEvalsPerWindow ≤ pageKeys.countP fun key => pageEvalWindow key = some label then
    .error ("too many concurrent page-originated evals from window '" ++ String.ofList label ++
      "' (limit " ++ toString maxPagePendingEvalsPerWindow ++ ")")
  else if maxPagePendingEvals ≤ pageKeys.length then
    .error ("too many concurrent page-originated evals (limit " ++
      toString maxPagePendingEvals ++ ")")
  else if maxPendingEvals ≤ s.pending.keys.length then
    .error ("too many concurrent evals (limit " ++ toString maxPendingEvals ++ ")")
  else .ok { s.insert uuid (.page label) .binding with holder := some s.count }

def bindWindow (s : State) (e : Eval) (label : Option (List Char)) : State :=
  { s with targets := s.targets.insert e.id (label.elim .defaultWindow .window) }

/-! ## Results -/

end State

/-- The result comes from the window that the eval was sent to; `default` is what the default
window resolves to. -/
def EvalTarget.admits (target : EvalTarget) (default : Option (List Char)) (caller : List Char) :
    Bool :=
  match target with
  | .window label => label == caller
  | .defaultWindow => default == some caller

namespace State

def evalResultAccepted (s : State) (id caller : List Char) (default : Option (List Char)) : Bool :=
  match s.targets.lookup id with
  | some target => target.admits default caller
  | none => false

def acceptEvalResult (s : State) (caller : List Char) (default : Option (List Char))
    (id : List Char) (result : String) : State :=
  if s.evalResultAccepted id caller default then
    { s with deliveries := s.deliveries ++ [⟨id, ⟨caller, result⟩, false⟩] }
  else s

/-- The entry goes and its sender sends, if there is one. -/
def deliverEvalResult (s : State) (id : List Char) (response : Response) : State :=
  match s.pending.lookup id with
  | some i =>
      { s with pending := s.pending.erase id }.modify i fun e =>
        { e with received := e.received ++ [response] }
  | none => s

end State

/-! ## Steps -/

inductive Action where
  | reserve (uuid : Uuid)
  | reservePage (label : List Char) (uuid : Uuid)
  | bindPage (i : Nat)
  | bind (i : Nat) (label : Option (List Char))
  | drop (i : Nat)
  | defer (i : Nat)
  | remove (i : Nat)
  | accept (id caller : List Char) (default : Option (List Char)) (result : String)
  | postpone (d : Delivery)
  | deliver (d : Delivery)

/-- No eval has had this uuid. -/
def Fresh (s : State) (uuid : Uuid) : Prop :=
  ∀ i e, s.evals i = some e → e.uuid.text ≠ uuid.text

/-- The steps of any number of evals and webviews. -/
inductive Step : State → Action → State → Prop
  | reserve {s t : State} {uuid : Uuid} : s.holder = none → Fresh s uuid →
      s.reservePending uuid = .ok t → Step s (.reserve uuid) t
  | reservePage {s t : State} {label : List Char} {uuid : Uuid} : s.holder = none → Fresh s uuid →
      s.reservePageEval label uuid = .ok t → Step s (.reservePage label uuid) t
  | bindPage {s : State} {i : Nat} {e : Eval} {label : List Char} : s.holder = some i →
      s.evals i = some e → e.origin = .page label →
        Step s (.bindPage i)
          { (s.bindWindow e (some label)).setPhase i .live with holder := none }
  | bind {s : State} {i : Nat} {e : Eval} {label : Option (List Char)} : s.evals i = some e →
      e.phase = .live → Step s (.bind i label) (s.bindWindow e label)
  | drop {s : State} {i : Nat} {e : Eval} : s.evals i = some e → e.phase = .live →
      Step s (.drop i) ({ s with targets := s.targets.erase e.id }.setPhase i .dropping)
  | defer {s : State} {i : Nat} {e : Eval} : s.evals i = some e → e.phase = .dropping →
      Step s (.defer i) (s.setPhase i .deferred)
  | remove {s : State} {i : Nat} {e : Eval} : s.holder = none → s.evals i = some e →
      e.phase = .dropping ∨ e.phase = .deferred →
        Step s (.remove i) ({ s with pending := s.pending.erase e.id }.setPhase i .removed)
  | accept {s : State} {id caller : List Char} {default : Option (List Char)} {result : String} :
      Step s (.accept id caller default result) (s.acceptEvalResult caller default id result)
  | postpone {s : State} {d : Delivery} {before after : List Delivery} :
      s.deliveries = before ++ d :: after → d.deferred = false →
        Step s (.postpone d)
          { s with deliveries := before ++ { d with deferred := true } :: after }
  | deliver {s : State} {d : Delivery} {before after : List Delivery} : s.holder = none →
      s.deliveries = before ++ d :: after →
        Step s (.deliver d)
          ({ s with deliveries := before ++ after }.deliverEvalResult d.id d.response)

end Victauri.Plugin.PendingEvals
