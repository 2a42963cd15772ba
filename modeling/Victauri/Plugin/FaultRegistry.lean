import Victauri.Library.Run
import Mathlib.Data.List.MinMax

/-!
# The fault registry

`FaultRegistry` of `introspection.rs`.  Every call takes the write lock for all it does, and reads
the clock under it, so a call is one step.  The map's keys are the commands of its rules.
-/

namespace Victauri.Plugin

inductive FaultType where
  | delay (delayMs : UInt64)
  | error (message : String)
  | drop
  | corrupt
  deriving DecidableEq

structure FaultConfig where
  command : String
  faultType : FaultType
  triggerCount : UInt64
  maxTriggers : UInt64
  createdAt : Nat
  deriving DecidableEq

/-- `FAULT_TTL`, in nanoseconds. -/
def faultTtl : Nat := 900 * 1000000000

/-- `MAX_FAULT_RULES`. -/
def maxFaultRules : Nat := 256

namespace FaultConfig

/-- It is not yet past `FAULT_TTL`; `now` may be before it was created. -/
def isLive (config : FaultConfig) (now : Nat) : Bool := decide (now - config.createdAt < faultTtl)

def shouldTriggerAt (config : FaultConfig) (now : Nat) : Bool :=
  config.isLive now &&
    (config.maxTriggers == 0 || decide (config.triggerCount < config.maxTriggers))

end FaultConfig

/-- A rule with the number of its injection. -/
structure FaultRule where
  seq : UInt64
  config : FaultConfig
  deriving DecidableEq

def FaultRule.command (rule : FaultRule) : String := rule.config.command

def FaultRule.triggered (rule : FaultRule) : FaultRule :=
  { rule with config := { rule.config with triggerCount := rule.config.triggerCount + 1 } }

structure FaultRules where
  nextSeq : UInt64
  map : List FaultRule
  deriving DecidableEq

namespace FaultRules

def empty : FaultRules := { nextSeq := 0, map := [] }

def get (map : List FaultRule) (command : String) : Option FaultRule :=
  map.find? fun rule => rule.command == command

def remove (map : List FaultRule) (command : String) : List FaultRule :=
  map.filter fun rule => rule.command != command

def evictExpired (map : List FaultRule) (now : Nat) : List FaultRule :=
  map.filter fun rule => rule.config.isLive now

/-- The rule with the least number. -/
def oldest (map : List FaultRule) : Option FaultRule :=
  map.argmin fun rule => rule.seq.toNat

/-- Room for a rule for `command`, where the oldest rule may have to go. -/
def makeRoom (map : List FaultRule) (command : String) : List FaultRule :=
  if (get map command).isNone ∧ maxFaultRules ≤ map.length then
    match oldest map with
    | some rule => remove map rule.command
    | none => map
  else map

def inject (rules : FaultRules) (now : Nat) (config : FaultConfig) : FaultRules :=
  { nextSeq := rules.nextSeq + 1
    map := remove (makeRoom (evictExpired rules.map now) config.command) config.command ++
      [⟨rules.nextSeq, config⟩] }

def checkAndTrigger (rules : FaultRules) (now : Nat) (command : String) :
    FaultRules × Option FaultType :=
  match get rules.map command with
  | some rule =>
      if rule.config.shouldTriggerAt now then
        ({ rules with map := rules.map.map fun other =>
            if other.command = command then other.triggered else other },
          some rule.config.faultType)
      else (rules, none)
  | none => (rules, none)

def list (rules : FaultRules) (now : Nat) : FaultRules × List FaultConfig :=
  let map := evictExpired rules.map now
  ({ rules with map := map }, map.map FaultRule.config)

def clear (rules : FaultRules) (command : String) : FaultRules × Bool :=
  ({ rules with map := remove rules.map command }, (get rules.map command).isSome)

def clearAll (rules : FaultRules) : FaultRules × Nat :=
  ({ rules with map := [] }, rules.map.length)

/-! ## Calls -/

/-- A call, the clock where it reads one, and what it returned. -/
inductive Call where
  | inject (now : Nat) (config : FaultConfig)
  | check (now : Nat) (command : String) (fault : Option FaultType)
  | list (now : Nat) (configs : List FaultConfig)
  | clear (command : String) (removed : Bool)
  | clearAll (removed : Nat)
  deriving DecidableEq

/-- `s.Step call t`: in state `s` some client may make the call, with what it returned. -/
def Step (s : FaultRules) : Call → FaultRules → Prop
  | .inject now config, t => t = s.inject now config
  | .check now command fault, t => s.checkAndTrigger now command = (t, fault)
  | .list now configs, t => s.list now = (t, configs)
  | .clear command removed, t => s.clear command = (t, removed)
  | .clearAll removed, t => s.clearAll = (t, removed)

/-- The commands of the injections, in order. -/
def injected : Call → Option String
  | .inject _ config => some config.command
  | _ => none

/-- The fault of `command` took effect. -/
def Call.triggers (command : String) : Call → Bool
  | .check _ other fault => other == command && fault.isSome
  | _ => false

/-- It takes away or replaces the rule for `command`. -/
def Call.ends (command : String) : Call → Bool
  | .inject _ config => config.command == command
  | .clear other _ => other == command
  | .clearAll _ => true
  | _ => false

end FaultRules

end Victauri.Plugin
