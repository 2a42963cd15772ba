import Mathlib.Data.List.Dedup
import Mathlib.Data.List.Sort

/-!
# Commands on one side only

`detect_ghost_commands` of `verification.rs`.  Of a registered command the name and the description
are used.
-/

namespace Victauri.Core.Verification

structure CommandInfo where
  name : String
  description : Option String
  deriving DecidableEq

inductive GhostSource where
  | frontendOnly
  | registryOnly
  deriving DecidableEq

structure GhostCommand where
  name : String
  source : GhostSource
  description : Option String
  deriving DecidableEq

structure GhostCommandReport where
  frontendOnly : List GhostCommand
  registryOnly : List GhostCommand
  totalFrontendCommands : Nat
  totalRegistryCommands : Nat

/-- `sort_by` on the names, which keeps the order of equal ones. -/
def sortByName (commands : List GhostCommand) : List GhostCommand :=
  commands.mergeSort fun a b => decide (a.name ≤ b.name)

def frontendOnlyDescription : String :=
  "Invoked from the frontend but absent from Victauri's introspection registry " ++
    "(#[inspectable]/register_command_names). NOT necessarily a real ghost — only a " ++
    "missing-handler bug if the registry mirrors the app's full command set."

/-- `detect_ghost_commands`, on what the registry lists. -/
def detectGhostCommands (frontendCommands : List String) (registry : List CommandInfo) :
    GhostCommandReport :=
  let registryNames := registry.map CommandInfo.name
  let frontendSet := frontendCommands.dedup
  { frontendOnly := sortByName ((frontendSet.filter (· ∉ registryNames)).map fun name =>
      { name := name
        source := .frontendOnly
        description := some frontendOnlyDescription })
    registryOnly := sortByName ((registry.filter (·.name ∉ frontendSet)).map fun cmd =>
      { name := cmd.name
        source := .registryOnly
        description := cmd.description })
    totalFrontendCommands := frontendSet.length
    totalRegistryCommands := registry.length }

theorem mem_sortByName {command : GhostCommand} {commands : List GhostCommand} :
    command ∈ sortByName commands ↔ command ∈ commands := List.mem_mergeSort

/-- What is invoked and not registered. -/
theorem mem_frontendOnly {frontendCommands : List String} {registry : List CommandInfo}
    {name : String} :
    (∃ command ∈ (detectGhostCommands frontendCommands registry).frontendOnly,
        command.name = name) ↔
      name ∈ frontendCommands ∧ name ∉ registry.map CommandInfo.name := by
  constructor
  · rintro ⟨command, hcommand, rfl⟩
    obtain ⟨name, hname, rfl⟩ := List.mem_map.mp (mem_sortByName.mp hcommand)
    rw [List.mem_filter, List.mem_dedup, decide_eq_true_eq] at hname
    exact hname
  · rintro ⟨hinvoked, hregistered⟩
    refine ⟨⟨name, .frontendOnly, some frontendOnlyDescription⟩, mem_sortByName.mpr ?_, rfl⟩
    apply List.mem_map_of_mem (f := _)
    rw [List.mem_filter, List.mem_dedup, decide_eq_true_eq]
    exact ⟨hinvoked, hregistered⟩

end Victauri.Core.Verification
