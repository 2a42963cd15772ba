import Mathlib.Data.List.Infix
import Victauri.Core.Verification.Ghosts

/-!
# The report of ghost commands

`build_ghost_report` of the plugin's `helpers.rs`, but for the note that explains it.  The commands
of error samples go through `str::to_lowercase`, which is a parameter.
-/

namespace Victauri.Plugin.Mcp

open Victauri.Core.Verification

/-- What was observed of a command. -/
structure IpcOutcome where
  command : String
  ok : Bool
  err : Option String
  pmOk : Bool
  pmErr : Option String
  deriving DecidableEq

def isFrameworkBuiltin (name : String) : Bool := "plugin:".toList.isPrefixOf name.toList

def contains (text pattern : String) : Bool := decide (pattern.toList <:+: text.toList)

structure GhostReport where
  confirmedGhosts : List (String × String)
  verifiedHandlers : Nat
  frontendOnly : List GhostCommand
  /-- Each with whether it was seen to succeed, and its error. -/
  postMessageOnly : List (String × Bool × Option String)
  excludedBuiltins : List String
  registryOnly : List GhostCommand
  totalFrontendCommands : Nat
  totalRegistryCommands : Nat
  reliability : String

section

variable (toLowercase : String → String)

def errorMeansNotFound (err command : String) : Bool :=
  contains err "unknown command" || contains err "not registered" ||
    (contains err "not found" && (contains err "command" || contains err (toLowercase command)))

/-- The error of a confirmed ghost. -/
def ghostError (o : IpcOutcome) : Option String :=
  if o.ok ∨ isFrameworkBuiltin o.command then none
  else o.err.filter fun err => errorMeansNotFound toLowercase err o.command

/-- Whether a command was seen over postMessage only. -/
def isPostMessageOnly (o : IpcOutcome) : Bool :=
  !o.ok && o.err.isNone && (o.pmOk || o.pmErr.isSome) && !isFrameworkBuiltin o.command

/-- `build_ghost_report`. -/
def buildGhostReport (outcomes : List IpcOutcome) (registry : List CommandInfo) : GhostReport :=
  let invoked := outcomes.map IpcOutcome.command
  let handled := ((outcomes.filter IpcOutcome.ok).map IpcOutcome.command).dedup
  let report := detectGhostCommands invoked registry
  let confirmed := outcomes.filterMap fun o =>
    (ghostError toLowercase o).map fun err => (o.command, err)
  let confirmedNames := (confirmed.map Prod.fst).dedup
  let postMessageOnly := (outcomes.filter isPostMessageOnly).map fun o =>
    (o.command, o.pmOk, o.pmErr)
  let postMessageOnlyNames := (postMessageOnly.map Prod.fst).dedup
  let frontendOnly := report.frontendOnly.filter fun g =>
    g.name ∉ handled && !isFrameworkBuiltin g.name && g.name ∉ confirmedNames &&
      g.name ∉ postMessageOnlyNames
  { confirmedGhosts := confirmed
    verifiedHandlers := handled.length
    frontendOnly := frontendOnly
    postMessageOnly := postMessageOnly
    excludedBuiltins := (report.frontendOnly.map GhostCommand.name).filter isFrameworkBuiltin
    registryOnly := report.registryOnly
    totalFrontendCommands := report.totalFrontendCommands
    totalRegistryCommands := report.totalRegistryCommands
    reliability := if 0 < report.totalRegistryCommands then "high" else "low" }

/-! ## Tiers -/

inductive Tier where
  | confirmed
  | frontendOnly
  | postMessageOnly
  | excludedBuiltins
  deriving DecidableEq

/-- The names a report lists in a tier. -/
def GhostReport.listed (report : GhostReport) : Tier → List String
  | .confirmed => report.confirmedGhosts.map Prod.fst
  | .frontendOnly => report.frontendOnly.map GhostCommand.name
  | .postMessageOnly => report.postMessageOnly.map Prod.fst
  | .excludedBuiltins => report.excludedBuiltins

variable {outcomes : List IpcOutcome} {registry : List CommandInfo} {name : String}

def IsHandled (outcomes : List IpcOutcome) (name : String) : Prop :=
  ∃ o ∈ outcomes, o.ok = true ∧ o.command = name

def IsConfirmed (outcomes : List IpcOutcome) (name : String) : Prop :=
  ∃ o ∈ outcomes, (ghostError toLowercase o).isSome = true ∧ o.command = name

def IsPostMessageOnly (outcomes : List IpcOutcome) (name : String) : Prop :=
  ∃ o ∈ outcomes, isPostMessageOnly o = true ∧ o.command = name

theorem mem_confirmed : name ∈ (buildGhostReport toLowercase outcomes registry).listed .confirmed ↔
    IsConfirmed toLowercase outcomes name := by
  simp only [GhostReport.listed, buildGhostReport, List.map_filterMap, List.mem_filterMap,
    Option.map_map, Option.map_eq_some_iff, Option.isSome_iff_exists, IsConfirmed]
  constructor
  · rintro ⟨o, ho, err, herr, hname⟩
    exact ⟨o, ho, ⟨err, herr⟩, hname⟩
  · rintro ⟨o, ho, ⟨err, herr⟩, hname⟩
    exact ⟨o, ho, err, herr, hname⟩

theorem mem_postMessageOnly :
    name ∈ (buildGhostReport toLowercase outcomes registry).listed .postMessageOnly ↔
      IsPostMessageOnly outcomes name := by
  simp only [GhostReport.listed, buildGhostReport, List.map_map, List.mem_map, List.mem_filter,
    and_assoc, IsPostMessageOnly]
  rfl

theorem mem_handled :
    name ∈ ((outcomes.filter IpcOutcome.ok).map IpcOutcome.command).dedup ↔
      IsHandled outcomes name := by
  simp only [List.mem_dedup, List.mem_map, List.mem_filter, and_assoc, IsHandled]

theorem mem_excludedBuiltins :
    name ∈ (buildGhostReport toLowercase outcomes registry).listed .excludedBuiltins ↔
      (name ∈ outcomes.map IpcOutcome.command ∧ name ∉ registry.map CommandInfo.name) ∧
        isFrameworkBuiltin name = true := by
  rw [GhostReport.listed, buildGhostReport, List.mem_filter, List.mem_map, mem_frontendOnly]

theorem mem_frontendOnlyTier :
    name ∈ (buildGhostReport toLowercase outcomes registry).listed .frontendOnly ↔
      (name ∈ outcomes.map IpcOutcome.command ∧ name ∉ registry.map CommandInfo.name) ∧
        ¬ IsHandled outcomes name ∧ isFrameworkBuiltin name = false ∧
        ¬ IsConfirmed toLowercase outcomes name ∧ ¬ IsPostMessageOnly outcomes name := by
  have hhandled := @mem_handled outcomes
  have hconfirmed := @mem_confirmed toLowercase outcomes registry
  have hpostMessage := @mem_postMessageOnly toLowercase outcomes registry
  constructor
  · intro h
    obtain ⟨g, hg, rfl⟩ := List.mem_map.mp h
    obtain ⟨hg, hkept⟩ := List.mem_filter.mp hg
    simp only [Bool.and_eq_true, decide_eq_true_eq, Bool.not_eq_true'] at hkept
    obtain ⟨⟨⟨hnothandled, hbuiltin⟩, hnotconfirmed⟩, hnotpm⟩ := hkept
    refine ⟨mem_frontendOnly.mp ⟨g, hg, rfl⟩, ?_, hbuiltin, ?_, ?_⟩
    · exact fun h => hnothandled (hhandled.mpr h)
    · exact fun h => hnotconfirmed (List.mem_dedup.mpr (hconfirmed.mpr h))
    · exact fun h => hnotpm (List.mem_dedup.mpr (hpostMessage.mpr h))
  · rintro ⟨hlisted, hnothandled, hbuiltin, hnotconfirmed, hnotpm⟩
    obtain ⟨g, hg, rfl⟩ := mem_frontendOnly.mpr hlisted
    refine List.mem_map.mpr ⟨g, List.mem_filter.mpr ⟨hg, ?_⟩, rfl⟩
    simp only [Bool.and_eq_true, decide_eq_true_eq, Bool.not_eq_true']
    refine ⟨⟨⟨?_, hbuiltin⟩, ?_⟩, ?_⟩
    · exact fun h => hnothandled (hhandled.mp h)
    · exact fun h => hnotconfirmed (hconfirmed.mp (List.mem_dedup.mp h))
    · exact fun h => hnotpm (hpostMessage.mp (List.mem_dedup.mp h))

theorem not_isFrameworkBuiltin_of_confirmed (h : IsConfirmed toLowercase outcomes name) :
    isFrameworkBuiltin name = false := by
  obtain ⟨o, -, herror, rfl⟩ := h
  rw [ghostError] at herror
  split_ifs at herror with hnot
  · cases herror
  · exact Bool.eq_false_iff.mpr fun hbuiltin => hnot (Or.inr hbuiltin)

theorem not_isFrameworkBuiltin_of_postMessageOnly (h : IsPostMessageOnly outcomes name) :
    isFrameworkBuiltin name = false := by
  obtain ⟨o, -, honly, rfl⟩ := h
  rw [isPostMessageOnly, Bool.and_eq_true, Bool.not_eq_true'] at honly
  exact honly.2

/-! ## What a report promises -/

/-- A proven handler is in no tier of suspects, no registered command is a frontend-only one, the
tiers are disjoint, and a command that is neither registered nor a builtin and never succeeded is
in one of them. -/
structure Promised (toLowercase : String → String) (outcomes : List IpcOutcome)
    (registry : List CommandInfo) : Prop where
  handled : ∀ o ∈ outcomes, o.ok = true → ∀ tier ≠ Tier.excludedBuiltins,
    o.command ∉ (buildGhostReport toLowercase outcomes registry).listed tier
  registered : ∀ cmd ∈ registry,
    cmd.name ∉ (buildGhostReport toLowercase outcomes registry).listed .frontendOnly
  disjoint : ∀ tier tier', tier ≠ tier' →
    ((buildGhostReport toLowercase outcomes registry).listed tier).Disjoint
      ((buildGhostReport toLowercase outcomes registry).listed tier')
  placed : ∀ o ∈ outcomes, o.command ∉ registry.map CommandInfo.name →
    isFrameworkBuiltin o.command = false →
    (∀ o' ∈ outcomes, o'.command = o.command → o'.ok = false) →
    ∃! tier, o.command ∈ (buildGhostReport toLowercase outcomes registry).listed tier

/-- No two outcomes of a command contradict each other: a success beside a not-found error or beside
postMessage evidence only, or these two beside each other. -/
def Consistent (outcomes : List IpcOutcome) : Prop :=
  ∀ o ∈ outcomes, ∀ o' ∈ outcomes, o.command = o'.command →
    (o.ok = true → ghostError toLowercase o' = none ∧ isPostMessageOnly o' = false) ∧
      ((ghostError toLowercase o).isSome = true → isPostMessageOnly o' = false)

theorem consistent_of_promised (h : Promised toLowercase outcomes registry) :
    Consistent toLowercase outcomes := by
  intro o ho o' ho' hsame
  have hconfirmed := @mem_confirmed toLowercase outcomes registry
  have hpostMessage := @mem_postMessageOnly toLowercase outcomes registry
  refine ⟨fun hok => ⟨?_, ?_⟩, fun herror => ?_⟩
  · by_contra hsome
    refine h.handled o ho hok .confirmed (by decide) (hconfirmed.mpr ⟨o', ho', ?_, hsame.symm⟩)
    exact Option.isSome_iff_ne_none.mpr hsome
  · by_contra honly
    refine h.handled o ho hok .postMessageOnly (by decide)
      (hpostMessage.mpr ⟨o', ho', ?_, hsame.symm⟩)
    exact Bool.not_eq_false _ |>.mp honly
  · by_contra honly
    refine h.disjoint .confirmed .postMessageOnly (by decide) (hconfirmed.mpr ⟨o, ho, herror, rfl⟩)
      (hpostMessage.mpr ⟨o', ho', ?_, hsame.symm⟩)
    exact Bool.not_eq_false _ |>.mp honly

theorem disjoint_of_consistent (h : Consistent toLowercase outcomes) {tier tier' : Tier}
    (hne : tier ≠ tier') :
    ((buildGhostReport toLowercase outcomes registry).listed tier).Disjoint
      ((buildGhostReport toLowercase outcomes registry).listed tier') := by
  have hconfirmed := @mem_confirmed toLowercase outcomes registry
  have hfrontend := @mem_frontendOnlyTier toLowercase outcomes registry
  have hpostMessage := @mem_postMessageOnly toLowercase outcomes registry
  have hbuiltins := @mem_excludedBuiltins toLowercase outcomes registry
  let listed := (buildGhostReport toLowercase outcomes registry).listed
  have hcf : (listed .confirmed).Disjoint (listed .frontendOnly) :=
    fun _ hc hf => (hfrontend.mp hf).2.2.2.1 (hconfirmed.mp hc)
  have hcp : (listed .confirmed).Disjoint (listed .postMessageOnly) := by
    intro name hc hp
    obtain ⟨o, ho, herror, rfl⟩ := hconfirmed.mp hc
    obtain ⟨o', ho', honly, hsame⟩ := hpostMessage.mp hp
    rw [(h o ho o' ho' hsame.symm).2 herror] at honly
    cases honly
  have hcb : (listed .confirmed).Disjoint (listed .excludedBuiltins) := by
    intro name hc hb
    have hnot := not_isFrameworkBuiltin_of_confirmed toLowercase (hconfirmed.mp hc)
    rw [(hbuiltins.mp hb).2] at hnot
    cases hnot
  have hfp : (listed .frontendOnly).Disjoint (listed .postMessageOnly) :=
    fun _ hf hp => (hfrontend.mp hf).2.2.2.2 (hpostMessage.mp hp)
  have hfb : (listed .frontendOnly).Disjoint (listed .excludedBuiltins) := by
    intro name hf hb
    have hnot := (hfrontend.mp hf).2.2.1
    rw [(hbuiltins.mp hb).2] at hnot
    cases hnot
  have hpb : (listed .postMessageOnly).Disjoint (listed .excludedBuiltins) := by
    intro name hp hb
    have hnot := not_isFrameworkBuiltin_of_postMessageOnly (hpostMessage.mp hp)
    rw [(hbuiltins.mp hb).2] at hnot
    cases hnot
  cases tier with
  | confirmed =>
    cases tier' with
    | confirmed => exact absurd rfl hne
    | frontendOnly => exact hcf
    | postMessageOnly => exact hcp
    | excludedBuiltins => exact hcb
  | frontendOnly =>
    cases tier' with
    | confirmed => exact hcf.symm
    | frontendOnly => exact absurd rfl hne
    | postMessageOnly => exact hfp
    | excludedBuiltins => exact hfb
  | postMessageOnly =>
    cases tier' with
    | confirmed => exact hcp.symm
    | frontendOnly => exact hfp.symm
    | postMessageOnly => exact absurd rfl hne
    | excludedBuiltins => exact hpb
  | excludedBuiltins =>
    cases tier' with
    | confirmed => exact hcb.symm
    | frontendOnly => exact hfb.symm
    | postMessageOnly => exact hpb.symm
    | excludedBuiltins => exact absurd rfl hne

theorem promised_of_consistent (h : Consistent toLowercase outcomes) :
    Promised toLowercase outcomes registry := by
  have hconfirmed := @mem_confirmed toLowercase outcomes registry
  have hfrontend := @mem_frontendOnlyTier toLowercase outcomes registry
  have hpostMessage := @mem_postMessageOnly toLowercase outcomes registry
  refine ⟨?_, ?_, fun _ _ => disjoint_of_consistent toLowercase h, ?_⟩
  · intro o ho hok tier htier hlisted
    cases tier with
    | confirmed =>
      obtain ⟨o', ho', herror, hsame⟩ := hconfirmed.mp hlisted
      rw [((h o ho o' ho' hsame.symm).1 hok).1] at herror
      cases herror
    | frontendOnly => exact (hfrontend.mp hlisted).2.1 ⟨o, ho, hok, rfl⟩
    | postMessageOnly =>
      obtain ⟨o', ho', honly, hsame⟩ := hpostMessage.mp hlisted
      rw [((h o ho o' ho' hsame.symm).1 hok).2] at honly
      cases honly
    | excludedBuiltins => exact htier rfl
  · intro cmd hcmd hlisted
    exact (hfrontend.mp hlisted).1.2 (List.mem_map_of_mem hcmd)
  · intro o ho hregistered hbuiltin hfailed
    have hinvoked : o.command ∈ outcomes.map IpcOutcome.command := List.mem_map_of_mem ho
    have hnothandled : ¬ IsHandled outcomes o.command := by
      rintro ⟨o', ho', hok, hsame⟩
      rw [hfailed o' ho' hsame] at hok
      cases hok
    have hsome : ∃ tier, o.command ∈ (buildGhostReport toLowercase outcomes registry).listed tier := by
      by_cases hc : IsConfirmed toLowercase outcomes o.command
      · exact ⟨.confirmed, hconfirmed.mpr hc⟩
      by_cases hp : IsPostMessageOnly outcomes o.command
      · exact ⟨.postMessageOnly, hpostMessage.mpr hp⟩
      · exact ⟨.frontendOnly, hfrontend.mpr
          ⟨⟨hinvoked, hregistered⟩, hnothandled, hbuiltin, hc, hp⟩⟩
    obtain ⟨tier, htier⟩ := hsome
    refine ⟨tier, htier, fun tier' htier' => ?_⟩
    by_contra hne
    exact disjoint_of_consistent toLowercase h hne htier' htier

/-- A report keeps its promises exactly where no two outcomes of a command contradict each other. -/
theorem buildGhostReport_promised_iff (outcomes : List IpcOutcome) (registry : List CommandInfo) :
    Promised toLowercase outcomes registry ↔ Consistent toLowercase outcomes :=
  ⟨consistent_of_promised toLowercase, promised_of_consistent toLowercase⟩

end

/-- A command that succeeded once and was not found another time is a confirmed ghost. -/
theorem buildGhostReport_handled_ghost :
    ¬ Promised id
      [⟨"save", true, none, false, none⟩, ⟨"save", false, some "command save not found", false, none⟩]
      [] := by
  intro h
  have hnot := h.handled ⟨"save", true, none, false, none⟩ List.mem_cons_self rfl .confirmed
    (by decide)
  revert hnot
  decide

end Victauri.Plugin.Mcp
