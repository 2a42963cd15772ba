import Victauri.Plugin.Mcp.Authz

/-!
# Tighter configurations

A lower profile, more disabled names, more blocked commands and keys and fewer allowed commands
never permit a call that was refused before.
-/

namespace Victauri.Plugin.Mcp.Authz

open Victauri.Core
open Plugin.PrivacyConfig (capabilityAlias isAllowedByProfile ofProfile testMatrix observeMatrix)

def profileRank : PrivacyProfile → Nat
  | .observe => 0
  | .test => 1
  | .fullControl => 2

/-- How the allowed commands of a tighter configuration relate to those of the other.  Without a
list `Test` runs no command and `FullControl` runs all of them. -/
def AllowlistTighter (config config' : Plugin.PrivacyConfig) : Prop :=
  match config.commandAllowlist, config'.commandAllowlist with
  | some allow, some allow' => allow ⊆ allow'
  | some _, none => config.profile ≠ .test ∨ config'.profile = .fullControl
  | none, some _ => config.profile ≠ .fullControl
  | none, none => True

structure Tighter (config config' : Plugin.PrivacyConfig) : Prop where
  profile : profileRank config.profile ≤ profileRank config'.profile
  disabled : config'.disabledTools ⊆ config.disabledTools
  commands : config'.commandBlocklist ⊆ config.commandBlocklist
  keys : config'.storageKeyBlocklist ⊆ config.storageKeyBlocklist
  allowlist : AllowlistTighter config config'

theorem observeMatrix_subset : observeMatrix ⊆ testMatrix := by
  have hall : ∀ name ∈ observeMatrix, name ∈ testMatrix := by decide +kernel
  exact fun name hname => hall name hname

theorem isAllowedByProfile_mono {profile profile' : PrivacyProfile} {name : String}
    (hrank : profileRank profile ≤ profileRank profile')
    (h : isAllowedByProfile profile name = true) : isAllowedByProfile profile' name = true := by
  cases profile' with
  | fullControl => rfl
  | test =>
    cases profile with
    | observe =>
      exact List.contains_iff_mem.mpr (observeMatrix_subset (List.contains_iff_mem.mp h))
    | test => exact h
    | fullControl => exact absurd hrank (by decide)
  | observe =>
    cases profile with
    | observe => exact h
    | test => exact absurd hrank (by decide)
    | fullControl => exact absurd hrank (by decide)

theorem isInvokeAllowed_iff {config : Plugin.PrivacyConfig} {command : String} :
    config.isInvokeAllowed command = true ↔
      config.disabledTools.contains "invoke_command" = false ∧
        (config.profile = .fullControl ∨ config.profile = .test ∧
          ∃ allow, config.commandAllowlist = some allow ∧ command ∈ allow) := by
  unfold Plugin.PrivacyConfig.isInvokeAllowed
  cases config.disabledTools.contains "invoke_command" <;> cases config.profile <;>
    simp [Option.any_eq_true]

section

variable {config config' : Plugin.PrivacyConfig} (htight : Tighter config config')

section

include htight

theorem contains_disabled {name : String} (h : config.disabledTools.contains name = false) :
    config'.disabledTools.contains name = false := by
  rw [Bool.eq_false_iff, ne_eq, List.contains_iff_mem] at h ⊢
  exact fun hmem => h (htight.disabled hmem)

theorem isDisabled_mono {name : String} (h : config.isDisabled name = false) :
    config'.isDisabled name = false := by
  unfold Plugin.PrivacyConfig.isDisabled at h ⊢
  rw [Bool.or_eq_false_iff] at h ⊢
  refine ⟨contains_disabled htight h.1, ?_⟩
  cases hspelling : capabilityAlias name with
  | none => rfl
  | some spelling =>
    rw [hspelling] at h
    exact contains_disabled htight h.2

/-- A list of allowed commands under `Test` stays one, or all commands are allowed. -/
theorem allowlist_of_test {allow : List String} (htest : config.profile = .test)
    (hlist : config.commandAllowlist = some allow) :
    config'.profile = .fullControl ∨ config'.profile = .test ∧
      ∃ allow', config'.commandAllowlist = some allow' ∧ allow ⊆ allow' := by
  have hallowlist := htight.allowlist
  have hrank := htight.profile
  unfold AllowlistTighter at hallowlist
  rw [htest] at hrank hallowlist
  cases hprofile : config'.profile with
  | fullControl => exact Or.inl rfl
  | observe =>
    rw [hprofile] at hrank
    exact absurd hrank (by decide)
  | test =>
    rw [hlist, hprofile] at hallowlist
    cases hlist' : config'.commandAllowlist with
    | none =>
      rw [hlist'] at hallowlist
      rcases hallowlist with hne | hfull
      · exact absurd rfl hne
      · cases hfull
    | some allow' =>
      rw [hlist'] at hallowlist
      exact Or.inr ⟨rfl, allow', rfl, hallowlist⟩

theorem testProfileAllowlistsCommands_mono (h : config.testProfileAllowlistsCommands = true) :
    config'.profile = .fullControl ∨ config'.testProfileAllowlistsCommands = true := by
  unfold Plugin.PrivacyConfig.testProfileAllowlistsCommands at h ⊢
  rw [Bool.and_eq_true, beq_iff_eq, Option.any_eq_true] at h
  obtain ⟨htest, allow, hlist, hnonempty⟩ := h
  rw [Bool.not_eq_true', List.isEmpty_eq_false_iff_exists_mem] at hnonempty
  obtain ⟨command, hmem⟩ := hnonempty
  rcases allowlist_of_test htight htest hlist with hfull | ⟨htest', allow', hlist', hsub⟩
  · exact Or.inl hfull
  · rw [Bool.and_eq_true, beq_iff_eq, Option.any_eq_true]
    refine Or.inr ⟨htest', allow', hlist', ?_⟩
    rw [Bool.not_eq_true', List.isEmpty_eq_false_iff_exists_mem]
    exact ⟨command, hsub hmem⟩

theorem isToolEnabled_mono {name : String} (h : config.isToolEnabled name = true) :
    config'.isToolEnabled name = true := by
  unfold Plugin.PrivacyConfig.isToolEnabled at h ⊢
  cases hdisabled : config.isDisabled name with
  | true =>
    rw [hdisabled] at h
    cases h
  | false =>
    rw [hdisabled, if_neg Bool.false_ne_true, Bool.or_eq_true] at h
    rw [isDisabled_mono htight hdisabled, if_neg Bool.false_ne_true, Bool.or_eq_true]
    rcases h with hallowed | hinvoke
    · exact Or.inl (isAllowedByProfile_mono htight.profile hallowed)
    · rw [Bool.and_eq_true] at hinvoke
      rcases testProfileAllowlistsCommands_mono htight hinvoke.2 with hfull | hallowlists
      · rw [hfull]
        exact Or.inl rfl
      · exact Or.inr (Bool.and_eq_true_iff.mpr ⟨hinvoke.1, hallowlists⟩)

theorem isCallAllowed_mono {tool capability : String}
    (h : config.isCallAllowed tool capability = true) :
    config'.isCallAllowed tool capability = true := by
  unfold Plugin.PrivacyConfig.isCallAllowed at h ⊢
  cases hdisabled : config.disabledTools.contains tool with
  | true =>
    rw [hdisabled] at h
    cases h
  | false =>
    rw [hdisabled, if_neg Bool.false_ne_true] at h
    rw [contains_disabled htight hdisabled, if_neg Bool.false_ne_true]
    exact isToolEnabled_mono htight h

theorem isInvokeAllowed_mono {command : String} (h : config.isInvokeAllowed command = true) :
    config'.isInvokeAllowed command = true := by
  rw [isInvokeAllowed_iff] at h ⊢
  obtain ⟨henabled, hprofile⟩ := h
  refine ⟨contains_disabled htight henabled, ?_⟩
  rcases hprofile with hfull | ⟨htest, allow, hlist, hmem⟩
  · have hrank := htight.profile
    rw [hfull] at hrank
    cases hprofile' : config'.profile with
    | fullControl => exact Or.inl rfl
    | _ =>
      rw [hprofile'] at hrank
      exact absurd hrank (by decide)
  · rcases allowlist_of_test htight htest hlist with hfull | ⟨htest', allow', hlist', hsub⟩
    · exact Or.inl hfull
    · exact Or.inr ⟨htest', allow', hlist', hsub hmem⟩

/-- On its own this check can get stricter: without a list it passes where nothing is invoked. -/
theorem isCommandAllowed_mono {command : String} (hinvoke : config.isInvokeAllowed command = true)
    (h : config.isCommandAllowed command = true) : config'.isCommandAllowed command = true := by
  have hallowlist := htight.allowlist
  unfold AllowlistTighter at hallowlist
  unfold Plugin.PrivacyConfig.isCommandAllowed at h ⊢
  cases hblocked : config.commandBlocklist.contains command with
  | true =>
    rw [hblocked] at h
    cases h
  | false =>
    have hblocked' : config'.commandBlocklist.contains command = false := by
      rw [Bool.eq_false_iff, ne_eq, List.contains_iff_mem] at hblocked ⊢
      exact fun hmem => hblocked (htight.commands hmem)
    rw [hblocked, if_neg Bool.false_ne_true] at h
    rw [hblocked', if_neg Bool.false_ne_true]
    cases hlist' : config'.commandAllowlist with
    | none => rfl
    | some allow' =>
      cases hlist : config.commandAllowlist with
      | some allow =>
        rw [hlist] at h
        rw [hlist, hlist'] at hallowlist
        exact List.contains_iff_mem.mpr (hallowlist (List.contains_iff_mem.mp h))
      | none =>
        -- without a list only `FullControl` invokes
        rw [hlist, hlist'] at hallowlist
        rcases (isInvokeAllowed_iff.mp hinvoke).2 with hfull | ⟨_, allow, hsome, _⟩
        · exact absurd hfull hallowlist
        · rw [hlist] at hsome
          cases hsome

/-! ## The checks of a handler -/

/-- Where a check of the command's list stands, that of the invocation does too. -/
def Paired (checks : List Gate) : Prop :=
  ∀ command, Gate.commandAllowed command ∈ checks → Gate.invokeAllowed command ∈ checks

theorem all_mono {checks : List Gate} (hpaired : Paired checks)
    (h : checks.all (Gate.passes config) = true) : checks.all (Gate.passes config') = true := by
  rw [List.all_eq_true] at h ⊢
  intro gate hgate
  have hpass := h gate hgate
  cases gate with
  | toolEnabled name => exact isToolEnabled_mono htight hpass
  | callAllowed tool capability => exact isCallAllowed_mono htight hpass
  | invokeAllowed command => exact isInvokeAllowed_mono htight hpass
  | commandAllowed command =>
    exact isCommandAllowed_mono htight (h _ (hpaired command hgate)) hpass
  | storageKeyAllowed key =>
    have hkey : config.storageKeyBlocklist.contains key = false := by
      rwa [Gate.passes, Plugin.PrivacyConfig.isStorageKeyAllowed, Bool.not_eq_true'] at hpass
    rw [Gate.passes, Plugin.PrivacyConfig.isStorageKeyAllowed, Bool.not_eq_true', Bool.eq_false_iff,
      ne_eq, List.contains_iff_mem]
    rw [Bool.eq_false_iff, ne_eq, List.contains_iff_mem] at hkey
    exact fun hmem => hkey (htight.keys hmem)

theorem executeTool_mono {tool : String} {args : Json.Value}
    (h : executeTool config tool args = .dispatched) :
    executeTool config' tool args = .dispatched := by
  unfold executeTool at h ⊢
  cases hdisabled : config.disabledTools.contains tool with
  | true =>
    rw [hdisabled] at h
    cases h
  | false =>
    rw [hdisabled, if_neg Bool.false_ne_true] at h
    rw [contains_disabled htight hdisabled, if_neg Bool.false_ne_true]
    cases hcapability : resolveCapability tool args with
    | error message =>
      rw [hcapability] at h
      cases h
    | ok capability =>
      rw [hcapability] at h
      dsimp only at h ⊢
      cases hallowed : config.isCallAllowed tool capability with
      | false =>
        rw [hallowed] at h
        cases h
      | true => rw [isCallAllowed_mono htight hallowed]; rfl

end

theorem paired_append {checks checks' : List Gate} (h : Paired checks) (h' : Paired checks') :
    Paired (checks ++ checks') := by
  intro command hmem
  rw [List.mem_append] at hmem ⊢
  exact hmem.imp (h command) (h' command)

theorem paired_commandGates (command : Option String) : Paired (commandGates command) := by
  intro name hmem
  cases command with
  | none => cases hmem
  | some command =>
    simp only [commandGates, List.mem_cons, List.not_mem_nil, or_false, reduceCtorEq, false_or,
      Gate.commandAllowed.injEq] at hmem
    rw [hmem]
    exact List.mem_cons_self

/-- Checks among which no command's is paired. -/
theorem paired_of_none {checks : List Gate} (h : ∀ command, Gate.commandAllowed command ∉ checks) :
    Paired checks := fun command hmem => absurd hmem (h command)

theorem paired_gates (readsStdout : Bool) (tool : String) (args : Json.Value) :
    Paired (gates readsStdout tool args) := by
  unfold gates
  dsimp only
  split
  case h_2 =>
    -- `invoke_command`
    apply paired_append (paired_commandGates _)
    split <;> exact paired_of_none (by simp)
  case h_4 =>
    -- `verify_state`
    split
    · exact paired_of_none (by simp)
    · exact @paired_append [_] _ (paired_of_none (by simp)) (paired_commandGates _)
  case h_19 =>
    -- `introspect`
    split
    · exact @paired_append [_] _ (paired_of_none (by simp)) (paired_commandGates _)
    · exact paired_of_none (by simp)
  all_goals first
    | exact paired_of_none (by simp)
    | split <;> exact paired_of_none (by simp)

/-- A tighter configuration carries out no call that the other refuses. -/
theorem permitted_tighter (htight : Tighter config config') {readsStdout : Bool} {tool : String}
    {args : Json.Value} (h : permitted config readsStdout tool args = true) :
    permitted config' readsStdout tool args = true := by
  unfold permitted at h ⊢
  rw [Bool.and_eq_true, Bool.and_eq_true, decide_eq_true_iff] at h ⊢
  obtain ⟨⟨hdispatched, hhandler⟩, hgates⟩ := h
  exact ⟨⟨executeTool_mono htight hdispatched, hhandler⟩,
    all_mono htight (paired_gates readsStdout tool args) hgates⟩

/-- `Test` with one command that may be invoked. -/
def saveOnly : Plugin.PrivacyConfig :=
  { ofProfile .test with
    commandAllowlist := some ["save"]
    disabledTools := ["eval_js"] }

theorem saveOnly_tighter : Tighter saveOnly (ofProfile .fullControl) where
  profile := by decide
  disabled := List.nil_subset _
  commands := List.nil_subset _
  keys := List.nil_subset _
  allowlist := Or.inr rfl

theorem permitted_tighter_save :
    permitted (ofProfile .fullControl) false "invoke_command"
      (.object [("command", .string "save"), ("with_logs", .bool true)]) = true :=
  permitted_tighter saveOnly_tighter (by decide +kernel)

end

end Victauri.Plugin.Mcp.Authz
