import Victauri.Core.Usize
import Victauri.Plugin.FaultRegistry

/-!
# What a rule does

A rule in the registry has the fault, the limits and the count of the last injection for its
command, and its number is how many injections came before that one.
-/

namespace Victauri.Plugin.FaultRules

open Victauri.Library

variable {s t : FaultRules} {calls : List Call} {map : List FaultRule} {rule : FaultRule}
  {command : String}

/-! ## The map -/

theorem get_some (h : get map command = some rule) : rule ∈ map ∧ rule.command = command := by
  rw [get] at h
  have hfound := List.find?_some h
  exact ⟨List.mem_of_find?_eq_some h, beq_iff_eq.mp hfound⟩

theorem get_none (h : get map command = none) : ∀ rule ∈ map, rule.command ≠ command := by
  rw [get, List.find?_eq_none] at h
  intro rule hmem heq
  exact h rule hmem (beq_iff_eq.mpr heq)

theorem mem_remove : rule ∈ remove map command ↔ rule ∈ map ∧ rule.command ≠ command := by
  rw [remove, List.mem_filter, bne_iff_ne]

theorem remove_sublist (map : List FaultRule) (command : String) :
    (remove map command).Sublist map := List.filter_sublist

theorem remove_of_none (h : ∀ rule ∈ map, rule.command ≠ command) : remove map command = map :=
  List.filter_eq_self.mpr fun rule hmem => bne_iff_ne.mpr (h rule hmem)

theorem length_remove_lt (hmem : rule ∈ map) (hcommand : rule.command = command) :
    (remove map command).length < map.length := by
  rw [remove, List.length_filter_lt_length_iff_exists]
  refine ⟨rule, hmem, ?_⟩
  rw [bne_iff_ne, not_not]
  exact hcommand

theorem oldest_some (h : map ≠ []) : ∃ rule ∈ map, oldest map = some rule ∧
    ∀ other ∈ map, rule.seq.toNat ≤ other.seq.toNat := by
  cases holdest : oldest map with
  | none => exact absurd (List.argmin_eq_none.mp holdest) h
  | some rule =>
      exact ⟨rule, List.argmin_mem holdest, rfl,
        fun other hmem =>
          List.le_of_mem_argmin (f := fun rule : FaultRule => rule.seq.toNat) hmem holdest⟩

theorem makeRoom_sublist (map : List FaultRule) (command : String) :
    (makeRoom map command).Sublist map := by
  rw [makeRoom]
  split_ifs
  · cases oldest map with
    | none => exact List.Sublist.refl _
    | some rule => exact remove_sublist _ _
  · exact List.Sublist.refl _

/-- The rules that stay when a rule for `command` comes. -/
theorem mem_inject {now : Nat} {config : FaultConfig} (hmem : rule ∈ (s.inject now config).map) :
    rule ∈ s.map ∧ rule.command ≠ config.command ∨ rule = ⟨s.nextSeq, config⟩ := by
  rcases List.mem_append.mp hmem with hkept | hnew
  · obtain ⟨hroom, hne⟩ := mem_remove.mp hkept
    have hlive := (makeRoom_sublist _ _).subset hroom
    exact .inl ⟨(List.mem_filter.mp hlive).1, hne⟩
  · exact .inr (List.mem_singleton.mp hnew)

/-! ## What a step can do -/

/-- A rule comes, the fault of a rule takes effect, or rules go. -/
inductive Effect (s : FaultRules) : Call → FaultRules → Prop
  | injected (now : Nat) (config : FaultConfig) :
      Effect s (.inject now config) (s.inject now config)
  | triggered {command : String} {rule : FaultRule} (now : Nat)
      (hget : get s.map command = some rule) (hshould : rule.config.shouldTriggerAt now = true) :
      Effect s (.check now command (some rule.config.faultType))
        { s with map := s.map.map fun other =>
            if other.command = command then other.triggered else other }
  | kept {call : Call} {map : List FaultRule} (hmap : map.Sublist s.map)
      (hinjected : FaultRules.injected call = none) (htriggers : ∀ command, call.triggers command = false)
      (hends : ∀ rule ∈ map, call.ends rule.command = false) : Effect s call { s with map := map }

theorem Step.effect {call : Call} (h : s.Step call t) : Effect s call t := by
  cases call with
  | inject now config =>
      obtain rfl := h
      exact .injected now config
  | check now command fault =>
      have hkept : s.Effect (.check now command none) { s with map := s.map } :=
        .kept (List.Sublist.refl _) rfl (fun _ => Bool.and_false _) fun _ _ => rfl
      rw [Step, checkAndTrigger] at h
      cases hget : get s.map command with
      | none =>
          rw [hget] at h
          obtain ⟨rfl, rfl⟩ := Prod.mk.inj h
          exact hkept
      | some rule =>
          rw [hget] at h
          dsimp only at h
          split_ifs at h with hshould
          · obtain ⟨rfl, rfl⟩ := Prod.mk.inj h
            exact .triggered now hget hshould
          · obtain ⟨rfl, rfl⟩ := Prod.mk.inj h
            exact hkept
  | list now configs =>
      obtain ⟨rfl, -⟩ := Prod.mk.inj h
      exact .kept List.filter_sublist rfl (fun _ => rfl) fun _ _ => rfl
  | clear command removed =>
      obtain ⟨rfl, -⟩ := Prod.mk.inj h
      refine .kept (remove_sublist _ _) rfl (fun _ => rfl) fun rule hmem => ?_
      exact beq_eq_false_iff_ne.mpr (mem_remove.mp hmem).2.symm
  | clearAll removed =>
      obtain ⟨rfl, -⟩ := Prod.mk.inj h
      exact .kept (List.nil_sublist _) rfl (fun _ => rfl) (List.forall_mem_nil _)

/-! ## How many rules -/

theorem length_inject_le (h : s.map.length ≤ maxFaultRules) (now : Nat) (config : FaultConfig) :
    (s.inject now config).map.length ≤ maxFaultRules := by
  have hlive : (evictExpired s.map now).length ≤ maxFaultRules :=
    Nat.le_trans (List.length_filter_le _ _) h
  have hroom : (remove (makeRoom (evictExpired s.map now) config.command) config.command).length <
      maxFaultRules := by
    rw [makeRoom]
    split_ifs with hfull
    · have hne : evictExpired s.map now ≠ [] := by
        rintro hempty
        rw [hempty] at hfull
        exact absurd hfull.2 (by decide)
      obtain ⟨rule, hmem, holdest, -⟩ := oldest_some hne
      rw [holdest]
      exact Nat.lt_of_le_of_lt (List.length_filter_le _ _)
        (Nat.lt_of_lt_of_le (length_remove_lt hmem rfl) hlive)
    · cases hget : get (evictExpired s.map now) config.command with
      | none =>
          rw [hget, Option.isNone_none, eq_self, true_and, not_le] at hfull
          exact Nat.lt_of_le_of_lt (List.length_filter_le _ _) hfull
      | some rule =>
          obtain ⟨hmem, hcommand⟩ := get_some hget
          exact Nat.lt_of_lt_of_le (length_remove_lt hmem hcommand) hlive
  rw [inject, List.length_append, List.length_singleton]
  exact hroom

theorem run_length (h : Run Step empty calls s) : s.map.length ≤ maxFaultRules := by
  have hpreserved (s : FaultRules) (call : Call) (t : FaultRules)
      (hlength : s.map.length ≤ maxFaultRules) (hstep : s.Step call t) :
      t.map.length ≤ maxFaultRules := by
    cases hstep.effect with
    | injected now config => exact length_inject_le hlength now config
    | triggered => rwa [List.length_map]
    | kept hmap => exact Nat.le_trans hmap.length_le hlength
  exact h.invariant hpreserved (Nat.zero_le _)

/-! ## Where a rule comes from -/

/-- The rule is what the last injection for its command put in, `before` the calls `after` it. -/
structure Origin (calls : List Call) (rule : FaultRule) (before : List Call) (now : Nat)
    (config : FaultConfig) (after : List Call) : Prop where
  split : calls = before ++ .inject now config :: after
  command : config.command = rule.command
  faultType : config.faultType = rule.config.faultType
  createdAt : config.createdAt = rule.config.createdAt
  seq : rule.seq = UInt64.ofNat (before.filterMap injected).length
  kept : ∀ call ∈ after, call.ends rule.command = false

/-- The next rule gets the next number, and every rule has an origin. -/
structure Known (calls : List Call) (s : FaultRules) : Prop where
  nextSeq : s.nextSeq = UInt64.ofNat (calls.filterMap injected).length
  origin : ∀ rule ∈ s.map, ∃ before now config after, Origin calls rule before now config after

theorem Origin.snoc {before after : List Call} {now : Nat} {config : FaultConfig}
    (h : Origin calls rule before now config after) {call : Call} (hends : call.ends rule.command = false) :
    Origin (calls ++ [call]) rule before now config (after ++ [call]) where
  split := by rw [h.split, List.append_assoc, List.cons_append]
  command := h.command
  faultType := h.faultType
  createdAt := h.createdAt
  seq := h.seq
  kept := List.forall_mem_append.mpr ⟨h.kept, List.forall_mem_singleton.mpr hends⟩

theorem Known.step {call : Call} (h : Known calls s) (heffect : Effect s call t) :
    Known (calls ++ [call]) t := by
  cases heffect with
  | injected now config =>
      refine ⟨?_, fun rule hmem => ?_⟩
      · rw [List.filterMap_append, List.length_append]
        change s.nextSeq + 1 = _
        rw [h.nextSeq, UInt64.ofNat_add]
        rfl
      · rcases mem_inject hmem with ⟨hold, hne⟩ | rfl
        · obtain ⟨before, now', config', after, horigin⟩ := h.origin rule hold
          exact ⟨before, now', config', _,
            horigin.snoc (beq_eq_false_iff_ne.mpr hne.symm)⟩
        · exact ⟨calls, now, config, [], rfl, rfl, rfl, rfl, h.nextSeq, List.forall_mem_nil _⟩
  | @triggered checked found now hget hshould =>
      have hends (command : String) :
          (Call.check now checked (some found.config.faultType)).ends command = false := rfl
      refine ⟨?_, fun rule hmem => ?_⟩
      · rw [List.filterMap_append]
        exact h.nextSeq.trans (congrArg (fun cs : List String => UInt64.ofNat cs.length) (List.append_nil _).symm)
      · obtain ⟨old, hold, rfl⟩ := List.mem_map.mp hmem
        obtain ⟨before, now', config, after, horigin⟩ := h.origin old hold
        have hsnoc := horigin.snoc (hends old.command)
        split_ifs
        · exact ⟨before, now', config, _, hsnoc.split, hsnoc.command, hsnoc.faultType,
            hsnoc.createdAt, hsnoc.seq, hsnoc.kept⟩
        · exact ⟨before, now', config, _, hsnoc⟩
  | kept hmap hinjected _ hends =>
      refine ⟨?_, fun rule hmem => ?_⟩
      · rw [List.filterMap_append, List.filterMap_cons_none hinjected, List.filterMap_nil,
          List.append_nil]
        exact h.nextSeq
      · obtain ⟨before, now, config, after, horigin⟩ := h.origin rule (hmap.subset hmem)
        exact ⟨before, now, config, _, horigin.snoc (hends rule hmem)⟩

theorem run_known (h : Run Step empty calls s) : Known calls s :=
  Run.snocInduction (motive := Known) ⟨rfl, List.forall_mem_nil _⟩
    (fun _ _ _ _ _ ih hstep => ih.step hstep.effect) h

/-! ## When a fault takes effect -/

theorem shouldTriggerAt_live {config : FaultConfig} {now : Nat}
    (h : config.shouldTriggerAt now = true) : now - config.createdAt < faultTtl := by
  rw [FaultConfig.shouldTriggerAt, Bool.and_eq_true] at h
  exact of_decide_eq_true h.1

/-- A fault that takes effect is that of the last injection for its command, which no clear has
taken away, and its time limit has not passed. -/
theorem run_triggered {before after : List Call} {now : Nat} {fault : FaultType}
    (h : Run Step empty (before ++ .check now command (some fault) :: after) s) :
    ∃ earlier now' config between, before = earlier ++ .inject now' config :: between ∧
      config.command = command ∧ config.faultType = fault ∧
      now - config.createdAt < faultTtl ∧ ∀ call ∈ between, call.ends command = false := by
  obtain ⟨m, hbefore, hafter⟩ := h.split
  cases hafter with
  | cons hstep hrest =>
      cases hstep.effect with
      | triggered _ hget hshould =>
          obtain ⟨hmem, hcommand⟩ := get_some hget
          obtain ⟨earlier, now', config, between, horigin⟩ :=
            (run_known hbefore).origin _ hmem
          rw [← hcommand]
          refine ⟨earlier, now', config, between, horigin.split, horigin.command,
            horigin.faultType, ?_, horigin.kept⟩
          rw [horigin.createdAt]
          exact shouldTriggerAt_live hshould
      | kept _ _ htriggers =>
          have hcheck := htriggers command
          rw [Call.triggers, beq_self_eq_true] at hcheck
          exact Bool.noConfusion hcheck

/-! ## How often -/

/-- The rule of an injection has counted the `n` times its fault took effect since, which are not
more than its limit leaves. -/
structure Counted (config : FaultConfig) (n : Nat) (s : FaultRules) : Prop where
  rule : ∀ rule ∈ s.map, rule.command = config.command →
    rule.config.maxTriggers = config.maxTriggers ∧
      rule.config.triggerCount.toNat = config.triggerCount.toNat + n
  le : n ≤ config.maxTriggers.toNat - config.triggerCount.toNat

theorem counted_inject (s : FaultRules) (now : Nat) (config : FaultConfig) :
    Counted config 0 (s.inject now config) where
  rule rule hmem hcommand := by
    rcases mem_inject hmem with ⟨-, hne⟩ | rfl
    · exact absurd hcommand hne
    · exact ⟨rfl, rfl⟩
  le := Nat.zero_le _

theorem shouldTriggerAt_lt {config : FaultConfig} {now : Nat}
    (h : config.shouldTriggerAt now = true) (hmax : config.maxTriggers ≠ 0) :
    config.triggerCount.toNat < config.maxTriggers.toNat := by
  rw [FaultConfig.shouldTriggerAt, Bool.and_eq_true, Bool.or_eq_true, beq_iff_eq,
    decide_eq_true_eq] at h
  exact UInt64.lt_iff_toNat_lt.mp (h.2.resolve_left hmax)

theorem Counted.step {config : FaultConfig} {n : Nat} {call : Call} (h : Counted config n s)
    (hmax : config.maxTriggers ≠ 0) (heffect : Effect s call t)
    (hinjected : injected call ≠ some config.command) :
    Counted config (n + if call.triggers config.command then 1 else 0) t := by
  cases heffect with
  | injected now other =>
      refine ⟨fun rule hmem hcommand => ?_, h.le⟩
      rcases mem_inject hmem with ⟨hold, -⟩ | rfl
      · exact h.rule rule hold hcommand
      · exact absurd (congrArg some hcommand) hinjected
  | @triggered checked found now hget hshould =>
      obtain ⟨hfound, hcommand⟩ := get_some hget
      by_cases hsame : checked = config.command
      · subst hsame
        have htriggers : (Call.check now config.command (some found.config.faultType)).triggers
            config.command = true := Bool.and_eq_true_iff.mpr ⟨beq_self_eq_true _, rfl⟩
        rw [if_pos htriggers]
        obtain ⟨hfoundMax, hfoundCount⟩ := h.rule found hfound hcommand
        have hlt := shouldTriggerAt_lt hshould (by rw [hfoundMax]; exact hmax)
        rw [hfoundMax, hfoundCount] at hlt
        refine ⟨fun rule hmem hrule => ?_, by omega⟩
        obtain ⟨old, hold, rfl⟩ := List.mem_map.mp hmem
        split_ifs at hrule ⊢ with hold'
        · obtain ⟨holdMax, holdCount⟩ := h.rule old hold hold'
          have hword := config.maxTriggers.toNat_lt
          have hnext : (old.config.triggerCount + 1).toNat = old.config.triggerCount.toNat + 1 :=
            Core.toNat_add_one (by omega)
          refine ⟨holdMax, ?_⟩
          change (old.config.triggerCount + 1).toNat = _
          rw [hnext, holdCount, Nat.add_assoc]
        · exact absurd hrule hold'
      · have htriggers : (Call.check now checked (some found.config.faultType)).triggers
            config.command = false := Bool.and_eq_false_iff.mpr (.inl (beq_false_of_ne hsame))
        rw [if_neg (by rw [htriggers]; exact Bool.false_ne_true)]
        refine ⟨fun rule hmem hrule => ?_, h.le⟩
        obtain ⟨old, hold, rfl⟩ := List.mem_map.mp hmem
        split_ifs at hrule ⊢ with hold'
        · exact absurd (hold'.symm.trans hrule) hsame
        · exact h.rule old hold hrule
  | kept hmap _ htriggers =>
      rw [if_neg (by rw [htriggers]; exact Bool.false_ne_true)]
      exact ⟨fun rule hmem hcommand => h.rule rule (hmap.subset hmem) hcommand, h.le⟩

theorem run_counted {config : FaultConfig} {n : Nat} {between : List Call}
    (h : Run Step s between t) (hmax : config.maxTriggers ≠ 0)
    (hinjected : ∀ call ∈ between, injected call ≠ some config.command)
    (hs : Counted config n s) :
    Counted config (n + between.countP (Call.triggers config.command)) t := by
  induction h generalizing n with
  | nil => exact hs
  | cons hstep hrest ih =>
      obtain ⟨hcall, hbetween⟩ := List.forall_mem_cons.mp hinjected
      have hnext := ih hbetween (hs.step hmax hstep.effect hcall)
      rw [List.countP_cons, Nat.add_comm (List.countP _ _), ← Nat.add_assoc]
      exact hnext

/-- Until the next injection for its command, a rule's fault takes effect no more often than its
limit says. -/
theorem run_triggers_le {before between : List Call} {now : Nat} {config : FaultConfig}
    (h : Run Step empty (before ++ .inject now config :: between) s) (hmax : config.maxTriggers ≠ 0)
    (hinjected : ∀ call ∈ between, injected call ≠ some config.command) :
    between.countP (Call.triggers config.command) ≤ config.maxTriggers.toNat := by
  obtain ⟨m, -, hafter⟩ := h.split
  cases hafter with
  | cons hstep hrest =>
      obtain rfl := hstep
      have hcounted := (run_counted hrest hmax hinjected (counted_inject m now config)).le
      omega

/-! ## Which rule goes -/

/-- Two places in one list of calls. -/
theorem splits_cases {before after before' after' : List Call} {call call' : Call}
    (h : before ++ call :: after = before' ++ call' :: after') :
    before = before' ∧ call = call' ∨ (∃ mid, before' = before ++ call :: mid ∧
      after = mid ++ call' :: after') ∨ ∃ mid, before = before' ++ call' :: mid := by
  rcases List.append_eq_append_iff.mp h with ⟨mid, hbefore, hafter⟩ | ⟨mid, hbefore, hafter⟩
  · cases mid with
    | nil =>
        rw [List.append_nil] at hbefore
        exact .inl ⟨hbefore.symm, (List.cons.inj hafter).1⟩
    | cons first mid =>
        obtain ⟨rfl, hrest⟩ := List.cons.inj hafter
        exact .inr (.inl ⟨mid, hbefore, hrest⟩)
  · cases mid with
    | nil =>
        rw [List.append_nil] at hbefore
        exact .inl ⟨hbefore, (List.cons.inj hafter).1.symm⟩
    | cons first mid =>
        obtain ⟨rfl, -⟩ := List.cons.inj hafter
        exact .inr (.inr ⟨mid, hbefore⟩)

/-- `later` was injected after the last injection for `command`. -/
def InjectedAfter (calls : List Call) (command later : String) : Prop :=
  ∃ before after, calls = before ++ after ∧ some command ∉ after.map injected ∧
    some later ∈ after.map injected

theorem length_injected_cons (before mid : List Call) (now : Nat) (config : FaultConfig) :
    (before.filterMap injected).length <
      ((before ++ .inject now config :: mid).filterMap injected).length := by
  rw [List.filterMap_append, List.length_append]
  refine Nat.lt_add_of_pos_right ?_
  change 0 < (config.command :: mid.filterMap injected).length
  exact Nat.succ_pos _

/-- Of two rules, the one with the lesser number was injected longer ago. -/
theorem Known.injectedAfter (h : Known calls s)
    (hcount : (calls.filterMap injected).length ≤ 2 ^ 64) {rule other : FaultRule}
    (hrule : rule ∈ s.map) (hother : other ∈ s.map) (hle : rule.seq.toNat ≤ other.seq.toNat)
    (hne : other.command ≠ rule.command) :
    InjectedAfter calls rule.command other.command := by
  obtain ⟨before, now, config, after, horigin⟩ := h.origin rule hrule
  obtain ⟨before', now', config', after', horigin'⟩ := h.origin other hother
  have hlt := length_injected_cons before after now config
  have hlt' := length_injected_cons before' after' now' config'
  rw [← horigin.split] at hlt
  rw [← horigin'.split] at hlt'
  rw [horigin.seq, horigin'.seq, UInt64.toNat_ofNat', UInt64.toNat_ofNat',
    Nat.mod_eq_of_lt (by omega), Nat.mod_eq_of_lt (by omega)] at hle
  rcases splits_cases (horigin.split.symm.trans horigin'.split) with
    ⟨-, hcall⟩ | ⟨mid, hbefore, hafter⟩ | ⟨mid, hbefore⟩
  · obtain ⟨-, rfl⟩ := Call.inject.inj hcall
    exact absurd (horigin'.command.symm.trans horigin.command) hne
  · refine ⟨before ++ [.inject now config], after, ?_, fun hmem => ?_, ?_⟩
    · rw [horigin.split, List.append_assoc, List.singleton_append]
    · obtain ⟨call, hcall, hinjected⟩ := List.mem_map.mp hmem
      have hends := horigin.kept call hcall
      cases call with
      | inject now'' config'' =>
          exact absurd (Option.some.inj hinjected) (beq_eq_false_iff_ne.mp hends)
      | _ => exact absurd hinjected (Option.some_ne_none _).symm
    · rw [hafter, List.map_append, List.map_cons]
      refine List.mem_append_right _ (List.mem_cons.mpr (.inl ?_))
      exact congrArg some horigin'.command.symm
  · have hgreater := length_injected_cons before' mid now' config'
    rw [← hbefore] at hgreater
    omega

/-- A rule for a new command that finds the registry full: the rule injected longest ago goes. -/
theorem run_evicts (h : Run Step empty calls s)
    (hcount : (calls.filterMap injected).length ≤ 2 ^ 64) {now : Nat} {config : FaultConfig}
    (hnew : get (evictExpired s.map now) config.command = none)
    (hfull : maxFaultRules ≤ (evictExpired s.map now).length) :
    ∃ rule ∈ evictExpired s.map now,
      (s.inject now config).map =
          (evictExpired s.map now).filter (fun other => other.command != rule.command) ++
            [⟨s.nextSeq, config⟩] ∧
        ∀ other ∈ evictExpired s.map now, other.command ≠ rule.command →
          InjectedAfter calls rule.command other.command := by
  have hne : evictExpired s.map now ≠ [] := by
    intro hempty
    rw [hempty] at hfull
    exact absurd hfull (by decide)
  obtain ⟨rule, hmem, holdest, hleast⟩ := oldest_some hne
  have hlive (other : FaultRule) (hother : other ∈ evictExpired s.map now) : other ∈ s.map :=
    (List.mem_filter.mp hother).1
  refine ⟨rule, hmem, ?_, fun other hother hcommand => ?_⟩
  · have hroom : makeRoom (evictExpired s.map now) config.command =
        remove (evictExpired s.map now) rule.command := by
      rw [makeRoom, if_pos ⟨by rw [hnew]; rfl, hfull⟩, holdest]
    have hnone : ∀ other ∈ remove (evictExpired s.map now) rule.command,
        other.command ≠ config.command :=
      fun other hother => get_none hnew other (mem_remove.mp hother).1
    rw [inject, hroom, remove_of_none hnone]
    rfl
  · exact (run_known h).injectedAfter hcount (hlive rule hmem) (hlive other hother)
      (hleast other hother) hcommand

/-! ## Every run -/

/-- In every run: a rule with a limit takes effect no more often than that until it is replaced; no
fault takes effect but that of the last injection for its command, unless it was cleared or its time
limit has passed; there are never more rules than the maximum; and in the first 2⁶⁴ injections the
rule that has to make room is the one injected longest ago. -/
theorem rules_limited (h : Run Step empty calls s) :
    (∀ before now config between, calls = before ++ .inject now config :: between →
      config.maxTriggers ≠ 0 → (∀ call ∈ between, injected call ≠ some config.command) →
        between.countP (Call.triggers config.command) ≤ config.maxTriggers.toNat) ∧
    (∀ before now command fault after,
      calls = before ++ .check now command (some fault) :: after →
        ∃ earlier now' config between, before = earlier ++ .inject now' config :: between ∧
          config.command = command ∧ config.faultType = fault ∧
          now - config.createdAt < faultTtl ∧ ∀ call ∈ between, call.ends command = false) ∧
    s.map.length ≤ maxFaultRules ∧
    ((calls.filterMap injected).length ≤ 2 ^ 64 → ∀ now config,
      get (evictExpired s.map now) config.command = none →
      maxFaultRules ≤ (evictExpired s.map now).length →
        ∃ rule ∈ evictExpired s.map now,
          (s.inject now config).map =
              (evictExpired s.map now).filter (fun other => other.command != rule.command) ++
                [⟨s.nextSeq, config⟩] ∧
            ∀ other ∈ evictExpired s.map now, other.command ≠ rule.command →
              InjectedAfter calls rule.command other.command) := by
  refine ⟨?_, ?_, run_length h, fun hcount now config hnew hfull => run_evicts h hcount hnew hfull⟩
  · rintro before now config between rfl hmax hinjected
    exact run_triggers_le h hmax hinjected
  · rintro before now command fault after rfl
    exact run_triggered h

/-- Two effects of a rule that allows two, a third check, and a rule for it again. -/
theorem rules_limited_of_two :
    let config : FaultConfig := ⟨"a", .drop, 0, 2, 0⟩
    let calls : List Call := [.inject 0 config, .check 1 "a" (some .drop), .check 2 "b" none,
      .check 3 "a" (some .drop), .check 4 "a" none]
    ∃ s, Run Step empty calls s ∧ calls.tail.countP (Call.triggers "a") = 2 ∧
      calls.tail.countP (Call.triggers "a") ≤ config.maxTriggers.toNat ∧
      s.map.length ≤ maxFaultRules := by
  intro config calls
  have hrun : ∃ s, Run Step empty calls s :=
    ⟨_, .cons rfl (.cons rfl (.cons rfl (.cons rfl (.cons rfl (.nil _)))))⟩
  obtain ⟨s, hrun⟩ := hrun
  obtain ⟨htriggers, -, hlength, -⟩ := rules_limited hrun
  refine ⟨s, hrun, by decide, htriggers [] 0 config _ rfl (by decide) (by decide), hlength⟩

/-! ## When the numbers come round -/

/-- A rule for the command of `n` letters. -/
def named (n : Nat) : FaultConfig :=
  { command := String.ofList (List.replicate n 'a')
    faultType := .drop
    triggerCount := 0
    maxTriggers := 0
    createdAt := 0 }

theorem named_inj {m n : Nat} (h : (named m).command = (named n).command) : m = n := by
  have hlist := String.ofList_inj.mp h
  simpa using congrArg List.length hlist

/-- Rules for the first `n` of these commands, numbered from `seq` on. -/
def namedRules (seq n : Nat) : List FaultRule :=
  (List.range n).map fun i => ⟨UInt64.ofNat (seq + i), named i⟩

theorem mem_namedRules {seq n : Nat} : rule ∈ namedRules seq n ↔
    ∃ i < n, ⟨UInt64.ofNat (seq + i), named i⟩ = rule := by
  rw [namedRules, List.mem_map]
  simp only [List.mem_range]

theorem evictExpired_named (seq n : Nat) : evictExpired (namedRules seq n) 0 = namedRules seq n := by
  refine List.filter_eq_self.mpr fun rule hmem => ?_
  obtain ⟨i, -, rfl⟩ := mem_namedRules.mp hmem
  have hlive : 0 - 0 < faultTtl := by decide
  exact decide_eq_true hlive

theorem get_named {seq n : Nat} : get (namedRules seq n) (named n).command = none := by
  rw [get, List.find?_eq_none]
  intro rule hmem heq
  obtain ⟨i, hi, rfl⟩ := mem_namedRules.mp hmem
  exact absurd (named_inj (beq_iff_eq.mp heq)) (Nat.ne_of_lt hi)

theorem inject_named {seq n : Nat} (hmap : s.map = namedRules seq n)
    (hseq : s.nextSeq = UInt64.ofNat (seq + n)) (hn : n < maxFaultRules) :
    (s.inject 0 (named n)).map = namedRules seq (n + 1) := by
  have hlength : ¬maxFaultRules ≤ (namedRules seq n).length := by
    rw [namedRules, List.length_map, List.length_range]
    exact Nat.not_le.mpr hn
  rw [inject, hmap, evictExpired_named, makeRoom, if_neg (fun hfull => hlength hfull.2),
    remove_of_none (get_none get_named), hseq, namedRules, namedRules, List.range_succ,
    List.map_append]
  rfl

theorem inject_again {seq : Nat} (hmap : s.map = namedRules seq 1)
    (hseq : s.nextSeq = UInt64.ofNat (seq + 1)) :
    (s.inject 0 (named 0)).map = namedRules (seq + 1) 1 := by
  have hget : get (namedRules seq 1) (named 0).command = some ⟨UInt64.ofNat seq, named 0⟩ := rfl
  rw [inject, hmap, evictExpired_named, makeRoom, hget, if_neg (fun hfull => by cases hfull.1), hseq]
  rfl

/-- The first command is injected again and again, and then the others one after another. -/
theorem run_named (seq n : Nat) (hn : n < maxFaultRules) :
    ∃ calls s, Run Step empty calls s ∧ s.map = namedRules seq (n + 1) ∧
      s.nextSeq = UInt64.ofNat (seq + (n + 1)) ∧ calls.getLast? = some (.inject 0 (named n)) := by
  induction n with
  | zero =>
      induction seq with
      | zero => exact ⟨[.inject 0 (named 0)], _, .single rfl, rfl, rfl, rfl⟩
      | succ seq ih =>
          obtain ⟨calls, s, hrun, hmap, hseq, -⟩ := ih
          have hstep : s.Step (.inject 0 (named 0)) (s.inject 0 (named 0)) := rfl
          refine ⟨calls ++ [.inject 0 (named 0)], _, hrun.snoc hstep, inject_again hmap hseq, ?_,
            List.getLast?_concat⟩
          change s.nextSeq + 1 = _
          rw [hseq, Nat.add_right_comm, UInt64.ofNat_add (seq + (0 + 1)) 1]
          rfl
  | succ n ih =>
      obtain ⟨calls, s, hrun, hmap, hseq, -⟩ := ih (Nat.lt_of_succ_lt hn)
      have hstep : s.Step (.inject 0 (named (n + 1))) (s.inject 0 (named (n + 1))) := rfl
      refine ⟨calls ++ [.inject 0 (named (n + 1))], _, hrun.snoc hstep,
        inject_named hmap hseq hn, ?_, List.getLast?_concat⟩
      change s.nextSeq + 1 = _
      rw [hseq, ← Nat.add_assoc seq (n + 1) 1, UInt64.ofNat_add (seq + (n + 1)) 1]
      rfl

/-- After 2⁶⁴ injections the rule that was injected last is the one that has to make room. -/
theorem rules_come_round :
    ∃ calls s, Run Step empty calls s ∧
      calls.getLast? = some (.inject 0 (named 255)) ∧
      get (evictExpired s.map 0) (named 256).command = none ∧
      maxFaultRules ≤ (evictExpired s.map 0).length ∧
      ∀ rule ∈ (s.inject 0 (named 256)).map, rule.command ≠ (named 255).command := by
  obtain ⟨calls, s, hrun, hmap, hseq, hlast⟩ := run_named (2 ^ 64 - 255) 255 (by decide)
  have hfull : maxFaultRules ≤ (evictExpired s.map 0).length := by
    rw [hmap, evictExpired_named, namedRules, List.length_map, List.length_range]
    exact Nat.le_refl _
  have hnew : get (evictExpired s.map 0) (named 256).command = none := by
    rw [hmap, evictExpired_named]
    exact get_named
  refine ⟨calls, s, hrun, hlast, hnew, hfull, ?_⟩
  have hne : evictExpired s.map 0 ≠ [] := by
    intro hempty
    rw [hempty] at hfull
    exact absurd hfull (by decide)
  obtain ⟨oldest', hmem, holdest, hleast⟩ := oldest_some hne
  -- the last one has number 0
  have hzero : oldest'.command = (named 255).command := by
    rw [hmap, evictExpired_named] at hmem hleast
    obtain ⟨i, hi, rfl⟩ := mem_namedRules.mp hmem
    have hle := hleast _ (mem_namedRules.mpr ⟨255, by decide, rfl⟩)
    rw [UInt64.toNat_ofNat', UInt64.toNat_ofNat'] at hle
    obtain rfl : i = 255 := by omega
    rfl
  intro rule hrule
  rcases List.mem_append.mp hrule with hkept | hadded
  · have hroom := (mem_remove.mp hkept).1
    rw [makeRoom, if_pos ⟨by rw [hnew]; rfl, hfull⟩, holdest] at hroom
    rw [← hzero]
    exact (mem_remove.mp hroom).2
  · rw [List.mem_singleton.mp hadded]
    exact fun heq => absurd (named_inj heq) (by decide)

end Victauri.Plugin.FaultRules
