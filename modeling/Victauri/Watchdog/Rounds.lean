import Mathlib.Algebra.Group.Nat.Defs
import Victauri.Watchdog
import Mathlib.Data.List.Basic

/-!
# The rounds of the watchdog

The recovery action runs in the round whose failure is the `max_failures`-th in a row.  The target
moves only to the one app that discovery finds, and only among the entries that match the selector.
-/

namespace Victauri.Watchdog

open Victauri.Library

variable {config : Config} {w w' : Watch} {selector : Selector}

/-! ## What a round does -/

theorem follow_counts (w : Watch) (config : Config) (roots : List Root)
    (liveness : UInt32 → Liveness) :
    (w.follow config roots liveness).consecutiveFailures = w.consecutiveFailures ∧
      (w.follow config roots liveness).actionFired = w.actionFired := by
  rw [Watch.follow]
  split_ifs
  · cases followTarget w.target w.selector (discoverApp roots w.selector liveness) with
    | mk next selector => cases next <;> exact ⟨rfl, rfl⟩
  · exact ⟨rfl, rfl⟩

/-- The failures in a row, and whether they were enough for the action. -/
structure Counts (config : Config) (n : Nat) (w : Watch) : Prop where
  failures : w.consecutiveFailures.toNat = n
  fired : w.actionFired = decide (config.maxFailures.toNat ≤ n)

theorem maxFailures_pos (config : Config) : 0 < config.maxFailures.toNat :=
  UInt32.le_iff_toNat_le.mp config.maxFailures_ge

theorem Counts.poll_down {n : Nat} (h : Counts config n w) (hn : n + 1 < 2 ^ 32) :
    (w.poll false).consecutiveFailures.toNat = n + 1 ∧ (w.poll false).actionFired = w.actionFired := by
  refine ⟨?_, rfl⟩
  change (w.consecutiveFailures + 1).toNat = n + 1
  rw [UInt32.toNat_add, h.failures]
  exact Nat.mod_eq_of_lt hn

theorem Counts.poll_up {n : Nat} (h : Counts config n w) : Counts config 0 (w.poll true) := by
  rw [Watch.poll, if_pos rfl]
  have hzero : decide (config.maxFailures.toNat ≤ 0) = false :=
    decide_eq_false (Nat.not_le.mpr (maxFailures_pos config))
  split_ifs with hpos
  · exact ⟨rfl, hzero.symm⟩
  · have hnone : w.consecutiveFailures.toNat = 0 := by
      rw [UInt32.lt_iff_toNat_lt] at hpos
      exact Nat.eq_zero_of_not_pos hpos
    refine ⟨hnone, ?_⟩
    rw [h.fired, ← h.failures, hnone]

/-- The action runs with the failure that makes the count `max_failures`. -/
theorem Counts.turn_down {n : Nat} {round : Round} {outcome : Outcome} (h : Counts config n w)
    (hturn : w.turn config round = (w', outcome)) (hfailed : outcome.failed = true)
    (hn : n + 1 < 2 ^ 32) :
    Counts config (n + 1) w' ∧ outcome.acted = decide (n + 1 = config.maxFailures.toNat) := by
  rw [Watch.turn] at hturn
  obtain ⟨rfl, rfl⟩ := Prod.mk.inj hturn
  have hup : pollHealth w.target round.liveness round.status = false :=
    Bool.not_eq_true' _ ▸ hfailed
  rw [hup]
  obtain ⟨hfailures, hfired⟩ :=
    follow_counts (w.poll false) config round.roots round.livenessAfter
  obtain ⟨hcount, hsame⟩ := h.poll_down hn
  have hacts : (decide (config.maxFailures ≤
      ((w.poll false).follow config round.roots round.livenessAfter).consecutiveFailures) &&
        !((w.poll false).follow config round.roots round.livenessAfter).actionFired) =
      decide (n + 1 = config.maxFailures.toNat) := by
    rw [hfailures, hfired, hsame, h.fired, Bool.eq_iff_iff]
    simp only [UInt32.le_iff_toNat_le, hcount, Bool.and_eq_true, decide_eq_true_eq,
      Bool.not_eq_true', decide_eq_false_iff_not]
    omega
  refine ⟨⟨(congrArg UInt32.toNat hfailures).trans hcount, ?_⟩, hacts⟩
  dsimp only
  rw [hacts, hfired, hsame, h.fired, Bool.eq_iff_iff]
  simp only [Bool.or_eq_true, decide_eq_true_eq]
  omega

theorem Counts.turn_up {n : Nat} {round : Round} {outcome : Outcome} (h : Counts config n w)
    (hturn : w.turn config round = (w', outcome)) (hup : outcome.failed = false) :
    Counts config 0 w' ∧ outcome.acted = false := by
  rw [Watch.turn] at hturn
  obtain ⟨rfl, rfl⟩ := Prod.mk.inj hturn
  have hpoll : pollHealth w.target round.liveness round.status = true :=
    Bool.not_eq_false' _ ▸ hup
  rw [hpoll]
  obtain ⟨hfailures, hfired⟩ :=
    follow_counts (w.poll true) config round.roots round.livenessAfter
  have hzero := h.poll_up
  have hacts : (decide (config.maxFailures ≤
      ((w.poll true).follow config round.roots round.livenessAfter).consecutiveFailures) &&
        !((w.poll true).follow config round.roots round.livenessAfter).actionFired) = false := by
    rw [hfailures, Bool.and_eq_false_iff]
    left
    rw [decide_eq_false_iff_not, UInt32.le_iff_toNat_le, hzero.failures]
    exact Nat.not_le.mpr (maxFailures_pos config)
  refine ⟨⟨(congrArg UInt32.toNat hfailures).trans hzero.failures, ?_⟩, hacts⟩
  dsimp only
  rw [hacts, hfired, Bool.or_false]
  exact hzero.fired

/-! ## Runs of failures -/

/-- No 2³² polls in a row failed. -/
def Bounded (rounds : List (Round × Outcome)) : Prop :=
  ∀ before run after, rounds = before ++ run ++ after → (∀ a ∈ run, a.2.failed = true) →
    run.length < 2 ^ 32

/-- It is empty, or its last poll did not fail. -/
def EndsUp (rounds : List (Round × Outcome)) : Prop :=
  ∀ a, rounds.getLast? = some a → a.2.failed = false

theorem Bounded.of_append {as bs : List (Round × Outcome)} (h : Bounded (as ++ bs)) :
    Bounded as := by
  intro before run after hrounds hfailed
  refine h before run (after ++ bs) ?_ hfailed
  rw [hrounds, List.append_assoc]

theorem counts_start (config : Config) (roots : List Root) (liveness : UInt32 → Liveness) :
    Counts config 0 (start config roots liveness) :=
  ⟨rfl, (decide_eq_false (Nat.not_le.mpr (maxFailures_pos config))).symm⟩

/-- The count is that of the failures since the last poll that did not fail. -/
theorem run_counts {rounds : List (Round × Outcome)} {w₀ : Watch}
    (h : Run (Step config) w₀ rounds w) (hstart : Counts config 0 w₀) (hbounded : Bounded rounds) :
    ∃ before run, rounds = before ++ run ∧ EndsUp before ∧ (∀ a ∈ run, a.2.failed = true) ∧
      Counts config run.length w := by
  refine Run.snocInduction (motive := fun rounds w => Bounded rounds →
    ∃ before run, rounds = before ++ run ∧ EndsUp before ∧ (∀ a ∈ run, a.2.failed = true) ∧
      Counts config run.length w) (fun _ => ?_) ?_ h hbounded
  · exact ⟨[], [], rfl, fun a ha => absurd ha (Option.some_ne_none a).symm,
      List.forall_mem_nil _, hstart⟩
  · intro rounds w a w' hrun ih hstep hbounded
    obtain ⟨before, run, rfl, hup, hfailed, hcounts⟩ := ih hbounded.of_append
    have hlength (hlast : a.2.failed = true) : run.length + 1 < 2 ^ 32 := by
      have hlt := hbounded before (run ++ [a]) [] (by rw [List.append_nil, List.append_assoc])
        (List.forall_mem_append.mpr ⟨hfailed, List.forall_mem_singleton.mpr hlast⟩)
      rw [List.length_append, List.length_singleton] at hlt
      exact hlt
    cases hlast : a.2.failed with
    | true =>
        refine ⟨before, run ++ [a], List.append_assoc _ _ _, hup,
          List.forall_mem_append.mpr ⟨hfailed, List.forall_mem_singleton.mpr hlast⟩, ?_⟩
        rw [List.length_append, List.length_singleton]
        exact (hcounts.turn_down hstep hlast (hlength hlast)).1
    | false =>
        refine ⟨before ++ run ++ [a], [], (List.append_nil _).symm, fun b hb => ?_,
          List.forall_mem_nil _, (hcounts.turn_up hstep hlast).1⟩
        rw [List.getLast?_concat] at hb
        obtain rfl := Option.some.inj hb
        exact hlast

theorem counts_of_endsUp {rounds : List (Round × Outcome)} {w₀ : Watch}
    (h : Run (Step config) w₀ rounds w) (hstart : Counts config 0 w₀) (hbounded : Bounded rounds)
    (hup : EndsUp rounds) : Counts config 0 w := by
  obtain ⟨before, run, rfl, -, hfailed, hcounts⟩ := run_counts h hstart hbounded
  cases run using List.reverseRecOn with
  | nil => exact hcounts
  | append_singleton run a =>
      have hlast := hup a (by rw [← List.append_assoc, List.getLast?_concat])
      rw [hfailed a (List.mem_append_right _ List.mem_cons_self)] at hlast
      exact Bool.noConfusion hlast

/-- Of polls that all fail, the one that makes the count `max_failures` is the one that acts. -/
theorem count_acted {run : List (Round × Outcome)} {n : Nat} (h : Run (Step config) w run w')
    (hcounts : Counts config n w) (hfailed : ∀ a ∈ run, a.2.failed = true)
    (hlength : n + run.length < 2 ^ 32) :
    run.countP (fun a => a.2.acted) =
      if n < config.maxFailures.toNat ∧ config.maxFailures.toNat ≤ n + run.length then 1 else 0 := by
  induction h generalizing n with
  | nil =>
      rw [List.countP_nil, if_neg]
      intro hmax
      rw [List.length_nil] at hmax
      omega
  | @cons w m w' a run hstep hrest ih =>
      rw [List.length_cons] at hlength
      obtain ⟨hfirst, hothers⟩ := List.forall_mem_cons.mp hfailed
      obtain ⟨hnext, hacted⟩ := hcounts.turn_down hstep hfirst (by omega)
      rw [List.countP_cons, ih hnext hothers (by omega), hacted, List.length_cons]
      simp only [decide_eq_true_eq]
      split_ifs <;> omega

/-- The action runs once in a run of failures that is long enough, and not in a shorter one. -/
theorem run_acts {before run after : List (Round × Outcome)} {w₀ : Watch}
    (h : Run (Step config) w₀ (before ++ run ++ after) w) (hstart : Counts config 0 w₀)
    (hbounded : Bounded (before ++ run ++ after)) (hup : EndsUp before)
    (hfailed : ∀ a ∈ run, a.2.failed = true) :
    run.countP (fun a => a.2.acted) = if config.maxFailures.toNat ≤ run.length then 1 else 0 := by
  obtain ⟨m', hfront, -⟩ := h.split
  obtain ⟨m, hbefore, hrun⟩ := hfront.split
  have hcounts := counts_of_endsUp hbefore hstart hbounded.of_append.of_append hup
  have hlength := hbounded before run after rfl hfailed
  rw [count_acted hrun hcounts hfailed (by rwa [Nat.zero_add]), Nat.zero_add]
  have hpos := maxFailures_pos config
  split_ifs <;> omega

/-- A poll that does not fail runs no action. -/
theorem run_up {rounds : List (Round × Outcome)} {w₀ : Watch}
    (h : Run (Step config) w₀ rounds w) (hstart : Counts config 0 w₀) (hbounded : Bounded rounds) :
    ∀ a ∈ rounds, a.2.failed = false → a.2.acted = false := by
  intro a hmem hup
  obtain ⟨before, after, rfl⟩ := List.append_of_mem hmem
  obtain ⟨m, hbefore, hafter⟩ := h.split
  obtain ⟨-, run, -, -, -, hcounts⟩ := run_counts hbefore hstart hbounded.of_append
  cases hafter with
  | cons hstep hrest => exact (hcounts.turn_up hstep hup).2

/-! ## What discovery finds -/

/-- The live apps in trusted entries that the selector accepts. -/
def matching (roots : List Root) (selector : Selector) (isAlive : UInt32 → Bool) :
    List DiscoveredApp :=
  (roots.filter Root.trusted).flatMap fun root =>
    root.entries.filterMap fun entry => entry.app selector isAlive

theorem Merged.has_iff {merged : Merged} {pid : UInt32} :
    merged.has pid = true ↔ ∃ app ∈ merged.apps, app.1 = pid := by
  rw [Merged.has, List.any_eq_true]
  simp only [beq_iff_eq]

/-- All of `apps` were seen, and what was found is among them. -/
structure Seen (apps : List DiscoveredApp) (merged : Merged) : Prop where
  all : ∀ app ∈ apps, merged.has app.pid = true
  found : ∀ app ∈ merged.found, app ∈ apps ∧ merged.has app.pid = true

theorem Merged.has_append {merged : Merged} {pid : UInt32} (h : merged.has pid = true)
    (more : List (UInt32 × UInt16)) (found : List DiscoveredApp) :
    ({ apps := merged.apps ++ more, found := found } : Merged).has pid = true := by
  obtain ⟨app, hmem, hpid⟩ := has_iff.mp h
  exact has_iff.mpr ⟨app, List.mem_append_left _ hmem, hpid⟩

/-- The pids of an ambiguous outcome are seen afterwards, and nothing is forgotten or found. -/
theorem Merged.add_ambiguous (merged : Merged) (more : List (UInt32 × UInt16)) :
    (∀ app ∈ more, (merged.add (.ambiguous more)).has app.1 = true) ∧
      (∀ pid, merged.has pid = true → (merged.add (.ambiguous more)).has pid = true) ∧
      (merged.add (.ambiguous more)).found = merged.found := by
  induction more generalizing merged with
  | nil => exact ⟨List.forall_mem_nil _, fun _ hhas => hhas, rfl⟩
  | cons app more ih =>
      have hadd : merged.add (.ambiguous (app :: more)) =
          (if merged.has app.1 then merged
            else { merged with apps := merged.apps ++ [app] }).add (.ambiguous more) := rfl
      rw [hadd]
      split_ifs with hhas
      · obtain ⟨hmore, hkept, hfound⟩ := ih merged
        exact ⟨List.forall_mem_cons.mpr ⟨hkept _ hhas, hmore⟩, hkept, hfound⟩
      · obtain ⟨hmore, hkept, hfound⟩ := ih { merged with apps := merged.apps ++ [app] }
        refine ⟨List.forall_mem_cons.mpr ⟨hkept _ ?_, hmore⟩, fun pid hpid => hkept _ ?_, hfound⟩
        · exact has_iff.mpr ⟨app, List.mem_append_right _ List.mem_cons_self, rfl⟩
        · exact has_append hpid [app] merged.found

theorem Seen.add {apps : List DiscoveredApp} {merged : Merged} {isAlive : UInt32 → Bool}
    (h : Seen apps merged) (root : Root) :
    Seen (apps ++ matching [root] selector isAlive)
      (merged.add (discoverIn root selector isAlive)) := by
  have hroot : matching [root] selector isAlive =
      if root.trusted then root.entries.filterMap fun entry => entry.app selector isAlive
      else [] := by
    rw [matching]
    cases htrusted : root.trusted with
    | true =>
        rw [List.filter_cons_of_pos htrusted, List.filter_nil, List.flatMap_singleton]
        rfl
    | false =>
        rw [List.filter_cons_of_neg (by rw [htrusted]; exact Bool.false_ne_true), List.filter_nil]
        rfl
  rw [hroot, discoverIn]
  split_ifs with htrusted
  · split
    next hnone =>
      rw [hnone, List.append_nil]
      exact h
    next app hone =>
      rw [hone]
      change Seen _ (if merged.has app.pid then merged
        else { apps := merged.apps ++ [(app.pid, app.port)], found := merged.found ++ [app] })
      split_ifs with hhas
      · refine ⟨List.forall_mem_append.mpr ⟨h.all, List.forall_mem_singleton.mpr hhas⟩, ?_⟩
        exact fun other hother => ⟨List.mem_append_left _ (h.found other hother).1,
          (h.found other hother).2⟩
      · have hnew : ({ apps := merged.apps ++ [(app.pid, app.port)], found := merged.found ++ [app] } :
            Merged).has app.pid = true :=
          Merged.has_iff.mpr ⟨_, List.mem_append_right _ List.mem_cons_self, rfl⟩
        refine ⟨List.forall_mem_append.mpr ⟨fun other hother => ?_,
          List.forall_mem_singleton.mpr hnew⟩, List.forall_mem_append.mpr ⟨fun other hother => ?_,
          List.forall_mem_singleton.mpr ⟨List.mem_append_right _ List.mem_cons_self, hnew⟩⟩⟩
        · exact Merged.has_append (h.all other hother) _ _
        · exact ⟨List.mem_append_left _ (h.found other hother).1,
            Merged.has_append (h.found other hother).2 _ _⟩
    next =>
      obtain ⟨hmore, hkept, hfound⟩ := merged.add_ambiguous (sortApps
        ((root.entries.filterMap fun entry => entry.app selector isAlive).map
          fun app => (app.pid, app.port)))
      refine ⟨List.forall_mem_append.mpr ⟨fun other hother => hkept _ (h.all other hother),
        fun other hother => ?_⟩, ?_⟩
      · refine hmore (other.pid, other.port) ?_
        rw [sortApps, List.mem_mergeSort]
        exact List.mem_map_of_mem hother
      · rw [hfound]
        exact fun other hother => ⟨List.mem_append_left _ (h.found other hother).1,
          hkept _ (h.found other hother).2⟩
  · rw [List.append_nil]
    exact h

theorem seen_roots (roots : List Root) (selector : Selector) (isAlive : UInt32 → Bool) :
    Seen (matching roots selector isAlive)
      (roots.foldl (fun (merged : Merged) root => merged.add (discoverIn root selector isAlive))
        { apps := [], found := [] }) := by
  induction roots using List.reverseRecOn with
  | nil => exact ⟨List.forall_mem_nil _, List.forall_mem_nil _⟩
  | append_singleton roots root ih =>
      have happend : matching (roots ++ [root]) selector isAlive =
          matching roots selector isAlive ++ matching [root] selector isAlive := by
        rw [matching, List.filter_append, List.flatMap_append]
        rfl
      rw [happend, List.foldl_append]
      exact ih.add root

/-- It finds an app where all that match have its pid, and only there. -/
theorem discoverApp_some {roots : List Root} {liveness : UInt32 → Liveness} {app : DiscoveredApp}
    (h : discoverApp roots selector liveness = some app) :
    app ∈ matching roots selector (fun pid => !isGone (liveness pid)) ∧
      ∀ other ∈ matching roots selector (fun pid => !isGone (liveness pid)),
        other.pid = app.pid := by
  have hseen := seen_roots roots selector fun pid => !isGone (liveness pid)
  rw [discoverApp, discoverInRoots] at h
  generalize roots.foldl (fun (merged : Merged) root =>
    merged.add (discoverIn root selector fun pid => !isGone (liveness pid)))
      { apps := [], found := [] } = merged at h hseen
  obtain ⟨apps, found⟩ := merged
  have hone : ∃ seen, apps = [seen] ∧ found = [app] := by
    revert h
    dsimp only
    split
    next heq =>
      split at heq
      next => exact Discovery.noConfusion heq
      next seen app' => 
        intro h
        obtain rfl := Discovery.found.inj heq
        obtain rfl := Option.some.inj h
        exact ⟨seen, rfl, rfl⟩
      next => exact Discovery.noConfusion heq
    next => exact fun h => absurd h (Option.some_ne_none _).symm
  obtain ⟨seen, rfl, rfl⟩ := hone
  have hpid {pid : UInt32} (hhas : ({ apps := [seen], found := [app] } : Merged).has pid = true) :
      seen.1 = pid := by
    obtain ⟨other, hother, rfl⟩ := Merged.has_iff.mp hhas
    rw [List.mem_singleton.mp hother]
  obtain ⟨hmem, hhas⟩ := hseen.found app List.mem_cons_self
  refine ⟨hmem, fun other hother => ?_⟩
  rw [← hpid (hseen.all other hother), ← hpid hhas]

/-! ## The target -/

/-- A round keeps the target and the selector, or moves to the app that discovery found. -/
theorem turn_target {round : Round} {outcome : Outcome}
    (h : w.turn config round = (w', outcome)) :
    w'.target = w.target ∧ w'.selector = w.selector ∨
      ∃ app, discoverApp round.roots w.selector round.livenessAfter = some app ∧
        w'.target = some app.target ∧ w'.selector = w.selector.pin app := by
  rw [Watch.turn] at h
  obtain ⟨rfl, -⟩ := Prod.mk.inj h
  generalize hup : pollHealth w.target round.liveness round.status = up
  have hpoll : (w.poll up).target = w.target ∧ (w.poll up).selector = w.selector := by
    rw [Watch.poll]
    split_ifs <;> exact ⟨rfl, rfl⟩
  obtain ⟨htarget, hselector⟩ := hpoll
  rw [← htarget, ← hselector]
  dsimp only
  rw [Watch.follow]
  split_ifs
  · cases hfound : discoverApp round.roots (w.poll up).selector round.livenessAfter with
    | none => exact .inl ⟨rfl, rfl⟩
    | some app =>
        rw [followTarget]
        split_ifs with hsame
        · exact .inl ⟨rfl, rfl⟩
        · exact .inr ⟨app, rfl, rfl, rfl⟩
  · exact .inl ⟨rfl, rfl⟩

/-- A discovery entry with the address of a target. -/
structure Entry.Names (entry : Entry) (target : Target) : Prop where
  trusted : entry.trusted = true
  pid : entry.pid = target.pid
  port : entry.port = some target.port

theorem app_some {entry : Entry} {isAlive : UInt32 → Bool} {app : DiscoveredApp}
    (h : entry.app selector isAlive = some app) :
    entry.Names app.target ∧ selector.accepts app.pid entry.metadata = true ∧
      app.identity = entry.metadata.identity := by
  rw [Entry.app] at h
  split at h
  next pid port hpid hport =>
    split_ifs at h with haccepted
    obtain rfl := Option.some.inj h
    rw [Bool.and_eq_true, Bool.and_eq_true] at haccepted
    exact ⟨⟨haccepted.1.1, hpid, (Option.filter_eq_some_iff.mp hport).1⟩, haccepted.1.2, rfl⟩
  next => exact absurd h (Option.some_ne_none _).symm

/-- The entry a found app comes from. -/
theorem discoverApp_entry {roots : List Root} {liveness : UInt32 → Liveness} {app : DiscoveredApp}
    (h : discoverApp roots selector liveness = some app) :
    ∃ root ∈ roots, ∃ entry ∈ root.entries, entry.Names app.target ∧
      selector.accepts app.pid entry.metadata = true ∧ app.identity = entry.metadata.identity := by
  obtain ⟨root, hroot, happ⟩ := List.mem_flatMap.mp (discoverApp_some h).1
  obtain ⟨entry, hentry, happ⟩ := List.mem_filterMap.mp happ
  exact ⟨root, (List.mem_filter.mp hroot).1, entry, hentry, app_some happ⟩

theorem accepts_pinned {identity : String} {pid : UInt32} {metadata : Metadata}
    (h : (Selector.pinned identity).accepts pid metadata = true) :
    same metadata.identity identity = true := by
  rw [Selector.accepts] at h
  rw [Metadata.identity]
  split at h
  next identifier hidentifier =>
    rw [hidentifier]
    exact h
  next hidentifier =>
    rw [hidentifier]
    exact h

/-- The target is the one it was, or the address of an entry of some round that has the property. -/
def FromEntry (rounds : List (Round × Outcome)) (P : Entry → Prop) (w w' : Watch) : Prop :=
  w'.target = w.target ∨ ∃ a ∈ rounds, ∃ root ∈ a.1.roots, ∃ entry ∈ root.entries, ∃ target,
    w'.target = some target ∧ entry.Names target ∧ P entry

theorem FromEntry.snoc {rounds : List (Round × Outcome)} {P : Entry → Prop} {w₀ : Watch}
    (h : FromEntry rounds P w₀ w) {round : Round} {outcome : Outcome}
    (hturn : w.turn config round = (w', outcome))
    (hP : ∀ app entry, w.selector.accepts app entry.metadata = true → entry.pid = some app →
      P entry) : FromEntry (rounds ++ [(round, outcome)]) P w₀ w' := by
  rcases turn_target hturn with ⟨htarget, -⟩ | ⟨app, hfound, htarget, -⟩
  · rcases h with hsame | ⟨a, ha, hentry⟩
    · exact .inl (htarget.trans hsame)
    · rw [← htarget] at hentry
      exact .inr ⟨a, List.mem_append_left _ ha, hentry⟩
  · obtain ⟨root, hroot, entry, hentry, hnames, haccepts, -⟩ := discoverApp_entry hfound
    exact .inr ⟨_, List.mem_append_right _ List.mem_cons_self, root, hroot, entry, hentry,
      app.target, htarget, hnames, hP app.pid entry haccepts hnames.pid⟩

/-- A pinned identity stays pinned, and every later target has it. -/
theorem run_pinned {rounds : List (Round × Outcome)} {identity : String}
    (h : Run (Step config) w rounds w') (hpinned : w.selector = .pinned identity) :
    w'.selector = .pinned identity ∧
      FromEntry rounds (fun entry => same entry.metadata.identity identity = true) w w' := by
  refine Run.snocInduction (motive := fun rounds w' => w'.selector = .pinned identity ∧
    FromEntry rounds (fun entry => same entry.metadata.identity identity = true) w w')
    ⟨hpinned, .inl rfl⟩ ?_ h
  rintro rounds m ⟨round, outcome⟩ m' - ⟨hselector, hfrom⟩ hstep
  refine ⟨?_, hfrom.snoc hstep fun app entry haccepts _ => ?_⟩
  · rcases turn_target hstep with ⟨-, hsame⟩ | ⟨app, -, -, hpin⟩
    · exact hsame.trans hselector
    · rw [hpin, hselector]
      rfl
  · rw [hselector] at haccepts
    exact accepts_pinned haccepts

/-- While the pin is to a pid, every later target has it. -/
theorem run_pid {rounds : List (Round × Outcome)} {pid : UInt32}
    (h : Run (Step config) w rounds w') (hpid : w.selector = .pid pid) :
    w'.selector = .pid pid ∧ FromEntry rounds (fun entry => entry.pid = some pid) w w' ∨
      ∃ identity, w'.selector = .pinned identity := by
  refine Run.snocInduction (motive := fun rounds w' =>
    w'.selector = .pid pid ∧ FromEntry rounds (fun entry => entry.pid = some pid) w w' ∨
      ∃ identity, w'.selector = .pinned identity) (.inl ⟨hpid, .inl rfl⟩) ?_ h
  rintro rounds m ⟨round, outcome⟩ m' - hm hstep
  rcases hm with ⟨hselector, hfrom⟩ | ⟨identity, hselector⟩
  · have hnext := hfrom.snoc hstep (P := fun entry => entry.pid = some pid)
      fun app entry haccepts hentry => by
        rw [hselector] at haccepts
        rw [hentry, beq_iff_eq.mp haccepts]
    rcases turn_target hstep with ⟨-, hsame⟩ | ⟨app, hfound, -, hpin⟩
    · exact .inl ⟨hsame.trans hselector, hnext⟩
    · rw [hselector] at hpin hfound
      have hpin' : m'.selector = app.identity.elim (.pid app.pid) .pinned := hpin
      cases hidentity : app.identity with
      | some identity =>
          rw [hidentity] at hpin'
          exact .inr ⟨identity, hpin'⟩
      | none =>
          obtain ⟨_, _, _, _, _, haccepts, -⟩ := discoverApp_entry hfound
          rw [hidentity] at hpin'
          refine .inl ⟨?_, hnext⟩
          rw [beq_iff_eq.mp haccepts]
          exact hpin'
  · rcases turn_target hstep with ⟨-, hsame⟩ | ⟨app, -, -, hpin⟩
    · exact .inr ⟨identity, hsame.trans hselector⟩
    · refine .inr ⟨identity, ?_⟩
      rw [hpin, hselector]
      rfl

/-- A target moves only where all that match have one pid. -/
theorem step_moves {round : Round} {outcome : Outcome} (h : Step config w (round, outcome) w')
    (hmoved : w'.target ≠ w.target) :
    ∃ app ∈ matching round.roots w.selector (fun pid => !isGone (round.livenessAfter pid)),
      w'.target = some app.target ∧
        ∀ other ∈ matching round.roots w.selector (fun pid => !isGone (round.livenessAfter pid)),
          other.pid = app.pid := by
  rcases turn_target h with ⟨hsame, -⟩ | ⟨app, hfound, htarget, -⟩
  · exact absurd hsame hmoved
  · exact ⟨app, (discoverApp_some hfound).1, htarget, (discoverApp_some hfound).2⟩

/-! ## Every run -/

/-- A poll that is answered, or not. -/
def poll (status : Option UInt16) (roots : List Root) : Round :=
  { liveness := fun _ => .own, status := status, livenessAfter := fun _ => .own, roots := roots }

def entryOf (pid : UInt32) (port : UInt16) (identifier : Option String) : Entry :=
  { pid := some pid
    trusted := true
    port := some port
    metadata := { identifier := identifier, productName := none } }

def rootOf (entries : List Entry) : Root := { trusted := true, entries := entries }

theorem pollHealth_none (target : Option Target) (liveness : UInt32 → Liveness) :
    pollHealth target liveness none = false := by
  cases target with
  | none => rfl
  | some target => exact Bool.and_false _

/-- An explicit port, and the action with the first failure. -/
def explicit : Config := Config.fromEnv (some 9000) none none (some 1)

theorem turn_explicit (w : Watch) (hfired : w.actionFired = true) :
    w.turn explicit (poll none []) =
      ({ w with consecutiveFailures := w.consecutiveFailures + 1 },
        { failed := true, acted := false }) := by
  have hpoll : pollHealth w.target (poll none []).liveness (poll none []).status = false :=
    pollHealth_none _ _
  have hfollow : (w.poll false).follow explicit (poll none []).roots
      (poll none []).livenessAfter = w.poll false := if_neg fun hand => Bool.noConfusion hand.2
  have hstays : (w.poll false).actionFired = true := hfired
  rw [Watch.turn, hpoll, hfollow, hstays, Bool.not_true, Bool.and_false, Bool.or_false]
  obtain ⟨target, selector, failures, fired⟩ := w
  obtain rfl := hfired
  rfl

theorem run_down (n : Nat) :
    ∃ rounds w, Run (Step explicit) (start explicit [] fun _ => .own) rounds w ∧
      w.target = some { port := 9000, pid := none } ∧
      w.consecutiveFailures = UInt32.ofNat (n + 1) ∧ w.actionFired = true := by
  induction n with
  | zero => exact ⟨[(poll none [], { failed := true, acted := true })], _, .single rfl, rfl, rfl, rfl⟩
  | succ n ih =>
      obtain ⟨rounds, w, hrun, htarget, hcount, hfired⟩ := ih
      have hstep : Step explicit w (poll none [], { failed := true, acted := false })
          { w with consecutiveFailures := w.consecutiveFailures + 1 } := turn_explicit w hfired
      refine ⟨_, _, hrun.snoc hstep, htarget, ?_, hfired⟩
      change w.consecutiveFailures + 1 = _
      rw [hcount, UInt32.ofNat_add (n + 1) 1]
      rfl

end Victauri.Watchdog
