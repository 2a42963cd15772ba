import Victauri.Core.RefusalLog
import Victauri.Core.RateLimiter.Accounting

/-!
# No refusal is lost and no line is early

Every refusal dealt with was logged, was reported by a line or is still counted, up to the width of
the counter; and the clock readings of any two lines are an interval apart.
-/

namespace Victauri.Core.RefusalLog.System

open Victauri.Library

variable {Thread : Type} [DecidableEq Thread] {s t : System Thread}

/-- Clock readings an interval apart, in either order. -/
def Apart (a b : UInt64) : Prop := a.toNat + 10000 ≤ b.toNat ∨ b.toNat + 10000 ≤ a.toNat

/-- A reading at which a line is due after the last one. -/
def Due (last now : UInt64) : Prop := last = 0 ∨ last.toNat + 10000 ≤ now.toNat

theorem Apart.symm {a b : UInt64} (h : Apart a b) : Apart b a := Or.symm h

theorem due_of_check {last now : UInt64}
    (h : last = 0 ∨ refusalLogIntervalMs ≤ RateLimiter.saturatingSub now last) : Due last now := by
  rcases h with h | h
  · exact Or.inl h
  · right
    rw [UInt64.le_iff_toNat_le] at h
    have hinterval : refusalLogIntervalMs.toNat = 10000 := rfl
    have hpos : RateLimiter.saturatingSub now last ≠ 0 := by
      intro hzero
      rw [hzero, hinterval] at h
      exact absurd h (by decide)
    obtain ⟨hlt, hsub⟩ := RateLimiter.saturatingSub_pos hpos
    omega

/-! ## What a step can do -/

theorem goto_pcs_self (s : System Thread) (thread : Thread) (pc : Pc) :
    (s.goto thread pc).pcs thread = pc := Function.update_self ..

theorem goto_pcs_of_ne (s : System Thread) {thread other : Thread} (pc : Pc)
    (h : other ≠ thread) : (s.goto thread pc).pcs other = s.pcs other :=
  Function.update_of_ne h ..

/-- A thread moves on, moves the last line's time, counts a refusal or logs one. -/
inductive Effect (s : System Thread) : System Thread → Prop
  | moved {thread : Thread} {pc : Pc} {history : History} (hlines : history.lines = s.history.lines)
      (hseen : history.seen = s.history.seen) (hpc : ∀ now, pc ≠ .swap now)
      (hdue : ∀ now last, pc = .exchange now last → Due last now) :
      Effect s ({ s with history := history }.goto thread pc)
  | claimed {thread : Thread} {now : UInt64} (hpc : s.pcs thread = .exchange now s.log.lastMs) :
      Effect s ({ s with log := { s.log with lastMs := max now 1 } }.goto thread (.swap now))
  | suppressed {thread : Thread} (hpc : s.pcs thread = .add) :
      Effect s ({ s with
        log := { s.log with suppressed := s.log.suppressed + 1 }
        history := s.history.after .suppressed }.goto thread .idle)
  | logged {thread : Thread} {now : UInt64} (hpc : s.pcs thread = .swap now) :
      Effect s ({ s with
        log := { s.log with suppressed := 0 }
        history := s.history.after (.logged now s.log.suppressed) }.goto thread .idle)

theorem step_effect {a : Action Thread} (h : s.step a = some t) : Effect s t := by
  cases a with
  | call thread now =>
    rw [step] at h
    split_ifs at h
    rw [← Option.some.inj h]
    refine .moved rfl rfl (fun now h => ?_) fun now last h => ?_ <;> cases h
  | act thread =>
    rw [step] at h
    split_ifs at h with hidle
    rw [← Option.some.inj h]
    cases hat : s.pcs thread with
    | idle => exact absurd hat hidle
    | load now =>
      rw [act]
      split_ifs with hdue
      · refine .moved rfl rfl (fun now h => by cases h) fun now' last' h => ?_
        obtain ⟨rfl, rfl⟩ := Pc.exchange.inj h
        exact due_of_check hdue
      · exact .moved rfl rfl (fun now h => by cases h) fun now last h => by cases h
    | exchange now last =>
      rw [act]
      split_ifs with hlast
      · exact .claimed (hlast ▸ hat)
      · exact .moved rfl rfl (fun now h => by cases h) fun now last h => by cases h
    | add => exact .suppressed hat
    | swap now => exact .logged hat

/-! ## The invariant -/

structure Inv (s : System Thread) : Prop where
  due : ∀ thread now last, s.pcs thread = .exchange now last → Due last now
  lines_le : ∀ line ∈ s.history.lines, 1 ≤ s.log.lastMs.toNat ∧ line.1.toNat ≤ s.log.lastMs.toNat
  swap_le : ∀ thread now, s.pcs thread = .swap now →
    1 ≤ s.log.lastMs.toNat ∧ now.toNat ≤ s.log.lastMs.toNat
  lines_apart : s.history.lines.Pairwise fun a b => Apart a.1 b.1
  swap_line : ∀ thread now, s.pcs thread = .swap now → ∀ line ∈ s.history.lines, Apart line.1 now
  swap_apart : ∀ thread other a b, thread ≠ other → s.pcs thread = .swap a →
    s.pcs other = .swap b → Apart a b
  account : ∃ wraps, s.history.seen =
    s.history.lines.length + s.history.reported + s.log.suppressed.toNat + 2 ^ 64 * wraps

omit [DecidableEq Thread] in
theorem inv_init : Inv (init : System Thread) where
  due := fun _ _ _ h => by cases h
  lines_le := fun _ h => absurd h List.not_mem_nil
  swap_le := fun _ _ h => by cases h
  lines_apart := List.Pairwise.nil
  swap_line := fun _ _ h => by cases h
  swap_apart := fun _ _ _ _ _ h => by cases h
  account := ⟨0, rfl⟩

/-- Another place of a thread, or the one it had. -/
theorem pcs_goto {r : System Thread} {thread other : Thread} {pc pc' : Pc}
    (hpcs : r.pcs = s.pcs) (h : (r.goto thread pc).pcs other = pc') :
    other = thread ∧ pc = pc' ∨ other ≠ thread ∧ s.pcs other = pc' := by
  by_cases hother : other = thread
  · subst hother
    rw [goto_pcs_self] at h
    exact Or.inl ⟨rfl, h⟩
  · rw [goto_pcs_of_ne r pc hother, hpcs] at h
    exact Or.inr ⟨hother, h⟩

theorem toNat_max_one (now : UInt64) :
    1 ≤ (max now 1).toNat ∧ now.toNat ≤ (max now 1).toNat ∧
      (1 ≤ now.toNat → (max now 1).toNat = now.toNat) := by
  have hone : (1 : UInt64).toNat = 1 := rfl
  rw [show max now 1 = if now ≤ 1 then 1 else now from rfl]
  split_ifs with hle
  · rw [UInt64.le_iff_toNat_le, hone] at hle
    rw [hone]
    omega
  · rw [UInt64.le_iff_toNat_le, hone] at hle
    omega

/-- A counter that is incremented keeps its count up to its width. -/
theorem toNat_add_one_wraps (n : UInt64) :
    ∃ wraps, n.toNat + 1 = (n + 1).toNat + 2 ^ 64 * wraps := by
  refine ⟨(n.toNat + 1) / 2 ^ 64, ?_⟩
  rw [UInt64.toNat_add, show (1 : UInt64).toNat = 1 from rfl]
  exact (Nat.mod_add_div _ _).symm

theorem Inv.effect (h : Inv s) (heffect : Effect s t) : Inv t := by
  cases heffect with
  | @moved thread pc history hlines hseen hpc hdue =>
    have hswap {other : Thread} {now : UInt64}
        (hat : ({ s with history := history }.goto thread pc).pcs other = .swap now) :
        s.pcs other = .swap now := by
      rcases pcs_goto (s := s) rfl hat with ⟨-, hpc'⟩ | ⟨-, hsame⟩
      · exact absurd hpc' (hpc now)
      · exact hsame
    refine ⟨?_, ?_, ?_, ?_, ?_, ?_, ?_⟩
    · intro other now last hat
      rcases pcs_goto (s := s) rfl hat with ⟨-, hpc'⟩ | ⟨-, hsame⟩
      · exact hdue now last hpc'
      · exact h.due other now last hsame
    · intro line hline
      exact h.lines_le line (hlines ▸ hline)
    · intro other now hat
      exact h.swap_le other now (hswap hat)
    · exact hlines.symm ▸ h.lines_apart
    · intro other now hat line hline
      exact h.swap_line other now (hswap hat) line (hlines ▸ hline)
    · intro one other a b hne ha hb
      exact h.swap_apart one other a b hne (hswap ha) (hswap hb)
    · obtain ⟨wraps, haccount⟩ := h.account
      refine ⟨wraps, ?_⟩
      change history.seen = history.lines.length + history.reported +
        s.log.suppressed.toNat + 2 ^ 64 * wraps
      rw [hseen, History.reported, hlines]
      exact haccount
  | @claimed thread now hpc =>
    obtain ⟨hone, hnow, -⟩ := toNat_max_one now
    have hdue := h.due thread now s.log.lastMs hpc
    -- what was logged or is about to be came an interval before
    have hapart {reading : UInt64}
        (hle : 1 ≤ s.log.lastMs.toNat ∧ reading.toNat ≤ s.log.lastMs.toNat) : Apart reading now := by
      rcases hdue with hzero | hlater
      · rw [hzero] at hle
        exact absurd hle.1 (by decide)
      · left
        omega
    have hmono {reading : UInt64}
        (hle : 1 ≤ s.log.lastMs.toNat ∧ reading.toNat ≤ s.log.lastMs.toNat) :
        1 ≤ (max now 1).toNat ∧ reading.toNat ≤ (max now 1).toNat := by
      rcases hapart hle with hbefore | hbehind
      · omega
      · rcases hdue with hzero | hlater
        · rw [hzero] at hle
          exact absurd hle.1 (by decide)
        · omega
    have hgoto {other : Thread} {pc : Pc} (hat : ({ s with
        log := { s.log with lastMs := max now 1 } }.goto thread (.swap now)).pcs other = pc) :
        other = thread ∧ .swap now = pc ∨ other ≠ thread ∧ s.pcs other = pc := pcs_goto rfl hat
    refine ⟨?_, ?_, ?_, h.lines_apart, ?_, ?_, h.account⟩
    · intro other now' last hat
      rcases hgoto hat with ⟨-, hpc'⟩ | ⟨-, hsame⟩
      · cases hpc'
      · exact h.due other now' last hsame
    · intro line hline
      exact hmono (h.lines_le line hline)
    · intro other now' hat
      rcases hgoto hat with ⟨-, hpc'⟩ | ⟨-, hsame⟩
      · rw [← Pc.swap.inj hpc']
        exact ⟨hone, hnow⟩
      · exact hmono (h.swap_le other now' hsame)
    · intro other now' hat line hline
      rcases hgoto hat with ⟨-, hpc'⟩ | ⟨-, hsame⟩
      · rw [← Pc.swap.inj hpc']
        exact hapart (h.lines_le line hline)
      · exact h.swap_line other now' hsame line hline
    · intro one other a b hne ha hb
      rcases hgoto ha with ⟨rfl, hpc'⟩ | ⟨-, hsame⟩
      · rcases hgoto hb with ⟨hother, -⟩ | ⟨-, hsame'⟩
        · exact absurd hother.symm hne
        · rw [← Pc.swap.inj hpc']
          exact (hapart (h.swap_le other b hsame')).symm
      · rcases hgoto hb with ⟨-, hpc'⟩ | ⟨-, hsame'⟩
        · rw [← Pc.swap.inj hpc']
          exact hapart (h.swap_le one a hsame)
        · exact h.swap_apart one other a b hne hsame hsame'
  | @suppressed thread hpc =>
    have hgoto {other : Thread} {pc : Pc} (hne : .idle ≠ pc) (hat : ({ s with
        log := { s.log with suppressed := s.log.suppressed + 1 }
        history := s.history.after .suppressed }.goto thread .idle).pcs other = pc) :
        s.pcs other = pc := by
      rcases pcs_goto (s := s) rfl hat with ⟨-, hpc'⟩ | ⟨-, hsame⟩
      · exact absurd hpc' hne
      · exact hsame
    refine ⟨?_, h.lines_le, ?_, h.lines_apart, ?_, ?_, ?_⟩
    · exact fun other now last hat => h.due other now last (hgoto Pc.noConfusion hat)
    · exact fun other now hat => h.swap_le other now (hgoto Pc.noConfusion hat)
    · exact fun other now hat => h.swap_line other now (hgoto Pc.noConfusion hat)
    · exact fun one other a b hne ha hb =>
        h.swap_apart one other a b hne (hgoto Pc.noConfusion ha) (hgoto Pc.noConfusion hb)
    · obtain ⟨wraps, haccount⟩ := h.account
      obtain ⟨wrap, hwrap⟩ := toNat_add_one_wraps s.log.suppressed
      refine ⟨wraps + wrap, ?_⟩
      change s.history.seen + 1 = s.history.lines.length + s.history.reported +
        (s.log.suppressed + 1).toNat + 2 ^ 64 * (wraps + wrap)
      rw [haccount]
      omega
  | @logged thread now hpc =>
    have hgoto {other : Thread} {pc : Pc} (hne : .idle ≠ pc) (hat : ({ s with
        log := { s.log with suppressed := 0 }
        history := s.history.after (.logged now s.log.suppressed) }.goto thread .idle).pcs other =
          pc) : other ≠ thread ∧ s.pcs other = pc := by
      rcases pcs_goto (s := s) rfl hat with ⟨-, hpc'⟩ | hsame
      · exact absurd hpc' hne
      · exact hsame
    have hlines : ({ s with
        log := { s.log with suppressed := 0 }
        history := s.history.after (.logged now s.log.suppressed) }.goto thread .idle).history.lines =
          s.history.lines ++ [(now, s.log.suppressed)] := rfl
    refine ⟨?_, ?_, ?_, ?_, ?_, ?_, ?_⟩
    · exact fun other now last hat => h.due other now last (hgoto Pc.noConfusion hat).2
    · intro line hline
      rw [hlines, List.mem_append, List.mem_singleton] at hline
      rcases hline with hline | rfl
      · exact h.lines_le line hline
      · exact h.swap_le thread now hpc
    · exact fun other now hat => h.swap_le other now (hgoto Pc.noConfusion hat).2
    · rw [hlines, List.pairwise_append]
      refine ⟨h.lines_apart, List.pairwise_singleton _ _, ?_⟩
      intro line hline last hlast
      rw [List.mem_singleton.mp hlast]
      exact h.swap_line thread now hpc line hline
    · intro other now' hat line hline
      obtain ⟨hne, hsame⟩ := hgoto Pc.noConfusion hat
      rw [hlines, List.mem_append, List.mem_singleton] at hline
      rcases hline with hline | rfl
      · exact h.swap_line other now' hsame line hline
      · exact h.swap_apart thread other now now' hne.symm hpc hsame
    · exact fun one other a b hne ha hb =>
        h.swap_apart one other a b hne (hgoto Pc.noConfusion ha).2 (hgoto Pc.noConfusion hb).2
    · obtain ⟨wraps, haccount⟩ := h.account
      refine ⟨wraps, ?_⟩
      have hreported : (s.history.after (.logged now s.log.suppressed)).reported =
          s.history.reported + s.log.suppressed.toNat := by
        rw [History.reported, History.after, List.map_append, List.sum_append]
        rfl
      change s.history.seen + 1 = (s.history.lines ++ [(now, s.log.suppressed)]).length +
        (s.history.after (.logged now s.log.suppressed)).reported + 0 + 2 ^ 64 * wraps
      rw [hreported, List.length_append, List.length_singleton, haccount]
      omega

theorem runs_inv {as : List (Action Thread)} (h : Runs s as t) (hs : Inv s) : Inv t :=
  h.invariant (fun _ _ _ hinv hstep => hinv.effect (step_effect hstep)) hs

/-! ## Refusals under way -/

section

variable [Fintype Thread]

/-- Whether a refusal is under way. -/
def busy (pc : Pc) : Nat := if pc = .idle then 0 else 1

theorem inFlight_goto (s : System Thread) (thread : Thread) (pc : Pc) :
    (s.goto thread pc).inFlight + busy (s.pcs thread) = s.inFlight + busy pc := by
  have hupdate : (s.goto thread pc).inFlight =
      ∑ other, Function.update (fun other => busy (s.pcs other)) thread (busy pc) other := by
    rw [inFlight]
    refine Finset.sum_congr rfl fun other _ => ?_
    by_cases hother : other = thread
    · subst hother
      rw [goto_pcs_self, Function.update_self]
      rfl
    · rw [goto_pcs_of_ne s pc hother, Function.update_of_ne hother]
      rfl
  have hsplit : s.inFlight = busy (s.pcs thread) +
      ∑ other ∈ Finset.univ \ {thread}, busy (s.pcs other) := by
    rw [inFlight, ← Finset.sum_sdiff (Finset.subset_univ {thread}), Finset.sum_singleton,
      Nat.add_comm]
    rfl
  rw [hupdate, hsplit, Finset.sum_update_of_mem (Finset.mem_univ thread)]
  omega

/-- Every refusal begun was dealt with or is under way. -/
theorem begun_step {a : Action Thread} (h : s.step a = some t)
    (hs : s.history.begun = s.history.seen + s.inFlight) :
    t.history.begun = t.history.seen + t.inFlight := by
  cases a with
  | call thread now =>
    rw [step] at h
    split_ifs at h with hidle
    rw [← Option.some.inj h]
    have hgoto := inFlight_goto
      { s with history := { s.history with begun := s.history.begun + 1 } } thread (.load now)
    have hbusy : busy (s.pcs thread) = 0 := if_pos hidle
    rw [show busy (Pc.load now) = 1 from rfl] at hgoto
    change s.history.begun + 1 = s.history.seen + _
    change _ + busy (s.pcs thread) = s.inFlight + 1 at hgoto
    omega
  | act thread =>
    rw [step] at h
    split_ifs at h with hidle
    rw [← Option.some.inj h]
    have hbusy : busy (s.pcs thread) = 1 := if_neg hidle
    have hgoto := inFlight_goto { s with
      log := (s.log.act (s.pcs thread)).1
      history := s.history.after (s.log.act (s.pcs thread)).2.2 } thread
        (s.log.act (s.pcs thread)).2.1
    change _ + busy (s.pcs thread) = s.inFlight + _ at hgoto
    have hone : (s.history.after (s.log.act (s.pcs thread)).2.2).begun = s.history.begun ∧
        (s.history.after (s.log.act (s.pcs thread)).2.2).seen +
          busy (s.log.act (s.pcs thread)).2.1 = s.history.seen + 1 := by
      cases hat : s.pcs thread with
      | idle => exact absurd hat hidle
      | load now =>
        rw [act]
        split_ifs <;> exact ⟨rfl, rfl⟩
      | exchange now last =>
        rw [act]
        split_ifs <;> exact ⟨rfl, rfl⟩
      | add => exact ⟨rfl, rfl⟩
      | swap now => exact ⟨rfl, rfl⟩
    change (s.history.after (s.log.act (s.pcs thread)).2.2).begun =
      (s.history.after (s.log.act (s.pcs thread)).2.2).seen + _
    omega

/-- In every run of any number of threads: the refusals dealt with are those logged, those the lines
reported and those still counted, but for what the 64 bits of the counter lost; the others are under
way; and the clock readings of any two lines are an interval apart. -/
theorem refusals_accounted {as : List (Action Thread)} (h : Runs init as s) :
    (∃ wraps, s.history.seen = s.history.lines.length + s.history.reported +
        s.log.suppressed.toNat + 2 ^ 64 * wraps) ∧
      (s.history.seen < 2 ^ 64 → s.history.seen =
        s.history.lines.length + s.history.reported + s.log.suppressed.toNat) ∧
      s.history.begun = s.history.seen + s.inFlight ∧
      s.history.lines.Pairwise fun a b => Apart a.1 b.1 := by
  have hinv := runs_inv h inv_init
  have hbegun : s.history.begun = s.history.seen + s.inFlight := by
    refine h.invariant (fun _ _ _ hs hstep => begun_step hstep hs) ?_
    have hnone : (init : System Thread).inFlight = 0 := Finset.sum_eq_zero fun _ _ => rfl
    rw [hnone]
    rfl
  refine ⟨hinv.account, ?_, hbegun, hinv.lines_apart⟩
  intro hsmall
  obtain ⟨wraps, haccount⟩ := hinv.account
  have hnone : wraps = 0 := by omega
  rw [hnone] at haccount
  exact haccount

end

/-- A refusal that is logged. -/
def loggedCall (now : UInt64) : List (Action Unit) :=
  [.call () now, .act (), .act (), .act ()]

/-- A refusal that is not. -/
def countedCall (now : UInt64) : List (Action Unit) := [.call () now, .act (), .act ()]

/-- Two lines, the second of which covers a refusal between them. -/
theorem refusals_accounted_of_three : ∃ s : System Unit,
    Runs init (loggedCall 1 ++ countedCall 5000 ++ loggedCall 10001) s ∧
      s.history.lines = [(1, 0), (10001, 1)] ∧ s.history.seen = 3 ∧
      s.history.begun = s.history.seen + s.inFlight ∧
      s.history.lines.Pairwise fun a b => Apart a.1 b.1 := by
  have hrun : ∃ s : System Unit, Runs init (loggedCall 1 ++ countedCall 5000 ++ loggedCall 10001) s ∧
      s.history.lines = [(1, 0), (10001, 1)] ∧ s.history.seen = 3 :=
    ⟨_, .of_foldlM rfl, rfl, rfl⟩
  obtain ⟨s, hs, hlines, hseen⟩ := hrun
  obtain ⟨-, -, hbegun, hapart⟩ := refusals_accounted hs
  exact ⟨s, hs, hlines, hseen, hbegun, hapart⟩

/-! ## The width of the counter -/

/-- After a line at 1 and so many refusals at the same moment. -/
def afterCounted (count : Nat) : System Unit :=
  { log := { lastMs := 1, suppressed := UInt64.ofNat count }
    pcs := fun _ => .idle
    history := { begun := count + 1, seen := count + 1, lines := [(1, 0)] } }

/-- At the moment of the last line none is due. -/
theorem act_load_one (pending : UInt64) :
    act { lastMs := 1, suppressed := pending } (.load 1) =
      ({ lastMs := 1, suppressed := pending }, .add, .quiet) :=
  if_neg (show ¬((1 : UInt64) = 0 ∨ refusalLogIntervalMs ≤ RateLimiter.saturatingSub 1 1) by decide)

theorem runs_countedCall (count : Nat) :
    Runs (afterCounted count) (countedCall 1) (afterCounted (count + 1)) := by
  have hcount : UInt64.ofNat count + 1 = UInt64.ofNat (count + 1) := by
    rw [UInt64.ofNat_add]
    rfl
  have hload : step { afterCounted count with
        pcs := fun _ => .load 1
        history := { begun := count + 2, seen := count + 1, lines := [(1, 0)] } } (.act ()) =
      some { afterCounted count with
        pcs := fun _ => .add
        history := { begun := count + 2, seen := count + 1, lines := [(1, 0)] } } := by
    have hact := act_load_one (UInt64.ofNat count)
    have hbusy : Pc.load 1 ≠ .idle := by decide
    rw [step, if_neg hbusy]
    dsimp only [afterCounted]
    rw [hact]
    rfl
  have hadd : step { afterCounted count with
        pcs := fun _ => .add
        history := { begun := count + 2, seen := count + 1, lines := [(1, 0)] } } (.act ()) =
      some (afterCounted (count + 1)) := by
    rw [afterCounted, afterCounted, ← hcount]
    rfl
  exact .cons rfl (.cons hload (.cons hadd (.nil _)))

theorem runs_afterCounted (count : Nat) : ∃ as, Runs init as (afterCounted count) := by
  induction count with
  | zero => exact ⟨loggedCall 1, .of_foldlM rfl⟩
  | succ count ih =>
    obtain ⟨as, has⟩ := ih
    exact ⟨as ++ countedCall 1, has.append (runs_countedCall count)⟩

/-- When the counter has come round, no line reports the refusals it counted. -/
theorem refusals_forgotten : ∃ as, ∃ s : System Unit, Runs init as s ∧ s.inFlight = 0 ∧
    s.history.seen ≠ s.history.lines.length + s.history.reported + s.log.suppressed.toNat := by
  obtain ⟨as, has⟩ := runs_afterCounted (2 ^ 64)
  refine ⟨as, afterCounted (2 ^ 64), has, rfl, ?_⟩
  have hcount : (UInt64.ofNat (2 ^ 64)).toNat = 0 := by
    rw [UInt64.toNat_ofNat', Nat.mod_self]
  change 2 ^ 64 + 1 ≠ 1 + 0 + (UInt64.ofNat (2 ^ 64)).toNat
  rw [hcount]
  decide

end Victauri.Core.RefusalLog.System
