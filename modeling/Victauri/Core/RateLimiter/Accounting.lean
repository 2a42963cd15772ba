import Victauri.Core.RateLimiter
import Mathlib.Algebra.BigOperators.Fin
import Mathlib.Algebra.BigOperators.Ring.Finset

/-!
# Every request is paid for

A granted request took a token that was there, or one that a refill added; and a refill adds what
the interval it claimed gives.  The claimed intervals follow one another, because a claim moves the
last refill on, so no time is credited twice.
-/

namespace Victauri.Core.RateLimiter

open Victauri.Library

/-! ## What a thread knows -/

/-- A refill of time that has passed, with no more tokens than that time gives. -/
structure Refill.Fits (rate : UInt64) (clock : Nat) (refill : Refill) : Prop where
  last_lt : refill.last.toNat < refill.now.toNat
  now_le : refill.now.toNat ≤ clock
  add_le : 1000 * refill.add.toNat ≤ rate.toNat * (refill.now.toNat - refill.last.toNat)

def Pc.Fits (rate : UInt64) (clock : Nat) : Pc → Prop
  | .readLast now => now.toNat ≤ clock
  | .claim refill => refill.Fits rate clock
  | .readForAdd refill => refill.Fits rate clock
  | .add refill _ => refill.Fits rate clock
  | .take current => current ≠ 0
  | _ => True

theorem Refill.Fits.mono {rate : UInt64} {clock clock' : Nat} {refill : Refill}
    (h : refill.Fits rate clock) (hle : clock ≤ clock') : refill.Fits rate clock' :=
  ⟨h.last_lt, Nat.le_trans h.now_le hle, h.add_le⟩

theorem Pc.Fits.mono {rate : UInt64} {clock clock' : Nat} {pc : Pc} (h : pc.Fits rate clock)
    (hle : clock ≤ clock') : pc.Fits rate clock' := by
  cases pc with
  | readLast now => exact Nat.le_trans h hle
  | claim | readForAdd | add => exact Refill.Fits.mono h hle
  | take => exact h
  | idle | readClock | readForTake => exact trivial

theorem toNat_sub_one {n : UInt64} (h : n ≠ 0) : (n - 1).toNat + 1 = n.toNat := by
  have hpos : n.toNat ≠ 0 := fun hzero => h (UInt64.toNat_inj.mp hzero)
  have hle : (1 : UInt64) ≤ n := by
    rw [UInt64.le_iff_toNat_le]
    exact Nat.one_le_iff_ne_zero.mpr hpos
  rw [UInt64.toNat_sub_of_le _ _ hle]
  exact Nat.succ_pred_eq_of_ne_zero hpos

theorem min_eq_ite (a b : UInt64) : min a b = if a ≤ b then a else b := rfl

/-- A sum that wraps is smaller still. -/
theorem toNat_min_add_le (a b m : UInt64) : (min (a + b) m).toNat ≤ a.toNat + b.toNat := by
  have hadd : (a + b).toNat ≤ a.toNat + b.toNat := by
    rw [UInt64.toNat_add]
    exact Nat.mod_le _ _
  rw [min_eq_ite]
  split_ifs with hle
  · exact hadd
  · rw [UInt64.le_iff_toNat_le] at hle
    omega

theorem min_le_max (a m : UInt64) : min a m ≤ m := by
  rw [min_eq_ite]
  split_ifs with hle
  · exact hle
  · exact UInt64.le_refl _

theorem saturatingSub_pos {now last : UInt64} (h : saturatingSub now last ≠ 0) :
    last.toNat < now.toNat ∧ (saturatingSub now last).toNat = now.toNat - last.toNat := by
  rw [saturatingSub] at h ⊢
  split_ifs at h ⊢ with hle
  · have hsub : (now - last).toNat = now.toNat - last.toNat := UInt64.toNat_sub_of_le _ _ hle
    refine ⟨?_, hsub⟩
    have hpos : (now - last).toNat ≠ 0 := fun hzero => h (UInt64.toNat_inj.mp hzero)
    omega
  · exact absurd rfl h

theorem act_fits {l : RateLimiter} {clock : Nat} {pc : Pc}
    (h : pc.Fits l.refillRatePerSec clock) :
    (l.act clock pc).2.1.Fits l.refillRatePerSec clock := by
  cases pc with
  | idle => exact trivial
  | readClock =>
      change (UInt64.ofNat clock).toNat ≤ clock
      rw [UInt64.toNat_ofNat']
      exact Nat.mod_le _ _
  | readLast now =>
      rw [act]
      dsimp only
      split_ifs with hnone hsmall
      · exact trivial
      · exact trivial
      · obtain ⟨hlt, helapsed⟩ := saturatingSub_pos hnone
        refine ⟨hlt, h, ?_⟩
        -- a product that wraps is smaller still
        have hmul : (saturatingSub now l.lastRefillMs * l.refillRatePerSec).toNat ≤
            (now.toNat - l.lastRefillMs.toNat) * l.refillRatePerSec.toNat := by
          rw [UInt64.toNat_mul, helapsed]
          exact Nat.mod_le _ _
        rw [UInt64.toNat_div, Nat.mul_comm l.refillRatePerSec.toNat]
        exact Nat.le_trans (Nat.mul_div_le _ _) hmul
  | claim refill =>
      rw [act]
      split_ifs
      · exact h
      · exact trivial
  | readForAdd refill => exact h
  | add refill current =>
      rw [act]
      split_ifs
      · exact trivial
      · exact h
  | readForTake =>
      rw [act]
      split_ifs with hzero
      · exact trivial
      · exact hzero
  | take current =>
      rw [act]
      split_ifs
      · exact trivial
      · exact trivial

theorem Pc.pending_afterFailure {pc pc' : Pc} (h : pc.afterFailure = some pc') :
    pc'.pending = pc.pending := by
  cases pc with
  | add | take =>
      obtain rfl := Option.some.inj h
      rfl
  | _ => cases h

theorem Pc.fits_afterFailure {rate : UInt64} {clock : Nat} {pc pc' : Pc}
    (h : pc.afterFailure = some pc') (hfits : pc.Fits rate clock) : pc'.Fits rate clock := by
  cases pc with
  | add =>
      obtain rfl := Option.some.inj h
      exact hfits
  | take =>
      obtain rfl := Option.some.inj h
      exact trivial
  | _ => cases h

namespace System

variable {Thread : Type} [DecidableEq Thread] {s t : System Thread}

/-! ## What a step can do -/

/-- Nothing but the place of a thread or the clock changes, or an interval is claimed, or its tokens
are added, or a token is taken. -/
inductive Effect (s : System Thread) : System Thread → Prop
  | quiet {t : System Thread} (hlimiter : t.limiter = s.limiter) (hhistory : t.history = s.history)
      (hclock : s.clock ≤ t.clock)
      (hpending : ∀ thread, (t.pcs thread).pending = (s.pcs thread).pending) : Effect s t
  | claimed {thread : Thread} {refill : Refill} (hpc : s.pcs thread = .claim refill)
      (hlast : s.limiter.lastRefillMs = refill.last) :
      Effect s ({ s with
        limiter := { s.limiter with lastRefillMs := refill.now }
        history := s.history.after (.claimed refill) }.goto thread (.readForAdd refill))
  | credited {thread : Thread} {refill : Refill} (hpc : s.pcs thread = .add refill s.limiter.tokens) :
      Effect s ({ s with
        limiter := { s.limiter with
          tokens := min (s.limiter.tokens + refill.add) s.limiter.maxTokens }
        history := s.history.after (.credited refill) }.goto thread .readForTake)
  | granted {thread : Thread} (hpc : s.pcs thread = .take s.limiter.tokens) :
      Effect s ({ s with
        limiter := { s.limiter with tokens := s.limiter.tokens - 1 }
        history := s.history.after .granted }.goto thread .idle)

theorem goto_pcs_self (s : System Thread) (thread : Thread) (pc : Pc) :
    (s.goto thread pc).pcs thread = pc := Function.update_self ..

theorem goto_pcs_of_ne (s : System Thread) {thread other : Thread} (pc : Pc)
    (h : other ≠ thread) : (s.goto thread pc).pcs other = s.pcs other :=
  Function.update_of_ne h ..

/-- A thread goes to a place with the same claim. -/
theorem Effect.of_goto {thread : Thread} {pc : Pc}
    (h : pc.pending = (s.pcs thread).pending) : Effect s (s.goto thread pc) := by
  refine .quiet rfl rfl (Nat.le_refl _) fun other => ?_
  by_cases hother : other = thread
  · subst hother
    rw [goto_pcs_self, h]
  · rw [goto_pcs_of_ne s pc hother]

theorem step_effect {a : Action Thread} (h : s.step a = some t) : Effect s t := by
  cases a with
  | tick ms =>
      obtain rfl := Option.some.inj h
      exact .quiet rfl rfl (Nat.le_add_right _ _) fun _ => rfl
  | call thread =>
      rw [step] at h
      split_ifs at h with hidle
      obtain rfl := Option.some.inj h
      apply Effect.of_goto
      rw [hidle]
      rfl
  | fail thread =>
      obtain ⟨pc, hpc, rfl⟩ := Option.map_eq_some_iff.mp h
      exact .of_goto (Pc.pending_afterFailure hpc)
  | act thread =>
      rw [step] at h
      split_ifs at h with hidle
      obtain rfl := Option.some.inj h
      generalize hnext : s.limiter.act s.clock (s.pcs thread) = next
      -- a step that changes only the place of the thread
      have hquiet {pc : Pc}
          (hsame : (s.limiter, pc, Event.quiet) = next ∨ (s.limiter, pc, Event.refused) = next)
          (hpc : pc.pending = (s.pcs thread).pending) :
          Effect s ({ s with limiter := next.1, history := s.history.after next.2.2 }.goto thread
            next.2.1) := by
        rcases hsame with rfl | rfl
        · exact .of_goto hpc
        · exact .of_goto hpc
      cases hat : s.pcs thread with
      | idle => exact absurd hat hidle
      | readClock =>
          rw [hat] at hnext hquiet
          exact hquiet (.inl hnext) rfl
      | readLast now =>
          rw [hat, act] at hnext
          rw [hat] at hquiet
          dsimp only at hnext
          split_ifs at hnext
          · exact hquiet (.inl hnext) rfl
          · exact hquiet (.inl hnext) rfl
          · exact hquiet (.inl hnext) rfl
      | claim refill =>
          rw [hat, act] at hnext
          rw [hat] at hquiet
          split_ifs at hnext with hlast
          · subst hnext
            exact .claimed hat hlast
          · exact hquiet (.inl hnext) rfl
      | readForAdd refill =>
          rw [hat] at hnext hquiet
          exact hquiet (.inl hnext) rfl
      | add refill current =>
          rw [hat, act] at hnext
          rw [hat] at hquiet
          split_ifs at hnext with hsame
          · subst hsame hnext
            exact .credited hat
          · exact hquiet (.inl hnext) rfl
      | readForTake =>
          rw [hat, act] at hnext
          rw [hat] at hquiet
          split_ifs at hnext
          · exact hquiet (.inr hnext) rfl
          · exact hquiet (.inl hnext) rfl
      | take current =>
          rw [hat, act] at hnext
          rw [hat] at hquiet
          split_ifs at hnext with hsame
          · subst hsame hnext
            exact .granted hat
          · exact hquiet (.inl hnext) rfl

theorem act_rate (l : RateLimiter) (clock : Nat) (pc : Pc) :
    (l.act clock pc).1.refillRatePerSec = l.refillRatePerSec := by
  cases pc with
  | idle | readClock | readForAdd => rfl
  | readLast =>
      rw [act]
      dsimp only
      split_ifs <;> rfl
  | claim | add | readForTake | take =>
      rw [act]
      split_ifs <;> rfl

theorem step_fits {a : Action Thread} (h : s.step a = some t)
    (hfits : ∀ thread, (s.pcs thread).Fits s.limiter.refillRatePerSec s.clock) (thread : Thread) :
    (t.pcs thread).Fits t.limiter.refillRatePerSec t.clock := by
  -- one thread goes on and the others stay
  have hgoto {r : System Thread} {other : Thread} {pc : Pc}
      (hr : ∀ thread, (r.pcs thread).Fits r.limiter.refillRatePerSec r.clock)
      (hpc : pc.Fits r.limiter.refillRatePerSec r.clock) :
      ((r.goto other pc).pcs thread).Fits r.limiter.refillRatePerSec r.clock := by
    by_cases hthread : thread = other
    · subst hthread
      rw [goto_pcs_self]
      exact hpc
    · rw [goto_pcs_of_ne r pc hthread]
      exact hr thread
  cases a with
  | tick ms =>
      obtain rfl := Option.some.inj h
      exact (hfits thread).mono (Nat.le_add_right _ _)
  | call other =>
      rw [step] at h
      split_ifs at h
      obtain rfl := Option.some.inj h
      exact hgoto hfits trivial
  | fail other =>
      obtain ⟨pc, hpc, rfl⟩ := Option.map_eq_some_iff.mp h
      exact hgoto hfits (Pc.fits_afterFailure hpc (hfits other))
  | act other =>
      rw [step] at h
      split_ifs at h
      obtain rfl := Option.some.inj h
      have hrate := act_rate s.limiter s.clock (s.pcs other)
      refine hgoto (r := { s with
        limiter := (s.limiter.act s.clock (s.pcs other)).1
        history := s.history.after (s.limiter.act s.clock (s.pcs other)).2.2 }) ?_ ?_
      · rw [hrate]
        exact hfits
      · rw [hrate]
        exact act_fits (hfits other)

/-! ## The invariant -/

/-- The claimed intervals follow one another up to the last refill, and each is credited by the one
thread that claimed it. -/
structure Inv (s : System Thread) : Prop where
  fits : ∀ thread, (s.pcs thread).Fits s.limiter.refillRatePerSec s.clock
  tokens_le : s.limiter.tokens ≤ s.limiter.maxTokens
  last_le : s.limiter.lastRefillMs.toNat ≤ s.clock
  claimed_past : ∀ refill ∈ s.history.claimed, refill.last.toNat < refill.now.toNat ∧
    refill.now.toNat ≤ s.limiter.lastRefillMs.toNat
  claimed_apart : s.history.claimed.Pairwise fun a b => a.now.toNat ≤ b.last.toNat
  credited_claimed : ∀ refill ∈ s.history.credited, refill ∈ s.history.claimed
  credited_once : s.history.credited.Nodup
  pending_claimed : ∀ {thread refill}, (s.pcs thread).pending = some refill →
    refill ∈ s.history.claimed ∧ refill ∉ s.history.credited
  pending_own : ∀ {thread thread' refill}, (s.pcs thread).pending = some refill →
    (s.pcs thread').pending = some refill → thread = thread'

omit [DecidableEq Thread] in
theorem inv_init (maxRequestsPerSec : UInt64) : Inv (init maxRequestsPerSec : System Thread) where
  fits _ := trivial
  tokens_le := UInt64.le_refl _
  last_le := Nat.le_refl 0
  claimed_past := List.forall_mem_nil _
  claimed_apart := .nil
  credited_claimed := List.forall_mem_nil _
  credited_once := .nil
  pending_claimed h := absurd h (Option.some_ne_none _).symm
  pending_own h := absurd h (Option.some_ne_none _).symm

/-- Where a thread goes to a place with no claim, the claims of the others stay. -/
theorem pending_of_goto {r : System Thread} (hpcs : r.pcs = s.pcs) {thread other : Thread} {pc : Pc}
    {refill : Refill} (hpc : pc.pending = none)
    (h : ((r.goto thread pc).pcs other).pending = some refill) :
    other ≠ thread ∧ (s.pcs other).pending = some refill := by
  by_cases hother : other = thread
  · subst hother
    rw [goto_pcs_self, hpc] at h
    exact absurd h (Option.some_ne_none _).symm
  · rw [goto_pcs_of_ne r pc hother, hpcs] at h
    exact ⟨hother, h⟩

theorem Inv.effect (h : Inv s) (heffect : Effect s t)
    (hfits : ∀ thread, (t.pcs thread).Fits t.limiter.refillRatePerSec t.clock) : Inv t := by
  cases heffect with
  | quiet hlimiter hhistory hclock hpending =>
      exact {
        fits := hfits
        tokens_le := by rw [hlimiter]; exact h.tokens_le
        last_le := by rw [hlimiter]; exact Nat.le_trans h.last_le hclock
        claimed_past := by rw [hhistory, hlimiter]; exact h.claimed_past
        claimed_apart := by rw [hhistory]; exact h.claimed_apart
        credited_claimed := by rw [hhistory]; exact h.credited_claimed
        credited_once := by rw [hhistory]; exact h.credited_once
        pending_claimed := fun hat => by
          rw [hpending] at hat
          rw [hhistory]
          exact h.pending_claimed hat
        pending_own := fun hat hat' => by
          rw [hpending] at hat hat'
          exact h.pending_own hat hat' }
  | @claimed thread refill hpc hlast =>
      obtain ⟨hlt, hnow, -⟩ : refill.Fits s.limiter.refillRatePerSec s.clock := by
        have hat := h.fits thread
        rw [hpc] at hat
        exact hat
      rw [← hlast] at hlt
      have hfresh : refill ∉ s.history.claimed := fun hmem => by
        have hle := (h.claimed_past refill hmem).2
        omega
      exact {
        fits := hfits
        tokens_le := h.tokens_le
        last_le := hnow
        claimed_past := by
          refine List.forall_mem_append.mpr ⟨fun earlier hmem => ?_, ?_⟩
          · obtain ⟨hearlier, hle⟩ := h.claimed_past earlier hmem
            exact ⟨hearlier, Nat.le_trans hle (Nat.le_of_lt hlt)⟩
          · rw [List.forall_mem_singleton, ← hlast]
            exact ⟨hlt, Nat.le_refl _⟩
        claimed_apart := by
          refine List.pairwise_append.mpr ⟨h.claimed_apart, List.pairwise_singleton _ _, ?_⟩
          intro earlier hmem later hlater
          obtain rfl := List.mem_singleton.mp hlater
          rw [← hlast]
          exact (h.claimed_past earlier hmem).2
        credited_claimed := fun earlier hmem =>
          List.mem_append_left _ (h.credited_claimed earlier hmem)
        credited_once := h.credited_once
        pending_claimed := fun {other claim} hat => by
          by_cases hother : other = thread
          · subst hother
            rw [goto_pcs_self] at hat
            obtain rfl := Option.some.inj hat
            exact ⟨List.mem_append_right _ List.mem_cons_self,
              fun hmem => hfresh (h.credited_claimed _ hmem)⟩
          · rw [goto_pcs_of_ne _ _ hother] at hat
            exact ⟨List.mem_append_left _ (h.pending_claimed hat).1, (h.pending_claimed hat).2⟩
        pending_own := fun {other other' claim} hat hat' => by
          by_cases hother : other = thread <;> by_cases hother' : other' = thread
          · exact hother.trans hother'.symm
          · subst hother
            rw [goto_pcs_self] at hat
            rw [goto_pcs_of_ne _ _ hother'] at hat'
            obtain rfl := Option.some.inj hat
            exact absurd (h.pending_claimed hat').1 hfresh
          · subst hother'
            rw [goto_pcs_self] at hat'
            rw [goto_pcs_of_ne _ _ hother] at hat
            obtain rfl := Option.some.inj hat'
            exact absurd (h.pending_claimed hat).1 hfresh
          · rw [goto_pcs_of_ne _ _ hother] at hat
            rw [goto_pcs_of_ne _ _ hother'] at hat'
            exact h.pending_own hat hat' }
  | @credited thread refill hpc =>
      have hat : (s.pcs thread).pending = some refill := congrArg Pc.pending hpc
      obtain ⟨hclaimed, hfresh⟩ := h.pending_claimed hat
      exact {
        fits := hfits
        tokens_le := min_le_max _ _
        last_le := h.last_le
        claimed_past := h.claimed_past
        claimed_apart := h.claimed_apart
        credited_claimed :=
          List.forall_mem_append.mpr ⟨h.credited_claimed, List.forall_mem_singleton.mpr hclaimed⟩
        credited_once := h.credited_once.append (List.nodup_singleton _) fun earlier hmem hnew => by
          rw [List.mem_singleton.mp hnew] at hmem
          exact hfresh hmem
        pending_claimed := fun {other claim} hother => by
          obtain ⟨hne, hother⟩ := pending_of_goto rfl rfl hother
          obtain ⟨hmem, hnot⟩ := h.pending_claimed hother
          refine ⟨hmem, fun hcredited => ?_⟩
          rcases List.mem_append.mp hcredited with hcredited | hcredited
          · exact hnot hcredited
          · rw [List.mem_singleton.mp hcredited] at hother
            exact hne (h.pending_own hother hat)
        pending_own := fun hother hother' =>
          h.pending_own (pending_of_goto rfl rfl hother).2 (pending_of_goto rfl rfl hother').2 }
  | @granted thread hpc =>
      have hpositive : s.limiter.tokens ≠ 0 := by
        have hat := h.fits thread
        rw [hpc] at hat
        exact hat
      exact {
        fits := hfits
        tokens_le := by
          have hle := UInt64.le_iff_toNat_le.mp h.tokens_le
          have hone := toNat_sub_one hpositive
          change s.limiter.tokens - 1 ≤ s.limiter.maxTokens
          rw [UInt64.le_iff_toNat_le]
          omega
        last_le := h.last_le
        claimed_past := h.claimed_past
        claimed_apart := h.claimed_apart
        credited_claimed := h.credited_claimed
        credited_once := h.credited_once
        pending_claimed := fun hother => h.pending_claimed (pending_of_goto rfl rfl hother).2
        pending_own := fun hother hother' =>
          h.pending_own (pending_of_goto rfl rfl hother).2 (pending_of_goto rfl rfl hother').2 }

theorem runs_inv {as : List (Action Thread)} (h : Runs s as t) (hs : Inv s) : Inv t :=
  h.invariant (fun _ _ _ hinv hstep => hinv.effect (step_effect hstep) (step_fits hstep hinv.fits)) hs

/-! ## The account -/

section Account

variable [Fintype Thread]

def claimOf (pc : Pc) : Nat := pc.pending.elim 0 fun refill => refill.add.toNat

theorem pending_goto (s : System Thread) (thread : Thread) (pc : Pc) :
    (s.goto thread pc).pending + claimOf (s.pcs thread) = s.pending + claimOf pc := by
  have hupdate : (s.goto thread pc).pending =
      ∑ other, Function.update (fun other => claimOf (s.pcs other)) thread (claimOf pc) other := by
    rw [pending]
    refine Finset.sum_congr rfl fun other _ => ?_
    by_cases hother : other = thread
    · subst hother
      rw [goto_pcs_self, Function.update_self]
      rfl
    · rw [goto_pcs_of_ne s pc hother, Function.update_of_ne hother]
      rfl
  have hsplit : s.pending = claimOf (s.pcs thread) +
      ∑ other ∈ Finset.univ \ {thread}, claimOf (s.pcs other) := by
    rw [pending, ← Finset.sum_sdiff (Finset.subset_univ {thread}), Finset.sum_singleton,
      Nat.add_comm]
    rfl
  rw [hupdate, hsplit, Finset.sum_update_of_mem (Finset.mem_univ thread)]
  omega

/-- What was granted, the tokens there are and those on their way. -/
def paid (s : System Thread) : Nat :=
  s.history.granted + s.limiter.tokens.toNat + s.pending

/-- From `s` to `t` no more was paid than the time by which the last refill moved on. -/
structure Accounted (s t : System Thread) : Prop where
  paid : 1000 * t.paid + s.limiter.refillRatePerSec.toNat * s.limiter.lastRefillMs.toNat ≤
    1000 * s.paid + s.limiter.refillRatePerSec.toNat * t.limiter.lastRefillMs.toNat
  rate : t.limiter.refillRatePerSec = s.limiter.refillRatePerSec
  max : t.limiter.maxTokens = s.limiter.maxTokens
  last : s.limiter.lastRefillMs.toNat ≤ t.limiter.lastRefillMs.toNat
  clock : s.clock ≤ t.clock

theorem Inv.account (h : Inv s) (heffect : Effect s t) : Accounted s t := by
  cases heffect with
  | quiet hlimiter hhistory hclock hpending =>
      have hsame : t.pending = s.pending :=
        Finset.sum_congr rfl fun thread _ => by rw [hpending]
      refine ⟨?_, ?_, ?_, ?_, hclock⟩
      · rw [paid, paid, hhistory, hlimiter, hsame]
      · rw [hlimiter]
      · rw [hlimiter]
      · rw [hlimiter]
  | @claimed thread refill hpc hlast =>
      obtain ⟨hlt, -, hadd⟩ : refill.Fits s.limiter.refillRatePerSec s.clock := by
        have hat := h.fits thread
        rw [hpc] at hat
        exact hat
      have hpending := pending_goto ({ s with
        limiter := { s.limiter with lastRefillMs := refill.now }
        history := s.history.after (.claimed refill) }) thread (.readForAdd refill)
      rw [show claimOf (s.pcs thread) = 0 by rw [hpc]; rfl] at hpending
      have hmul : s.limiter.refillRatePerSec.toNat * refill.now.toNat =
          s.limiter.refillRatePerSec.toNat * refill.last.toNat +
            s.limiter.refillRatePerSec.toNat * (refill.now.toNat - refill.last.toNat) := by
        rw [← Nat.mul_add, Nat.add_sub_cancel' (Nat.le_of_lt hlt)]
      refine ⟨?_, rfl, rfl, ?_, Nat.le_refl _⟩
      · rw [paid, Nat.add_zero] at *
        rw [hpending, hlast]
        change 1000 * (s.history.granted + s.limiter.tokens.toNat +
          (s.pending + refill.add.toNat)) + _ ≤ 1000 * (s.history.granted +
            s.limiter.tokens.toNat + s.pending) + _ * refill.now.toNat
        omega
      · rw [hlast]
        exact Nat.le_of_lt hlt
  | @credited thread refill hpc =>
      have hpending := pending_goto ({ s with
        limiter := { s.limiter with
          tokens := min (s.limiter.tokens + refill.add) s.limiter.maxTokens }
        history := s.history.after (.credited refill) }) thread .readForTake
      rw [show claimOf (s.pcs thread) = refill.add.toNat by rw [hpc]; rfl] at hpending
      have htokens := toNat_min_add_le s.limiter.tokens refill.add s.limiter.maxTokens
      refine ⟨Nat.add_le_add_right (Nat.mul_le_mul_left 1000 ?_) _, rfl, rfl, Nat.le_refl _,
        Nat.le_refl _⟩
      change s.history.granted + (min (s.limiter.tokens + refill.add) s.limiter.maxTokens).toNat +
        _ ≤ s.history.granted + s.limiter.tokens.toNat + s.pending
      change _ = s.pending + 0 at hpending
      omega
  | @granted thread hpc =>
      have hpending := pending_goto ({ s with
        limiter := { s.limiter with tokens := s.limiter.tokens - 1 }
        history := s.history.after .granted }) thread .idle
      rw [show claimOf (s.pcs thread) = 0 by rw [hpc]; rfl] at hpending
      have hpositive : s.limiter.tokens ≠ 0 := by
        have hat := h.fits thread
        rw [hpc] at hat
        exact hat
      have htokens := toNat_sub_one hpositive
      refine ⟨Nat.add_le_add_right (Nat.mul_le_mul_left 1000 ?_) _, rfl, rfl, Nat.le_refl _,
        Nat.le_refl _⟩
      change s.history.granted + 1 + (s.limiter.tokens - 1).toNat + _ ≤
        s.history.granted + s.limiter.tokens.toNat + s.pending
      change _ = s.pending + 0 at hpending
      omega

theorem runs_account {as : List (Action Thread)} (h : Runs s as t) (hs : Inv s) :
    Accounted s t := by
  induction h with
  | nil s => exact ⟨Nat.le_refl _, rfl, rfl, Nat.le_refl _, Nat.le_refl _⟩
  | @cons s m t a as hstep hrest ih =>
      have hfirst := hs.account (step_effect hstep)
      have hafter := ih (hs.effect (step_effect hstep) (step_fits hstep hs.fits))
      have hpaid := hafter.paid
      rw [hfirst.rate] at hpaid
      refine ⟨?_, hafter.rate.trans hfirst.rate, hafter.max.trans hfirst.max,
        Nat.le_trans hfirst.last hafter.last, Nat.le_trans hfirst.clock hafter.clock⟩
      have := hfirst.paid
      omega

/-- Over any span, what is granted are the tokens there were, those on their way, and what the time
since the last refill gives. -/
theorem granted_le {as : List (Action Thread)} (h : Runs s as t) (hs : Inv s) :
    t.history.granted ≤ s.history.granted + s.limiter.tokens.toNat + s.pending +
      s.limiter.refillRatePerSec.toNat * (t.clock - s.limiter.lastRefillMs.toNat) / 1000 := by
  have haccount := runs_account h hs
  have hpaid := haccount.paid
  have hmul : s.limiter.refillRatePerSec.toNat * t.limiter.lastRefillMs.toNat ≤
      s.limiter.refillRatePerSec.toNat * s.limiter.lastRefillMs.toNat +
        s.limiter.refillRatePerSec.toNat * (t.clock - s.limiter.lastRefillMs.toNat) := by
    rw [← Nat.mul_add]
    apply Nat.mul_le_mul_left
    have := (runs_inv h hs).last_le
    omega
  rw [paid, paid] at hpaid
  omega

/-- A span that begins with nothing on its way and no whole token's time uncredited. -/
theorem granted_le_of_settled {as : List (Action Thread)} (h : Runs s as t) (hs : Inv s)
    (hpending : s.pending = 0)
    (hfresh : s.limiter.refillRatePerSec.toNat * (s.clock - s.limiter.lastRefillMs.toNat) < 1000) :
    t.history.granted ≤ s.history.granted + s.limiter.maxTokens.toNat +
      s.limiter.refillRatePerSec.toNat * (t.clock - s.clock) / 1000 + 1 := by
  have hgranted := granted_le h hs
  have htokens := UInt64.le_iff_toNat_le.mp hs.tokens_le
  have hspan : s.limiter.refillRatePerSec.toNat * (t.clock - s.limiter.lastRefillMs.toNat) =
      s.limiter.refillRatePerSec.toNat * (t.clock - s.clock) +
        s.limiter.refillRatePerSec.toNat * (s.clock - s.limiter.lastRefillMs.toNat) := by
    rw [← Nat.mul_add]
    congr 1
    have := (runs_account h hs).clock
    have := hs.last_le
    omega
  rw [hspan, hpending] at hgranted
  omega

end Account

/-! ## Every run -/

omit [DecidableEq Thread] in
/-- No time is credited twice. -/
theorem Inv.credited_apart (h : Inv s) : s.history.credited.Pairwise fun a b =>
    a.now.toNat ≤ b.last.toNat ∨ b.now.toNat ≤ a.last.toNat := by
  have happart : s.history.claimed.Pairwise fun a b =>
      a.now.toNat ≤ b.last.toNat ∨ b.now.toNat ≤ a.last.toNat :=
    h.claimed_apart.imp Or.inl
  have hsymm : Std.Symm fun a b : Refill =>
      a.now.toNat ≤ b.last.toNat ∨ b.now.toNat ≤ a.last.toNat := ⟨fun _ _ => Or.symm⟩
  refine List.Pairwise.imp_of_mem ?_ h.credited_once
  intro a b ha hb hne
  exact happart.forall (h.credited_claimed a ha) (h.credited_claimed b hb) hne

/-- A call that finds nothing to refill. -/
def request (thread : Thread) : List (Action Thread) :=
  [.call thread, .act thread, .act thread, .act thread, .act thread]

end System

end Victauri.Core.RateLimiter
