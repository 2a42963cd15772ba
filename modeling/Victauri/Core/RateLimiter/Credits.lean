import Victauri.Core.RateLimiter.Accounting
import Victauri.Core.Usize
import Mathlib.Data.Nat.ModEq

/-!
# What the refills of a sequence of attempts add up to

A refill rounds the tokens of its interval down and moves the stamp to now, so what it rounds off is
gone.  A sequence of attempts credits what the whole time is worth exactly when no interval rounds
off a token, seen from where the stamp stood, and no product or sum is over 64 bits.
-/

namespace Victauri.Core.RateLimiter

open Victauri.Library

/-! ## An attempt on its own -/

/-- `refill` with no other thread about, and the tokens it credits before the maximum. -/
def refill (l : RateLimiter) (now : UInt64) : RateLimiter × UInt64 :=
  let elapsedMs := saturatingSub now l.lastRefillMs
  if elapsedMs = 0 then (l, 0)
  else
    let add := elapsedMs * l.refillRatePerSec / 1000
    if add = 0 then (l, 0)
    else ({ l with lastRefillMs := now, tokens := min (l.tokens + add) l.maxTokens }, add)

/-- The loop of `try_acquire` with no other thread about. -/
def takeToken (l : RateLimiter) : RateLimiter × Bool :=
  if l.tokens = 0 then (l, false) else ({ l with tokens := l.tokens - 1 }, true)

def tryAcquire (l : RateLimiter) (now : UInt64) : RateLimiter × Bool :=
  (l.refill now).1.takeToken

namespace System

variable {Thread : Type} [DecidableEq Thread]

/-- The system with one thread somewhere else and another limiter and history. -/
def placed (s : System Thread) (thread : Thread) (l : RateLimiter) (h : History) (pc : Pc) :
    System Thread :=
  { limiter := l, clock := s.clock, pcs := Function.update s.pcs thread pc, history := h }

theorem step_placed (s : System Thread) (thread : Thread) (l : RateLimiter) (h : History) (pc : Pc)
    (hpc : pc ≠ .idle) :
    (s.placed thread l h pc).step (.act thread) =
      some (s.placed thread (l.act s.clock pc).1 (h.after (l.act s.clock pc).2.2)
        (l.act s.clock pc).2.1) := by
  have hat : (s.placed thread l h pc).pcs thread = pc := Function.update_self ..
  rw [step, hat, if_neg hpc]
  dsimp only [goto, placed]
  rw [Function.update_idem]

/-- The tokens of the refills that were added. -/
def creditedTokens (h : History) : Nat := (h.credited.map fun refill => refill.add.toNat).sum

/-- The steps of a thread that refills while the others wait. -/
theorem runs_refill (s : System Thread) (thread : Thread) (l : RateLimiter) (h : History) :
    ∃ n h', Runs (s.placed thread l h .readClock) (List.replicate n (.act thread))
        (s.placed thread (l.refill (UInt64.ofNat s.clock)).1 h' .readForTake) ∧
      h'.granted = h.granted ∧
      creditedTokens h' = creditedTokens h + (l.refill (UInt64.ofNat s.clock)).2.toNat := by
  have hstep := step_placed s thread
  have hclock := hstep l h .readClock (by decide)
  have hlast := hstep l h (.readLast (UInt64.ofNat s.clock)) (by simp)
  have hquiet (hnext : l.act s.clock (.readLast (UInt64.ofNat s.clock)) =
      (l, .readForTake, .quiet)) :
      Runs (s.placed thread l h .readClock) (List.replicate 2 (.act thread))
        (s.placed thread l h .readForTake) := by
    rw [hnext] at hlast
    exact .cons hclock (.single hlast)
  rw [refill]
  dsimp only
  split_ifs with hnone hsmall
  · refine ⟨2, h, hquiet ?_, rfl, rfl⟩
    rw [act]
    dsimp only
    rw [if_pos hnone]
  · refine ⟨2, h, hquiet ?_, rfl, rfl⟩
    rw [act]
    dsimp only
    rw [if_neg hnone, if_pos hsmall]
  · let claim : Refill := ⟨UInt64.ofNat s.clock, l.lastRefillMs,
      saturatingSub (UInt64.ofNat s.clock) l.lastRefillMs * l.refillRatePerSec / 1000⟩
    let l' : RateLimiter := { l with lastRefillMs := UInt64.ofNat s.clock }
    let h' := h.after (.claimed claim)
    have hfound : l.act s.clock (.readLast (UInt64.ofNat s.clock)) =
        (l, .claim claim, .quiet) := by
      rw [act]
      dsimp only
      rw [if_neg hnone, if_neg hsmall]
    have hclaim : l.act s.clock (.claim claim) = (l', .readForAdd claim, .claimed claim) := by
      rw [act, if_pos rfl]
    have hadd : l'.act s.clock (.add claim l'.tokens) =
        ({ l' with tokens := min (l'.tokens + claim.add) l'.maxTokens }, .readForTake,
          .credited claim) := by
      rw [act, if_pos rfl]
    have hthird := hstep l h (.claim claim) (by simp)
    have hfourth := hstep l' h' (.readForAdd claim) (by simp)
    have hfifth := hstep l' h' (.add claim l'.tokens) (by simp)
    rw [hfound] at hlast
    rw [hclaim] at hthird
    rw [hadd] at hfifth
    refine ⟨5, h'.after (.credited claim),
      .cons hclock (.cons hlast (.cons hthird (.cons hfourth (.single hfifth)))), rfl, ?_⟩
    change creditedTokens { h' with credited := h.credited ++ [claim] } = _
    rw [creditedTokens, List.map_append, List.sum_append]
    rfl

theorem runs_takeToken (s : System Thread) (thread : Thread) (l : RateLimiter) (h : History) :
    ∃ n h', Runs (s.placed thread l h .readForTake) (List.replicate n (.act thread))
        (s.placed thread l.takeToken.1 h' .idle) ∧
      h'.granted = h.granted + (if l.takeToken.2 then 1 else 0) ∧ h'.credited = h.credited := by
  have hread := step_placed s thread l h .readForTake (by decide)
  by_cases hnone : l.tokens = 0
  · have hnext : l.act s.clock .readForTake = (l, .idle, .refused) := by
      rw [act, if_pos hnone]
    rw [hnext] at hread
    rw [takeToken, if_pos hnone]
    exact ⟨1, h, .single hread, rfl, rfl⟩
  · have hnext : l.act s.clock .readForTake = (l, .take l.tokens, .quiet) := by
      rw [act, if_neg hnone]
    have htake : l.act s.clock (.take l.tokens) =
        ({ l with tokens := l.tokens - 1 }, .idle, .granted) := by
      rw [act, if_pos rfl]
    have hlast := step_placed s thread l h (.take l.tokens) (by simp)
    rw [hnext] at hread
    rw [htake] at hlast
    rw [takeToken, if_neg hnone]
    exact ⟨2, h.after .granted, .cons hread (.single hlast), rfl, rfl⟩

/-- What a call of a thread does while the others wait is `tryAcquire`. -/
theorem runs_tryAcquire (s : System Thread) {thread : Thread} (hidle : s.pcs thread = .idle) :
    ∃ as t, Runs s as t ∧ t.pcs = s.pcs ∧ t.clock = s.clock ∧
      t.limiter = (s.limiter.tryAcquire (UInt64.ofNat s.clock)).1 ∧
      t.history.granted = s.history.granted +
        (if (s.limiter.tryAcquire (UInt64.ofNat s.clock)).2 then 1 else 0) ∧
      creditedTokens t.history = creditedTokens s.history +
        (s.limiter.refill (UInt64.ofNat s.clock)).2.toNat := by
  have hcall : s.step (.call thread) =
      some (s.placed thread s.limiter s.history .readClock) := by
    rw [step, if_pos hidle]
    rfl
  obtain ⟨n, h, hrefill, hgranted, hcredited⟩ := runs_refill s thread s.limiter s.history
  obtain ⟨m, h', htake, hgranted', hcredited'⟩ :=
    runs_takeToken s thread (s.limiter.refill (UInt64.ofNat s.clock)).1 h
  refine ⟨_, _, .cons hcall (hrefill.append htake), ?_, rfl, rfl, ?_, ?_⟩
  · dsimp only [placed]
    rw [← hidle, Function.update_eq_self]
  · dsimp only [placed]
    rw [hgranted', hgranted]
    rfl
  · dsimp only [placed]
    rw [creditedTokens, hcredited']
    exact hcredited

end System

/-! ## A sequence of attempts -/

/-- A multiplication or an addition of `refill` is over 64 bits. -/
def overflows (l : RateLimiter) (now : UInt64) : Bool :=
  decide (2 ^ 64 ≤ (saturatingSub now l.lastRefillMs).toNat * l.refillRatePerSec.toNat) ||
    decide (2 ^ 64 ≤ l.tokens.toNat + (l.refill now).2.toNat)

/-- A limiter, the time since it was made, and what its refills credited before the maximum. -/
structure Ledger where
  limiter : RateLimiter
  elapsed : Nat
  credited : Nat
  overflowed : Bool

namespace Ledger

def start (maxRequestsPerSec : UInt64) : Ledger :=
  { limiter := new maxRequestsPerSec, elapsed := 0, credited := 0, overflowed := false }

/-- An attempt `gap` milliseconds after the one before. -/
def attempt (s : Ledger) (gap : Nat) : Ledger :=
  let now := UInt64.ofNat (s.elapsed + gap)
  { limiter := (s.limiter.tryAcquire now).1
    elapsed := s.elapsed + gap
    credited := s.credited + (s.limiter.refill now).2.toNat
    overflowed := s.overflowed || s.limiter.overflows now }

def run (s : Ledger) (gaps : List Nat) : Ledger := gaps.foldl attempt s

abbrev rate (s : Ledger) : Nat := s.limiter.refillRatePerSec.toNat

/-- When the stamp stands, in milliseconds. -/
abbrev stamp (s : Ledger) : Nat := s.limiter.lastRefillMs.toNat

/-- Nothing overflowed, and what was credited is what the whole time is worth. -/
def Exact (s : Ledger) : Prop :=
  s.overflowed = false ∧ s.credited = s.rate * s.elapsed / 1000

/-- The next attempt, `gap` milliseconds later, rounds off no token and stays within 64 bits. -/
structure Lossless (s : Ledger) (gap : Nat) : Prop where
  clock : s.elapsed + gap < 2 ^ 64 ∨ s.rate * (s.elapsed + gap - s.stamp) < 1000
  product : s.rate * (s.elapsed + gap - s.stamp) < 2 ^ 64
  sum : s.limiter.tokens.toNat + s.rate * (s.elapsed + gap - s.stamp) / 1000 < 2 ^ 64
  rounding : s.rate * s.stamp % 1000 + s.rate * (s.elapsed + gap - s.stamp) % 1000 < 1000

end Ledger

/-! ## One attempt -/

theorem refill_snd (l : RateLimiter) (now : UInt64) :
    (l.refill now).2 = saturatingSub now l.lastRefillMs * l.refillRatePerSec / 1000 := by
  rw [refill]
  dsimp only
  split_ifs with hnone hsmall
  · rw [hnone, UInt64.zero_mul, UInt64.zero_div]
  · exact hsmall.symm
  · rfl

theorem toNat_refill_snd {l : RateLimiter} {now : UInt64}
    (h : (saturatingSub now l.lastRefillMs).toNat * l.refillRatePerSec.toNat < 2 ^ 64) :
    (l.refill now).2.toNat =
      (saturatingSub now l.lastRefillMs).toNat * l.refillRatePerSec.toNat / 1000 := by
  rw [refill_snd, UInt64.toNat_div, UInt64.toNat_mul, Nat.mod_eq_of_lt h]
  rfl

theorem toNat_saturatingSub (now last : UInt64) :
    (saturatingSub now last).toNat = now.toNat - last.toNat := by
  rw [saturatingSub]
  split_ifs with hle
  · exact UInt64.toNat_sub_of_le _ _ hle
  · rw [UInt64.le_iff_toNat_le, Nat.not_le] at hle
    exact (Nat.sub_eq_zero_of_le (Nat.le_of_lt hle)).symm

theorem takeToken_keeps (l : RateLimiter) :
    l.takeToken.1.refillRatePerSec = l.refillRatePerSec ∧
      l.takeToken.1.lastRefillMs = l.lastRefillMs := by
  rw [takeToken]
  split_ifs
  · exact ⟨rfl, rfl⟩
  · exact ⟨rfl, rfl⟩

/-- An attempt leaves the stamp where it was and credits nothing, or moves it to now. -/
theorem tryAcquire_keeps (l : RateLimiter) (now : UInt64) :
    (l.tryAcquire now).1.refillRatePerSec = l.refillRatePerSec ∧
      ((l.tryAcquire now).1.lastRefillMs = l.lastRefillMs ∧ (l.refill now).2 = 0 ∨
        (l.tryAcquire now).1.lastRefillMs = now ∧ l.lastRefillMs.toNat < now.toNat) := by
  obtain ⟨hrate, hlast⟩ := takeToken_keeps (l.refill now).1
  rw [tryAcquire, hrate, hlast, refill]
  dsimp only
  split_ifs with hnone hsmall
  · exact ⟨rfl, .inl ⟨rfl, rfl⟩⟩
  · exact ⟨rfl, .inl ⟨rfl, rfl⟩⟩
  · exact ⟨rfl, .inr ⟨rfl, (saturatingSub_pos hnone).1⟩⟩

/-- Rounding down in two parts is rounding down at once where the parts round off less than one. -/
theorem floor_parts (rate : Nat) {last now : Nat} (hle : last ≤ now) :
    rate * last / 1000 + rate * (now - last) / 1000 = rate * now / 1000 ↔
      rate * last % 1000 + rate * (now - last) % 1000 < 1000 := by
  have hwhole : rate * now = rate * last + rate * (now - last) := by
    rw [← Nat.mul_add, Nat.add_sub_cancel' hle]
  rw [hwhole]
  omega

namespace Ledger

/-- The stamp is not ahead, and what was credited is what the time up to it is worth. -/
structure Inv (rate : UInt64) (s : Ledger) : Prop where
  rate_eq : s.limiter.refillRatePerSec = rate
  stamp_le : s.stamp ≤ s.elapsed
  credited : s.credited = s.rate * s.stamp / 1000
  exact : s.Exact

theorem inv_start (rate : UInt64) : Inv rate (start rate) where
  rate_eq := rfl
  stamp_le := Nat.le_refl 0
  credited := by
    change 0 = rate.toNat * 0 / 1000
    omega
  exact := by
    refine ⟨rfl, ?_⟩
    change 0 = rate.toNat * 0 / 1000
    omega

theorem rate_attempt (s : Ledger) (gap : Nat) :
    (s.attempt gap).limiter.refillRatePerSec = s.limiter.refillRatePerSec :=
  (tryAcquire_keeps _ _).1

/-- What an attempt has to meet, in numbers. -/
theorem exact_attempt {rate : UInt64} {s : Ledger} (h : Inv rate s) (gap : Nat) :
    (s.attempt gap).Exact ↔
      s.rate * ((UInt64.ofNat (s.elapsed + gap)).toNat - s.stamp) < 2 ^ 64 ∧
      s.limiter.tokens.toNat +
        s.rate * ((UInt64.ofNat (s.elapsed + gap)).toNat - s.stamp) / 1000 < 2 ^ 64 ∧
      s.rate * s.stamp / 1000 +
        s.rate * ((UInt64.ofNat (s.elapsed + gap)).toNat - s.stamp) / 1000 =
          s.rate * (s.elapsed + gap) / 1000 := by
  have hover : (s.attempt gap).overflowed =
      s.limiter.overflows (UInt64.ofNat (s.elapsed + gap)) := by
    change (s.overflowed || _) = _
    rw [h.exact.1, Bool.false_or]
  have hrate : (s.attempt gap).rate = s.rate := congrArg UInt64.toNat (s.rate_attempt gap)
  have hcredited : (s.attempt gap).credited = s.rate * s.stamp / 1000 +
      (s.limiter.refill (UInt64.ofNat (s.elapsed + gap))).2.toNat := by
    rw [← h.credited]
    rfl
  rw [Exact, hover, hcredited, overflows, Bool.or_eq_false_iff, decide_eq_false_iff_not,
    decide_eq_false_iff_not, Nat.not_le, Nat.not_le, toNat_saturatingSub, and_assoc,
    Nat.mul_comm _ s.limiter.refillRatePerSec.toNat, hrate]
  apply and_congr_right
  intro hproduct
  have hadd : (s.limiter.refill (UInt64.ofNat (s.elapsed + gap))).2.toNat =
      s.rate * ((UInt64.ofNat (s.elapsed + gap)).toNat - s.stamp) / 1000 := by
    rw [Nat.mul_comm, ← toNat_saturatingSub] at hproduct
    rw [toNat_refill_snd hproduct, toNat_saturatingSub, Nat.mul_comm]
  rw [hadd]
  rfl

theorem exact_attempt_iff {rate : UInt64} {s : Ledger} (h : Inv rate s) (gap : Nat) :
    (s.attempt gap).Exact ↔ s.Lossless gap := by
  have hle : s.stamp ≤ s.elapsed + gap := Nat.le_add_right_of_le h.stamp_le
  have hparts := floor_parts s.rate hle
  rw [exact_attempt h]
  by_cases hclock : s.elapsed + gap < 2 ^ 64
  · rw [UInt64.toNat_ofNat_of_lt' hclock, hparts]
    constructor
    · rintro ⟨hproduct, hsum, hrounding⟩
      exact ⟨.inl hclock, hproduct, hsum, hrounding⟩
    · intro hlossless
      exact ⟨hlossless.product, hlossless.sum, hlossless.rounding⟩
  · -- the clock has wrapped: it is behind by a whole turn at least
    have hturn : (UInt64.ofNat (s.elapsed + gap)).toNat + 2 ^ 64 ≤ s.elapsed + gap := by
      rw [UInt64.toNat_ofNat']
      omega
    have hbehind : s.rate * ((UInt64.ofNat (s.elapsed + gap)).toNat - s.stamp) = 0 ∨
        s.rate * ((UInt64.ofNat (s.elapsed + gap)).toNat - s.stamp) + 2 ^ 64 ≤
          s.rate * (s.elapsed + gap - s.stamp) := by
      by_cases hworth : s.rate * ((UInt64.ofNat (s.elapsed + gap)).toNat - s.stamp) = 0
      · exact .inl hworth
      · rw [Nat.mul_eq_zero, not_or] at hworth
        have hgap : (UInt64.ofNat (s.elapsed + gap)).toNat - s.stamp + 2 ^ 64 ≤
            s.elapsed + gap - s.stamp := by
          omega
        have hmul := Nat.mul_le_mul_left s.rate hgap
        rw [Nat.mul_add] at hmul
        exact .inr (Nat.le_trans
          (Nat.add_le_add_left (Nat.le_mul_of_pos_left _ (Nat.pos_of_ne_zero hworth.1)) _) hmul)
    have hwhole : s.rate * (s.elapsed + gap) =
        s.rate * s.stamp + s.rate * (s.elapsed + gap - s.stamp) := by
      rw [← Nat.mul_add, Nat.add_sub_cancel' hle]
    have htokens := s.limiter.tokens.toNat_lt
    rw [hwhole]
    constructor
    · rintro ⟨-, -, hworth⟩
      constructor <;> omega
    · rintro ⟨hsmall, -, -, hrounding⟩
      omega

theorem inv_attempt {rate : UInt64} {s : Ledger} (h : Inv rate s) {gap : Nat}
    (hexact : (s.attempt gap).Exact) : Inv rate (s.attempt gap) := by
  have hclock : (UInt64.ofNat (s.elapsed + gap)).toNat ≤ s.elapsed + gap := by
    rw [UInt64.toNat_ofNat']
    exact Nat.mod_le _ _
  obtain ⟨hrate, ⟨hstamp, hnone⟩ | ⟨hstamp, hlater⟩⟩ :=
    tryAcquire_keeps s.limiter (UInt64.ofNat (s.elapsed + gap))
  · have hstamp' : (s.attempt gap).stamp = s.stamp := congrArg UInt64.toNat hstamp
    have hcredited : (s.attempt gap).credited = s.credited + 0 :=
      congrArg (fun add => s.credited + UInt64.toNat add) hnone
    refine ⟨hrate.trans h.rate_eq, ?_, ?_, hexact⟩
    · rw [hstamp']
      exact Nat.le_add_right_of_le h.stamp_le
    · rw [hstamp', hcredited, Nat.add_zero, h.credited, Ledger.rate, Ledger.rate, rate_attempt]
  · have hstamp' : (s.attempt gap).stamp = (UInt64.ofNat (s.elapsed + gap)).toNat :=
      congrArg UInt64.toNat hstamp
    refine ⟨hrate.trans h.rate_eq, ?_, ?_, hexact⟩
    · rw [hstamp']
      exact hclock
    · -- the time from now to the end of a clock that wrapped is worth nothing
      have hrate' : (s.attempt gap).rate = s.rate := congrArg UInt64.toNat hrate
      have hworth := ((exact_attempt h gap).mp hexact).2.2
      have hparts : s.rate * s.stamp / 1000 +
          s.rate * ((UInt64.ofNat (s.elapsed + gap)).toNat - s.stamp) / 1000 ≤
            (s.rate * s.stamp +
              s.rate * ((UInt64.ofNat (s.elapsed + gap)).toNat - s.stamp)) / 1000 :=
        Nat.div_add_div_le_add_div
      rw [← Nat.mul_add, Nat.add_sub_cancel' (Nat.le_of_lt hlater)] at hparts
      have hmono := Nat.div_le_div_right (c := 1000) (Nat.mul_le_mul_left s.rate hclock)
      rw [hexact.2, hrate', hstamp']
      change s.rate * (s.elapsed + gap) / 1000 = _
      omega

/-! ## Every sequence -/

theorem inv_run {rate : UInt64} {s : Ledger} (h : Inv rate s) (gaps : List Nat)
    (hlossless : ∀ front gap, front ++ [gap] <+: gaps → (s.run front).Lossless gap) :
    Inv rate (s.run gaps) := by
  induction gaps generalizing s with
  | nil => exact h
  | cons gap gaps ih =>
    have hfirst : s.Lossless gap := hlossless [] gap (List.prefix_append [gap] gaps)
    apply ih (inv_attempt h ((exact_attempt_iff h gap).mpr hfirst))
    intro front last hfront
    exact hlossless (gap :: front) last (List.cons_prefix_cons.mpr ⟨rfl, hfront⟩)

theorem lossless_run {rate : UInt64} {s : Ledger} (h : Inv rate s) {gaps : List Nat}
    (hexact : ∀ front, front <+: gaps → (s.run front).Exact) {front : List Nat} {gap : Nat}
    (hfront : front ++ [gap] <+: gaps) : (s.run front).Lossless gap := by
  induction front generalizing s gaps with
  | nil =>
    exact (exact_attempt_iff h gap).mp (hexact [gap] hfront)
  | cons first front ih =>
    cases gaps with
    | nil => exact absurd (List.prefix_nil.mp hfront) (List.cons_ne_nil _ _)
    | cons first' gaps =>
      obtain ⟨rfl, hrest⟩ := List.cons_prefix_cons.mp hfront
      have hfirst : (s.attempt first).Exact :=
        hexact [first] (List.prefix_append [first] gaps)
      apply ih (inv_attempt h hfirst) ?_ hrest
      intro front' hfront'
      exact hexact (first :: front') (List.cons_prefix_cons.mpr ⟨rfl, hfront'⟩)

/-- Every attempt leaves what the whole time is worth exactly when none rounds off a token. -/
theorem exact_iff_lossless (maxRequestsPerSec : UInt64) (gaps : List Nat) :
    (∀ front, front <+: gaps → ((start maxRequestsPerSec).run front).Exact) ↔
      ∀ front gap, front ++ [gap] <+: gaps →
        ((start maxRequestsPerSec).run front).Lossless gap := by
  have hstart := inv_start maxRequestsPerSec
  constructor
  · intro hexact front gap hfront
    exact lossless_run hstart hexact hfront
  · intro hlossless front hfront
    refine (inv_run hstart front fun front' gap hfront' => ?_).exact
    exact hlossless front' gap (hfront'.trans hfront)

/-- One request a second, and two attempts a second and a half apart: two tokens, not three.  The
highest rate overflows after two milliseconds. -/
theorem credits_two_of_three :
    ¬((start 1).run [1500, 1500]).Exact ∧ ((start 1).run [1500, 1500]).credited = 2 ∧
      1 * ((start 1).run [1500, 1500]).elapsed / 1000 = 3 ∧
      ((start (UInt64.ofNat usizeMax)).run [2]).overflowed = true := by
  refine ⟨?_, by decide, by decide, by decide⟩
  rintro ⟨-, hcredited⟩
  revert hcredited
  decide

/-! ## Whole tokens a millisecond -/

/-- Both the rate and the maximum are as configured, and the tokens within them. -/
structure Configured (rate : UInt64) (l : RateLimiter) : Prop where
  rate_eq : l.refillRatePerSec = rate
  max_eq : l.maxTokens = rate
  tokens_le : l.tokens ≤ rate

theorem Configured.tryAcquire {rate : UInt64} {l : RateLimiter} (h : Configured rate l)
    (now : UInt64) : Configured rate (l.tryAcquire now).1 := by
  have hrefill : Configured rate (l.refill now).1 := by
    rw [refill]
    dsimp only
    split_ifs
    · exact h
    · exact h
    · refine ⟨h.rate_eq, h.max_eq, ?_⟩
      have hle := min_le_max (l.tokens + saturatingSub now l.lastRefillMs * l.refillRatePerSec / 1000)
        l.maxTokens
      rw [h.max_eq] at hle ⊢
      exact hle
  rw [RateLimiter.tryAcquire, takeToken]
  split_ifs with hnone
  · exact hrefill
  · refine ⟨hrefill.rate_eq, hrefill.max_eq, ?_⟩
    have hone := toNat_sub_one hnone
    have hle := UInt64.le_iff_toNat_le.mp hrefill.tokens_le
    rw [UInt64.le_iff_toNat_le]
    change ((l.refill now).1.tokens - 1).toNat ≤ _
    omega

theorem configured_run {rate : UInt64} {s : Ledger} (h : Configured rate s.limiter)
    (gaps : List Nat) :
    Configured rate (s.run gaps).limiter ∧ (s.run gaps).elapsed = s.elapsed + gaps.sum := by
  induction gaps generalizing s with
  | nil => exact ⟨h, rfl⟩
  | cons gap gaps ih =>
    obtain ⟨hconfigured, helapsed⟩ :=
      ih (s := s.attempt gap) (h.tryAcquire (UInt64.ofNat (s.elapsed + gap)))
    refine ⟨hconfigured, helapsed.trans ?_⟩
    rw [List.sum_cons, ← Nat.add_assoc]
    rfl

/-- A rate that is a multiple of a thousand, such as the default one, loses nothing until the
products reach 64 bits. -/
theorem exact_of_whole {rate : UInt64} (hwhole : 1000 ∣ rate.toNat) {gaps : List Nat}
    (hbits : rate.toNat * (gaps.sum + 1) < 2 ^ 64) : ((start rate).run gaps).Exact := by
  have hstart : Configured rate (start rate).limiter := ⟨rfl, rfl, UInt64.le_refl _⟩
  apply (inv_run (inv_start rate) gaps ?_).exact
  intro front gap hfront
  obtain ⟨hconfigured, helapsed⟩ := configured_run hstart front
  have hsum : front.sum + gap ≤ gaps.sum := by
    obtain ⟨rest, rfl⟩ := hfront
    rw [List.sum_append, List.sum_append, List.sum_singleton]
    exact Nat.le_add_right _ _
  have hrate : ((start rate).run front).rate = rate.toNat := congrArg UInt64.toNat hconfigured.rate_eq
  have htokens := UInt64.le_iff_toNat_le.mp hconfigured.tokens_le
  have htime : ((start rate).run front).elapsed + gap ≤ gaps.sum := by
    rw [helapsed]
    change 0 + front.sum + gap ≤ gaps.sum
    omega
  generalize (start rate).run front = s at hrate htokens htime
  have hproduct : rate.toNat * (s.elapsed + gap - s.stamp) ≤ rate.toNat * gaps.sum :=
    Nat.mul_le_mul_left _ (Nat.le_trans (Nat.sub_le _ _) htime)
  rw [Nat.mul_add_one] at hbits
  refine ⟨?_, ?_, ?_, ?_⟩
  · obtain hzero | hpos := Nat.eq_zero_or_pos rate.toNat
    · right
      rw [hrate, hzero, Nat.zero_mul]
      decide
    · left
      have hle := Nat.le_mul_of_pos_left gaps.sum hpos
      omega
  · rw [hrate]
    omega
  · rw [hrate]
    omega
  · rw [hrate, Nat.mod_eq_zero_of_dvd (hwhole.mul_right _),
      Nat.mod_eq_zero_of_dvd (hwhole.mul_right _)]
    decide

end Ledger

end Victauri.Core.RateLimiter
