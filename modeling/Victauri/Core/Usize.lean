import Mathlib.Algebra.Group.Nat.Defs

/-!
# Machine words

`usize` is 64 bits wide.  A `usize` is a `Nat` where the code never lets it pass
`usize::MAX`.
-/

namespace Victauri.Core

/-- `usize::MAX`. -/
def usizeMax : Nat := 2 ^ 64 - 1

/-- `usize::saturating_add`. -/
def saturatingAdd (a b : Nat) : Nat := min (a + b) usizeMax

theorem saturatingAdd_zero {a : Nat} (h : a ≤ usizeMax) : saturatingAdd a 0 = a :=
  Nat.min_eq_left h

theorem saturatingAdd_saturatingAdd (a b c : Nat) :
    saturatingAdd (saturatingAdd a b) c = saturatingAdd a (b + c) := by
  simp only [saturatingAdd]
  omega

theorem saturatingAdd_le (a b : Nat) : saturatingAdd a b ≤ usizeMax :=
  Nat.min_le_right _ _

/-- `usize::checked_add`. -/
def checkedAdd (a b : Nat) : Option Nat := if a + b ≤ usizeMax then some (a + b) else none

/-- `usize::checked_mul`. -/
def checkedMul (a b : Nat) : Option Nat := if a * b ≤ usizeMax then some (a * b) else none

theorem checkedAdd_eq_some {a b n : Nat} :
    checkedAdd a b = some n ↔ a + b ≤ usizeMax ∧ n = a + b := by
  by_cases hfits : a + b ≤ usizeMax
  · rw [checkedAdd, if_pos hfits, Option.some.injEq, eq_comm, and_iff_right hfits]
  · rw [checkedAdd, if_neg hfits]
    exact ⟨fun h => absurd h.symm (Option.some_ne_none n), fun h => absurd h.1 hfits⟩

theorem checkedMul_eq_some {a b n : Nat} :
    checkedMul a b = some n ↔ a * b ≤ usizeMax ∧ n = a * b := by
  by_cases hfits : a * b ≤ usizeMax
  · rw [checkedMul, if_pos hfits, Option.some.injEq, eq_comm, and_iff_right hfits]
  · rw [checkedMul, if_neg hfits]
    exact ⟨fun h => absurd h.symm (Option.some_ne_none n), fun h => absurd h.1 hfits⟩

/-- A `u64` that is incremented below its maximum. -/
theorem toNat_add_one {n : UInt64} (h : n.toNat + 1 < 2 ^ 64) : (n + 1).toNat = n.toNat + 1 := by
  rw [UInt64.toNat_add]
  exact Nat.mod_eq_of_lt h

end Victauri.Core
