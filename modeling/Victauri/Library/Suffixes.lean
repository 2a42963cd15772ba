import Mathlib.Data.Finset.Card
import Mathlib.Data.Finset.Filter
import Mathlib.Logic.Embedding.Basic

/-!
# The next unused name

Numbered names tried one after another until one is not used.
-/

namespace Suffixes

variable {κ : Type} [DecidableEq κ] (name : Nat ↪ κ) (used : List κ)

open Classical in
/-- The used names with a number above `n`. -/
noncomputable def above (n : Nat) : Finset κ :=
  used.toFinset.filter fun key => ∃ m, n < m ∧ name m = key

theorem mem_above {n : Nat} {key : κ} :
    key ∈ above name used n ↔ key ∈ used ∧ ∃ m, n < m ∧ name m = key := by
  classical
  unfold above
  rw [Finset.mem_filter, List.mem_toFinset]

theorem above_ssubset {n : Nat} (h : name (n + 1) ∈ used) :
    above name used (n + 1) ⊂ above name used n := by
  rw [Finset.ssubset_iff_of_subset]
  · refine ⟨name (n + 1), ?_, ?_⟩
    · rw [mem_above]
      exact ⟨h, n + 1, Nat.lt_succ_self n, rfl⟩
    · rw [mem_above]
      rintro ⟨-, m, hm, hname⟩
      rw [name.injective hname] at hm
      exact Nat.lt_irrefl _ hm
  · intro key hkey
    rw [mem_above] at hkey ⊢
    obtain ⟨hused, m, hm, hname⟩ := hkey
    exact ⟨hused, m, Nat.lt_of_succ_lt hm, hname⟩

/-- The first number above `n` whose name is not used. -/
def next (n : Nat) : Nat :=
  if name (n + 1) ∈ used then next (n + 1) else n + 1
termination_by (above name used n).card
decreasing_by exact Finset.card_lt_card (above_ssubset name used ‹_›)

theorem lt_next (n : Nat) : n < next name used n := by
  induction n using next.induct name used with
  | case1 n h ih =>
    rw [next, if_pos h]
    exact Nat.lt_of_succ_lt ih
  | case2 n h =>
    rw [next, if_neg h]
    exact Nat.lt_succ_self n

theorem next_not_mem (n : Nat) : name (next name used n) ∉ used := by
  induction n using next.induct name used with
  | case1 n h ih =>
    rw [next, if_pos h]
    exact ih
  | case2 n h =>
    rw [next, if_neg h]
    exact h

/-- Each number that is passed over is that of another used name. -/
theorem next_le (n : Nat) : next name used n ≤ n + used.length + 1 := by
  classical
  have hbound (n : Nat) : next name used n ≤ n + (above name used n).card + 1 := by
    induction n using next.induct name used with
    | case1 n h ih =>
      rw [next, if_pos h]
      have hfewer := Finset.card_lt_card (above_ssubset name used h)
      omega
    | case2 n h =>
      rw [next, if_neg h]
      omega
  have hcard : (above name used n).card ≤ used.length :=
    (Finset.card_le_card (Finset.filter_subset _ _)).trans (List.toFinset_card_le used)
  exact (hbound n).trans (by omega)

/-- The names that were tried before it are used. -/
theorem mem_of_lt_next {n m : Nat} (hlow : n < m) (hhigh : m < next name used n) :
    name m ∈ used := by
  induction n using next.induct name used with
  | case1 n h ih =>
    rw [next, if_pos h] at hhigh
    rcases Nat.lt_or_eq_of_le (Nat.succ_le_of_lt hlow) with hlt | rfl
    · exact ih hlt hhigh
    · exact h
  | case2 n h =>
    rw [next, if_neg h] at hhigh
    omega

end Suffixes
