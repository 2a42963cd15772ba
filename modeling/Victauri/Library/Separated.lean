import Mathlib.Algebra.GroupWithZero.Nat
import Mathlib.Algebra.BigOperators.Group.List.Basic
import Mathlib.Data.List.Perm.Basic
import Mathlib.Order.Basic

/-!
# Lists with a separator between them

What such a list weighs, and that the order of its parts does not matter to the elements in it.
-/

namespace Separated

variable {α : Type}

/-- With another separator at its end every part has one behind it. -/
theorem intercalate_append (separator : List α) {parts : List (List α)} (h : parts ≠ []) :
    separator.intercalate parts ++ separator = parts.flatMap (· ++ separator) := by
  induction parts with
  | nil => exact absurd rfl h
  | cons part parts ih =>
    by_cases hlast : parts = []
    · subst hlast
      rw [List.intercalate_singleton]
      exact (List.append_nil _).symm
    · rw [List.intercalate_cons_of_ne_nil hlast, List.append_assoc, ih hlast, List.flatMap_cons,
        List.append_assoc]

theorem intercalate_perm (separator : List α) {parts parts' : List (List α)}
    (h : parts.Perm parts') :
    (separator.intercalate parts).Perm (separator.intercalate parts') := by
  by_cases hnil : parts = []
  · subst hnil
    rw [h.nil_eq]
  · have hnil' : parts' ≠ [] := fun hnil' => hnil (hnil' ▸ h).eq_nil
    apply (List.perm_append_right_iff separator).mp
    rw [intercalate_append separator hnil, intercalate_append separator hnil']
    exact h.flatMap_right _

/-- One of the parts is reordered. -/
theorem intercalate_replace (separator : List α) (before behind : List (List α))
    {part part' : List α} (h : part.Perm part') :
    (separator.intercalate (before ++ part :: behind)).Perm
      (separator.intercalate (before ++ part' :: behind)) := by
  have hne (p : List α) : before ++ p :: behind ≠ [] := by simp
  apply (List.perm_append_right_iff separator).mp
  rw [intercalate_append separator (hne part), intercalate_append separator (hne part'),
    List.flatMap_append, List.flatMap_append, List.flatMap_cons, List.flatMap_cons]
  exact ((h.append_right separator).append_right _).append_left _

/-! ## Weights -/

variable (weight : α → Nat)

def total (as : List α) : Nat := (as.map weight).sum

theorem total_append (as bs : List α) :
    total weight (as ++ bs) = total weight as + total weight bs := by
  rw [total, List.map_append, List.sum_append]
  rfl

theorem total_cons (a : α) (as : List α) :
    total weight (a :: as) = weight a + total weight as := by
  rw [total, List.map_cons, List.sum_cons]
  rfl

theorem total_intercalate (separator : List α) {parts : List (List α)} (h : parts ≠ []) :
    total weight (separator.intercalate parts) + total weight separator =
      (parts.map fun part => total weight part + total weight separator).sum := by
  rw [← total_append, intercalate_append separator h]
  clear h
  induction parts with
  | nil => rfl
  | cons part parts ih =>
    rw [List.flatMap_cons, total_append, total_append, ih, List.map_cons, List.sum_cons]

theorem total_perm {as bs : List α} (h : as.Perm bs) : total weight as = total weight bs :=
  (h.map weight).sum_eq

/-- Sums are the same only if all of their terms are. -/
theorem sum_le_and_eq {β : Type} {f g : β → Nat} {bs : List β} (h : ∀ b ∈ bs, f b ≤ g b) :
    (bs.map f).sum ≤ (bs.map g).sum ∧
      ((bs.map f).sum = (bs.map g).sum → ∀ b ∈ bs, f b = g b) := by
  induction bs with
  | nil => exact ⟨Nat.le_refl 0, fun _ => List.forall_mem_nil _⟩
  | cons b bs ih =>
    rw [List.forall_mem_cons] at h
    obtain ⟨hle, heq⟩ := ih h.2
    simp only [List.map_cons, List.sum_cons]
    refine ⟨Nat.add_le_add h.1 hle, fun hsum => List.forall_mem_cons.mpr ⟨?_, heq ?_⟩⟩
    · have hfirst := h.1
      omega
    · have hfirst := h.1
      omega

end Separated
