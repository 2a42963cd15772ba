import Mathlib.Data.List.Nodup

/-!
# Bounded rings

A ring of capacity `cap` keeps the newest entries of everything ever pushed.  It
is written the way a program writes it (drop the oldest entry when the ring is
full, then append), and related to the whole history once: after any pushes the
ring is the end of the history, `max 1 cap` entries long at most.
-/

namespace Victauri.Library.Ring

universe u

variable {α : Type u}

/-- Append `x`, first dropping the oldest entry when `cap` entries are held. -/
def push (cap : Nat) (ring : List α) (x : α) : List α :=
  (if cap ≤ ring.length then ring.drop 1 else ring) ++ [x]

/-- Drop the oldest entries until at most `cap` are left. -/
def clamp (cap : Nat) (xs : List α) : List α :=
  xs.drop (xs.length - cap)

/-- The newest `cap` entries of a history (at least the last one). -/
def newest (cap : Nat) (history : List α) : List α :=
  clamp (max 1 cap) history

/-- How many entries of the history the ring no longer holds. -/
def evicted (cap : Nat) (history : List α) : Nat :=
  history.length - max 1 cap

theorem newest_eq_drop (cap : Nat) (history : List α) :
    newest cap history = history.drop (evicted cap history) := rfl

@[simp] theorem newest_nil (cap : Nat) : newest cap ([] : List α) = [] := by
  simp [newest, clamp]

@[simp] theorem length_clamp (cap : Nat) (xs : List α) :
    (clamp cap xs).length = min cap xs.length := by
  simp only [clamp, List.length_drop]
  omega

theorem clamp_eq_self {cap : Nat} {xs : List α} (h : xs.length ≤ cap) :
    clamp cap xs = xs := by
  rw [clamp, Nat.sub_eq_zero_of_le h, List.drop_zero]

theorem mem_of_mem_clamp {cap : Nat} {xs : List α} {x : α} (h : x ∈ clamp cap xs) :
    x ∈ xs :=
  List.mem_of_mem_drop h

theorem mem_of_mem_push {cap : Nat} {ring : List α} {x y : α}
    (h : y ∈ push cap ring x) : y ∈ ring ∨ y = x := by
  rw [push, List.mem_append, List.mem_singleton] at h
  refine h.imp_left fun hy => ?_
  split at hy
  · exact List.mem_of_mem_drop hy
  · exact hy

theorem mem_push_self (cap : Nat) (ring : List α) (x : α) : x ∈ push cap ring x := by
  simp [push]

theorem length_push_le {cap : Nat} {ring : List α} (x : α)
    (h : ring.length ≤ max 1 cap) : (push cap ring x).length ≤ max 1 cap := by
  rw [push]
  split <;> simp only [List.length_append, List.length_drop, List.length_singleton] <;> omega

theorem map_push {β : Type u} (f : α → β) (cap : Nat) (ring : List α) (x : α) :
    (push cap ring x).map f = push cap (ring.map f) (f x) := by
  simp only [push, List.map_append, List.map_singleton, List.length_map]
  split <;> simp

theorem nodup_push {cap : Nat} {ring : List α} {x : α} (hring : ring.Nodup)
    (hx : x ∉ ring) : (push cap ring x).Nodup := by
  have hsub : (if cap ≤ ring.length then ring.drop 1 else ring).Sublist ring := by
    split
    · exact List.drop_sublist 1 ring
    · exact List.Sublist.refl ring
  rw [push, List.nodup_append]
  refine ⟨hring.sublist hsub, List.nodup_singleton x, ?_⟩
  rintro y hy z hz rfl
  rw [List.mem_singleton.mp hz] at hy
  exact hx (hsub.mem hy)

/-- One push keeps the ring at the end of the history. -/
theorem push_newest (cap : Nat) (history : List α) (x : α) :
    push cap (newest cap history) x = newest cap (history ++ [x]) := by
  simp only [push, newest, length_clamp]
  by_cases hfull : max 1 cap ≤ history.length
  · rw [if_pos (by omega)]
    simp only [clamp, List.drop_drop, List.length_append, List.length_singleton]
    rw [List.drop_append_of_le_length (by omega)]
    congr 2
    omega
  · have hshort : (history ++ [x]).length ≤ max 1 cap := by
      simp only [List.length_append, List.length_singleton]
      omega
    rw [clamp_eq_self hshort, clamp_eq_self (by omega)]
    split
    · -- only a ring of capacity 0 is full while it is empty
      have hempty : history = [] := List.length_eq_zero_iff.mp (by omega)
      simp [hempty]
    · rfl

theorem foldl_push (cap : Nat) (history xs : List α) :
    xs.foldl (push cap) (newest cap history) = newest cap (history ++ xs) := by
  induction xs generalizing history with
  | nil => simp
  | cons x xs ih =>
      rw [List.foldl_cons, push_newest, ih, List.append_assoc, List.singleton_append]

end Victauri.Library.Ring
