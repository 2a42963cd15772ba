import Mathlib.Algebra.GroupWithZero.Nat
import Mathlib.Data.List.Basic
import Mathlib.Data.List.Infix

/-!
# Rings bounded by count and by weight

A ring that drops its oldest entries while it holds too many or they weigh too much, with a counter
of their weight that is kept step by step.  It holds the longest end of everything ever pushed that
is within both bounds.
-/

namespace Victauri.Library.WeightedRing

universe u

variable {α : Type u} (weight : α → Nat) (cap limit : Nat)

/-- The weight of all entries. -/
def total (entries : List α) : Nat := (entries.map weight).sum

/-- Drop the oldest entries while there are too many or the counter is too high. -/
def evict : Nat → List α → Nat × List α
  | counter, [] => (counter, [])
  | counter, x :: entries =>
      if cap < (x :: entries).length ∨ limit < counter then evict (counter - weight x) entries
      else (counter, x :: entries)

def push (ring : Nat × List α) (x : α) : Nat × List α :=
  evict weight cap limit (ring.1 + weight x) (ring.2 ++ [x])

/-- Within both bounds. -/
def Fits (entries : List α) : Prop := entries.length ≤ cap ∧ total weight entries ≤ limit

/-- The ring counts its weight and is the longest end of the history within the bounds. -/
structure Holds (ring : Nat × List α) (history : List α) : Prop where
  counter : ring.1 = total weight ring.2
  ending : ring.2 <:+ history
  fits : Fits weight cap limit ring.2
  longest : ∀ other, other <:+ history → Fits weight cap limit other → other <:+ ring.2

variable {weight cap limit}

theorem total_append (entries entries' : List α) :
    total weight (entries ++ entries') = total weight entries + total weight entries' := by
  rw [total, List.map_append, List.sum_append]
  rfl

theorem fits_nil : Fits weight cap limit ([] : List α) := ⟨Nat.zero_le _, Nat.zero_le _⟩

theorem Holds.nil : Holds weight cap limit (0, []) ([] : List α) where
  counter := rfl
  ending := List.suffix_rfl
  fits := fits_nil
  longest := fun _ h _ => h

/-- A part of what fits fits. -/
theorem Fits.left {entries entries' : List α} (h : Fits weight cap limit (entries ++ entries')) :
    Fits weight cap limit entries := by
  obtain ⟨hcount, hweight⟩ := h
  rw [List.length_append] at hcount
  rw [total_append] at hweight
  exact ⟨by omega, by omega⟩

theorem holds_evict (entries : List α) :
    Holds weight cap limit (evict weight cap limit (total weight entries) entries) entries := by
  induction entries with
  | nil => exact Holds.nil
  | cons x entries ih =>
    have hrest : total weight (x :: entries) - weight x = total weight entries := by
      change weight x + total weight entries - weight x = _
      exact Nat.add_sub_cancel_left ..
    rw [evict]
    split_ifs with hover
    · rw [hrest]
      refine ⟨ih.counter, ih.ending.trans (List.suffix_cons x entries), ih.fits, ?_⟩
      intro other hother hfits
      rcases List.suffix_cons_iff.mp hother with rfl | htail
      · rcases hover with hcount | hweight
        · exact absurd hfits.1 (Nat.not_le.mpr hcount)
        · exact absurd hfits.2 (Nat.not_le.mpr hweight)
      · exact ih.longest other htail hfits
    · rw [not_or, Nat.not_lt, Nat.not_lt] at hover
      exact ⟨rfl, List.suffix_rfl, hover, fun _ h _ => h⟩

/-- One push keeps the ring at the end of the history. -/
theorem Holds.push {ring : Nat × List α} {history : List α}
    (h : Holds weight cap limit ring history) (x : α) :
    Holds weight cap limit (push weight cap limit ring x) (history ++ [x]) := by
  have hcounter : ring.1 + weight x = total weight (ring.2 ++ [x]) := by
    rw [total_append, h.counter]
    rfl
  have hevicted : Holds weight cap limit
      (evict weight cap limit (total weight (ring.2 ++ [x])) (ring.2 ++ [x])) (ring.2 ++ [x]) :=
    holds_evict _
  rw [WeightedRing.push, hcounter]
  refine ⟨hevicted.counter, ?_, hevicted.fits, ?_⟩
  · obtain ⟨front, hfront⟩ := h.ending
    refine hevicted.ending.trans ⟨front, ?_⟩
    rw [← List.append_assoc, hfront]
  · intro other hother hfits
    apply hevicted.longest other ?_ hfits
    rcases List.eq_nil_or_concat other with rfl | ⟨init, last, rfl⟩
    · exact List.nil_suffix
    · rw [List.concat_eq_append] at hother hfits ⊢
      obtain ⟨front, hfront⟩ := hother
      rw [← List.append_assoc] at hfront
      obtain ⟨hinit, hlast⟩ := List.append_inj' hfront rfl
      obtain ⟨front', hfront'⟩ := h.longest init ⟨front, hinit⟩ hfits.left
      refine ⟨front', ?_⟩
      rw [← List.append_assoc, hfront', hlast]

end Victauri.Library.WeightedRing
