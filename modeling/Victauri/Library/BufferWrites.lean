import Mathlib.Data.List.Basic

/-!
# Writes into a buffer

Slices that are copied into a buffer one after another.  Where the slices are apart, the buffer ends
with each slice as it is, and elsewhere with what it had.
-/

namespace Victauri.Library.BufferWrites

universe u v

variable {α : Type u}

/-- Data for a place in a buffer. -/
structure Write (α : Type u) where
  start : Nat
  data : List α

namespace Write

/-- The place behind the data. -/
def stop (w : Write α) : Nat := w.start + w.data.length

/-- Where the data goes. -/
def Covers (w : Write α) (k : Nat) : Prop := w.start ≤ k ∧ k < w.stop

/-- `copy_from_slice`. -/
def apply (w : Write α) (out : List α) : List α :=
  out.take w.start ++ w.data ++ out.drop w.stop

theorem length_apply {w : Write α} {out : List α} (h : w.stop ≤ out.length) :
    (w.apply out).length = out.length := by
  rw [stop] at h
  simp only [apply, stop, List.length_append, List.length_take, List.length_drop]
  omega

theorem getElem?_apply_of_covers {w : Write α} {out : List α} (h : w.stop ≤ out.length) {k : Nat}
    (hk : w.Covers k) : (w.apply out)[k]? = w.data[k - w.start]? := by
  obtain ⟨hlow, hhigh⟩ := hk
  rw [stop] at h hhigh
  have hstart : (out.take w.start).length = w.start := by
    rw [List.length_take]
    omega
  rw [apply, List.append_assoc, List.getElem?_append_right (by omega), hstart,
    List.getElem?_append_left (by omega)]

theorem getElem?_apply_of_not_covers {w : Write α} {out : List α} (h : w.stop ≤ out.length)
    {k : Nat} (hk : ¬w.Covers k) : (w.apply out)[k]? = out[k]? := by
  rw [Covers, stop] at hk
  rw [stop] at h
  have hstart : (out.take w.start).length = w.start := by
    rw [List.length_take]
    omega
  rw [apply, List.append_assoc]
  by_cases hlow : k < w.start
  · rw [List.getElem?_append_left (by omega), List.getElem?_take_of_lt hlow]
  · rw [List.getElem?_append_right (by omega), hstart, List.getElem?_append_right (by omega),
      List.getElem?_drop, stop]
    congr 1
    omega

end Write

/-- All the writes, in their order. -/
def applyAll (writes : List (Write α)) (out : List α) : List α :=
  writes.foldl (fun out w => w.apply out) out

theorem length_applyAll {writes : List (Write α)} {out : List α}
    (h : ∀ w ∈ writes, w.stop ≤ out.length) : (applyAll writes out).length = out.length := by
  induction writes generalizing out with
  | nil => rfl
  | cons w writes ih =>
    obtain ⟨hfirst, hrest⟩ := List.forall_mem_cons.mp h
    have hlength := Write.length_apply hfirst
    rw [← hlength] at hrest ⊢
    exact ih hrest

theorem getElem?_applyAll_of_not_covers {writes : List (Write α)} {out : List α} {k : Nat}
    (h : ∀ w ∈ writes, w.stop ≤ out.length) (hk : ∀ w ∈ writes, ¬w.Covers k) :
    (applyAll writes out)[k]? = out[k]? := by
  induction writes generalizing out with
  | nil => rfl
  | cons w writes ih =>
    obtain ⟨hfirst, hrest⟩ := List.forall_mem_cons.mp h
    obtain ⟨hkfirst, hkrest⟩ := List.forall_mem_cons.mp hk
    rw [← Write.length_apply hfirst] at hrest
    exact (ih hrest hkrest).trans (Write.getElem?_apply_of_not_covers hfirst hkfirst)

/-- What one write puts at a place stays, where no other write has that place. -/
theorem getElem?_applyAll_of_covers {writes : List (Write α)} {out : List α} {k : Nat}
    (h : ∀ w ∈ writes, w.stop ≤ out.length)
    (happart : writes.Pairwise fun w w' => ¬(w.Covers k ∧ w'.Covers k)) {w : Write α}
    (hw : w ∈ writes) (hk : w.Covers k) : (applyAll writes out)[k]? = w.data[k - w.start]? := by
  induction writes generalizing out with
  | nil => cases hw
  | cons first writes ih =>
    obtain ⟨hfirst, hrest⟩ := List.forall_mem_cons.mp h
    obtain ⟨hothers, happart⟩ := List.pairwise_cons.mp happart
    rw [← Write.length_apply hfirst] at hrest
    rcases List.mem_cons.mp hw with rfl | hlater
    · have hnone : ∀ w' ∈ writes, ¬w'.Covers k := fun w' hmem hk' => hothers w' hmem ⟨hk, hk'⟩
      exact (getElem?_applyAll_of_not_covers hrest hnone).trans
        (Write.getElem?_apply_of_covers hfirst hk)
    · exact ih hrest happart hlater

theorem applyAll_append (writes writes' : List (Write α)) (out : List α) :
    applyAll (writes ++ writes') out = applyAll writes' (applyAll writes out) :=
  List.foldl_append

/-- A loop whose rounds are writes to a buffer of one length. -/
theorem foldl_eq_applyAll {β : Type v} {step : List α → β → List α} {writes : β → List (Write α)}
    {size : Nat} {xs : List β} (hfits : ∀ x ∈ xs, ∀ w ∈ writes x, w.stop ≤ size)
    (hstep : ∀ out, out.length = size → ∀ x ∈ xs, step out x = applyAll (writes x) out)
    {out : List α} (hout : out.length = size) :
    xs.foldl step out = applyAll (xs.flatMap writes) out := by
  induction xs generalizing out with
  | nil => rfl
  | cons x xs ih =>
    obtain ⟨hfirst, hrest⟩ := List.forall_mem_cons.mp hfits
    rw [List.foldl_cons, hstep out hout x List.mem_cons_self, List.flatMap_cons, applyAll_append]
    apply ih hrest
    · intro out' hout' x' hx'
      exact hstep out' hout' x' (List.mem_cons_of_mem _ hx')
    · rw [length_applyAll, hout]
      rw [hout]
      exact hfirst

end Victauri.Library.BufferWrites
