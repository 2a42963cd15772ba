import Mathlib.Logic.Function.Basic
import Victauri.Library.Ring
import Victauri.Plugin.Page.Outcome

/-!
# Evals in the page

The eval plumbing of the bridge: `evalState`, `evalDone`, and the functions the injected
scripts call, `_evalBegin`, `_evalCheck` and `_evalSettle`.  A null-prototype table is the
set of its own keys.

`evalDone` is a table with a ring of its keys: what it has are the newest `EVAL_DONE_CAP`
keys of all that were ever added (`Tracks`).
-/

namespace Victauri.Plugin.Page

open Victauri.Core.Json
open Victauri.Library

/-- `EVAL_DONE_CAP`. -/
def evalDoneCap : Nat := 1000

/-! ## The table of settled evals -/

structure EvalDone (Id : Type) where
  table : Id → Bool
  /-- The array; a hole is `none`. -/
  ring : Nat → Option Id
  pos : Nat

namespace EvalDone

variable {Id : Type} [DecidableEq Id]

def empty (Id : Type) : EvalDone Id :=
  { table := fun _ => false, ring := fun _ => none, pos := 0 }

def has (d : EvalDone Id) (k : Id) : Bool := d.table k

def add (d : EvalDone Id) (k : Id) : EvalDone Id :=
  if d.table k then d
  else
    let table :=
      match d.ring d.pos with
      | some evicted => Function.update d.table evicted false
      | none => d.table
    { table := Function.update table k true
      ring := Function.update d.ring d.pos (some k)
      pos := (d.pos + 1) % evalDoneCap }

end EvalDone

/-! ## The bridge -/

structure Bridge (Id Nonce : Type) where
  pageNonce : Nonce
  evalState : Id → Bool
  evalDone : EvalDone Id

namespace Bridge

variable {Id Nonce : Type} [DecidableEq Id] [DecidableEq Nonce] {number : NumberFormat}

def new (Id : Type) (nonce : Nonce) : Bridge Id Nonce :=
  { pageNonce := nonce, evalState := fun _ => false, evalDone := .empty Id }

def evalMarkDone (b : Bridge Id Nonce) (id : Id) : Bridge Id Nonce :=
  { b with evalState := Function.update b.evalState id false, evalDone := b.evalDone.add id }

/-- `_evalBegin`: whether the wrapper may run the code. -/
def evalBegin (b : Bridge Id Nonce) (id : Id) : Bool × Bridge Id Nonce :=
  if b.evalDone.has id then (false, b)
  else (true, { b with evalState := Function.update b.evalState id true })

/-- `_evalCheck`: the outcome it sends, if any. -/
def evalCheck (b : Bridge Id Nonce) (id : Id) (nonce : Option Nonce) :
    Option (Outcome number) × Bridge Id Nonce :=
  if nonce ≠ some b.pageNonce ∨ b.evalState id ∨ b.evalDone.has id then (none, b)
  else (some .notRun, b.evalMarkDone id)

/-- `_evalSettle`: the outcome it sends, if any. -/
def evalSettle (b : Bridge Id Nonce) (id : Id) (payload : Outcome number) :
    Option (Outcome number) × Bridge Id Nonce :=
  if b.evalDone.has id then (none, b) else (some payload, b.evalMarkDone id)

end Bridge

/-! ## What the table of settled evals has -/

namespace EvalDone

variable {Id : Type}

/-- `d` is what adding the keys `log`, oldest first, to an empty table leaves. -/
structure Tracks (d : EvalDone Id) (log : List Id) : Prop where
  pos : d.pos = log.length % evalDoneCap
  /-- The slot of the next key holds the key that goes, the slot after it the one that goes
  then, and so on. -/
  ring : ∀ i, log.length ≤ i → i < log.length + evalDoneCap →
    d.ring (i % evalDoneCap) = if evalDoneCap ≤ i then log[i - evalDoneCap]? else none
  table : ∀ k, d.has k = true ↔ k ∈ Ring.newest evalDoneCap log
  nodup : (Ring.newest evalDoneCap log).Nodup

theorem tracks_empty : (empty Id).Tracks [] where
  pos := rfl
  ring i _ hi := by
    rw [List.length_nil, Nat.zero_add] at hi
    rw [if_neg (Nat.not_le_of_lt hi)]
    rfl
  table k := by simp [has, empty]
  nodup := by simp

variable {d : EvalDone Id} {log : List Id}

/-- The oldest key goes when the ring is full. -/
theorem newest_append (log : List Id) (k : Id) :
    Ring.newest evalDoneCap (log ++ [k]) =
      (if evalDoneCap ≤ log.length then (Ring.newest evalDoneCap log).drop 1
        else Ring.newest evalDoneCap log) ++ [k] := by
  rw [← Ring.push_newest, Ring.push]
  have hlength : (Ring.newest evalDoneCap log).length = min evalDoneCap log.length :=
    Ring.length_clamp _ _
  have hfull : evalDoneCap ≤ (Ring.newest evalDoneCap log).length ↔
      evalDoneCap ≤ log.length := by
    rw [hlength]
    omega
  simp only [hfull]

theorem newest_full (hfull : evalDoneCap ≤ log.length) :
    ∃ old, log[log.length - evalDoneCap]? = some old ∧
      Ring.newest evalDoneCap log = old :: (Ring.newest evalDoneCap log).drop 1 := by
  have hpos : 0 < evalDoneCap := by decide
  have hlt : log.length - evalDoneCap < log.length := by omega
  have hnewest : Ring.newest evalDoneCap log = log.drop (log.length - evalDoneCap) := rfl
  exact ⟨log[log.length - evalDoneCap], List.getElem?_eq_getElem hlt, by
    rw [hnewest, List.drop_drop, ← List.drop_eq_getElem_cons hlt]⟩

theorem Tracks.add [DecidableEq Id] (h : d.Tracks log) {k : Id} (hk : d.has k = false) :
    (d.add k).Tracks (log ++ [k]) := by
  have hpos : 0 < evalDoneCap := by decide
  have hnew : k ∉ Ring.newest evalDoneCap log := by
    rw [← h.table k, hk]
    exact Bool.false_ne_true
  have hslot : d.ring d.pos =
      if evalDoneCap ≤ log.length then log[log.length - evalDoneCap]? else none := by
    rw [h.pos]
    exact h.ring log.length (Nat.le_refl _) (Nat.lt_add_of_pos_right hpos)
  have hadd : d.add k = {
      table := Function.update
        (match d.ring d.pos with
          | some evicted => Function.update d.table evicted false
          | none => d.table) k true
      ring := Function.update d.ring d.pos (some k)
      pos := (d.pos + 1) % evalDoneCap } := by
    rw [EvalDone.add, if_neg (by rw [← has, hk]; exact Bool.false_ne_true)]
  rw [hadd]
  constructor
  · rw [List.length_append, List.length_singleton, h.pos, Nat.mod_add_mod]
  · intro i hle hlt
    rw [List.length_append, List.length_singleton] at hle hlt
    dsimp only
    by_cases hlast : i = log.length + evalDoneCap
    · have hself : i % evalDoneCap = d.pos := by rw [hlast, Nat.add_mod_right, h.pos]
      rw [hself, Function.update_self, if_pos (by omega), hlast, Nat.add_sub_cancel,
        List.getElem?_concat_length]
    · have hne : i % evalDoneCap ≠ d.pos := by
        rw [h.pos]
        intro hmod
        have hlt' := Nat.sub_mod_eq_zero_of_mod_eq hmod
        have hdvd := Nat.le_of_dvd (by omega) (Nat.dvd_of_mod_eq_zero hlt')
        omega
      rw [Function.update_of_ne hne, h.ring i (by omega) (by omega)]
      split_ifs with hcap
      · rw [List.getElem?_append_left (by omega)]
      · rfl
  · intro j
    rw [newest_append, List.mem_append, List.mem_singleton]
    by_cases hjk : j = k
    · simp [has, hjk]
    · simp only [has, Function.update_of_ne hjk, hjk, or_false]
      by_cases hfull : evalDoneCap ≤ log.length
      · obtain ⟨old, hold, hcons⟩ := newest_full hfull
        rw [if_pos hfull, hold] at hslot
        have hnodup := h.nodup
        rw [hcons, List.nodup_cons] at hnodup
        rw [hslot, if_pos hfull]
        by_cases hjo : j = old
        · subst hjo
          exact iff_of_false (by simp) hnodup.1
        · have htable := h.table j
          rw [hcons, List.mem_cons, or_iff_right hjo] at htable
          simp only [Function.update_of_ne hjo]
          exact htable
      · rw [if_neg hfull] at hslot ⊢
        rw [hslot]
        exact h.table j
  · rw [← Ring.push_newest]
    exact Ring.nodup_push h.nodup hnew

/-- A key is still there while fewer than `EVAL_DONE_CAP` keys were added after it. -/
theorem Tracks.has_of_recent (h : d.Tracks log) {before after : List Id} {k : Id}
    (hlog : log = before ++ k :: after) (hafter : after.length < evalDoneCap) :
    d.has k = true := by
  rw [h.table, hlog]
  have hnewest : Ring.newest evalDoneCap (before ++ k :: after) =
      (before ++ k :: after).drop ((before ++ k :: after).length - evalDoneCap) := rfl
  rw [hnewest, List.drop_append_of_le_length (by
    rw [List.length_append, List.length_cons]
    omega)]
  exact List.mem_append_right _ List.mem_cons_self

theorem Tracks.not_has (h : d.Tracks log) {k : Id} (hk : k ∉ log) : d.has k = false := by
  rw [Bool.eq_false_iff, Ne, h.table]
  exact fun hmem => hk (Ring.mem_of_mem_clamp hmem)

end EvalDone

end Victauri.Plugin.Page
