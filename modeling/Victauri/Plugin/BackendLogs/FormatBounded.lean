import Victauri.Core.Usize
import Victauri.Library.Utf8.Prefixes

/-!
# Formatting within a budget

`format_bounded` of `backend_logs.rs`.  A `Display` or `Debug` is what it writes, piece by piece;
it may go on, stop or write something else when a write fails.
-/

namespace Victauri.Plugin.BackendLogs

open Victauri.Core

/-- What an implementation writes next, by how its writes went. -/
inductive Formatting where
  | done
  | write (chunk : List Char) (onOk onError : Formatting)

/-- What is written if no write fails. -/
def Formatting.text : Formatting → List Char
  | .done => []
  | .write chunk onOk _ => chunk ++ onOk.text

structure Bounded where
  out : List Char
  max : Nat
  cut : Bool
  discarded : Nat

namespace Bounded

def new (max : Nat) : Bounded := { out := [], max := max, cut := false, discarded := 0 }

def maxDiscardedFormatBytes : Nat := 256 * 1024

/-- `write_str`, and whether it succeeds. -/
def writeStr (b : Bounded) (s : List Char) : Bounded × Bool :=
  let room := if b.cut then 0 else b.max - Utf8.size b.out
  if Utf8.size s ≤ room then ({ b with out := b.out ++ s }, true)
  else
    let stop := Utf8.floorBoundary s room
    let b := { b with
      out := b.out ++ Utf8.sliceTo s stop
      cut := true
      discarded := saturatingAdd b.discarded (Utf8.size s - stop) }
    (b, decide (b.discarded ≤ maxDiscardedFormatBytes))

/-- `write_fmt`. -/
def run : Formatting → Bounded → Bounded
  | .done, b => b
  | .write chunk onOk onError, b =>
      let (b, ok) := b.writeStr chunk
      if ok then run onOk b else run onError b

end Bounded

def truncatedMark : List Char := "…[truncated]".toList

/-- `format_bounded`. -/
def formatBounded (args : Formatting) (max : Nat) : List Char :=
  let b := (Bounded.new max).run args
  if b.cut then b.out ++ truncatedMark else b.out

/-! ## One write -/

namespace Bounded

/-- The writer holds the longest prefix of the text so far, and knows whether that is all. -/
structure Holds (b : Bounded) (max : Nat) (text : List Char) : Prop where
  max_eq : b.max = max
  out_eq : b.out = Utf8.upTo max text
  cut_eq : b.cut = decide (max < Utf8.size text)

theorem Holds.new (max : Nat) : (new max).Holds max [] where
  max_eq := rfl
  out_eq := rfl
  cut_eq := rfl

theorem Holds.writeStr {b : Bounded} {max : Nat} {text : List Char} (h : b.Holds max text)
    (s : List Char) : (b.writeStr s).1.Holds max (text ++ s) := by
  obtain ⟨hmax, hout, hcut⟩ := h
  by_cases hlong : max < Utf8.size text
  · have hroom : (if b.cut then 0 else b.max - Utf8.size b.out) = 0 := by
      rw [hcut, decide_eq_true hlong]
      rfl
    have hupTo : Utf8.upTo max (text ++ s) = Utf8.upTo max text := Utf8.upTo_append_of_lt hlong s
    have hsize : max < Utf8.size (text ++ s) := by
      rw [Utf8.size_append]
      omega
    rw [Bounded.writeStr, hroom]
    dsimp only
    split_ifs with hempty
    · have hnil : s = [] := Utf8.size_eq_zero (Nat.le_zero.mp hempty)
      rw [hnil, List.append_nil, List.append_nil]
      exact ⟨hmax, hout, hcut⟩
    · refine ⟨hmax, ?_, (decide_eq_true hsize).symm⟩
      rw [hupTo, ← hout]
      cases s <;> exact List.append_nil _
  · rw [Nat.not_lt] at hlong
    have hall : b.out = text := by rw [hout, Utf8.upTo_of_le hlong]
    have hroom : (if b.cut then 0 else b.max - Utf8.size b.out) = max - Utf8.size text := by
      rw [hcut, decide_eq_false (Nat.not_lt.mpr hlong), hmax, hall]
      rfl
    have hupTo : Utf8.upTo max (text ++ s) = text ++ Utf8.upTo (max - Utf8.size text) s :=
      Utf8.upTo_append_of_le hlong s
    have hsize := Utf8.size_append text s
    rw [Bounded.writeStr, hroom]
    dsimp only
    split_ifs with hfits
    · refine ⟨hmax, ?_, ?_⟩
      · rw [hupTo, Utf8.upTo_of_le hfits, hall]
      · rw [hcut, hsize]
        congr 1
        apply propext
        omega
    · refine ⟨hmax, ?_, ?_⟩
      · rw [hupTo, Utf8.sliceTo_floorBoundary, hall]
      · rw [hsize]
        exact (decide_eq_true (by omega)).symm

/-- A write fails only behind the cut. -/
theorem cut_of_failed {b : Bounded} {s : List Char} (h : (b.writeStr s).2 = false) :
    (b.writeStr s).1.cut = true := by
  rw [Bounded.writeStr] at h ⊢
  dsimp only at h ⊢
  split_ifs at h ⊢ <;> rfl

/-- Behind the cut it does not matter what is written. -/
theorem Holds.behind {b : Bounded} {max : Nat} {text rest : List Char}
    (h : b.Holds max (text ++ rest)) (hcut : max < Utf8.size text) (rest' : List Char) :
    b.Holds max (text ++ rest') := by
  obtain ⟨hmax, hout, hflag⟩ := h
  refine ⟨hmax, ?_, ?_⟩
  · rw [hout, Utf8.upTo_append_of_lt hcut, Utf8.upTo_append_of_lt hcut]
  · rw [hflag, Utf8.size_append, Utf8.size_append, decide_eq_true (by omega),
      decide_eq_true (by omega)]

theorem Holds.run {b : Bounded} {max : Nat} {text : List Char} (h : b.Holds max text)
    (args : Formatting) : (b.run args).Holds max (text ++ args.text) := by
  induction args generalizing b text with
  | done =>
    rw [Formatting.text, List.append_nil]
    exact h
  | write chunk onOk onError ihOk ihError =>
    have hwritten := h.writeStr chunk
    rw [Formatting.text, ← List.append_assoc, Bounded.run]
    dsimp only
    split_ifs with hok
    · exact ihOk hwritten
    · have hcut := cut_of_failed (Bool.eq_false_iff.mpr hok)
      rw [hwritten.cut_eq, decide_eq_true_eq] at hcut
      exact (ihError hwritten).behind hcut onOk.text

end Bounded

/-! ## The result -/

theorem formatBounded_eq (args : Formatting) (max : Nat) :
    formatBounded args max =
      Utf8.upTo max args.text ++ if max < Utf8.size args.text then truncatedMark else [] := by
  have hholds := (Bounded.Holds.new max).run args
  rw [List.nil_append] at hholds
  rw [formatBounded, hholds.cut_eq, hholds.out_eq]
  by_cases hlong : max < Utf8.size args.text
  · rw [if_pos (decide_eq_true hlong), if_pos hlong]
  · rw [if_neg (by rw [decide_eq_false hlong]; decide), if_neg hlong, List.append_nil]

/-- Whatever pieces it comes in and wherever its writing stops, a text is cut to its longest prefix
that fits, and marked exactly when that is not all. -/
theorem formatBounded_longest (args : Formatting) (max : Nat) :
    (∃ front, front <+: args.text ∧ Utf8.size front ≤ max ∧
      (∀ other, other <+: args.text → Utf8.size other ≤ max → other <+: front) ∧
      formatBounded args max =
        front ++ if max < Utf8.size args.text then truncatedMark else []) ∧
    ∀ args' : Formatting, args'.text = args.text →
      formatBounded args' max = formatBounded args max := by
  constructor
  · exact ⟨Utf8.upTo max args.text, Utf8.upTo_begins max args.text,
      Utf8.size_upTo_le max args.text, fun _ => Utf8.le_upTo, formatBounded_eq args max⟩
  · intro args' htext
    rw [formatBounded_eq, formatBounded_eq, htext]

end Victauri.Plugin.BackendLogs
