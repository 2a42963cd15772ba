import Mathlib.Data.List.Basic
import Victauri.Plugin.Globs

/-!
# `globHits` and what it matches

Each piece between the stars is taken at the first place where it is found.  What follows it begins
with a star, so an earlier place is never worse.
-/

namespace Victauri.Plugin.Globs

open Glob

/-! ## The pieces -/

/-- The pieces behind stars. -/
def starred (parts : List (List UInt16)) : List UInt16 :=
  parts.flatMap fun part => starUnit :: part

def Plain (part : List UInt16) : Prop := ∀ c ∈ part, c ≠ starUnit

theorem obtained_plain {part text : List UInt16} (h : Plain part) :
    Obtained (Keeps starUnit) part text ↔ text = part :=
  obtained_literals fun c hc => isLiteral_keeps (h c hc)

/-- A pattern taken apart at its stars. -/
theorem splitOn_eq (glob : List UInt16) :
    ∃ first rest, glob.splitOn starUnit = first :: rest ∧ glob = first ++ starred rest ∧
      Plain first ∧ ∀ part ∈ rest, Plain part := by
  induction glob with
  | nil =>
    refine ⟨[], [], rfl, rfl, ?_, ?_⟩
    · intro c hc
      exact absurd hc List.not_mem_nil
    · intro part hpart
      exact absurd hpart List.not_mem_nil
  | cons c glob ih =>
    obtain ⟨first, rest, hsplit, hglob, hfirst, hrest⟩ := ih
    have hcons : (c :: glob).splitOn starUnit =
        if c == starUnit then [] :: glob.splitOn starUnit
        else (glob.splitOn starUnit).modifyHead (List.cons c) :=
      List.splitOnP_cons_eq_if_modifyHead c glob
    by_cases hc : c = starUnit
    · refine ⟨[], first :: rest, ?_, ?_, ?_, ?_⟩
      · rw [hcons, if_pos (beq_iff_eq.mpr hc), hsplit]
      · rw [hc, hglob]
        rfl
      · intro d hd
        exact absurd hd List.not_mem_nil
      · exact List.forall_mem_cons.mpr ⟨hfirst, hrest⟩
    · refine ⟨c :: first, rest, ?_, ?_, ?_, hrest⟩
      · rw [hcons, if_neg (fun h => hc (beq_iff_eq.mp h)), hsplit]
        rfl
      · rw [hglob]
        rfl
      · exact List.forall_mem_cons.mpr ⟨hc, hfirst⟩

/-! ## One piece -/

theorem indexOf_eq_some {text part : List UInt16} {pos i : Nat} (hpos : pos ≤ text.length)
    (h : indexOf text part pos = some i) :
    pos ≤ i ∧ i ≤ text.length ∧ part <+: text.drop i ∧
      ∀ j, pos ≤ j → part <+: text.drop j → i ≤ j := by
  obtain ⟨hfound, hmem, hbefore⟩ := List.find?_range_eq_some.mp h
  rw [Nat.min_eq_left hpos] at hfound hbefore
  rw [Bool.and_eq_true, decide_eq_true_eq, List.isPrefixOf_iff_prefix] at hfound
  refine ⟨hfound.1, Nat.le_of_lt_succ (List.mem_range.mp hmem), hfound.2, ?_⟩
  intro j hj hprefix
  by_contra hlt
  have hnot := hbefore j (by omega)
  rw [Bool.not_eq_true', Bool.and_eq_false_iff, decide_eq_false_iff_not] at hnot
  rcases hnot with hnot | hnot
  · exact hnot hj
  · rw [List.isPrefixOf_iff_prefix.mpr hprefix] at hnot
    cases hnot

theorem indexOf_eq_none {text part : List UInt16} {pos j : Nat} (hpos : pos ≤ text.length)
    (h : indexOf text part pos = none) (hj : pos ≤ j) (hlength : j ≤ text.length) :
    ¬ part <+: text.drop j := by
  intro hprefix
  have hnot := List.find?_range_eq_none.mp h j (Nat.lt_succ_of_le hlength)
  rw [Nat.min_eq_left hpos, decide_eq_true hj, List.isPrefixOf_iff_prefix.mpr hprefix] at hnot
  cases hnot

/-- A piece behind a star lies somewhere in the text. -/
theorem obtained_part {part pattern text : List UInt16} (hpart : Plain part) :
    Obtained (Keeps starUnit) (starUnit :: (part ++ pattern)) text ↔
      ∃ j ≤ text.length, part <+: text.drop j ∧
        Obtained (Keeps starUnit) pattern (text.drop (j + part.length)) := by
  rw [obtained_star_cons (isStar_keeps starUnit)]
  constructor
  · intro h
    obtain ⟨rest, ⟨skipped, rfl⟩, hrest⟩ := h
    obtain ⟨front, back, hfront, hback, rfl⟩ := obtained_append.mp hrest
    rw [obtained_plain hpart] at hfront
    subst hfront
    refine ⟨skipped.length, ?_, ?_, ?_⟩
    · rw [List.length_append]
      omega
    · rw [List.drop_left]
      exact List.prefix_append front back
    · rw [← List.drop_drop, List.drop_left, List.drop_left]
      exact hback
  · intro h
    obtain ⟨j, -, ⟨back, hback⟩, hrest⟩ := h
    refine ⟨text.drop j, List.drop_suffix j text, ?_⟩
    rw [obtained_append]
    refine ⟨part, back, (obtained_plain hpart).mpr rfl, ?_, hback.symm⟩
    rw [← List.drop_drop, ← hback, List.drop_left] at hrest
    exact hrest

/-- The last piece ends the text. -/
theorem obtained_last {pattern last text : List UInt16} (hlast : Plain last)
    (h : Obtained (Keeps starUnit) (pattern ++ starred [last]) text) : last <:+ text := by
  obtain ⟨front, back, -, hback, rfl⟩ := obtained_append.mp h
  have hstar : Obtained (Keeps starUnit) (starUnit :: (last ++ [])) back := hback
  obtain ⟨rest, hsuffix, hrest⟩ := (obtained_star_cons (isStar_keeps starUnit)).mp hstar
  rw [List.append_nil, obtained_plain hlast] at hrest
  rw [← hrest]
  exact hsuffix.trans (List.suffix_append front back)

/-! ## The loop -/

theorem starred_eq_cons (parts : List (List UInt16)) (last : List UInt16) :
    ∃ pattern, starred parts ++ starred [last] = starUnit :: pattern := by
  cases parts with
  | nil => exact ⟨_, rfl⟩
  | cons part parts => exact ⟨_, rfl⟩

/-- The first place of a piece serves as well as any other. -/
theorem obtained_greedy {url part last : List UInt16} {parts : List (List UInt16)} {pos i : Nat}
    (hpart : Plain part) (hpos : pos ≤ url.length) (hfound : indexOf url part pos = some i) :
    Obtained (Keeps starUnit) (starUnit :: (part ++ (starred parts ++ starred [last])))
        (url.drop pos) ↔
      Obtained (Keeps starUnit) (starred parts ++ starred [last])
        (url.drop (i + part.length)) := by
  obtain ⟨hi, hlength, hprefix, hfirst⟩ := indexOf_eq_some hpos hfound
  rw [obtained_part hpart]
  constructor
  · intro h
    obtain ⟨j, hj, hprefix', hrest⟩ := h
    rw [List.drop_drop] at hprefix' hrest
    have hij := hfirst (pos + j) (by omega) hprefix'
    obtain ⟨pattern, hstar⟩ := starred_eq_cons parts last
    rw [hstar] at hrest ⊢
    exact hrest.of_suffix (isStar_keeps starUnit) (List.drop_suffix_drop_left url (by omega))
  · intro h
    refine ⟨i - pos, ?_, ?_, ?_⟩
    · rw [List.length_drop]
      omega
    · rw [List.drop_drop, Nat.add_sub_cancel' hi]
      exact hprefix
    · rw [List.drop_drop, ← Nat.add_assoc, Nat.add_sub_cancel' hi]
      exact h

theorem middlesHit_iff {url last : List UInt16} {stop : Nat} (hstop : url.drop stop = last)
    (hlast : Plain last) (hle : stop ≤ url.length) (parts : List (List UInt16))
    (hparts : ∀ part ∈ parts, Plain part) (pos : Nat) (hpos : pos ≤ stop) :
    middlesHit url stop parts pos = true ↔
      Obtained (Keeps starUnit) (starred parts ++ starred [last]) (url.drop pos) := by
  induction parts generalizing pos with
  | nil =>
    refine iff_of_true rfl ?_
    have hpattern : Obtained (Keeps starUnit) (starUnit :: (last ++ [])) (url.drop pos) := by
      rw [List.append_nil, obtained_star_cons (isStar_keeps starUnit)]
      refine ⟨last, ?_, (obtained_plain hlast).mpr rfl⟩
      rw [← hstop]
      exact List.drop_suffix_drop_left url hpos
    exact hpattern
  | cons part parts ih =>
    have hpart : Plain part := hparts part List.mem_cons_self
    have hcons : starred (part :: parts) ++ starred [last] =
        starUnit :: (part ++ (starred parts ++ starred [last])) := by
      rw [← List.append_assoc]
      rfl
    rw [hcons]
    unfold middlesHit
    cases hfound : indexOf url part pos with
    | none =>
      refine iff_of_false Bool.false_ne_true ?_
      intro h
      obtain ⟨j, hj, hprefix, -⟩ := (obtained_part hpart).mp h
      rw [List.length_drop] at hj
      rw [List.drop_drop] at hprefix
      exact indexOf_eq_none (by omega) hfound (by omega) (by omega) hprefix
    | some i =>
      rw [obtained_greedy hpart (by omega) hfound]
      change (if stop < i + part.length then false
        else middlesHit url stop parts (i + part.length)) = true ↔ _
      by_cases hfit : stop < i + part.length
      · rw [if_pos hfit]
        refine iff_of_false Bool.false_ne_true ?_
        intro h
        obtain ⟨-, hi, hprefix, -⟩ := indexOf_eq_some (by omega) hfound
        have hpartLength := hprefix.length_le
        have hlastLength := (obtained_last hlast h).length_le
        rw [List.length_drop] at hpartLength
        rw [← hstop, List.length_drop, List.length_drop] at hlastLength
        omega
      · rw [if_neg hfit]
        exact ih (fun p hp => hparts p (List.mem_cons_of_mem part hp)) _ (by omega)

/-- `globHits` accepts what the pattern stands for. -/
theorem globHits_iff (glob url : List UInt16) :
    globHits glob url = true ↔ Obtained (Keeps starUnit) glob url := by
  obtain ⟨first, rest, hsplit, hglob, hfirst, hrest⟩ := splitOn_eq glob
  unfold globHits
  rw [hsplit]
  rcases List.eq_nil_or_concat rest with rfl | ⟨parts, last, rfl⟩
  · have hplain : glob = first := by
      rw [hglob]
      exact List.append_nil first
    change (url == glob) = true ↔ _
    rw [hplain, obtained_plain hfirst, beq_iff_eq]
  · have hlast : Plain last := hrest last (by simp)
    have hparts : ∀ part ∈ parts, Plain part := fun part hpart => hrest part (by simp [hpart])
    have hpattern : glob = first ++ (starred parts ++ starred [last]) := by
      rw [hglob, List.concat_eq_append]
      exact congrArg (first ++ ·) List.flatMap_append
    have hlength : (first :: (parts.concat last)).length ≠ 1 := by simp
    have htail : (first :: (parts.concat last)).tail.dropLast = parts := by simp
    have hend : (first :: (parts.concat last)).getLastD [] = last := by
      rw [List.concat_eq_append, ← List.cons_append]
      simp only [List.getLastD_eq_getLast?, List.getLast?_concat, Option.getD_some]
    simp only [if_neg hlength, htail, hend, List.headD_cons]
    rw [hpattern, obtained_append]
    by_cases hshort : (url.length : Int) - last.length < first.length
    · rw [if_pos hshort]
      refine iff_of_false Bool.false_ne_true ?_
      intro h
      obtain ⟨front, back, hfront, hback, rfl⟩ := h
      rw [obtained_plain hfirst] at hfront
      have hsuffix := (obtained_last hlast hback).length_le
      rw [hfront, List.length_append] at hshort
      omega
    · rw [if_neg hshort]
      have hstop : ((url.length : Int) - last.length).toNat = url.length - last.length := by omega
      rw [hstop]
      by_cases htake : url.take first.length = first
      · rw [if_neg (by simp [htake])]
        have hurl : url = first ++ url.drop first.length := by
          conv_lhs => rw [← List.take_append_drop first.length url, htake]
        have hback : (∃ front back, Obtained (Keeps starUnit) first front ∧
            Obtained (Keeps starUnit) (starred parts ++ starred [last]) back ∧
              url = front ++ back) ↔
            Obtained (Keeps starUnit) (starred parts ++ starred [last])
              (url.drop first.length) := by
          constructor
          · intro h
            obtain ⟨front, back, hfront, hback, heq⟩ := h
            rw [obtained_plain hfirst] at hfront
            rw [heq, hfront, List.drop_left]
            exact hback
          · intro h
            exact ⟨first, _, (obtained_plain hfirst).mpr rfl, h, hurl⟩
        rw [hback]
        by_cases hdrop : url.drop (url.length - last.length) = last
        · rw [if_neg (by simp [hdrop])]
          exact middlesHit_iff hdrop hlast (by omega) parts hparts _ (by omega)
        · rw [if_pos (by simp [hdrop])]
          refine iff_of_false Bool.false_ne_true ?_
          intro h
          have hsuffix := (obtained_last hlast h).trans (List.drop_suffix first.length url)
          exact hdrop (List.suffix_iff_eq_drop.mp hsuffix).symm
      · rw [if_pos (by simp [htake])]
        refine iff_of_false Bool.false_ne_true ?_
        intro h
        obtain ⟨front, back, hfront, -, rfl⟩ := h
        rw [obtained_plain hfirst] at hfront
        rw [hfront, List.take_left] at htake
        exact htake rfl

end Victauri.Plugin.Globs
