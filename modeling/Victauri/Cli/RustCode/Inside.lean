import Mathlib.Data.List.Forall2
import Victauri.Cli.RustCode.Lexing

/-!
# Places inside comments and literals

Where the loop is in the middle of an arm that blanks.
-/

namespace Victauri.Cli.RustCode

open Utf8

/-- Whether, before the byte at an index, an arm that blanks still has bytes to take. -/
def inArm (before : List UInt8) (left : Nat) (blanked : Bool) : List UInt8 → Nat → Bool
  | _, 0 => decide (0 < left) && blanked
  | [], _ + 1 => false
  | c :: rest, index + 1 =>
      match left with
      | left + 1 => inArm (c :: before) left blanked rest index
      | 0 =>
          let (taken, blanked) := turn before c rest
          inArm (c :: before) (taken - 1) blanked rest index

/-- The index is inside a comment or a literal, behind its first byte and before its last. -/
def Inside (bs : List UInt8) (index : Nat) : Prop := inArm [] 0 false bs index = true

instance (bs : List UInt8) (index : Nat) : Decidable (Inside bs index) :=
  inferInstanceAs (Decidable (_ = _))

/-- A comment or literal is open at the end: a further line would be inside it. -/
def EndsOpen (bs : List UInt8) : Prop := Inside (bs ++ ['\n'.toUInt8]) bs.length

instance (bs : List UInt8) : Decidable (EndsOpen bs) := inferInstanceAs (Decidable (Inside _ _))

/-! ## The loop at an index -/

theorem scan_zero (before : List UInt8) (blanked : Bool) (bs : List UInt8) :
    scan before 0 blanked bs = scan before 0 false bs := by
  cases bs with
  | nil => rfl
  | cons c bs => rfl

theorem inArm_zero (before : List UInt8) (left : Nat) (blanked : Bool) (bs : List UInt8) :
    inArm before left blanked bs 0 = (decide (0 < left) && blanked) := by
  cases bs with
  | nil => rfl
  | cons c bs => rfl

theorem turn_code_length {before : List UInt8} {c : UInt8} {rest : List UInt8}
    (h : (turn before c rest).2 = false) : (turn before c rest).1 - 1 = 0 := by
  rcases turn_ends before c rest with hcode | ⟨n, hblanks, -, -, -⟩
  · rw [hcode]
    rfl
  · rw [hblanks] at h
    cases h

/-- The state in which the loop comes to what is behind `front`. -/
theorem scan_split (front back before : List UInt8) {left : Nat} {blanked : Bool}
    (hstate : blanked = false → left = 0) :
    ∃ out left' blanked', (blanked' = false → left' = 0) ∧ out.length = front.length ∧
      scan before left blanked (front ++ back) =
        out ++ scan (front.reverse ++ before) left' blanked' back ∧
      ∀ index, inArm before left blanked (front ++ back) (front.length + index) =
        inArm (front.reverse ++ before) left' blanked' back index := by
  induction front generalizing before left blanked with
  | nil =>
    refine ⟨[], left, blanked, hstate, rfl, rfl, ?_⟩
    intro index
    rw [List.length_nil, Nat.zero_add]
    rfl
  | cons c front ih =>
    have hbefore : (c :: front).reverse ++ before = front.reverse ++ c :: before := by
      rw [List.reverse_cons, List.append_assoc, List.singleton_append]
    rw [hbefore]
    cases left with
    | succ left =>
      have hblanked : blanked = true := by
        cases blanked with
        | true => rfl
        | false => exact absurd (hstate rfl) (Nat.succ_ne_zero left)
      obtain ⟨out, left', blanked', hstate', hlength, hscan, harm⟩ :=
        @ih (c :: before) left blanked fun h => by
          rw [hblanked] at h
          cases h
      refine ⟨(if blanked then blank c else c) :: out, left', blanked', hstate',
        congrArg (· + 1) hlength, ?_, ?_⟩
      · exact congrArg ((if blanked then blank c else c) :: ·) hscan
      · intro index
        rw [List.length_cons, Nat.add_right_comm]
        exact harm index
    | zero =>
      obtain ⟨out, left', blanked', hstate', hlength, hscan, harm⟩ :=
        ih (c :: before) (@turn_code_length before c (front ++ back))
      refine ⟨(if (turn before c (front ++ back)).2 then blank c else c) :: out, left', blanked',
        hstate', congrArg (· + 1) hlength, ?_, ?_⟩
      · exact congrArg ((if (turn before c (front ++ back)).2 then blank c else c) :: ·) hscan
      · intro index
        rw [List.length_cons, Nat.add_right_comm]
        exact harm index

/-- Outside comments and literals the loop begins a turn. -/
theorem scan_of_not_inside {front back : List UInt8}
    (h : ¬ Inside (front ++ back) front.length) :
    ∃ out, codeBytes (front ++ back) = out ++ scan front.reverse 0 false back := by
  obtain ⟨out, left, blanked, hstate, -, hscan, harm⟩ :=
    @scan_split front back [] 0 false fun _ => rfl
  have hnot : (decide (0 < left) && blanked) = false := by
    have hzero := harm 0
    rw [inArm_zero] at hzero
    rw [← hzero]
    exact Bool.eq_false_iff.mpr h
  have hleft : left = 0 := by
    cases blanked with
    | false => exact hstate rfl
    | true =>
      rw [Bool.and_true, decide_eq_false_iff_not] at hnot
      exact Nat.eq_zero_of_not_pos hnot
  rw [hleft, List.append_nil, scan_zero front.reverse blanked] at hscan
  exact ⟨out, hscan⟩

/-- What is inside a comment or a literal is blanked. -/
theorem blank_of_inside {front back : List UInt8} {c : UInt8}
    (h : Inside (front ++ c :: back) front.length) :
    (codeBytes (front ++ c :: back))[front.length]? = some (blank c) := by
  obtain ⟨out, left, blanked, hstate, hlength, hscan, harm⟩ :=
    @scan_split front (c :: back) [] 0 false fun _ => rfl
  have hzero := (harm 0).symm.trans h
  rw [inArm_zero, Bool.and_eq_true, decide_eq_true_eq] at hzero
  obtain ⟨left, rfl⟩ := Nat.exists_eq_add_one_of_ne_zero (Nat.ne_of_gt hzero.1)
  unfold codeBytes
  rw [hscan, List.getElem?_append_right (Nat.le_of_eq hlength), hlength, Nat.sub_self, hzero.2]
  rfl

theorem blank_of_inside_behind {front back : List UInt8} {c : UInt8}
    (h : Inside (front ++ c :: back) (front.length + 1)) :
    (codeBytes (front ++ c :: back))[front.length]? = some (blank c) := by
  obtain ⟨out, left, blanked, hstate, hlength, hscan, harm⟩ :=
    @scan_split front (c :: back) [] 0 false fun _ => rfl
  have hone := (harm 1).symm.trans h
  unfold codeBytes
  rw [hscan, List.getElem?_append_right (Nat.le_of_eq hlength), hlength, Nat.sub_self]
  cases left with
  | succ left =>
    change inArm _ left blanked back 0 = true at hone
    change some (if blanked then blank c else c) = some (blank c)
    rw [inArm_zero, Bool.and_eq_true] at hone
    rw [hone.2]
    rfl
  | zero =>
    change inArm _ _ (turn _ c back).2 back 0 = true at hone
    change some (if (turn _ c back).2 then blank c else c) = some (blank c)
    rw [inArm_zero, Bool.and_eq_true] at hone
    rw [hone.2]
    rfl

/-- Byte for byte the result is the source or blanked. -/
theorem forall₂_scan (before : List UInt8) (left : Nat) (blanked : Bool) (bs : List UInt8) :
    List.Forall₂ (fun c d => d = c ∨ d = blank c) bs (scan before left blanked bs) := by
  have hemit : ∀ (b : Bool) (c : UInt8), (if b then blank c else c) = c ∨
      (if b then blank c else c) = blank c := by
    intro b c
    cases b with
    | true => exact Or.inr rfl
    | false => exact Or.inl rfl
  induction bs generalizing before left blanked with
  | nil => exact List.Forall₂.nil
  | cons c bs ih =>
    cases left with
    | succ left => exact List.Forall₂.cons (hemit _ c) (ih _ _ _)
    | zero => exact List.Forall₂.cons (hemit _ c) (ih _ _ _)

end Victauri.Cli.RustCode
