import Victauri.Plugin.Mcp.PageJson.Bytes

/-!
# Only unpaired surrogates are rewritten

The escapes of a text, read from its start.  The result of sanitizing has the same ones in the same
order, but for the unpaired surrogates.
-/

namespace Victauri.Plugin.Mcp.PageJson

open Victauri.Core.Json
open Utf8 (encode)

/-! ## The escapes of a text -/

inductive Piece where
  | plain (b : UInt8)
  | unit (w x y z : UInt8)
  /-- A backslash and a byte that do not begin a unit. -/
  | escape (c : UInt8)
  /-- A backslash at the end. -/
  | trailing
  deriving DecidableEq

def Piece.bytes : Piece → List UInt8
  | plain b => [b]
  | unit w x y z => ['\\'.toUInt8, 'u'.toUInt8, w, x, y, z]
  | escape c => ['\\'.toUInt8, c]
  | trailing => ['\\'.toUInt8]

def flat (pieces : List Piece) : List UInt8 := pieces.flatMap Piece.bytes

/-- The code unit of four hexadecimal digits. -/
def unitOf (w x y z : UInt8) : Option Nat := hexNumber [charOf w, charOf x, charOf y, charOf z]

/-- `\u` and four hexadecimal digits at the start. -/
def unitAt : List UInt8 → Option (UInt8 × UInt8 × UInt8 × UInt8)
  | e :: u :: w :: x :: y :: z :: _ =>
      if e = '\\'.toUInt8 ∧ u = 'u'.toUInt8 ∧ (unitOf w x y z).isSome then some (w, x, y, z)
      else none
  | _ => none

def readPieces (bs : List UInt8) : List Piece :=
  match bs with
  | [] => []
  | b :: rest =>
      if b ≠ '\\'.toUInt8 then .plain b :: readPieces rest
      else
        match unitAt bs with
        | some (w, x, y, z) => .unit w x y z :: readPieces (rest.drop 5)
        | none =>
            match rest with
            | [] => [.trailing]
            | c :: rest => .escape c :: readPieces rest
termination_by bs.length
decreasing_by all_goals simp only [List.length_cons, List.length_drop]; omega

/-! ## Surrogates -/

def Piece.isHigh : Piece → Bool
  | unit w x y z => (unitOf w x y z).any isHighSurrogate
  | _ => false

def Piece.isLow : Piece → Bool
  | unit w x y z => (unitOf w x y z).any isLowSurrogate
  | _ => false

/-- The piece is a surrogate that the piece before or behind it does not make a pair with. -/
def Lone (pieces : List Piece) (k : Nat) : Prop :=
  (∃ p, pieces[k]? = some p ∧ p.isHigh = true ∧ ∀ q, pieces[k + 1]? = some q → q.isLow = false) ∨
    ∃ p, pieces[k]? = some p ∧ p.isLow = true ∧
      ∀ q j, k = j + 1 → pieces[j]? = some q → q.isHigh = false

/-- `\ufffd`. -/
def Piece.replacement : Piece := unit 'f'.toUInt8 'f'.toUInt8 'f'.toUInt8 'd'.toUInt8

/-- Every unpaired surrogate replaced. -/
def repair : List Piece → List Piece
  | [] => []
  | [p] => if p.isHigh || p.isLow then [.replacement] else [p]
  | p :: q :: pieces =>
      if p.isHigh && q.isLow then p :: q :: repair pieces
      else if p.isHigh || p.isLow then .replacement :: repair (q :: pieces)
      else p :: repair (q :: pieces)

/-! ## Repairing -/

theorem not_isLow_of_isHigh {p : Piece} (h : p.isHigh = true) : p.isLow = false := by
  cases p with
  | unit w x y z =>
    change (unitOf w x y z).any isHighSurrogate = true at h
    change (unitOf w x y z).any isLowSurrogate = false
    cases hu : unitOf w x y z with
    | none => rfl
    | some u =>
      rw [hu, Option.any_some] at h
      rw [Option.any_some]
      unfold isHighSurrogate at h
      unfold isLowSurrogate
      simp only [Bool.and_eq_true, decide_eq_true_eq] at h
      simp only [Bool.and_eq_false_iff, decide_eq_false_iff_not]
      omega
  | plain b => rfl
  | escape c => rfl
  | trailing => rfl

theorem not_isHigh_of_isLow {p : Piece} (h : p.isLow = true) : p.isHigh = false := by
  by_contra hhigh
  rw [not_isLow_of_isHigh (eq_true_of_ne_false hhigh)] at h
  cases h

theorem repair_cons (p : Piece) (pieces : List Piece)
    (h : (p.isHigh && pieces.head?.any Piece.isLow) = false) :
    repair (p :: pieces) =
      (if p.isHigh || p.isLow then .replacement else p) :: repair pieces := by
  cases pieces with
  | nil =>
    unfold repair
    split_ifs
    · rfl
    · rfl
  | cons q pieces =>
    rw [List.head?_cons, Option.any_some] at h
    rw [repair, if_neg (by rw [h]; exact Bool.false_ne_true)]
    split_ifs
    · rfl
    · rfl

theorem repair_pair {p q : Piece} (hp : p.isHigh = true) (hq : q.isLow = true)
    (pieces : List Piece) : repair (p :: q :: pieces) = p :: q :: repair pieces := by
  rw [repair, if_pos (by rw [hp, hq]; rfl)]

theorem lone_zero {p : Piece} {pieces : List Piece}
    (h : (p.isHigh && pieces.head?.any Piece.isLow) = false) :
    Lone (p :: pieces) 0 ↔ (p.isHigh || p.isLow) = true := by
  rw [Bool.or_eq_true]
  constructor
  · rintro (⟨q, hq, hhigh, -⟩ | ⟨q, hq, hlow, -⟩)
    · obtain rfl : p = q := Option.some.inj hq
      exact Or.inl hhigh
    · obtain rfl : p = q := Option.some.inj hq
      exact Or.inr hlow
  · rintro (hhigh | hlow)
    · left
      refine ⟨p, rfl, hhigh, ?_⟩
      intro q hq
      rw [hhigh, Bool.true_and] at h
      rw [List.getElem?_cons_succ, ← List.head?_eq_getElem?] at hq
      rw [hq, Option.any_some] at h
      exact h
    · exact Or.inr ⟨p, rfl, hlow, fun q j hj => absurd hj (Nat.succ_ne_zero j).symm⟩

theorem lone_succ {p : Piece} {pieces : List Piece}
    (h : (p.isHigh && pieces.head?.any Piece.isLow) = false) (k : Nat) :
    Lone (p :: pieces) (k + 1) ↔ Lone pieces k := by
  unfold Lone
  simp only [List.getElem?_cons_succ]
  apply or_congr Iff.rfl
  constructor
  · rintro ⟨q, hq, hlow, hprev⟩
    refine ⟨q, hq, hlow, ?_⟩
    rintro r j rfl hr
    exact hprev r (j + 1) rfl hr
  · rintro ⟨q, hq, hlow, hprev⟩
    refine ⟨q, hq, hlow, ?_⟩
    rintro r j hj hr
    obtain rfl : k = j := Nat.succ.inj hj
    cases k with
    | zero =>
      obtain rfl : p = r := Option.some.inj hr
      rw [List.head?_eq_getElem?, hq, Option.any_some, hlow, Bool.and_true] at h
      exact h
    | succ k => exact hprev r k rfl hr

theorem not_lone_pair {p q : Piece} (hp : p.isHigh = true) (hq : q.isLow = true)
    (pieces : List Piece) : ¬ Lone (p :: q :: pieces) 0 ∧ ¬ Lone (p :: q :: pieces) 1 := by
  constructor
  · rintro (⟨r, hr, -, hnext⟩ | ⟨r, hr, hlow, -⟩)
    · rw [hnext q rfl] at hq
      cases hq
    · obtain rfl : p = r := Option.some.inj hr
      rw [not_isLow_of_isHigh hp] at hlow
      cases hlow
  · rintro (⟨r, hr, hhigh, -⟩ | ⟨r, hr, -, hprev⟩)
    · obtain rfl : q = r := Option.some.inj hr
      rw [not_isLow_of_isHigh hhigh] at hq
      cases hq
    · rw [hprev p 0 rfl rfl] at hp
      cases hp

theorem lone_pair {p q : Piece} (hq : q.isLow = true) (pieces : List Piece) (k : Nat) :
    Lone (p :: q :: pieces) (k + 2) ↔ Lone pieces k := by
  have hhead : (q.isHigh && pieces.head?.any Piece.isLow) = false := by
    rw [not_isHigh_of_isLow hq, Bool.false_and]
  rw [← lone_succ hhead k]
  unfold Lone
  simp only [List.getElem?_cons_succ]
  apply or_congr Iff.rfl
  constructor
  · rintro ⟨r, hr, hlow, hprev⟩
    refine ⟨r, hr, hlow, ?_⟩
    rintro t j hj ht
    exact hprev t (j + 1) (congrArg Nat.succ hj) ht
  · rintro ⟨r, hr, hlow, hprev⟩
    refine ⟨r, hr, hlow, ?_⟩
    rintro t j hj ht
    obtain rfl : k + 1 = j := Nat.succ.inj hj
    exact hprev t k rfl ht

/-- What sanitizing does to a piece: an unpaired surrogate is replaced, anything else kept. -/
def Kept (pieces : List Piece) (k : Nat) : Prop :=
  (Lone pieces k → (repair pieces)[k]? = some .replacement) ∧
    (¬ Lone pieces k → (repair pieces)[k]? = pieces[k]?)

theorem kept_cons {p : Piece} {pieces : List Piece}
    (h : (p.isHigh && pieces.head?.any Piece.isLow) = false) (ih : ∀ k, Kept pieces k) (k : Nat) :
    Kept (p :: pieces) k := by
  unfold Kept
  rw [repair_cons p pieces h]
  cases k with
  | zero =>
    rw [lone_zero h, List.getElem?_cons_zero, List.getElem?_cons_zero]
    constructor
    · intro hlone
      rw [if_pos hlone]
    · intro hlone
      rw [if_neg hlone]
  | succ k =>
    rw [lone_succ h, List.getElem?_cons_succ, List.getElem?_cons_succ]
    exact ih k

theorem kept_pair {p q : Piece} {pieces : List Piece} (hp : p.isHigh = true)
    (hq : q.isLow = true) (ih : ∀ k, Kept pieces k) (k : Nat) : Kept (p :: q :: pieces) k := by
  unfold Kept
  rw [repair_pair hp hq]
  cases k with
  | zero => exact ⟨fun h => absurd h (not_lone_pair hp hq pieces).1, fun _ => rfl⟩
  | succ k =>
    cases k with
    | zero => exact ⟨fun h => absurd h (not_lone_pair hp hq pieces).2, fun _ => rfl⟩
    | succ k =>
      rw [lone_pair hq]
      exact ih k

theorem kept_nil (k : Nat) : Kept [] k := by
  constructor
  · rintro (⟨p, hp, -⟩ | ⟨p, hp, -⟩)
    · cases hp
    · cases hp
  · exact fun _ => rfl

/-- Piece for piece, the unpaired surrogates are replaced and everything else is kept. -/
theorem kept (pieces : List Piece) (k : Nat) : Kept pieces k := by
  induction pieces using repair.induct generalizing k with
  | case1 => exact kept_nil k
  | case2 p _ => exact kept_cons (by rw [List.head?_nil, Option.any_none, Bool.and_false]) kept_nil k
  | case3 p _ => exact kept_cons (by rw [List.head?_nil, Option.any_none, Bool.and_false]) kept_nil k
  | case4 p q pieces hpair ih =>
    rw [Bool.and_eq_true] at hpair
    exact kept_pair hpair.1 hpair.2 ih k
  | case5 p q pieces hpair _ ih => exact kept_cons (eq_false_of_ne_true hpair) ih k
  | case6 p q pieces hpair _ ih => exact kept_cons (eq_false_of_ne_true hpair) ih k

theorem length_repair (pieces : List Piece) : (repair pieces).length = pieces.length := by
  induction pieces using repair.induct with
  | case1 => rfl
  | case2 p h => rw [repair, if_pos h]; rfl
  | case3 p h => rw [repair, if_neg h]
  | case4 p q pieces hpair ih =>
    rw [repair, if_pos hpair, List.length_cons, List.length_cons, ih]
    rfl
  | case5 p q pieces hpair h ih => rw [repair, if_neg hpair, if_pos h, List.length_cons, ih]; rfl
  | case6 p q pieces hpair h ih => rw [repair, if_neg hpair, if_neg h, List.length_cons, ih]; rfl

theorem isHigh_replacement : Piece.replacement.isHigh = false := by decide

theorem isLow_replacement : Piece.replacement.isLow = false := by decide

theorem repair_of_not_lone {pieces : List Piece} (h : ∀ k, ¬ Lone pieces k) :
    repair pieces = pieces := by
  apply List.ext_getElem?
  intro k
  exact (kept pieces k).2 (h k)

/-- A piece of the result that was none of the text is no surrogate. -/
theorem getElem?_repair {pieces : List Piece} {k : Nat} {p : Piece}
    (h : (repair pieces)[k]? = some p) (hp : (p.isHigh || p.isLow) = true) :
    ¬ Lone pieces k ∧ pieces[k]? = some p := by
  by_cases hlone : Lone pieces k
  · rw [(kept pieces k).1 hlone, Option.some.injEq] at h
    rw [← h, isHigh_replacement, isLow_replacement] at hp
    cases hp
  · rw [(kept pieces k).2 hlone] at h
    exact ⟨hlone, h⟩

theorem not_lone_repair (pieces : List Piece) (k : Nat) : ¬ Lone (repair pieces) k := by
  rintro (⟨p, hp, hhigh, hnext⟩ | ⟨p, hp, hlow, hprev⟩)
  · obtain ⟨hlone, hpiece⟩ := getElem?_repair hp (by rw [hhigh, Bool.true_or])
    apply hlone
    refine Or.inl ⟨p, hpiece, hhigh, ?_⟩
    intro q hq
    by_cases hqlone : Lone pieces (k + 1)
    · obtain (⟨r, hr, hrhigh, -⟩ | ⟨r, hr, -, hrprev⟩) := hqlone
      · rw [hr, Option.some.injEq] at hq
        exact hq ▸ not_isLow_of_isHigh hrhigh
      · rw [hrprev p k rfl hpiece] at hhigh
        cases hhigh
    · rw [← (kept pieces (k + 1)).2 hqlone] at hq
      exact hnext q hq
  · obtain ⟨hlone, hpiece⟩ := getElem?_repair hp (by rw [hlow, Bool.or_true])
    apply hlone
    refine Or.inr ⟨p, hpiece, hlow, ?_⟩
    rintro q j rfl hq
    by_contra hhigh
    have hqhigh := eq_true_of_ne_false hhigh
    have hqlone : ¬ Lone pieces j := by
      rintro (⟨r, hr, -, hrnext⟩ | ⟨r, hr, hrlow, -⟩)
      · rw [hrnext p hpiece] at hlow
        cases hlow
      · obtain rfl : q = r := Option.some.inj (hq.symm.trans hr)
        rw [not_isLow_of_isHigh hqhigh] at hrlow
        cases hrlow
    rw [← (kept pieces j).2 hqlone] at hq
    exact hhigh (hprev q j rfl hq)

end Victauri.Plugin.Mcp.PageJson
