import Mathlib.Data.Nat.Log
import Mathlib.Tactic.Ring

/-!
# Integers as binary64 numbers

A 64-bit float is given by its bits: a sign, and a magnitude that grows with the number.  An
integer is taken to the nearest float, and to the even one of two that are equally near.  The
integers are those of up to 64 bits; none of them overflows.
-/

namespace Binary64

/-! ## Rounding -/

/-- `n / 2 ^ k`, to the nearest integer and to the even one of two. -/
def roundShift (n k : Nat) : Nat :=
  let q := n / 2 ^ k
  let r := n % 2 ^ k
  if 2 ^ k < 2 * r ∨ (2 * r = 2 ^ k ∧ q % 2 = 1) then q + 1 else q

/-- The significand of a positive integer, with 53 bits or a carry out of them. -/
def significand (n : Nat) : Nat :=
  if Nat.log2 n ≤ 52 then n * 2 ^ (52 - Nat.log2 n) else roundShift n (Nat.log2 n - 52)

/-- The bits of the float nearest to `n`. -/
def ofNat (n : Nat) : Nat :=
  -- a carry goes on into the exponent
  if n = 0 then 0 else (Nat.log2 n + 1022) * 2 ^ 52 + significand n

/-- `z as f64` -/
def ofInt (z : Int) : UInt64 :=
  if z < 0 then UInt64.ofNat (2 ^ 63 + ofNat z.natAbs) else UInt64.ofNat (ofNat z.natAbs)

/-! ## Order -/

def isNaN (x : UInt64) : Bool := 0x7ff0000000000000 < x.toNat % 2 ^ 63

/-- An integer that orders the floats that are numbers; both zeros have the same one. -/
def key (x : UInt64) : Int := if x.toNat < 2 ^ 63 then x.toNat else 2 ^ 63 - x.toNat

/-- `x < y` -/
def lt (x y : UInt64) : Bool := !isNaN x && !isNaN y && key x < key y

/-! ## Rounding keeps the order -/

theorem roundShift_mono {m n : Nat} (h : m ≤ n) (k : Nat) : roundShift m k ≤ roundShift n k := by
  have hpos : 0 < 2 ^ k := Nat.two_pow_pos k
  have hm := Nat.div_add_mod m (2 ^ k)
  have hn := Nat.div_add_mod n (2 ^ k)
  have hq : m / 2 ^ k ≤ n / 2 ^ k := Nat.div_le_div_right h
  unfold roundShift
  dsimp only
  rcases Nat.lt_or_eq_of_le hq with hlt | heq
  · split_ifs
    · omega
    · omega
    · omega
    · omega
  · rw [heq] at hm ⊢
    have hr : m % 2 ^ k ≤ n % 2 ^ k := by omega
    split_ifs
    · exact Nat.le_refl _
    · omega
    · omega
    · exact Nat.le_refl _

theorem significand_bounds {n : Nat} (h : n ≠ 0) :
    2 ^ 52 ≤ significand n ∧ significand n ≤ 2 ^ 53 := by
  have hlow : 2 ^ Nat.log2 n ≤ n := Nat.log2_self_le h
  have hhigh : n < 2 ^ (Nat.log2 n + 1) := Nat.lt_log2_self
  unfold significand
  split_ifs with he
  · have hpow : 2 ^ Nat.log2 n * 2 ^ (52 - Nat.log2 n) = 2 ^ 52 := by
      rw [← Nat.pow_add, Nat.add_sub_cancel' he]
    have hpow' : 2 ^ (Nat.log2 n + 1) * 2 ^ (52 - Nat.log2 n) = 2 ^ 53 := by
      rw [← Nat.pow_add]
      congr 1
      omega
    constructor
    · rw [← hpow]
      exact Nat.mul_le_mul_right _ hlow
    · rw [← hpow']
      exact Nat.mul_le_mul_right _ (Nat.le_of_lt hhigh)
  · have hpos : 0 < 2 ^ (Nat.log2 n - 52) := Nat.two_pow_pos _
    have hpow : 2 ^ 52 * 2 ^ (Nat.log2 n - 52) = 2 ^ Nat.log2 n := by
      rw [← Nat.pow_add]
      congr 1
      omega
    have hpow' : 2 ^ 53 * 2 ^ (Nat.log2 n - 52) = 2 ^ (Nat.log2 n + 1) := by
      rw [← Nat.pow_add]
      congr 1
      omega
    have hq : 2 ^ 52 ≤ n / 2 ^ (Nat.log2 n - 52) :=
      (Nat.le_div_iff_mul_le hpos).mpr (hpow ▸ hlow)
    have hq' : n / 2 ^ (Nat.log2 n - 52) < 2 ^ 53 :=
      (Nat.div_lt_iff_lt_mul hpos).mpr (hpow' ▸ hhigh)
    unfold roundShift
    dsimp only
    split_ifs
    · exact ⟨Nat.le_succ_of_le hq, hq'⟩
    · exact ⟨hq, Nat.le_of_lt hq'⟩

theorem significand_mono {m n : Nat} (hlog : Nat.log2 m = Nat.log2 n) (h : m ≤ n) :
    significand m ≤ significand n := by
  unfold significand
  rw [hlog]
  split_ifs
  · exact Nat.mul_le_mul_right _ h
  · exact roundShift_mono h _

theorem log2_mono {m n : Nat} (h : m ≤ n) : Nat.log2 m ≤ Nat.log2 n := by
  rw [Nat.log2_eq_log_two, Nat.log2_eq_log_two]
  exact Nat.log_mono_right h

theorem ofNat_mono {m n : Nat} (h : m ≤ n) : ofNat m ≤ ofNat n := by
  by_cases hm : m = 0
  · rw [hm]
    exact Nat.zero_le _
  · have hn : n ≠ 0 := by omega
    have hbounds := significand_bounds hm
    have hbounds' := significand_bounds hn
    unfold ofNat
    rw [if_neg hm, if_neg hn]
    rcases Nat.lt_or_eq_of_le (log2_mono h) with hlt | heq
    · -- the carry of the lower binade does not pass the start of the higher one
      omega
    · rw [heq]
      exact Nat.add_le_add_left (significand_mono heq h) _

theorem ofNat_pos {n : Nat} (h : n ≠ 0) : 0 < ofNat n := by
  have hbounds := significand_bounds h
  unfold ofNat
  rw [if_neg h]
  omega

/-! ## Integers of 64 bits -/

theorem ofNat_le {n : Nat} (h : n < 2 ^ 64) : ofNat n ≤ 1087 * 2 ^ 52 := by
  by_cases hn : n = 0
  · rw [hn]
    exact Nat.zero_le _
  · have hbounds := significand_bounds hn
    have hlog : Nat.log2 n < 64 := (Nat.log2_lt hn).mpr h
    unfold ofNat
    rw [if_neg hn]
    omega

section Integers

variable {z : Int} (h : z.natAbs < 2 ^ 64)

include h

theorem toNat_ofInt : (ofInt z).toNat = if z < 0 then 2 ^ 63 + ofNat z.natAbs else ofNat z.natAbs := by
  have hle := ofNat_le h
  unfold ofInt
  split_ifs
  · exact UInt64.toNat_ofNat_of_lt' (by exact (by omega : 2 ^ 63 + ofNat z.natAbs < 2 ^ 64))
  · exact UInt64.toNat_ofNat_of_lt' (by exact (by omega : ofNat z.natAbs < 2 ^ 64))

theorem not_isNaN_ofInt : isNaN (ofInt z) = false := by
  have hle := ofNat_le h
  unfold isNaN
  rw [toNat_ofInt h, decide_eq_false_iff_not]
  split_ifs
  · omega
  · omega

theorem key_ofInt : key (ofInt z) = if z < 0 then -(ofNat z.natAbs : Int) else ofNat z.natAbs := by
  have hle := ofNat_le h
  unfold key
  rw [toNat_ofInt h]
  split_ifs
  · omega
  · omega
  · omega
  · omega

end Integers

section Pairs

variable {z w : Int} (hz : z.natAbs < 2 ^ 64) (hw : w.natAbs < 2 ^ 64)

include hz hw

theorem key_mono (h : z ≤ w) : key (ofInt z) ≤ key (ofInt w) := by
  rw [key_ofInt hz, key_ofInt hw]
  split_ifs
  · have hmono := ofNat_mono (show w.natAbs ≤ z.natAbs by omega)
    omega
  · omega
  · omega
  · have hmono := ofNat_mono (show z.natAbs ≤ w.natAbs by omega)
    omega

/-- Integers that the order of the floats does not tell apart have the same float. -/
theorem ofInt_of_key (h : key (ofInt z) = key (ofInt w)) : ofInt z = ofInt w := by
  have hpos : ∀ n : Nat, 0 < n → 0 < ofNat n := fun n hn => ofNat_pos (Nat.ne_of_gt hn)
  rw [key_ofInt hz, key_ofInt hw] at h
  apply UInt64.toNat_inj.mp
  rw [toNat_ofInt hz, toNat_ofInt hw]
  split_ifs at h ⊢
  · omega
  · have := hpos z.natAbs (by omega)
    omega
  · have := hpos w.natAbs (by omega)
    omega
  · omega

/-- Floats of integers are ordered as the integers are, unless they are the same. -/
theorem lt_ofInt : lt (ofInt z) (ofInt w) = true ↔ z < w ∧ ofInt z ≠ ofInt w := by
  unfold lt
  rw [not_isNaN_ofInt hz, not_isNaN_ofInt hw, Bool.not_false, Bool.true_and, Bool.true_and,
    decide_eq_true_eq]
  constructor
  · intro hlt
    constructor
    · by_contra hle
      have := key_mono hw hz (Int.not_lt.mp hle)
      omega
    · intro heq
      rw [heq] at hlt
      exact Int.lt_irrefl _ hlt
  · rintro ⟨hlt, hne⟩
    have hle := key_mono hz hw (Int.le_of_lt hlt)
    have hkeys : key (ofInt z) ≠ key (ofInt w) := fun heq => hne (ofInt_of_key hz hw heq)
    omega

end Pairs

end Binary64
