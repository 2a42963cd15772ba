import Mathlib.Data.List.Basic
import Mathlib.Logic.Function.Iterate

/-!
# Cyclic redundancy checks

The remainder of a reflected check, a byte at a time.  Two texts that differ in as many consecutive
bytes as the remainder is wide have different remainders.
-/

namespace Crc

variable {w : Nat}

/-- One place of the division. -/
def shift (poly s : BitVec w) : BitVec w :=
  if s.getLsbD 0 then (s >>> 1) ^^^ poly else s >>> 1

def shifts (poly : BitVec w) (n : Nat) (s : BitVec w) : BitVec w := (shift poly)^[n] s

/-- The remainder after one more byte. -/
def feed (poly s : BitVec w) (b : UInt8) : BitVec w :=
  shifts poly 8 (s ^^^ b.toBitVec.setWidth w)

def remainder (poly s : BitVec w) (bytes : List UInt8) : BitVec w := bytes.foldl (feed poly) s

/-! ## One place -/

section

variable {poly : BitVec w}

theorem xor_four (a b p q : BitVec w) : a ^^^ p ^^^ (b ^^^ q) = a ^^^ b ^^^ (p ^^^ q) := by
  ac_rfl

theorem shift_xor (a b : BitVec w) : shift poly (a ^^^ b) = shift poly a ^^^ shift poly b := by
  unfold shift
  rw [BitVec.getLsbD_xor, BitVec.ushiftRight_xor_distrib]
  cases a.getLsbD 0 <;> cases b.getLsbD 0
  · rfl
  · exact BitVec.xor_assoc _ _ _
  · change _ = a >>> 1 ^^^ poly ^^^ b >>> 1
    ac_rfl
  · change a >>> 1 ^^^ b >>> 1 = a >>> 1 ^^^ poly ^^^ (b >>> 1 ^^^ poly)
    rw [xor_four, BitVec.xor_self, BitVec.xor_zero]

/-- Where the polynomial has its highest bit no two remainders move to one. -/
theorem shift_eq_zero (hpoly : poly.msb = true) {s : BitVec w} (h : shift poly s = 0#w) :
    s = 0#w := by
  have hw : 0 < w := by
    rcases Nat.eq_zero_or_pos w with rfl | hw
    · rw [BitVec.msb_eq_getLsbD_last, BitVec.getLsbD_of_ge _ _ (Nat.zero_le _)] at hpoly
      cases hpoly
    · exact hw
  unfold shift at h
  cases hlow : s.getLsbD 0 with
  | true =>
    rw [hlow, if_pos rfl] at h
    have htop := congrArg (fun x => x.getLsbD (w - 1)) h
    rw [BitVec.msb_eq_getLsbD_last] at hpoly
    simp only [BitVec.getLsbD_xor, BitVec.getLsbD_ushiftRight, hpoly,
      BitVec.getLsbD_of_ge s (1 + (w - 1)) (by omega), BitVec.getLsbD_zero] at htop
    cases htop
  | false =>
    rw [hlow, if_neg Bool.false_ne_true] at h
    apply BitVec.eq_of_getLsbD_eq
    intro i _
    rw [BitVec.getLsbD_zero]
    cases i with
    | zero => exact hlow
    | succ i =>
      have hbit := congrArg (fun x => x.getLsbD i) h
      rwa [BitVec.getLsbD_ushiftRight, BitVec.getLsbD_zero, Nat.add_comm] at hbit

theorem shift_injective (hpoly : poly.msb = true) : Function.Injective (shift poly) := by
  intro a b h
  have hzero : shift poly (a ^^^ b) = 0#w := by rw [shift_xor, h, BitVec.xor_self]
  have hsame := shift_eq_zero hpoly hzero
  rwa [← BitVec.xor_self (x := b), BitVec.xor_left_inj] at hsame

theorem shifts_xor (n : Nat) (a b : BitVec w) :
    shifts poly n (a ^^^ b) = shifts poly n a ^^^ shifts poly n b := by
  unfold shifts
  induction n generalizing a b with
  | zero => rfl
  | succ n ih => rw [Function.iterate_succ_apply, shift_xor, ih]; rfl

theorem shifts_add (m n : Nat) (s : BitVec w) :
    shifts poly (m + n) s = shifts poly m (shifts poly n s) :=
  Function.iterate_add_apply (shift poly) m n s

theorem shifts_injective (hpoly : poly.msb = true) (n : Nat) :
    Function.Injective (shifts poly n) :=
  (shift_injective hpoly).iterate n

/-- Low places that are clear only move the others down. -/
theorem shifts_of_low {n : Nat} {s : BitVec w} (h : ∀ i < n, s.getLsbD i = false) :
    shifts poly n s = s >>> n := by
  induction n generalizing s with
  | zero => exact (BitVec.ushiftRight_zero s).symm
  | succ n ih =>
    have hfirst : shift poly s = s >>> 1 := by
      unfold shift
      rw [h 0 (Nat.succ_pos n), if_neg Bool.false_ne_true]
    have hrest : ∀ i < n, (s >>> 1).getLsbD i = false := by
      intro i hi
      rw [BitVec.getLsbD_ushiftRight, Nat.add_comm]
      exact h (i + 1) (Nat.succ_lt_succ hi)
    rw [shifts_add, show shifts poly 1 s = shift poly s from rfl, hfirst, ih hrest,
      ← BitVec.shiftRight_add, Nat.add_comm]

end

/-! ## A few bytes at once -/

/-- The bytes beside each other, the first one lowest. -/
def word (w : Nat) : List UInt8 → BitVec w
  | [] => 0#w
  | b :: rest => b.toBitVec.setWidth w ^^^ (word w rest <<< 8)

theorem getLsbD_word_cons (b : UInt8) (rest : List UInt8) {i : Nat} (hi : i < w) :
    (word w (b :: rest)).getLsbD i =
      if i < 8 then b.toBitVec.getLsbD i else (word w rest).getLsbD (i - 8) := by
  rw [word, BitVec.getLsbD_xor, BitVec.getLsbD_setWidth, BitVec.getLsbD_shiftLeft]
  by_cases h : i < 8
  · rw [if_pos h]
    simp [hi, h]
  · rw [if_neg h, BitVec.getLsbD_of_ge _ _ (Nat.le_of_not_lt h)]
    simp [hi, h]

theorem getLsbD_word_of_ge (bytes : List UInt8) {i : Nat} (hi : 8 * bytes.length ≤ i) :
    (word w bytes).getLsbD i = false := by
  induction bytes generalizing i with
  | nil => exact BitVec.getLsbD_zero
  | cons b rest ih =>
    rw [List.length_cons] at hi
    by_cases hw : i < w
    · rw [getLsbD_word_cons b rest hw, if_neg (by omega)]
      exact ih (by omega)
    · exact BitVec.getLsbD_of_ge _ _ (Nat.le_of_not_lt hw)

theorem word_injective {bytes bytes' : List UInt8} (hlength : bytes.length = bytes'.length)
    (hfit : 8 * bytes.length ≤ w) (h : word w bytes = word w bytes') : bytes = bytes' := by
  induction bytes generalizing bytes' with
  | nil => exact (List.length_eq_zero_iff.mp hlength.symm).symm
  | cons b rest ih =>
    cases bytes' with
    | nil => cases hlength
    | cons b' rest' =>
      simp only [List.length_cons, Nat.add_right_cancel_iff] at hlength hfit
      have hbits (i : Nat) (hi : i < w) := congrArg (fun x => x.getLsbD i) h
      have hfirst : b = b' := by
        apply UInt8.toBitVec_inj.mp
        apply BitVec.eq_of_getLsbD_eq
        intro i hi
        have hbit := hbits i (by omega)
        rwa [getLsbD_word_cons b rest (by omega), getLsbD_word_cons b' rest' (by omega),
          if_pos hi, if_pos hi] at hbit
      have hrest : word w rest = word w rest' := by
        apply BitVec.eq_of_getLsbD_eq
        intro i hi
        by_cases hlast : 8 * rest.length ≤ i
        · rw [getLsbD_word_of_ge rest hlast, getLsbD_word_of_ge rest' (hlength ▸ hlast)]
        · have hbit := hbits (i + 8) (by omega)
          rwa [getLsbD_word_cons b rest (by omega), getLsbD_word_cons b' rest' (by omega),
            if_neg (by omega), if_neg (by omega), Nat.add_sub_cancel] at hbit
      rw [hfirst, ih hlength (by omega) hrest]

section

variable {poly : BitVec w}

/-- Feeding bytes that fit in the remainder is one exclusive or and the shifts. -/
theorem remainder_of_fit (s : BitVec w) {bytes : List UInt8} (hfit : 8 * bytes.length ≤ w) :
    remainder poly s bytes = shifts poly (8 * bytes.length) (s ^^^ word w bytes) := by
  induction bytes generalizing s with
  | nil => exact (BitVec.xor_zero).symm
  | cons b rest ih =>
    rw [List.length_cons] at hfit
    -- the later bytes wait above the place where the first one is fed
    have hwait : shifts poly 8 (word w rest <<< 8) = word w rest := by
      rw [shifts_of_low]
      · apply BitVec.eq_of_getLsbD_eq
        intro i hi
        rw [BitVec.getLsbD_ushiftRight, BitVec.getLsbD_shiftLeft]
        by_cases hin : 8 + i < w
        · simp [hin]
        · rw [getLsbD_word_of_ge rest (show 8 * rest.length ≤ i by omega)]
          simp [hin]
      · intro i hi
        rw [BitVec.getLsbD_shiftLeft]
        simp [hi]
    rw [remainder, List.foldl_cons, ← remainder, ih _ (by omega), feed, List.length_cons, word,
      ← BitVec.xor_assoc, Nat.mul_add, shifts_add,
      shifts_xor (8 * 1) (s ^^^ b.toBitVec.setWidth w), show 8 * 1 = 8 from rfl, hwait]

theorem remainder_append (s : BitVec w) (front back : List UInt8) :
    remainder poly s (front ++ back) = remainder poly (remainder poly s front) back :=
  List.foldl_append

theorem remainder_injective (hpoly : poly.msb = true) (bytes : List UInt8) :
    Function.Injective fun s => remainder poly s bytes := by
  induction bytes with
  | nil => exact fun _ _ h => h
  | cons b rest ih =>
    intro s t h
    have hfed : feed poly s b = feed poly t b := ih h
    have hsame := shifts_injective hpoly 8 hfed
    rwa [BitVec.xor_left_inj] at hsame

/-- Bytes that fit in the remainder and differ, between the same bytes, leave different ones. -/
theorem remainder_ne (hpoly : poly.msb = true) (s : BitVec w) (front back : List UInt8)
    {bytes bytes' : List UInt8} (hlength : bytes.length = bytes'.length)
    (hfit : 8 * bytes.length ≤ w) (hne : bytes ≠ bytes') :
    remainder poly s (front ++ bytes ++ back) ≠ remainder poly s (front ++ bytes' ++ back) := by
  intro h
  rw [remainder_append, remainder_append, remainder_append, remainder_append] at h
  have hmiddle := remainder_injective hpoly back h
  have hfit' : 8 * bytes'.length ≤ w := hlength ▸ hfit
  rw [remainder_of_fit (remainder poly s front) hfit,
    remainder_of_fit (remainder poly s front) hfit', hlength] at hmiddle
  have hword := shifts_injective hpoly _ hmiddle
  rw [BitVec.xor_right_inj] at hword
  exact hne (word_injective hlength hfit hword)

end

end Crc
