import Victauri.Plugin.Mcp.PageJson.Bytes

/-!
# Slices of a text

A slice between two character boundaries is there and is itself a text.
-/

namespace Victauri.Plugin.Mcp.PageJson

open Utf8 (encode encode_cons encode_append IsAscii)

theorem isCharBoundary_zero (bs : List UInt8) : isCharBoundary bs 0 = true := rfl

theorem isCharBoundary_length (bs : List UInt8) : isCharBoundary bs bs.length = true := by
  unfold isCharBoundary
  rw [List.getElem?_eq_none (Nat.le_refl _)]
  exact (Bool.or_eq_true _ _).mpr (Or.inr (decide_eq_true rfl))

theorem isCharBoundary_ascii {bs : List UInt8} {n : Nat} {b : UInt8} (h : bs[n]? = some b)
    (hb : IsAscii b) : isCharBoundary bs n = true := by
  unfold isCharBoundary
  rw [h, Bool.or_eq_true, Bool.or_eq_true]
  exact Or.inr (Or.inl (decide_eq_true hb))

theorem le_length_of_isCharBoundary {bs : List UInt8} {n : Nat} (h : isCharBoundary bs n = true) :
    n ≤ bs.length := by
  unfold isCharBoundary at h
  rw [Bool.or_eq_true, decide_eq_true_eq] at h
  rcases h with rfl | h
  · exact Nat.zero_le _
  · cases hb : bs[n]? with
    | none =>
      rw [hb] at h
      exact Nat.le_of_eq (of_decide_eq_true h)
    | some b => exact Nat.le_of_lt (List.getElem?_eq_some_iff.mp hb).1

/-- The places that are not boundaries are those of the continuation bytes. -/
theorem isCharBoundary_iff {bs : List UInt8} {n : Nat} {b : UInt8} (h : bs[n]? = some b)
    (hn : n ≠ 0) : isCharBoundary bs n = true ↔ ¬ Utf8.IsContinuation b := by
  unfold isCharBoundary Utf8.IsContinuation
  rw [h, decide_eq_false hn, Bool.false_or, Bool.or_eq_true, decide_eq_true_eq, decide_eq_true_eq,
    UInt8.lt_iff_toNat_lt, UInt8.le_iff_toNat_le]
  change b.toNat < 0x80 ∨ 0xC0 ≤ b.toNat ↔ _
  omega

theorem isCharBoundary_encode (front back : List Char) :
    isCharBoundary (encode (front ++ back)) (encode front).length = true := by
  cases back with
  | nil => rw [List.append_nil]; exact isCharBoundary_length _
  | cons c back =>
    obtain ⟨b, bs, hbytes, -⟩ := Utf8.encodeChar_eq_cons c
    have hb : (encode (front ++ c :: back))[(encode front).length]? = some b := by
      rw [encode_append, encode_cons, hbytes, List.getElem?_append_right (Nat.le_refl _),
        Nat.sub_self, List.cons_append, List.getElem?_cons_zero]
    by_cases hzero : (encode front).length = 0
    · rw [hzero]
      exact isCharBoundary_zero _
    · exact (isCharBoundary_iff hb hzero).mpr (Utf8.isContinuation_encodeChar hbytes).1

theorem isCharBoundary_drop {bs : List UInt8} {m n : Nat} (hm : m ≤ n)
    (h : isCharBoundary bs n = true) : isCharBoundary (bs.drop m) (n - m) = true := by
  by_cases hn : n - m = 0
  · rw [hn]
    exact isCharBoundary_zero _
  · cases hb : bs[n]? with
    | none =>
      have hlength : n = bs.length :=
        Nat.le_antisymm (le_length_of_isCharBoundary h) (List.getElem?_eq_none_iff.mp hb)
      rw [hlength, ← List.length_drop]
      exact isCharBoundary_length _
    | some b =>
      have hdrop : (bs.drop m)[n - m]? = some b := by
        rw [List.getElem?_drop, Nat.add_sub_cancel' hm]
        exact hb
      rw [isCharBoundary_iff hdrop hn]
      exact (isCharBoundary_iff hb (by omega)).mp h

/-- A text falls apart at a boundary. -/
theorem exists_of_isCharBoundary {text : List Char} {n : Nat}
    (h : isCharBoundary (encode text) n = true) :
    ∃ front back, text = front ++ back ∧ n = (encode front).length := by
  induction text generalizing n with
  | nil => exact ⟨[], [], rfl, Nat.le_zero.mp (le_length_of_isCharBoundary h)⟩
  | cons c text ih =>
    by_cases hzero : n = 0
    · exact ⟨[], c :: text, rfl, hzero⟩
    · by_cases hn : n < (String.utf8EncodeChar c).length
      · -- a place inside the character
        obtain ⟨b, bs, hbytes, -⟩ := Utf8.encodeChar_eq_cons c
        obtain ⟨m, rfl⟩ := Nat.exists_eq_succ_of_ne_zero hzero
        rw [hbytes, List.length_cons, Nat.succ_eq_add_one, Nat.add_lt_add_iff_right] at hn
        have hd : (encode (c :: text))[m + 1]? = some (bs.get ⟨m, hn⟩) := by
          rw [encode_cons, hbytes, List.cons_append, List.getElem?_cons_succ,
            List.getElem?_append_left hn]
          exact List.getElem?_eq_getElem hn
        have hcontinuation := (Utf8.isContinuation_encodeChar hbytes).2 _ (List.get_mem bs ⟨m, hn⟩)
        exact absurd hcontinuation ((isCharBoundary_iff hd hzero).mp h)
      · have hlater := isCharBoundary_drop (Nat.le_of_not_lt hn) h
        rw [encode_cons, List.drop_left] at hlater
        obtain ⟨front, back, rfl, hlength⟩ := ih hlater
        refine ⟨c :: front, back, rfl, ?_⟩
        rw [encode_cons, List.length_append]
        omega

/-- Behind an ASCII byte there is a boundary. -/
theorem isCharBoundary_behind {text : List Char} {n : Nat} {b : UInt8} (hb : IsAscii b)
    (h : (encode text)[n]? = some b) : isCharBoundary (encode text) (n + 1) = true := by
  obtain ⟨front, back, hsplit, hlength⟩ := Utf8.cuts_behind hb h
  have hn := (List.getElem?_eq_some_iff.mp h).1
  rw [Nat.min_eq_left hn] at hlength
  rw [hsplit, ← Nat.succ_eq_add_one, hlength, ← encode_append]
  exact isCharBoundary_encode front back

/-- A slice between boundaries does not panic, and is a text. -/
theorem slice_encode {text : List Char} {start stop : Nat} (hle : start ≤ stop)
    (hstart : isCharBoundary (encode text) start = true)
    (hstop : isCharBoundary (encode text) stop = true) :
    slice (encode text) start stop = some (((encode text).take stop).drop start) ∧
      ∃ piece, ((encode text).take stop).drop start = encode piece := by
  constructor
  · unfold slice
    exact if_pos ⟨hle, hstart, hstop⟩
  · have hrest := isCharBoundary_drop hle hstop
    rw [List.drop_take]
    obtain ⟨front, back, rfl, rfl⟩ := exists_of_isCharBoundary hstart
    rw [encode_append, List.drop_left] at hrest ⊢
    obtain ⟨piece, rest, rfl, hlength⟩ := exists_of_isCharBoundary hrest
    refine ⟨piece, ?_⟩
    rw [hlength, encode_append, List.take_left]

end Victauri.Plugin.Mcp.PageJson
