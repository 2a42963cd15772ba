import Mathlib.Data.List.Infix

/-!
# UTF-16

Characters as code units.  No character's units begin another's, and no low surrogate begins one.
-/

namespace Utf16

def encodeChar (c : Char) : List UInt16 :=
  if c.toNat < 0x10000 then [UInt16.ofNat c.toNat]
  else
    [UInt16.ofNat (0xD800 + (c.toNat - 0x10000) / 0x400),
      UInt16.ofNat (0xDC00 + (c.toNat - 0x10000) % 0x400)]

def encode (text : List Char) : List UInt16 := text.flatMap encodeChar

def IsLow (u : UInt16) : Prop := 0xDC00 ≤ u.toNat ∧ u.toNat < 0xE000

@[simp] theorem encode_nil : encode [] = [] := rfl

@[simp] theorem encode_cons (c : Char) (text : List Char) :
    encode (c :: text) = encodeChar c ++ encode text := rfl

theorem encode_append (text text' : List Char) :
    encode (text ++ text') = encode text ++ encode text' :=
  List.flatMap_append

theorem toNat_valid (c : Char) : c.toNat < 0xD800 ∨ 0xE000 ≤ c.toNat ∧ c.toNat < 0x110000 := by
  rcases c.valid with h | h
  · exact Or.inl h
  · exact Or.inr ⟨h.1, h.2⟩

theorem eq_of_toNat_eq {c d : Char} (h : c.toNat = d.toNat) : c = d :=
  Char.ext (UInt32.toNat_inj.mp h)

theorem toNat_ofNat {n : Nat} (h : n < 0x10000) : (UInt16.ofNat n).toNat = n := by
  rw [UInt16.toNat_ofNat']
  exact Nat.mod_eq_of_lt h

theorem encodeChar_small {c : Char} (h : c.toNat < 0x10000) :
    encodeChar c = [UInt16.ofNat c.toNat] :=
  if_pos h

theorem encodeChar_large {c : Char} (h : ¬ c.toNat < 0x10000) :
    ∃ high low, encodeChar c = [high, low] ∧
      high.toNat = 0xD800 + (c.toNat - 0x10000) / 0x400 ∧
      low.toNat = 0xDC00 + (c.toNat - 0x10000) % 0x400 ∧ high.toNat < 0xDC00 ∧ IsLow low := by
  have hvalid := toNat_valid c
  refine ⟨_, _, if_neg h, toNat_ofNat (by omega), toNat_ofNat (by omega), ?_, ?_⟩
  · rw [toNat_ofNat (by omega)]
    omega
  · unfold IsLow
    rw [toNat_ofNat (by omega)]
    omega

/-- The first unit of a character, and the low surrogate that may follow it. -/
theorem encodeChar_eq_cons (c : Char) :
    ∃ u units, encodeChar c = u :: units ∧ ¬ IsLow u ∧
      (units = [] ∨ ∃ low, units = [low] ∧ IsLow low) := by
  have hvalid := toNat_valid c
  by_cases h : c.toNat < 0x10000
  · refine ⟨_, [], encodeChar_small h, ?_, Or.inl rfl⟩
    unfold IsLow
    rw [toNat_ofNat h]
    omega
  · obtain ⟨high, low, hunits, -, -, hhigh, hlow⟩ := encodeChar_large h
    refine ⟨high, [low], hunits, ?_, Or.inr ⟨low, rfl, hlow⟩⟩
    unfold IsLow
    omega

theorem encodeChar_append_inj {c d : Char} {rest rest' : List UInt16}
    (h : encodeChar c ++ rest = encodeChar d ++ rest') : c = d ∧ rest = rest' := by
  have hc := toNat_valid c
  have hd := toNat_valid d
  by_cases hcs : c.toNat < 0x10000
  · by_cases hds : d.toNat < 0x10000
    · rw [encodeChar_small hcs, encodeChar_small hds] at h
      obtain ⟨hunit, hrest⟩ := List.cons.inj h
      have hnat := congrArg UInt16.toNat hunit
      rw [toNat_ofNat hcs, toNat_ofNat hds] at hnat
      exact ⟨eq_of_toNat_eq hnat, hrest⟩
    · obtain ⟨high, low, hunits, hhigh, -, -, -⟩ := encodeChar_large hds
      rw [encodeChar_small hcs, hunits] at h
      have hnat := congrArg UInt16.toNat (List.cons.inj h).1
      rw [toNat_ofNat hcs] at hnat
      omega
  · obtain ⟨high, low, hunits, hhigh, hlow, -, -⟩ := encodeChar_large hcs
    by_cases hds : d.toNat < 0x10000
    · rw [encodeChar_small hds, hunits] at h
      have hnat := congrArg UInt16.toNat (List.cons.inj h).1
      rw [toNat_ofNat hds] at hnat
      omega
    · obtain ⟨high', low', hunits', hhigh', hlow', -, -⟩ := encodeChar_large hds
      rw [hunits, hunits'] at h
      obtain ⟨hfirst, hsecond⟩ := List.cons.inj h
      obtain ⟨hsecond, hrest⟩ := List.cons.inj hsecond
      rw [hfirst, hhigh'] at hhigh
      rw [hsecond, hlow'] at hlow
      exact ⟨eq_of_toNat_eq (by omega), hrest⟩

/-- A text cut anywhere begins a character, or in the middle of one. -/
theorem suffix_encode {text : List Char} {rest : List UInt16} (h : rest <:+ encode text) :
    ∃ text', text' <:+ text ∧
      (rest = encode text' ∨ ∃ low, IsLow low ∧ rest = low :: encode text') := by
  induction text with
  | nil => exact ⟨[], List.suffix_rfl, Or.inl (List.suffix_nil.mp h)⟩
  | cons c text ih =>
    have hdeeper : rest <:+ encode text → ∃ text', text' <:+ c :: text ∧
        (rest = encode text' ∨ ∃ low, IsLow low ∧ rest = low :: encode text') := by
      intro hrest
      obtain ⟨text', hsuffix, heq⟩ := ih hrest
      exact ⟨text', hsuffix.trans (List.suffix_cons c text), heq⟩
    obtain ⟨u, units, hunits, -, hlow⟩ := encodeChar_eq_cons c
    rw [encode_cons, hunits, List.cons_append, List.suffix_cons_iff] at h
    rcases h with h | h
    · refine ⟨c :: text, List.suffix_rfl, Or.inl ?_⟩
      rw [h, encode_cons, hunits, List.cons_append]
    · rcases hlow with rfl | ⟨low, rfl, hlow⟩
      · exact hdeeper h
      · rw [List.singleton_append, List.suffix_cons_iff] at h
        rcases h with h | h
        · exact ⟨text, List.suffix_cons c text, Or.inr ⟨low, hlow, h⟩⟩
        · exact hdeeper h

end Utf16
