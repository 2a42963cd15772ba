import Mathlib.Data.List.Basic

/-!
# UTF-8 as a list of bytes

A byte below `0x80` is a whole character, so a text may be cut before and behind one.
-/

namespace Utf8

def encode (text : List Char) : List UInt8 := text.flatMap String.utf8EncodeChar

def bytes (s : String) : List UInt8 := s.toUTF8.data.toList

def IsAscii (b : UInt8) : Prop := b.toNat < 0x80

instance (b : UInt8) : Decidable (IsAscii b) := inferInstanceAs (Decidable (_ < _))

@[simp] theorem encode_nil : encode [] = [] := rfl

@[simp] theorem encode_cons (c : Char) (text : List Char) :
    encode (c :: text) = String.utf8EncodeChar c ++ encode text := rfl

theorem encode_append (text text' : List Char) :
    encode (text ++ text') = encode text ++ encode text' :=
  List.flatMap_append

theorem data_utf8Encode (text : List Char) : text.utf8Encode.data.toList = encode text := by
  rw [List.utf8Encode]
  simp [encode]

theorem bytes_ofList (text : List Char) : bytes (String.ofList text) = encode text := by
  unfold bytes
  rw [String.toUTF8_eq_toByteArray, String.toByteArray_ofList, data_utf8Encode]

theorem bytes_eq_encode (s : String) : bytes s = encode s.toList := by
  rw [← bytes_ofList, String.ofList_toList]

/-- The bytes of a text are read back as it. -/
theorem fromUTF8?_encode (text : List Char) :
    String.fromUTF8? ⟨(encode text).toArray⟩ = some (String.ofList text) := by
  have hdata : (⟨(encode text).toArray⟩ : ByteArray) = text.utf8Encode := by
    rw [← data_utf8Encode]
  have hvalid : ByteArray.IsValidUTF8 text.utf8Encode := ByteArray.isValidUTF8_utf8Encode
  unfold String.fromUTF8?
  rw [hdata, dif_pos hvalid]
  rfl

/-! ## One character -/

theorem toNat_ofNat {n : Nat} (h : n < 0x100) : (UInt8.ofNat n).toNat = n := by
  rw [UInt8.toNat_ofNat']
  exact Nat.mod_eq_of_lt h

theorem encodeChar_ascii {c : Char} (h : c.toNat < 0x80) :
    String.utf8EncodeChar c = [UInt8.ofNat c.toNat] := by
  have hle : c.val.toNat ≤ 0x7f := Nat.le_of_lt_succ h
  unfold String.utf8EncodeChar
  exact if_pos hle

/-- How many bytes a character takes, by its first byte. -/
def sizeOf (b : UInt8) : Nat :=
  if b.toNat < 0x80 then 1 else if 0xc0 ≤ b.toNat ∧ b.toNat ≤ 0xdf then 2
  else if 0xe0 ≤ b.toNat ∧ b.toNat ≤ 0xef then 3 else 4

/-- The bytes of a character that is not ASCII. -/
theorem encodeChar_high {c : Char} (h : ¬ c.toNat < 0x80) :
    ∃ b bs, String.utf8EncodeChar c = b :: bs ∧ bs.length + 1 = sizeOf b ∧
      ∀ d ∈ b :: bs, ¬ IsAscii d := by
  have hn : c.val.toNat = c.toNat := rfl
  have hvalid : c.toNat < 0x110000 := by
    rcases c.valid with hlow | hhigh
    · have : c.toNat < 0xD800 := hlow
      omega
    · exact hhigh.2
  have hbyte : ∀ n : Nat, 0x80 ≤ n → n < 0x100 → ¬ IsAscii (UInt8.ofNat n) := by
    intro n hlow hhigh
    unfold IsAscii
    rw [toNat_ofNat hhigh]
    omega
  unfold String.utf8EncodeChar
  simp only [hn]
  rw [if_neg (by omega)]
  by_cases h2 : c.toNat ≤ 0x7ff
  · rw [if_pos h2]
    refine ⟨_, _, rfl, ?_, ?_⟩
    · unfold sizeOf
      rw [toNat_ofNat (by omega), if_neg (by omega), if_pos (by omega)]
      rfl
    · simp only [List.forall_mem_cons]
      exact ⟨hbyte _ (by omega) (by omega), hbyte _ (by omega) (by omega), List.forall_mem_nil _⟩
  · rw [if_neg h2]
    by_cases h3 : c.toNat ≤ 0xffff
    · rw [if_pos h3]
      refine ⟨_, _, rfl, ?_, ?_⟩
      · unfold sizeOf
        rw [toNat_ofNat (by omega), if_neg (by omega), if_neg (by omega), if_pos (by omega)]
        rfl
      · simp only [List.forall_mem_cons]
        exact ⟨hbyte _ (by omega) (by omega), hbyte _ (by omega) (by omega),
          hbyte _ (by omega) (by omega), List.forall_mem_nil _⟩
    · rw [if_neg h3]
      refine ⟨_, _, rfl, ?_, ?_⟩
      · unfold sizeOf
        rw [toNat_ofNat (by omega), if_neg (by omega), if_neg (by omega), if_neg (by omega)]
        rfl
      · simp only [List.forall_mem_cons]
        exact ⟨hbyte _ (by omega) (by omega), hbyte _ (by omega) (by omega),
          hbyte _ (by omega) (by omega), hbyte _ (by omega) (by omega), List.forall_mem_nil _⟩

/-- `10xxxxxx`. -/
def IsContinuation (b : UInt8) : Prop := 0x80 ≤ b.toNat ∧ b.toNat < 0xC0

/-- The continuation bytes of a character are those behind its first. -/
theorem isContinuation_encodeChar {c : Char} {b : UInt8} {bs : List UInt8}
    (h : String.utf8EncodeChar c = b :: bs) : ¬ IsContinuation b ∧ ∀ d ∈ bs, IsContinuation d := by
  have hbyte : ∀ n : Nat, 0x80 ≤ n → n < 0xC0 → IsContinuation (UInt8.ofNat n) := by
    intro n hlow hhigh
    unfold IsContinuation
    rw [toNat_ofNat (by omega)]
    exact ⟨hlow, hhigh⟩
  have hfirst : ∀ n : Nat, n < 0x100 → (n < 0x80 ∨ 0xC0 ≤ n) → ¬ IsContinuation (UInt8.ofNat n) := by
    intro n hn hbounds
    unfold IsContinuation
    rw [toNat_ofNat hn]
    omega
  by_cases hc : c.toNat < 0x80
  · rw [encodeChar_ascii hc] at h
    obtain ⟨rfl, rfl⟩ := List.cons.inj h
    exact ⟨hfirst _ (by omega) (Or.inl hc), List.forall_mem_nil _⟩
  · have hvalid : c.toNat < 0x110000 := by
      rcases c.valid with hlow | hhigh
      · exact Nat.lt_trans hlow (by decide)
      · exact hhigh.2
    have hn : c.val.toNat = c.toNat := rfl
    unfold String.utf8EncodeChar at h
    simp only [hn] at h
    rw [if_neg (by omega)] at h
    by_cases h2 : c.toNat ≤ 0x7ff
    · rw [if_pos h2] at h
      obtain ⟨rfl, rfl⟩ := List.cons.inj h
      refine ⟨hfirst _ (by omega) (Or.inr (by omega)), ?_⟩
      rw [List.forall_mem_singleton]
      exact hbyte _ (by omega) (by omega)
    · rw [if_neg h2] at h
      by_cases h3 : c.toNat ≤ 0xffff
      · rw [if_pos h3] at h
        obtain ⟨rfl, rfl⟩ := List.cons.inj h
        refine ⟨hfirst _ (by omega) (Or.inr (by omega)), ?_⟩
        rw [List.forall_mem_cons, List.forall_mem_singleton]
        exact ⟨hbyte _ (by omega) (by omega), hbyte _ (by omega) (by omega)⟩
      · rw [if_neg h3] at h
        obtain ⟨rfl, rfl⟩ := List.cons.inj h
        refine ⟨hfirst _ (by omega) (Or.inr (by omega)), ?_⟩
        rw [List.forall_mem_cons, List.forall_mem_cons, List.forall_mem_singleton]
        exact ⟨hbyte _ (by omega) (by omega), hbyte _ (by omega) (by omega),
          hbyte _ (by omega) (by omega)⟩

theorem isAscii_ofNat {n : Nat} (h : n < 0x80) : IsAscii (UInt8.ofNat n) := by
  unfold IsAscii
  rw [toNat_ofNat (by omega)]
  exact h

theorem encodeChar_ne_nil (c : Char) : String.utf8EncodeChar c ≠ [] :=
  String.utf8EncodeChar_ne_nil

theorem encodeChar_eq_cons (c : Char) :
    ∃ b bs, String.utf8EncodeChar c = b :: bs ∧ bs.length + 1 = sizeOf b := by
  by_cases h : c.toNat < 0x80
  · refine ⟨_, [], encodeChar_ascii h, ?_⟩
    unfold sizeOf
    rw [toNat_ofNat (by omega), if_pos h]
    rfl
  · obtain ⟨b, bs, hbytes, hsize, -⟩ := encodeChar_high h
    exact ⟨b, bs, hbytes, hsize⟩

theorem not_isAscii_tail {c : Char} {b : UInt8} {bs : List UInt8}
    (h : String.utf8EncodeChar c = b :: bs) : ∀ d ∈ bs, ¬ IsAscii d := by
  by_cases hc : c.toNat < 0x80
  · rw [encodeChar_ascii hc] at h
    rw [← (List.cons.inj h).2]
    exact List.forall_mem_nil _
  · obtain ⟨b', bs', hbytes, -, hhigh⟩ := encodeChar_high hc
    rw [h] at hbytes
    rw [(List.cons.inj hbytes).2]
    exact fun d hd => hhigh d (List.mem_cons_of_mem b' hd)

/-! ## ASCII characters among the bytes -/

theorem toNat_toUInt8 {c : Char} (h : c.toNat < 0x80) : c.toUInt8.toNat = c.toNat := by
  apply toNat_ofNat
  exact Nat.lt_trans h (by decide)

theorem isAscii_toUInt8 {c : Char} (h : c.toNat < 0x80) : IsAscii c.toUInt8 := by
  unfold IsAscii
  rw [toNat_toUInt8 h]
  exact h

theorem toUInt8_inj {c d : Char} (hc : c.toNat < 0x80) (hd : d.toNat < 0x80) :
    c.toUInt8 = d.toUInt8 ↔ c = d := by
  constructor
  · intro h
    have hnat := congrArg UInt8.toNat h
    rw [toNat_toUInt8 hc, toNat_toUInt8 hd] at hnat
    exact Char.toNat_inj.mp hnat
  · intro h
    rw [h]

theorem encode_singleton {c : Char} (h : c.toNat < 0x80) : encode [c] = [c.toUInt8] := by
  rw [encode_cons, encode_nil, List.append_nil]
  exact encodeChar_ascii h

theorem encode_of_ascii {text : List Char} (h : ∀ c ∈ text, c.toNat < 0x80) :
    encode text = text.map Char.toUInt8 := by
  induction text with
  | nil => rfl
  | cons c text ih =>
    have hc := h c List.mem_cons_self
    rw [encode_cons, encodeChar_ascii hc, ih fun d hd => h d (List.mem_cons_of_mem c hd)]
    rfl

/-- An ASCII byte stands for its character only. -/
theorem mem_encodeChar {c d : Char} (hd : d.toNat < 0x80) :
    d.toUInt8 ∈ String.utf8EncodeChar c ↔ c = d := by
  by_cases hc : c.toNat < 0x80
  · rw [encodeChar_ascii hc, List.mem_singleton, ← toUInt8_inj hc hd]
    exact eq_comm
  · obtain ⟨b, bs, hbytes, -, hhigh⟩ := encodeChar_high hc
    rw [hbytes]
    constructor
    · intro h
      exact absurd (isAscii_toUInt8 hd) (hhigh _ h)
    · rintro rfl
      exact absurd hd hc

theorem mem_encode {text : List Char} {d : Char} (hd : d.toNat < 0x80) :
    d.toUInt8 ∈ encode text ↔ d ∈ text := by
  unfold encode
  rw [List.mem_flatMap]
  constructor
  · rintro ⟨c, hc, hmem⟩
    rw [← (mem_encodeChar hd).mp hmem]
    exact hc
  · intro h
    exact ⟨d, h, (mem_encodeChar hd).mpr rfl⟩

theorem head?_encode {text : List Char} {d : Char} (hd : d.toNat < 0x80) :
    (encode text).head? = some d.toUInt8 ↔ text.head? = some d := by
  cases text with
  | nil => exact ⟨nofun, nofun⟩
  | cons c text =>
    rw [encode_cons, List.head?_cons, Option.some_inj]
    obtain ⟨b, bs, hbytes, -⟩ := encodeChar_eq_cons c
    constructor
    · intro h
      rw [hbytes] at h
      have hb : b = d.toUInt8 := Option.some.inj h
      apply (mem_encodeChar hd).mp
      rw [hbytes, hb]
      exact List.mem_cons_self
    · rintro rfl
      rw [encodeChar_ascii hd]
      rfl

theorem prefix_encode {text pattern : List Char} (hascii : ∀ c ∈ pattern, c.toNat < 0x80)
    {after : List UInt8} (h : encode text = encode pattern ++ after) :
    ∃ back, text = pattern ++ back ∧ encode back = after := by
  induction pattern generalizing text with
  | nil => exact ⟨text, rfl, h⟩
  | cons d pattern ih =>
    have hd := hascii d List.mem_cons_self
    have hbyte : String.utf8EncodeChar d = [d.toUInt8] := encodeChar_ascii hd
    rw [encode_cons, hbyte, List.append_assoc, List.singleton_append] at h
    have hhead : text.head? = some d := by
      rw [← head?_encode hd, h]
      rfl
    obtain ⟨text, rfl⟩ := List.head?_eq_some_iff.mp hhead
    rw [encode_cons, hbyte, List.singleton_append] at h
    obtain ⟨back, rfl, hback⟩ := ih (fun c hc => hascii c (List.mem_cons_of_mem d hc))
      (List.cons.inj h).2
    exact ⟨back, rfl, hback⟩

/-- Where ASCII bytes stand in a text, their characters do. -/
theorem split_encode {text pattern : List Char} (hascii : ∀ c ∈ pattern, c.toNat < 0x80)
    (hne : pattern ≠ []) {before after : List UInt8}
    (h : encode text = before ++ (encode pattern ++ after)) :
    ∃ front back, text = front ++ (pattern ++ back) ∧ encode front = before ∧
      encode back = after := by
  induction text generalizing before with
  | nil =>
    obtain ⟨d, pattern, rfl⟩ := List.exists_cons_of_ne_nil hne
    have hnil := (List.append_eq_nil_iff.mp (List.append_eq_nil_iff.mp h.symm).2).1
    exact absurd (List.append_eq_nil_iff.mp hnil).1 (encodeChar_ne_nil d)
  | cons c text ih =>
    by_cases hbefore : before = []
    · rw [hbefore, List.nil_append] at h
      obtain ⟨back, hback, hafter⟩ := prefix_encode hascii h
      exact ⟨[], back, hback, hbefore.symm, hafter⟩
    rw [encode_cons] at h
    have hskip : ∀ more, before = String.utf8EncodeChar c ++ more →
        encode text = more ++ (encode pattern ++ after) →
        ∃ front back, c :: text = front ++ (pattern ++ back) ∧ encode front = before ∧
          encode back = after := by
      intro more hmore hrest
      obtain ⟨front, back, rfl, rfl, hafter⟩ := ih hrest
      exact ⟨c :: front, back, rfl, hmore.symm, hafter⟩
    rcases List.append_eq_append_iff.mp h with ⟨more, hmore, hrest⟩ | ⟨more, hmore, hrest⟩
    · exact hskip more hmore hrest
    · cases more with
      | nil => exact hskip [] (by rw [hmore, List.append_nil, List.append_nil]) hrest.symm
      | cons b more =>
        obtain ⟨d, pattern, rfl⟩ := List.exists_cons_of_ne_nil hne
        have hd := hascii d List.mem_cons_self
        rw [encode_cons, encodeChar_ascii hd, List.append_assoc, List.singleton_append] at hrest
        have hb : d.toUInt8 = b := (List.cons.inj hrest).1
        have hmem : d.toUInt8 ∈ String.utf8EncodeChar c := by
          rw [hmore, hb]
          exact List.mem_append_right before List.mem_cons_self
        rw [(mem_encodeChar hd).mp hmem, encodeChar_ascii hd] at hmore
        have hlength := congrArg List.length hmore
        rw [List.length_append, List.length_singleton, List.length_cons] at hlength
        exact absurd (List.length_eq_zero_iff.mp (by omega)) hbefore

/-! ## Cuts -/

/-- A cut behind `n` bytes that splits no character. -/
def Cuts (bs : List UInt8) (n : Nat) : Prop :=
  ∃ front back, bs = encode front ++ encode back ∧ min n bs.length = (encode front).length

theorem cuts_of_length_le {text : List Char} {n : Nat} (h : (encode text).length ≤ n) :
    Cuts (encode text) n :=
  ⟨text, [], (List.append_nil _).symm, Nat.min_eq_right h⟩

/-- The text may be cut before an ASCII byte. -/
theorem cuts_before {text : List Char} {n : Nat} {b : UInt8} (hb : IsAscii b)
    (h : (encode text)[n]? = some b) : Cuts (encode text) n := by
  induction text generalizing n with
  | nil => cases h
  | cons c text ih =>
    rw [encode_cons] at h
    by_cases hn : n < (String.utf8EncodeChar c).length
    · rw [List.getElem?_append_left hn] at h
      have hzero : n = 0 := by
        by_cases hc : c.toNat < 0x80
        · rw [encodeChar_ascii hc] at hn
          exact Nat.lt_one_iff.mp hn
        · obtain ⟨d, ds, hbytes, -, hhigh⟩ := encodeChar_high hc
          rw [hbytes] at h
          exact absurd hb (hhigh b (List.mem_of_getElem? h))
      rw [hzero]
      exact ⟨[], c :: text, rfl, Nat.zero_min _⟩
    · rw [List.getElem?_append_right (Nat.le_of_not_lt hn)] at h
      obtain ⟨front, back, hsplit, hlength⟩ := ih h
      refine ⟨c :: front, back, ?_, ?_⟩
      · rw [encode_cons, encode_cons, hsplit, List.append_assoc]
      · rw [encode_cons, encode_cons, List.length_append, List.length_append]
        omega

/-- The text may be cut behind an ASCII byte. -/
theorem cuts_behind {text : List Char} {n : Nat} {b : UInt8} (hb : IsAscii b)
    (h : (encode text)[n]? = some b) : Cuts (encode text) (n + 1) := by
  obtain ⟨front, back, hsplit, hlength⟩ := cuts_before hb h
  have hn := (List.getElem?_eq_some_iff.mp h).1
  rw [Nat.min_eq_left (Nat.le_of_lt hn)] at hlength
  rw [hsplit, hlength, List.getElem?_append_right (Nat.le_refl _), Nat.sub_self] at h
  cases back with
  | nil => cases h
  | cons c back =>
    have hc : c.toNat < 0x80 := by
      by_contra hc
      obtain ⟨d, ds, hbytes, -, hhigh⟩ := encodeChar_high hc
      rw [encode_cons, hbytes] at h
      have hd : d = b := Option.some.inj h
      exact hhigh d List.mem_cons_self (hd ▸ hb)
    refine ⟨front ++ [c], back, ?_, ?_⟩
    · rw [hsplit, encode_append, encode_cons, encode_cons, encode_nil, List.append_nil,
        List.append_assoc]
    · have hlengths := congrArg List.length hsplit
      rw [encode_append, encode_cons, encode_nil, List.append_nil, List.length_append,
        encodeChar_ascii hc]
      rw [List.length_append, encode_cons, encodeChar_ascii hc, List.length_append] at hlengths
      simp only [List.length_singleton] at hlengths ⊢
      omega

end Utf8
