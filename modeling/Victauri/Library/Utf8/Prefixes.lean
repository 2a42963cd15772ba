import Mathlib.Algebra.GroupWithZero.Nat
import Mathlib.Data.List.Infix

/-!
# Prefixes by bytes

The longest prefix of a text that fits in so many bytes of UTF-8.
-/

namespace Utf8

/-- The bytes of a text. -/
def size (text : List Char) : Nat := (text.map Char.utf8Size).sum

/-- The longest prefix of at most so many bytes. -/
def upTo : Nat → List Char → List Char
  | _, [] => []
  | max, c :: rest => if c.utf8Size ≤ max then c :: upTo (max - c.utf8Size) rest else []

@[simp] theorem size_nil : size [] = 0 := rfl

@[simp] theorem size_cons (c : Char) (text : List Char) :
    size (c :: text) = c.utf8Size + size text := rfl

theorem size_append (text text' : List Char) : size (text ++ text') = size text + size text' := by
  rw [size, List.map_append, List.sum_append]
  rfl

theorem size_eq_zero {text : List Char} (h : size text = 0) : text = [] := by
  cases text with
  | nil => rfl
  | cons c text =>
    have hpos := c.utf8Size_pos
    rw [size_cons] at h
    omega

theorem upTo_begins (max : Nat) (text : List Char) : upTo max text <+: text := by
  induction text generalizing max with
  | nil => exact List.prefix_rfl
  | cons c text ih =>
    rw [upTo]
    split_ifs
    · exact List.cons_prefix_cons.mpr ⟨rfl, ih _⟩
    · exact List.nil_prefix

theorem size_upTo_le (max : Nat) (text : List Char) : size (upTo max text) ≤ max := by
  induction text generalizing max with
  | nil => exact Nat.zero_le _
  | cons c text ih =>
    rw [upTo]
    split_ifs with hfits
    · have hrest := ih (max - c.utf8Size)
      rw [size_cons]
      omega
    · exact Nat.zero_le _

/-- Every prefix that fits is a prefix of the longest. -/
theorem le_upTo {front text : List Char} {max : Nat} (hfront : front <+: text)
    (hfits : size front ≤ max) : front <+: upTo max text := by
  induction text generalizing front max with
  | nil => exact hfront
  | cons c text ih =>
    cases front with
    | nil => exact List.nil_prefix
    | cons d front =>
      obtain ⟨rfl, htail⟩ := List.cons_prefix_cons.mp hfront
      rw [size_cons] at hfits
      rw [upTo, if_pos (by omega)]
      exact List.cons_prefix_cons.mpr ⟨rfl, ih htail (by omega)⟩

theorem size_mono {front text : List Char} (h : front <+: text) :
    size front ≤ size text := by
  obtain ⟨rest, rfl⟩ := h
  rw [size_append]
  exact Nat.le_add_right _ _

theorem upTo_of_le {max : Nat} {text : List Char} (h : size text ≤ max) : upTo max text = text :=
  (upTo_begins max text).eq_of_length_le (le_upTo List.prefix_rfl h).length_le

theorem upTo_append_of_le {max : Nat} {text : List Char} (h : size text ≤ max)
    (rest : List Char) : upTo max (text ++ rest) = text ++ upTo (max - size text) rest := by
  induction text generalizing max with
  | nil => rfl
  | cons c text ih =>
    rw [size_cons] at h
    rw [List.cons_append, upTo, if_pos (by omega), ih (by omega), size_cons, Nat.sub_sub]
    rfl

theorem upTo_append_of_lt {max : Nat} {text : List Char} (h : max < size text)
    (rest : List Char) : upTo max (text ++ rest) = upTo max text := by
  induction text generalizing max with
  | nil => exact absurd h (Nat.not_lt_zero max)
  | cons c text ih =>
    rw [size_cons] at h
    rw [List.cons_append, upTo, upTo]
    split_ifs
    · rw [ih (by omega)]
    · rfl

/-! ## Boundaries -/

/-- `str::is_char_boundary`. -/
def isCharBoundary : List Char → Nat → Bool
  | _, 0 => true
  | [], _ => false
  | c :: rest, index => decide (c.utf8Size ≤ index) && isCharBoundary rest (index - c.utf8Size)

/-- `&s[..end]`, at a boundary. -/
def sliceTo : List Char → Nat → List Char
  | _, 0 => []
  | [], _ => []
  | c :: rest, stop => c :: sliceTo rest (stop - c.utf8Size)

theorem isCharBoundary_size {front text : List Char} (h : front <+: text) :
    isCharBoundary text (size front) = true := by
  induction text generalizing front with
  | nil => rw [List.prefix_nil.mp h]; rfl
  | cons c text ih =>
    cases front with
    | nil => rfl
    | cons d front =>
      obtain ⟨rfl, htail⟩ := List.cons_prefix_cons.mp h
      have hpos := d.utf8Size_pos
      rw [size_cons, isCharBoundary, Nat.add_sub_cancel_left, ih htail, Bool.and_true,
        decide_eq_true_eq]
      · exact Nat.le_add_right _ _
      · omega

theorem sliceTo_size {front text : List Char} (h : front <+: text) :
    sliceTo text (size front) = front := by
  induction text generalizing front with
  | nil => rw [List.prefix_nil.mp h]; rfl
  | cons c text ih =>
    cases front with
    | nil => rfl
    | cons d front =>
      obtain ⟨rfl, htail⟩ := List.cons_prefix_cons.mp h
      have hpos := d.utf8Size_pos
      rw [size_cons, sliceTo, Nat.add_sub_cancel_left, ih htail]
      omega

/-- A boundary is where some prefix ends. -/
theorem exists_prefix_of_isCharBoundary {text : List Char} {index : Nat}
    (h : isCharBoundary text index = true) : ∃ front, front <+: text ∧ size front = index := by
  induction text generalizing index with
  | nil =>
    cases index with
    | zero => exact ⟨[], List.nil_prefix, rfl⟩
    | succ index => cases h
  | cons c text ih =>
    cases index with
    | zero => exact ⟨[], List.nil_prefix, rfl⟩
    | succ index =>
      rw [isCharBoundary, Bool.and_eq_true, decide_eq_true_eq] at h
      · obtain ⟨front, hfront, hsize⟩ := ih h.2
        refine ⟨c :: front, List.cons_prefix_cons.mpr ⟨rfl, hfront⟩, ?_⟩
        rw [size_cons, hsize]
        omega
      · omega

/-- The last character boundary up to `stop`. -/
def floorBoundary (s : List Char) : (stop : Nat) → Nat
  | 0 => 0
  | stop + 1 => if isCharBoundary s (stop + 1) then stop + 1 else floorBoundary s stop

theorem floorBoundary_le (s : List Char) (stop : Nat) : floorBoundary s stop ≤ stop := by
  induction stop with
  | zero => exact Nat.le_refl 0
  | succ stop ih =>
    rw [floorBoundary]
    split_ifs
    · exact Nat.le_refl _
    · exact Nat.le_succ_of_le ih

theorem isCharBoundary_floorBoundary (s : List Char) (stop : Nat) :
    isCharBoundary s (floorBoundary s stop) = true := by
  induction stop with
  | zero => cases s <;> rfl
  | succ stop ih =>
    rw [floorBoundary]
    split_ifs with hboundary
    · exact hboundary
    · exact ih

theorem le_floorBoundary {s : List Char} {index stop : Nat}
    (hboundary : isCharBoundary s index = true) (hle : index ≤ stop) :
    index ≤ floorBoundary s stop := by
  induction stop with
  | zero => exact hle
  | succ stop ih =>
    rw [floorBoundary]
    split_ifs with hlast
    · exact hle
    · apply ih
      have hne : index ≠ stop + 1 := by
        rintro rfl
        exact hlast hboundary
      omega

/-- The loop ends where the longest prefix does. -/
theorem floorBoundary_eq (s : List Char) (room : Nat) :
    floorBoundary s room = size (upTo room s) := by
  have hbegins := upTo_begins room s
  apply Nat.le_antisymm
  · obtain ⟨front, hfront, hsize⟩ :=
      exists_prefix_of_isCharBoundary (isCharBoundary_floorBoundary s room)
    have hfits : size front ≤ room := hsize ▸ floorBoundary_le s room
    rw [← hsize]
    exact size_mono (le_upTo hfront hfits)
  · exact le_floorBoundary (isCharBoundary_size hbegins) (size_upTo_le room s)

theorem sliceTo_floorBoundary (s : List Char) (room : Nat) :
    sliceTo s (floorBoundary s room) = upTo room s := by
  rw [floorBoundary_eq, sliceTo_size (upTo_begins room s)]

end Utf8
