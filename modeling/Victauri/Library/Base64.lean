import Mathlib.Data.List.GetD

/-!
# Base64

The standard alphabet with padding: three bytes are four characters.
-/

namespace Base64

def alphabet : List Char :=
  "ABCDEFGHIJKLMNOPQRSTUVWXYZabcdefghijklmnopqrstuvwxyz0123456789+/".toList

/-- The character of six bits. -/
def digit (n : Nat) : Char := alphabet.getD n '='

def encode : List UInt8 → List Char
  | [] => []
  | [a] => [digit (a.toNat / 4), digit (a.toNat % 4 * 16), '=', '=']
  | [a, b] =>
      [digit (a.toNat / 4), digit (a.toNat % 4 * 16 + b.toNat / 16), digit (b.toNat % 16 * 4), '=']
  | a :: b :: c :: rest =>
      digit (a.toNat / 4) :: digit (a.toNat % 4 * 16 + b.toNat / 16) ::
        digit (b.toNat % 16 * 4 + c.toNat / 64) :: digit (c.toNat % 64) :: encode rest

theorem length_encode (bs : List UInt8) : (encode bs).length = (bs.length + 2) / 3 * 4 := by
  induction bs using encode.induct with
  | case1 => rfl
  | case2 a => simp only [encode, List.length_cons, List.length_nil]
  | case3 a b => simp only [encode, List.length_cons, List.length_nil]
  | case4 a b c rest ih =>
    simp only [encode, List.length_cons, ih]
    omega

/-- What is true of the alphabet and of the padding is true of what is encoded. -/
theorem forall_mem_encode {P : Char → Prop} (h : ∀ c ∈ alphabet, P c) (hpad : P '=')
    (bs : List UInt8) : ∀ c ∈ encode bs, P c := by
  have hdigit (n : Nat) : P (digit n) := by
    unfold digit
    by_cases hn : n < alphabet.length
    · rw [List.getD_eq_getElem _ _ hn]
      exact h _ (List.getElem_mem hn)
    · rw [List.getD_eq_default _ _ (Nat.le_of_not_lt hn)]
      exact hpad
  induction bs using encode.induct with
  | case1 => exact List.forall_mem_nil _
  | case2 a =>
    simp only [encode, List.forall_mem_cons]
    exact ⟨hdigit _, hdigit _, hpad, hpad, List.forall_mem_nil _⟩
  | case3 a b =>
    simp only [encode, List.forall_mem_cons]
    exact ⟨hdigit _, hdigit _, hdigit _, hpad, List.forall_mem_nil _⟩
  | case4 a b c rest ih =>
    simp only [encode, List.forall_mem_cons]
    exact ⟨hdigit _, hdigit _, hdigit _, hdigit _, ih⟩

end Base64
