import Mathlib.Data.List.Basic
import Mathlib.Data.List.Forall2

/-!
# Patterns that are filled in

A text is obtained from a pattern by replacing each element with a piece that a relation allows for
it.  An element that any piece may replace is a star; one that only itself replaces is a literal.
-/

namespace Glob

variable {α : Type*} {R : α → List α → Prop}

/-- The text is the pattern with every element replaced by a piece. -/
def Obtained (R : α → List α → Prop) (pattern text : List α) : Prop :=
  ∃ pieces, List.Forall₂ R pattern pieces ∧ text = pieces.flatten

def IsStar (R : α → List α → Prop) (c : α) : Prop := ∀ piece, R c piece

def IsLiteral (R : α → List α → Prop) (c : α) : Prop := ∀ piece, R c piece ↔ piece = [c]

theorem obtained_nil {text : List α} : Obtained R [] text ↔ text = [] := by
  constructor
  · intro h
    obtain ⟨pieces, hpieces, rfl⟩ := h
    cases hpieces
    rfl
  · intro h
    exact ⟨[], .nil, h⟩

theorem obtained_cons {c : α} {pattern text : List α} :
    Obtained R (c :: pattern) text ↔
      ∃ piece rest, R c piece ∧ Obtained R pattern rest ∧ text = piece ++ rest := by
  constructor
  · intro h
    obtain ⟨pieces, hpieces, rfl⟩ := h
    cases hpieces with
    | cons hc hrest => exact ⟨_, _, hc, ⟨_, hrest, rfl⟩, List.flatten_cons⟩
  · intro h
    obtain ⟨piece, rest, hc, ⟨pieces, hrest, rfl⟩, rfl⟩ := h
    exact ⟨piece :: pieces, .cons hc hrest, List.flatten_cons.symm⟩

theorem obtained_append {pattern pattern' text : List α} :
    Obtained R (pattern ++ pattern') text ↔
      ∃ front back, Obtained R pattern front ∧ Obtained R pattern' back ∧ text = front ++ back := by
  induction pattern generalizing text with
  | nil => simp [obtained_nil]
  | cons c pattern ih =>
    rw [List.cons_append, obtained_cons]
    constructor
    · intro h
      obtain ⟨piece, rest, hc, hrest, rfl⟩ := h
      obtain ⟨front, back, hfront, hback, rfl⟩ := ih.mp hrest
      exact ⟨piece ++ front, back, obtained_cons.mpr ⟨piece, front, hc, hfront, rfl⟩, hback,
        (List.append_assoc piece front back).symm⟩
    · intro h
      obtain ⟨front, back, hfront, hback, rfl⟩ := h
      obtain ⟨piece, rest, hc, hrest, rfl⟩ := obtained_cons.mp hfront
      exact ⟨piece, rest ++ back, hc, ih.mpr ⟨rest, back, hrest, hback, rfl⟩,
        List.append_assoc piece rest back⟩

theorem obtained_congr {R' : α → List α → Prop} {pattern text : List α}
    (h : ∀ c ∈ pattern, ∀ piece, R c piece ↔ R' c piece) :
    Obtained R pattern text ↔ Obtained R' pattern text := by
  induction pattern generalizing text with
  | nil => rw [obtained_nil, obtained_nil]
  | cons c pattern ih =>
    rw [obtained_cons, obtained_cons]
    simp only [h c List.mem_cons_self, ih fun d hd => h d (List.mem_cons_of_mem c hd)]

/-! ## Literals -/

theorem obtained_literal_cons {c : α} (hc : IsLiteral R c) {pattern text : List α} :
    Obtained R (c :: pattern) text ↔ ∃ rest, Obtained R pattern rest ∧ text = c :: rest := by
  rw [obtained_cons]
  constructor
  · intro h
    obtain ⟨piece, rest, hpiece, hrest, rfl⟩ := h
    rw [(hc piece).mp hpiece]
    exact ⟨rest, hrest, rfl⟩
  · intro h
    obtain ⟨rest, hrest, rfl⟩ := h
    exact ⟨[c], rest, (hc [c]).mpr rfl, hrest, rfl⟩

theorem obtained_literals {pattern text : List α} (h : ∀ c ∈ pattern, IsLiteral R c) :
    Obtained R pattern text ↔ text = pattern := by
  induction pattern generalizing text with
  | nil => exact obtained_nil
  | cons c pattern ih =>
    rw [obtained_literal_cons (h c List.mem_cons_self)]
    simp only [ih fun d hd => h d (List.mem_cons_of_mem c hd), exists_eq_left]

/-- A pattern whose elements stand for one element each. -/
theorem Obtained.length_eq {pattern text : List α}
    (hone : ∀ c ∈ pattern, ∀ piece, R c piece → piece.length = 1)
    (h : Obtained R pattern text) : text.length = pattern.length := by
  induction pattern generalizing text with
  | nil => rw [obtained_nil.mp h]
  | cons c pattern ih =>
    obtain ⟨piece, rest, hpiece, hrest, rfl⟩ := obtained_cons.mp h
    have hlength := ih (fun d hd => hone d (List.mem_cons_of_mem c hd)) hrest
    have hpieceLength := hone c List.mem_cons_self piece hpiece
    rw [List.length_append, List.length_cons]
    omega

/-! ## Stars -/

/-- A star skips some of the text. -/
theorem obtained_star_cons {c : α} (hc : IsStar R c) {pattern text : List α} :
    Obtained R (c :: pattern) text ↔ ∃ rest, rest <:+ text ∧ Obtained R pattern rest := by
  rw [obtained_cons]
  constructor
  · intro h
    obtain ⟨piece, rest, -, hrest, rfl⟩ := h
    exact ⟨rest, List.suffix_append piece rest, hrest⟩
  · intro h
    obtain ⟨rest, ⟨piece, rfl⟩, hrest⟩ := h
    exact ⟨piece, rest, hc piece, hrest, rfl⟩

/-- What a star begins may have anything before it. -/
theorem Obtained.of_suffix {c : α} (hc : IsStar R c) {pattern rest text : List α}
    (h : Obtained R (c :: pattern) rest) (hsuffix : rest <:+ text) :
    Obtained R (c :: pattern) text := by
  obtain ⟨back, hback, hpattern⟩ := (obtained_star_cons hc).mp h
  exact (obtained_star_cons hc).mpr ⟨back, hback.trans hsuffix, hpattern⟩

/-- A star takes nothing, or one more element. -/
theorem obtained_star_step {c : α} (hc : IsStar R c) {pattern text : List α} :
    Obtained R (c :: pattern) text ↔
      Obtained R pattern text ∨ ∃ d rest, text = d :: rest ∧ Obtained R (c :: pattern) rest := by
  constructor
  · intro h
    obtain ⟨rest, hsuffix, hrest⟩ := (obtained_star_cons hc).mp h
    cases text with
    | nil =>
      rw [List.suffix_nil.mp hsuffix] at hrest
      exact Or.inl hrest
    | cons d text =>
      rcases List.suffix_cons_iff.mp hsuffix with rfl | hsuffix
      · exact Or.inl hrest
      · exact Or.inr ⟨d, text, rfl, (obtained_star_cons hc).mpr ⟨rest, hsuffix, hrest⟩⟩
  · intro h
    rcases h with h | ⟨d, rest, rfl, h⟩
    · exact (obtained_star_cons hc).mpr ⟨text, List.suffix_rfl, h⟩
    · exact h.of_suffix hc (List.suffix_cons d rest)

/-- Only stars can be replaced by the empty text. -/
theorem obtained_empty {pattern : List α} (hstar : ∀ c, R c [] → IsStar R c) :
    Obtained R pattern [] ↔ ∀ c ∈ pattern, IsStar R c := by
  induction pattern with
  | nil => simp [obtained_nil]
  | cons c pattern ih =>
    rw [obtained_cons, List.forall_mem_cons, ← ih]
    constructor
    · intro h
      obtain ⟨piece, rest, hc, hrest, hnil⟩ := h
      obtain ⟨rfl, rfl⟩ := List.append_eq_nil_iff.mp hnil.symm
      exact ⟨hstar c hc, hrest⟩
    · intro h
      exact ⟨[], [], h.1 [], h.2, rfl⟩

end Glob
