import Mathlib.Data.List.Infix
import Victauri.Library.Glob

/-!
# The two glob matchers

`globHits` of the page bridge takes the pattern apart at its stars and looks for the pieces from
left to right; `matches_glob` of the server goes over name and pattern together and resumes from the
last star.
-/

namespace Victauri.Plugin.Globs

open Glob

/-! ## `globHits` -/

/-- The code unit of `*`. -/
def starUnit : UInt16 := 0x2A

/-- `String.prototype.indexOf`. -/
def indexOf (text part : List UInt16) (pos : Nat) : Option Nat :=
  (List.range (text.length + 1)).find? fun i =>
    decide (min pos text.length ≤ i) && part.isPrefixOf (text.drop i)

/-- The loop over the pieces between the first and the last. -/
def middlesHit (url : List UInt16) (stop : Nat) : List (List UInt16) → Nat → Bool
  | [], _ => true
  | part :: parts, pos =>
      match indexOf url part pos with
      | none => false
      | some i =>
          if stop < i + part.length then false else middlesHit url stop parts (i + part.length)

def globHits (glob url : List UInt16) : Bool :=
  let parts := glob.splitOn starUnit
  if parts.length = 1 then url == glob
  else
    let first := parts.headD []
    let last := parts.getLastD []
    let stop : Int := (url.length : Int) - last.length
    if stop < first.length then false
    else if url.take first.length != first then false
    else if url.drop stop.toNat != last then false
    else middlesHit url stop.toNat parts.tail.dropLast first.length

/-! ## `matches_glob` -/

structure GlobState where
  n : Nat
  p : Nat
  star : Option (Nat × Nat)
  deriving DecidableEq

def GlobState.init : GlobState := { n := 0, p := 0, star := none }

/-- On to the next place for the last star; there is none before the first star. -/
def GlobState.resume (s : GlobState) : Option GlobState :=
  s.star.map fun star => { n := star.2 + 1, p := star.1 + 1, star := some (star.1, star.2 + 1) }

/-- The body of the loop; `none` is `return false`. -/
def globStep (name pattern : List Char) (s : GlobState) : Option GlobState :=
  match pattern[s.p]? with
  | some c =>
      if c = '*' then some { s with star := some (s.p, s.n), p := s.p + 1 }
      else if c = '?' ∨ name[s.n]? = some c then some { s with n := s.n + 1, p := s.p + 1 }
      else s.resume
  | none => s.resume

/-- `fuel` is how often the body may run. -/
def globLoop (name pattern : List Char) : (fuel : Nat) → GlobState → Option Bool
  | 0, s =>
      if s.n < name.length then none else some ((pattern.drop s.p).all fun c => c == '*')
  | fuel + 1, s =>
      if s.n < name.length then
        match globStep name pattern s with
        | none => some false
        | some s' => globLoop name pattern fuel s'
      else some ((pattern.drop s.p).all fun c => c == '*')

def globSteps (name pattern : List Char) : Nat :=
  (name.length + 1) * (pattern.length + 1) + name.length

def matchesGlob (name pattern : List Char) : Bool :=
  (globLoop name pattern (globSteps name pattern) .init).getD false

/-! ## What a pattern stands for -/

/-- Any text for a star; any other element stays. -/
def Keeps {α : Type} (star c : α) (piece : List α) : Prop := c = star ∨ piece = [c]

/-- Any text for `*`, one character for `?`; any other character stays. -/
def Fills (c : Char) (piece : List Char) : Prop :=
  c = '*' ∨ (c = '?' ∧ piece.length = 1) ∨ piece = [c]

theorem isStar_keeps {α : Type} (star : α) : IsStar (Keeps star) star := fun _ => Or.inl rfl

theorem isLiteral_keeps {α : Type} {star c : α} (h : c ≠ star) : IsLiteral (Keeps star) c :=
  fun _ => or_iff_right h

theorem isStar_fills : IsStar Fills '*' := fun _ => Or.inl rfl

theorem isLiteral_fills {c : Char} (hstar : c ≠ '*') (hone : c ≠ '?') : IsLiteral Fills c := by
  intro piece
  unfold Fills
  rw [or_iff_right hstar, or_iff_right fun h => hone h.1]

theorem length_of_fills {c : Char} (h : c ≠ '*') {piece : List Char} (hc : Fills c piece) :
    piece.length = 1 := by
  rcases hc with hc | ⟨-, hc⟩ | rfl
  · exact absurd hc h
  · exact hc
  · rfl

theorem eq_star_of_fills_nil {c : Char} (h : Fills c []) : c = '*' := by
  by_contra hne
  exact absurd (length_of_fills hne h) (by decide)

theorem obtained_fills_nil {pattern : List Char} :
    Obtained Fills pattern [] ↔ (pattern.all fun c => c == '*') = true := by
  rw [obtained_empty fun c hc => eq_star_of_fills_nil hc ▸ isStar_fills]
  rw [List.all_eq_true]
  constructor
  · intro h c hc
    exact beq_iff_eq.mpr (eq_star_of_fills_nil (h c hc []))
  · intro h c hc
    rw [beq_iff_eq.mp (h c hc)]
    exact isStar_fills

/-- One character of the text against one of the pattern. -/
theorem obtained_fills_cons {c d : Char} (hc : c ≠ '*') {pattern text : List Char} :
    Obtained Fills (c :: pattern) (d :: text) ↔
      (c = '?' ∨ d = c) ∧ Obtained Fills pattern text := by
  rw [obtained_cons]
  constructor
  · intro h
    obtain ⟨piece, rest, hpiece, hrest, heq⟩ := h
    have hlength := length_of_fills hc hpiece
    obtain ⟨e, rfl⟩ := List.length_eq_one_iff.mp hlength
    rw [List.singleton_append] at heq
    obtain ⟨rfl, rfl⟩ := List.cons.inj heq
    refine ⟨?_, hrest⟩
    rcases hpiece with h | h | h
    · exact absurd h hc
    · exact Or.inl h.1
    · exact Or.inr (List.singleton_inj.mp h)
  · intro h
    refine ⟨[d], text, ?_, h.2, rfl⟩
    rcases h.1 with h | rfl
    · exact Or.inr (Or.inl ⟨h, rfl⟩)
    · exact Or.inr (Or.inr rfl)

theorem not_obtained_fills_nil {d : Char} {text : List Char} :
    ¬ Obtained Fills [] (d :: text) := by
  rw [obtained_nil]
  exact List.cons_ne_nil d text

end Victauri.Plugin.Globs
