import Mathlib.Data.List.TakeDrop
import Victauri.Plugin.Globs

/-!
# `matches_glob` and what it matches

The loop resumes from the last star only.  A place for an earlier star that a resumed attempt would
want is covered by the last star, whose piece may be as long as needed.
-/

namespace Victauri.Plugin.Globs

open Glob

variable {name pattern : List Char}

/-! ## The invariant -/

/-- What the loop knows at a star it may resume from: the literal part of the pattern behind it has
been laid against the text at `star.2`. -/
structure Resumable (name pattern : List Char) (s : GlobState) (star : Nat × Nat) : Prop where
  isStar : pattern[star.1]? = some '*'
  lt : star.1 < s.p
  aligned : star.2 + (s.p - (star.1 + 1)) = s.n
  literal : ∀ c ∈ (pattern.drop (star.1 + 1)).take (s.p - (star.1 + 1)), c ≠ '*'
  obtained : Obtained Fills pattern name ↔
    Obtained Fills ('*' :: pattern.drop (star.1 + 1)) (name.drop star.2)
  attempt : Obtained Fills (pattern.drop (star.1 + 1)) (name.drop star.2) ↔
    Obtained Fills (pattern.drop s.p) (name.drop s.n)

structure Invariant (name pattern : List Char) (s : GlobState) : Prop where
  n_le : s.n ≤ name.length
  p_le : s.p ≤ pattern.length
  noStar : s.star = none → (Obtained Fills pattern name ↔
    Obtained Fills (pattern.drop s.p) (name.drop s.n))
  resumable : ∀ star, s.star = some star → Resumable name pattern s star

theorem invariant_init : Invariant name pattern .init :=
  { n_le := Nat.zero_le _
    p_le := Nat.zero_le _
    noStar := fun _ => Iff.rfl
    resumable := fun _ h => absurd h.symm (Option.some_ne_none _) }

/-- What is left of the steps: the places of the last star, each with a run over the pattern. -/
def potential (name pattern : List Char) (s : GlobState) : Nat :=
  (name.length - (s.star.elim 0 Prod.snd)) * (pattern.length + 1) + (pattern.length - s.p)

theorem potential_init : potential name pattern .init < globSteps name pattern := by
  change (name.length - 0) * (pattern.length + 1) + (pattern.length - 0) <
    (name.length + 1) * (pattern.length + 1) + name.length
  rw [Nat.add_mul, Nat.sub_zero]
  omega

namespace Resumable

variable {s : GlobState} {star : Nat × Nat}

/-- Where a later place of the star succeeds, what is still to be matched of the pattern succeeds
further on in the text. -/
theorem later (h : Resumable name pattern s star) (hn : s.n ≤ name.length)
    (hlt : star.2 < name.length) (hp : s.p ≤ pattern.length)
    (hlater : Obtained Fills ('*' :: pattern.drop (star.1 + 1)) (name.drop (star.2 + 1))) :
    s.n < name.length ∧ ∃ rest, rest <:+ name.drop (s.n + 1) ∧
      Obtained Fills (pattern.drop s.p) rest := by
  obtain ⟨rest, hsuffix, hrest⟩ := (obtained_star_cons isStar_fills).mp hlater
  have hsplit : pattern.drop (star.1 + 1) =
      (pattern.drop (star.1 + 1)).take (s.p - (star.1 + 1)) ++ pattern.drop s.p := by
    have hdrop : pattern.drop s.p = (pattern.drop (star.1 + 1)).drop (s.p - (star.1 + 1)) := by
      rw [List.drop_drop]
      congr 1
      have := h.lt
      omega
    rw [hdrop, List.take_append_drop]
  rw [hsplit] at hrest
  obtain ⟨front, back, hfront, hback, rfl⟩ := obtained_append.mp hrest
  have hfrontLength : front.length = s.p - (star.1 + 1) := by
    rw [hfront.length_eq fun c hc piece => length_of_fills (h.literal c hc), List.length_take,
      List.length_drop]
    have := h.lt
    omega
  have hlength := hsuffix.length_le
  rw [List.length_append, List.length_drop] at hlength
  have haligned := h.aligned
  have hbackLength : back.length ≤ (name.drop (s.n + 1)).length := by
    rw [List.length_drop]
    omega
  have hbackSuffix : back <:+ name :=
    ((List.suffix_append front back).trans hsuffix).trans (List.drop_suffix _ _)
  exact ⟨by omega, back, List.suffix_of_suffix_length_le hbackSuffix (List.drop_suffix _ _)
    hbackLength, hback⟩

theorem drop_eq_cons (h : star.2 < name.length) :
    ∃ d, name.drop star.2 = d :: name.drop (star.2 + 1) :=
  ⟨name[star.2], List.drop_eq_getElem_cons h⟩

/-- The star stays where it is, or takes one more character. -/
theorem obtained_iff (h : Resumable name pattern s star) (hlt : star.2 < name.length) :
    Obtained Fills pattern name ↔ Obtained Fills (pattern.drop s.p) (name.drop s.n) ∨
      Obtained Fills ('*' :: pattern.drop (star.1 + 1)) (name.drop (star.2 + 1)) := by
  obtain ⟨d, hd⟩ := drop_eq_cons hlt
  rw [h.obtained, obtained_star_step isStar_fills, h.attempt, hd]
  apply or_congr_right
  constructor
  · intro hlater
    obtain ⟨d', rest, heq, hrest⟩ := hlater
    rw [(List.cons.inj heq).2]
    exact hrest
  · intro hlater
    exact ⟨d, _, rfl, hlater⟩

end Resumable

/-! ## A step -/

variable {s s' : GlobState}

theorem drop_of_getElem? {α : Type} {l : List α} {i : Nat} {a : α} (h : l[i]? = some a) :
    l.drop i = a :: l.drop (i + 1) := by
  obtain ⟨hlt, hget⟩ := List.getElem?_eq_some_iff.mp h
  rw [List.drop_eq_getElem_cons hlt, hget]

/-- At a star of the pattern the older star is no longer needed. -/
theorem Invariant.star_step (h : Invariant name pattern s) (hn : s.n < name.length)
    (hc : pattern[s.p]? = some '*') :
    Invariant name pattern { s with star := some (s.p, s.n), p := s.p + 1 } := by
  have hp : s.p < pattern.length := (List.getElem?_eq_some_iff.mp hc).1
  have hdrop := drop_of_getElem? hc
  have hobtained : Obtained Fills pattern name ↔
      Obtained Fills ('*' :: pattern.drop (s.p + 1)) (name.drop s.n) := by
    rw [← hdrop]
    cases hstar : s.star with
    | none => exact h.noStar hstar
    | some star =>
      have hres := h.resumable star hstar
      have hlt : star.2 < name.length := by
        have := hres.aligned
        omega
      rw [hres.obtained_iff hlt]
      constructor
      · intro heither
        rcases heither with hnow | hlater
        · exact hnow
        · obtain ⟨-, rest, hsuffix, hrest⟩ := hres.later h.n_le hlt h.p_le hlater
          rw [hdrop] at hrest ⊢
          exact hrest.of_suffix isStar_fills
            (hsuffix.trans (List.drop_suffix_drop_left name (Nat.le_succ s.n)))
      · exact Or.inl
  exact
    { n_le := h.n_le
      p_le := hp
      noStar := fun hnone => absurd hnone (Option.some_ne_none _)
      resumable := by
        rintro star ⟨⟩
        exact
          { isStar := hc
            lt := Nat.lt_succ_self s.p
            aligned := by simp
            literal := by simp
            obtained := hobtained
            attempt := Iff.rfl } }

/-- One character of the text against one of the pattern. -/
theorem Invariant.char_step (h : Invariant name pattern s) {c d : Char}
    (hd : name[s.n]? = some d) (hc : pattern[s.p]? = some c) (hstar : c ≠ '*')
    (hmatch : c = '?' ∨ d = c) :
    Invariant name pattern { s with n := s.n + 1, p := s.p + 1 } := by
  have hp : s.p < pattern.length := (List.getElem?_eq_some_iff.mp hc).1
  have hn : s.n < name.length := (List.getElem?_eq_some_iff.mp hd).1
  have hstep : Obtained Fills (pattern.drop s.p) (name.drop s.n) ↔
      Obtained Fills (pattern.drop (s.p + 1)) (name.drop (s.n + 1)) := by
    rw [drop_of_getElem? hc, drop_of_getElem? hd, obtained_fills_cons hstar]
    exact and_iff_right hmatch
  exact
    { n_le := hn
      p_le := hp
      noStar := fun hnone => (h.noStar hnone).trans hstep
      resumable := by
        intro star hsome
        have hres := h.resumable star hsome
        have hlt := hres.lt
        have haligned := hres.aligned
        exact
          { isStar := hres.isStar
            lt := by
              change star.1 < s.p + 1
              omega
            aligned := by
              change star.2 + (s.p + 1 - (star.1 + 1)) = s.n + 1
              omega
            literal := by
              intro e he
              have htake : (pattern.drop (star.1 + 1)).take (s.p + 1 - (star.1 + 1)) =
                  (pattern.drop (star.1 + 1)).take (s.p - (star.1 + 1)) ++ [c] := by
                have hlast : (pattern.drop (star.1 + 1))[s.p - (star.1 + 1)]? = some c := by
                  rw [List.getElem?_drop, ← hc]
                  congr 1
                  omega
                rw [show s.p + 1 - (star.1 + 1) = s.p - (star.1 + 1) + 1 by omega, List.take_add_one,
                  hlast]
                rfl
              rw [htake, List.mem_append, List.mem_singleton] at he
              rcases he with he | rfl
              · exact hres.literal e he
              · exact hstar
            obtained := hres.obtained
            attempt := hres.attempt.trans hstep } }

/-- The attempt has failed and the last star takes one more character. -/
theorem Invariant.resume_step (h : Invariant name pattern s) (hn : s.n < name.length)
    (hfail : ¬ Obtained Fills (pattern.drop s.p) (name.drop s.n)) :
    (s.resume = none → ¬ Obtained Fills pattern name) ∧
      ∀ s', s.resume = some s' → Invariant name pattern s' := by
  unfold GlobState.resume
  cases hstar : s.star with
  | none =>
    constructor
    · intro _ hobtained
      exact hfail ((h.noStar hstar).mp hobtained)
    · intro s' hs'
      cases hs'
  | some star =>
    have hres := h.resumable star hstar
    have hlt : star.2 < name.length := by
      have := hres.aligned
      omega
    constructor
    · intro hnone
      cases hnone
    · intro s' hs'
      cases hs'
      exact
        { n_le := hlt
          p_le := (List.getElem?_eq_some_iff.mp hres.isStar).1
          noStar := fun hnone => absurd hnone (Option.some_ne_none _)
          resumable := by
            rintro star' ⟨⟩
            exact
              { isStar := hres.isStar
                lt := Nat.lt_succ_self star.1
                aligned := by simp
                literal := by simp
                obtained := (hres.obtained_iff hlt).trans (or_iff_right hfail)
                attempt := Iff.rfl } }

theorem potential_resume (h : Invariant name pattern s) (hn : s.n < name.length)
    (hs : s.resume = some s') : potential name pattern s' < potential name pattern s := by
  unfold GlobState.resume at hs
  cases hstar : s.star with
  | none =>
    rw [hstar] at hs
    cases hs
  | some star =>
    rw [hstar] at hs
    cases hs
    have haligned := (h.resumable star hstar).aligned
    have hplaces : name.length - star.2 = name.length - (star.2 + 1) + 1 := by omega
    unfold potential
    rw [hstar]
    change (name.length - (star.2 + 1)) * (pattern.length + 1) + (pattern.length - (star.1 + 1)) <
      (name.length - star.2) * (pattern.length + 1) + (pattern.length - s.p)
    rw [hplaces, Nat.add_mul, Nat.one_mul]
    omega

/-- A step decides, or keeps the invariant and leaves fewer steps. -/
theorem Invariant.step (h : Invariant name pattern s) (hn : s.n < name.length) :
    (globStep name pattern s = none → ¬ Obtained Fills pattern name) ∧
      ∀ s', globStep name pattern s = some s' →
        Invariant name pattern s' ∧ potential name pattern s' < potential name pattern s := by
  obtain ⟨d, hd⟩ : ∃ d, name[s.n]? = some d := ⟨_, List.getElem?_eq_getElem hn⟩
  have hresume : ¬ Obtained Fills (pattern.drop s.p) (name.drop s.n) →
      (s.resume = none → ¬ Obtained Fills pattern name) ∧ ∀ s', s.resume = some s' →
        Invariant name pattern s' ∧ potential name pattern s' < potential name pattern s := by
    intro hfail
    have hstep := h.resume_step hn hfail
    exact ⟨hstep.1, fun s' hs' => ⟨hstep.2 s' hs', potential_resume h hn hs'⟩⟩
  unfold globStep
  cases hc : pattern[s.p]? with
  | none =>
    apply hresume
    rw [List.drop_eq_nil_of_le (List.getElem?_eq_none_iff.mp hc), drop_of_getElem? hd]
    exact not_obtained_fills_nil
  | some c =>
    have hp : s.p < pattern.length := (List.getElem?_eq_some_iff.mp hc).1
    by_cases hstar : c = '*'
    · subst hstar
      refine ⟨fun hnone => absurd hnone (Option.some_ne_none _), ?_⟩
      rintro s' ⟨⟩
      refine ⟨h.star_step hn hc, ?_⟩
      have hle : (s.star.elim 0 Prod.snd) ≤ s.n := by
        cases hold : s.star with
        | none => exact Nat.zero_le _
        | some star =>
          have haligned := (h.resumable star hold).aligned
          change star.2 ≤ s.n
          omega
      have hplaces := Nat.mul_le_mul_right (pattern.length + 1) (Nat.sub_le_sub_left hle name.length)
      change (name.length - s.n) * (pattern.length + 1) + (pattern.length - (s.p + 1)) <
        potential name pattern s
      unfold potential
      omega
    · simp only [if_neg hstar]
      by_cases hmatch : c = '?' ∨ name[s.n]? = some c
      · rw [if_pos hmatch]
        refine ⟨fun hnone => absurd hnone (Option.some_ne_none _), ?_⟩
        rintro s' ⟨⟩
        have hsame : c = '?' ∨ d = c := by
          rw [hd] at hmatch
          exact hmatch.imp_right Option.some.inj
        refine ⟨h.char_step hd hc hstar hsame, ?_⟩
        change (name.length - (s.star.elim 0 Prod.snd)) * (pattern.length + 1) +
          (pattern.length - (s.p + 1)) < potential name pattern s
        unfold potential
        omega
      · rw [if_neg hmatch]
        apply hresume
        rw [drop_of_getElem? hc, drop_of_getElem? hd, obtained_fills_cons hstar]
        rintro ⟨hsame, -⟩
        rw [hd] at hmatch
        exact hmatch (hsame.imp_right (congrArg some))

/-! ## The run -/

/-- At the end of the text only stars may be left of the pattern. -/
theorem Invariant.finish (h : Invariant name pattern s) (hn : ¬ s.n < name.length) :
    ((pattern.drop s.p).all fun c => c == '*') = true ↔ Obtained Fills pattern name := by
  have hnil : name.drop s.n = [] := List.drop_eq_nil_of_le (by omega)
  rw [← obtained_fills_nil, ← hnil]
  symm
  cases hstar : s.star with
  | none => exact h.noStar hstar
  | some star =>
    have hres := h.resumable star hstar
    by_cases hlt : star.2 < name.length
    · rw [hres.obtained_iff hlt]
      apply or_iff_left
      intro hlater
      exact hn (hres.later h.n_le hlt h.p_le hlater).1
    · have hplace : name.drop star.2 = [] := List.drop_eq_nil_of_le (by omega)
      rw [hres.obtained, obtained_star_step isStar_fills, hres.attempt]
      apply or_iff_left
      intro hlater
      obtain ⟨d, rest, heq, -⟩ := hlater
      rw [hplace] at heq
      cases heq

/-- The loop decides within the steps that are left. -/
theorem globLoop_eq (fuel : Nat) (s : GlobState) (h : Invariant name pattern s)
    (hfuel : potential name pattern s < fuel) :
    ∃ b, globLoop name pattern fuel s = some b ∧ (b = true ↔ Obtained Fills pattern name) := by
  induction fuel generalizing s with
  | zero => exact absurd hfuel (Nat.not_lt_zero _)
  | succ fuel ih =>
    unfold globLoop
    by_cases hn : s.n < name.length
    · have hstep := h.step hn
      rw [if_pos hn]
      cases hs : globStep name pattern s with
      | none => exact ⟨false, rfl, iff_of_false Bool.false_ne_true (hstep.1 hs)⟩
      | some s' =>
        obtain ⟨hinv, hlt⟩ := hstep.2 s' hs
        exact ih s' hinv (by omega)
    · rw [if_neg hn]
      exact ⟨_, rfl, h.finish hn⟩

theorem globLoop_init (name pattern : List Char) :
    ∃ b, globLoop name pattern (globSteps name pattern) .init = some b ∧
      (b = true ↔ Obtained Fills pattern name) :=
  globLoop_eq _ _ invariant_init potential_init

theorem matchesGlob_iff (name pattern : List Char) :
    matchesGlob name pattern = true ↔ Obtained Fills pattern name := by
  obtain ⟨b, hb, hiff⟩ := globLoop_init name pattern
  unfold matchesGlob
  rw [hb]
  exact hiff

end Victauri.Plugin.Globs
