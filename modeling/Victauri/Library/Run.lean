import Mathlib.Data.List.Induction

/-!
# Runs of a labelled step relation

A system of several parties is a relation `step s a t`: in state `s` some party
may perform the action `a`, after which the state is `t`.  A run is a finite
list of actions, so that "any interleaving" is "any run".

* `Run.invariant` packages the induction over a run once: what the initial state
  satisfies and every step preserves, every reached state satisfies.
* `Run.split` gives back the states a run went through.
-/

namespace Victauri.Library

universe u v

/-- `Run step s as t`: the actions `as`, performed in order, lead from `s` to `t`. -/
inductive Run {σ : Type u} {α : Type v} (step : σ → α → σ → Prop) : σ → List α → σ → Prop
  | nil (s : σ) : Run step s [] s
  | cons {s t u : σ} {a : α} {as : List α} :
      step s a t → Run step t as u → Run step s (a :: as) u

namespace Run

variable {σ : Type u} {α : Type v} {step : σ → α → σ → Prop}

theorem single {s t : σ} {a : α} (h : step s a t) : Run step s [a] t :=
  .cons h (.nil t)

theorem append {s t u : σ} {as bs : List α} (hst : Run step s as t)
    (htu : Run step t bs u) : Run step s (as ++ bs) u := by
  induction hst with
  | nil => exact htu
  | cons hstep _ ih => exact .cons hstep (ih htu)

theorem snoc {s t u : σ} {as : List α} {a : α} (hst : Run step s as t)
    (h : step t a u) : Run step s (as ++ [a]) u :=
  hst.append (single h)

/-- A run over `as ++ bs` passes through a state between the two parts. -/
theorem split {s u : σ} {as bs : List α} (h : Run step s (as ++ bs) u) :
    ∃ t, Run step s as t ∧ Run step t bs u := by
  induction as generalizing s with
  | nil => exact ⟨s, .nil s, h⟩
  | cons a as ih =>
      cases h with
      | cons hstep hrest =>
          obtain ⟨t, hst, htu⟩ := ih hrest
          exact ⟨t, .cons hstep hst, htu⟩

/-- Induction from the last action: the shape in which a fact about the state
reached is carried along a run. -/
theorem snocInduction {s : σ} {motive : List α → σ → Prop} (nil : motive [] s)
    (snoc : ∀ as t a u, Run step s as t → motive as t → step t a u →
      motive (as ++ [a]) u) :
    ∀ {as t}, Run step s as t → motive as t := by
  intro as
  induction as using List.reverseRecOn with
  | nil =>
      intro t h
      cases h
      exact nil
  | append_singleton as a ih =>
      intro t h
      obtain ⟨m, hm, hlast⟩ := h.split
      cases hlast with
      | cons hstep hrest =>
          cases hrest
          exact snoc as m a t hm (ih hm) hstep

/-- What the first state satisfies and every step preserves, the last satisfies. -/
theorem invariant {inv : σ → Prop} (hstep : ∀ s a t, inv s → step s a t → inv t)
    {s t : σ} {as : List α} (h : Run step s as t) (hs : inv s) : inv t := by
  induction h with
  | nil => exact hs
  | cons hst _ ih => exact ih (hstep _ _ _ hs hst)

/-- A fact that no step undoes is kept to the end of every run. -/
theorem stable {P : σ → Prop} (hstep : ∀ s a t, P s → step s a t → P t)
    {s t : σ} {as : List α} (h : Run step s as t) (hs : P s) : P t :=
  h.invariant hstep hs

/-- Where steps are a function, a list of actions that can be performed is a run. -/
theorem of_foldlM {next : σ → α → Option σ} {s t : σ} {as : List α}
    (h : as.foldlM next s = some t) : Run (fun s a t => next s a = some t) s as t := by
  induction as generalizing s with
  | nil =>
      obtain rfl := Option.some.inj h
      exact .nil s
  | cons a as ih =>
      rw [List.foldlM_cons] at h
      obtain ⟨m, hm, hrest⟩ := Option.bind_eq_some_iff.mp h
      exact .cons hm (ih hrest)

end Run

end Victauri.Library
