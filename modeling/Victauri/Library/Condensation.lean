import Mathlib.Algebra.GroupWithZero.Nat
import Mathlib.Algebra.BigOperators.Group.Finset.Basic
import Mathlib.Algebra.Order.BigOperators.Group.Finset
import Mathlib.Data.List.Chain
import Mathlib.Logic.Relation
import Mathlib.Order.Bounds.Basic

/-!
# Paths in the condensation of a finite graph

The vertices of a graph that reach each other form its components, and the components
form an acyclic graph, the condensation.  A weight of the vertices gives every
component the sum of its members' weights and every path of components the sum of
theirs.

* `isGreatest_pathsFrom` is the recursion of a longest-path search: the heaviest path
  from a component is the component and then the heaviest path from one it has an edge
  to.  Sums are taken with an operation `plus`, so that they may saturate.
* `exists_path_of_simple` says that a simple path of vertices weighs at most as much as
  some path of components.
-/

namespace Victauri.Library.Condensation

open Relation

variable {V : Type} (E : V → V → Prop)

/-- `a` and `b` reach each other. -/
def Mutual (a b : V) : Prop := ReflTransGen E a b ∧ ReflTransGen E b a

def mutualSetoid : Setoid V where
  r := Mutual E
  iseqv :=
    { refl := fun _ => ⟨.refl, .refl⟩
      symm := fun h => ⟨h.2, h.1⟩
      trans := fun h h' => ⟨h.1.trans h'.1, h'.2.trans h.2⟩ }

/-- A strongly connected component. -/
def Component : Type := Quotient (mutualSetoid E)

/-- The component of a vertex. -/
def component (a : V) : Component E := Quotient.mk _ a

theorem component_eq_iff {a b : V} : component E a = component E b ↔ Mutual E a b :=
  ⟨fun h => Quotient.exact h, fun h => Quotient.sound h⟩

/-- An edge of the condensation. -/
def Next (C D : Component E) : Prop :=
  C ≠ D ∧ ∃ a b, component E a = C ∧ component E b = D ∧ E a b

/-- The paths of the condensation that start at `C`. -/
def PathsFrom (C : Component E) : Set (List (Component E)) :=
  {p | p.head? = some C ∧ p.IsChain (Next E)}

variable {E}

theorem singleton_mem_pathsFrom (C : Component E) : [C] ∈ PathsFrom E C :=
  ⟨rfl, .singleton C⟩

theorem cons_mem_pathsFrom {C D : Component E} {p : List (Component E)} (h : Next E C D)
    (hp : p ∈ PathsFrom E D) : C :: p ∈ PathsFrom E C := by
  obtain ⟨hhead, hchain⟩ := hp
  cases p with
  | nil => cases hhead
  | cons D' p =>
      obtain rfl := Option.some.inj hhead
      exact ⟨rfl, .cons_cons h hchain⟩

/-- A path from `C` is `C` alone, or goes on from a component `C` has an edge to. -/
theorem pathsFrom_cases {C : Component E} {p : List (Component E)} (hp : p ∈ PathsFrom E C) :
    p = [C] ∨ ∃ D q, p = C :: q ∧ Next E C D ∧ q ∈ PathsFrom E D := by
  obtain ⟨hhead, hchain⟩ := hp
  cases p with
  | nil => cases hhead
  | cons C' p =>
      obtain rfl := Option.some.inj hhead
      cases p with
      | nil => exact .inl rfl
      | cons D q =>
          rw [List.isChain_cons_cons] at hchain
          exact .inr ⟨D, D :: q, rfl, hchain.1, rfl, hchain.2⟩

/-! ## The heaviest path -/

section Weight

variable (plus : ℕ → ℕ → ℕ) (cost : Component E → ℕ)

/-- The costs along a path, summed with `plus`. -/
def pathCost (p : List (Component E)) : ℕ := p.foldr (fun C total => plus (cost C) total) 0

variable {plus cost}

/-- The longest-path recursion.  `below` is the heaviest a path can weigh that starts at
a component `C` has an edge to, or 0. -/
theorem isGreatest_pathsFrom (hmono : ∀ a, Monotone (plus a)) {C : Component E} {below : ℕ}
    (hle : ∀ D, Next E C D → ∀ q ∈ PathsFrom E D, pathCost plus cost q ≤ below)
    (hmem : below = 0 ∨ ∃ D, Next E C D ∧ ∃ q ∈ PathsFrom E D, pathCost plus cost q = below) :
    IsGreatest (pathCost plus cost '' PathsFrom E C) (plus (cost C) below) := by
  constructor
  · rcases hmem with rfl | ⟨D, hD, q, hq, rfl⟩
    · exact ⟨[C], singleton_mem_pathsFrom C, rfl⟩
    · exact ⟨C :: q, cons_mem_pathsFrom hD hq, rfl⟩
  · rintro w ⟨p, hp, rfl⟩
    rcases pathsFrom_cases hp with rfl | ⟨D, q, rfl, hD, hq⟩
    · exact hmono _ (Nat.zero_le below)
    · exact hmono _ (hle D hD q hq)

end Weight

/-! ## Simple paths of vertices -/

section Simple

variable [Fintype V] [DecidableEq V]

open Classical in
/-- The summed costs of a component's members. -/
noncomputable def componentCost (cost : V → ℕ) (C : Component E) : ℕ :=
  ∑ v with component E v = C, cost v

open Classical in
/-- The summed costs of the members that lie on `l`. -/
private noncomputable def costOn (cost : V → ℕ) (l : List V) (C : Component E) : ℕ :=
  ∑ v with component E v = C ∧ v ∈ l, cost v

private theorem costOn_le (cost : V → ℕ) (l : List V) (C : Component E) :
    costOn cost l C ≤ componentCost cost C := by
  classical
  apply Finset.sum_le_sum_of_subset
  intro v hv
  rw [Finset.mem_filter] at hv ⊢
  exact ⟨hv.1, hv.2.1⟩

private theorem costOn_cons {cost : V → ℕ} {l : List V} {v : V} (hv : v ∉ l) :
    cost v + costOn cost l (component E v) ≤ costOn cost (v :: l) (component E v) := by
  classical
  unfold costOn
  rw [← Finset.sum_insert (by simp [hv])]
  apply Finset.sum_le_sum_of_subset
  intro w hw
  simp only [Finset.mem_insert, Finset.mem_filter, Finset.mem_univ, true_and] at hw ⊢
  rcases hw with rfl | ⟨hw, hmem⟩
  · exact ⟨rfl, List.mem_cons_self⟩
  · exact ⟨hw, List.mem_cons_of_mem _ hmem⟩

/-- The components a simple path goes through: the costs met in the first one, and the
whole costs of the others, cover the path. -/
private theorem exists_path_of_simple_aux (cost : V → ℕ) {v : V} {l : List V}
    (hchain : (v :: l).IsChain E) (hnodup : (v :: l).Nodup) :
    ∃ q, component E v :: q ∈ PathsFrom E (component E v) ∧
      ((v :: l).map cost).sum ≤
        costOn cost (v :: l) (component E v) + (q.map (componentCost cost)).sum := by
  induction l generalizing v with
  | nil =>
      refine ⟨[], singleton_mem_pathsFrom _, ?_⟩
      have hself : cost v + costOn cost [] (component E v) ≤ costOn cost [v] (component E v) :=
        costOn_cons List.not_mem_nil
      simp only [List.map_cons, List.map_nil, List.sum_cons, List.sum_nil]
      omega
  | cons w l ih =>
      rw [List.isChain_cons_cons] at hchain
      obtain ⟨hv, hnodup'⟩ := List.nodup_cons.mp hnodup
      obtain ⟨q, hq, hsum⟩ := ih hchain.2 hnodup'
      have hself : cost v + costOn cost (w :: l) (component E v) ≤
          costOn cost (v :: w :: l) (component E v) := costOn_cons hv
      rw [List.map_cons, List.sum_cons]
      by_cases hsame : component E v = component E w
      · -- Still in the first component: `v` adds its cost to what is met there.
        rw [hsame] at hself ⊢
        exact ⟨q, hq, by omega⟩
      · -- Into the next component, whose whole cost covers what is met in it.
        refine ⟨component E w :: q, cons_mem_pathsFrom ⟨hsame, v, w, rfl, rfl, hchain.1⟩ hq, ?_⟩
        have hle := costOn_le cost (w :: l) (component E w)
        simp only [List.map_cons, List.sum_cons] at hsum ⊢
        omega

theorem exists_path_of_simple (cost : V → ℕ) {v : V} {l : List V}
    (hchain : (v :: l).IsChain E) (hnodup : (v :: l).Nodup) :
    ∃ p ∈ PathsFrom E (component E v),
      ((v :: l).map cost).sum ≤ (p.map (componentCost cost)).sum := by
  obtain ⟨q, hq, hsum⟩ := exists_path_of_simple_aux cost hchain hnodup
  refine ⟨_, hq, ?_⟩
  have hle := costOn_le cost (v :: l) (component E v)
  simp only [List.map_cons, List.sum_cons] at hsum ⊢
  omega

end Simple

end Victauri.Library.Condensation
