import Mathlib.Data.Set.Finite.Basic
import Victauri.Library.FileTree.Walks

/-!
# Regions of a tree

Walks that look up entries of a region only, and trees that are the same in a region.
-/

namespace FileTree

namespace Tree

open Relation

variable {t t' : Tree} {region : Place → Prop}

/-! ## Walks in a region -/

/-- A step that looks up nothing outside the region. -/
def StepIn (t : Tree) (region : Place → Prop) (w w' : Walk) : Prop :=
  t.Step w w' ∧ ∀ entry, t.Asks w entry → region entry

theorem StepIn.append {w w' : Walk} (h : t.StepIn region w w') (more : List Component) :
    t.StepIn region (w.append more) (w'.append more) :=
  ⟨h.1.append more, fun entry hasks =>
    h.2 entry (asks_of_append (rest_ne_nil_of_step h.1) hasks)⟩

theorem run_of_runIn {w w' : Walk} (h : ReflTransGen (t.StepIn region) w w') :
    ReflTransGen t.Step w w' := by
  induction h with
  | refl => exact ReflTransGen.refl
  | tail _ hstep ih => exact ih.tail hstep.1

theorem runIn_of_run {w v : Walk} (h : ReflTransGen t.Step w v)
    (hlooks : ∀ entry, t.Looks w entry → region entry) : ReflTransGen (t.StepIn region) w v := by
  induction h using ReflTransGen.head_induction_on with
  | refl => exact ReflTransGen.refl
  | head hstep _ ih =>
    have hin := fun entry hasks => hlooks entry (looks_of_asks hasks)
    exact ReflTransGen.head ⟨hstep, hin⟩ (ih fun entry h => hlooks entry (h.of_step hstep))

/-- Where a walk looks up something outside the region, there is a first such entry. -/
theorem exists_leaving {w : Walk} {entry : Place} (h : t.Looks w entry) (hentry : ¬ region entry) :
    ∃ v outside, ReflTransGen (t.StepIn region) w v ∧ t.Asks v outside ∧ ¬ region outside := by
  obtain ⟨w', hrun, hasks⟩ := h
  induction hrun using ReflTransGen.head_induction_on with
  | refl => exact ⟨w', entry, ReflTransGen.refl, hasks, hentry⟩
  | @head w u hstep _ ih =>
    by_cases hleaves : ∃ outside, t.Asks w outside ∧ ¬ region outside
    · obtain ⟨outside, houtside⟩ := hleaves
      exact ⟨w, outside, ReflTransGen.refl, houtside⟩
    · obtain ⟨v, outside, hrun, houtside⟩ := ih
      have hin : t.StepIn region w u := by
        refine ⟨hstep, fun outside hasks => ?_⟩
        by_contra hout
        exact hleaves ⟨outside, hasks, hout⟩
      exact ⟨v, outside, ReflTransGen.head hin hrun, houtside⟩

/-- A run of a walk with more to go is one of the walk, or goes through its end. -/
theorem runIn_append {w v : Walk} {more : List Component}
    (h : ReflTransGen (t.StepIn region) (w.append more) v) :
    (∃ u, ReflTransGen (t.StepIn region) w u ∧ u.rest ≠ [] ∧ v = u.append more) ∨
      ∃ links place, ReflTransGen (t.StepIn region) w ⟨links, place, []⟩ ∧
        ReflTransGen (t.StepIn region) ⟨links, place, more⟩ v := by
  induction w using @step_induction t with
  | h w ih =>
    by_cases hrest : w.rest = []
    · obtain ⟨links, place, rest⟩ := w
      obtain rfl : rest = [] := hrest
      exact Or.inr ⟨links, place, ReflTransGen.refl, h⟩
    · rcases ReflTransGen.cases_head h with rfl | ⟨u, hstep, hrun⟩
      · exact Or.inl ⟨w, ReflTransGen.refl, hrest, rfl⟩
      · obtain ⟨w', hw', rfl⟩ := step_of_append hrest hstep.1
        have hin : t.StepIn region w w' :=
          ⟨hw', fun entry hasks => hstep.2 entry (hasks.append more)⟩
        rcases ih w' hw' hrun with ⟨u, hu, hne, hv⟩ | ⟨links, place, hend, hv⟩
        · exact Or.inl ⟨u, ReflTransGen.head hin hu, hne, hv⟩
        · exact Or.inr ⟨links, place, ReflTransGen.head hin hend, hv⟩

/-- A walk leaves the region at one of its components. -/
theorem exists_leaving_component {links : Nat} {place : Place} {components : List Component}
    {v : Walk} (h : ReflTransGen (t.StepIn region) ⟨links, place, components⟩ v)
    (hv : v.rest ≠ []) :
    ∃ front c back links' place' u, components = front ++ c :: back ∧
      ReflTransGen (t.StepIn region) ⟨links, place, front⟩ ⟨links', place', []⟩ ∧
      ReflTransGen (t.StepIn region) ⟨links', place', [c]⟩ u ∧ u.rest ≠ [] ∧
      v = u.append back := by
  induction components generalizing links place with
  | nil =>
    rcases ReflTransGen.cases_head h with rfl | ⟨u, hstep, -⟩
    · exact absurd rfl hv
    · exact absurd rfl (rest_ne_nil_of_step hstep.1)
  | cons c rest ih =>
    have happend : ReflTransGen (t.StepIn region)
        (Walk.append ⟨links, place, [c]⟩ rest) v := h
    rcases runIn_append happend with ⟨u, hu, hne, hv'⟩ | ⟨links', place', hend, hrun⟩
    · exact ⟨[], c, rest, links, place, u, rfl, ReflTransGen.refl, hu, hne, hv'⟩
    · obtain ⟨front, c', back, links'', place'', u, rfl, hfront, hu⟩ := ih hrun
      refine ⟨c :: front, c', back, links'', place'', u, rfl, ?_, hu⟩
      have hfirst : ∀ {w w'}, ReflTransGen (t.StepIn region) w w' →
          ReflTransGen (t.StepIn region) (w.append front) (w'.append front) := by
        intro w w' hrun
        induction hrun with
        | refl => exact ReflTransGen.refl
        | tail _ hstep ih => exact ih.tail (hstep.append front)
      exact (hfirst hend).trans hfront

/-! ## The same region -/

def AgreeOn (region : Place → Prop) (t t' : Tree) : Prop :=
  ∀ entry, region entry → t.kind entry = t'.kind entry

/-- A run in the region is one of each tree that is the same there. -/
theorem run_of_agreeOn (hagree : AgreeOn region t t') {w v : Walk}
    (hplace : t.kind w.place = t'.kind w.place) (h : ReflTransGen (t.StepIn region) w v) :
    ReflTransGen t'.Step w v ∧ t.kind v.place = t'.kind v.place := by
  induction h with
  | refl => exact ⟨ReflTransGen.refl, hplace⟩
  | tail _ hstep ih =>
    obtain ⟨hrun, hplace⟩ := ih
    obtain ⟨hstep', hplace'⟩ :=
      step_congr hplace (fun entry hasks => hagree entry (hstep.2 entry hasks)) hstep.1
    exact ⟨hrun.tail hstep', hplace'⟩

/-- Where a run in the region stands is in it, if what holds one of its entries is too. -/
theorem region_of_runIn (hclosed : ∀ place name, region (place ++ [name]) → region place)
    (hroot : region []) {w v : Walk} (hplace : region w.place)
    (h : ReflTransGen (t.StepIn region) w v) : region v.place := by
  induction h with
  | refl => exact hplace
  | tail _ hstep ih =>
    obtain ⟨hstep, hasks⟩ := hstep
    cases hstep with
    | @parent links place rest hdir =>
      rcases List.eq_nil_or_concat' place with rfl | ⟨front, name, rfl⟩
      · exact hroot
      · change region (front ++ [name]).dropLast
        rw [List.dropLast_concat]
        exact hclosed front name ih
    | enter hdir hplain => exact hasks _ ⟨hdir, _, _, rfl, rfl⟩
    | @follow links place name rest target hdir hlink =>
      change region (target.start place)
      unfold Path.start
      split_ifs
      · exact hroot
      · exact ih

open Classical in
/-- The tree that is `t` in the region and something else outside it. -/
noncomputable def withOutside (t : Tree) (region : Place → Prop) (outside : Place → Option Kind)
    (hroot : region []) (hclosed : ∀ place name, region (place ++ [name]) → region place)
    (hholder : ∀ place name, ¬ region (place ++ [name]) → outside (place ++ [name]) ≠ none →
      region place ∧ t.kind place = some .dir ∨ ¬ region place ∧ outside place = some .dir) :
    Tree where
  kind entry := if region entry then t.kind entry else outside entry
  root := by rw [if_pos hroot, t.root]
  holder := by
    intro place name h
    by_cases hregion : region (place ++ [name])
    · rw [if_pos hregion] at h
      rw [if_pos (hclosed place name hregion)]
      exact t.holder place name h
    · rw [if_neg hregion] at h
      rcases hholder place name hregion h with ⟨hplace, hdir⟩ | ⟨hplace, hdir⟩
      · rw [if_pos hplace, hdir]
      · rw [if_neg hplace, hdir]

end Tree

end FileTree
