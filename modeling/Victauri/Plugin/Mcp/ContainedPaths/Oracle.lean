import Victauri.Library.FileTree.Regions
import Victauri.Plugin.Mcp.ContainedPaths

/-!
# What the answer tells of the entries outside

The answer is the same in all trees that are equal inside `base` exactly where the walk down from it
looks up nothing else.  A link that leads out of `base` tells whether its target is there.
-/

namespace Victauri.Plugin.Mcp.ContainedPaths

open FileTree FileTree.Tree
open Relation

variable {links : Nat} {t t' : Tree} {base : List Component} {canonBase : Place}

/-! ## Ancestors -/

theorem ancestors_concat (path : List Component) (c : Component) :
    ancestors (path ++ [c]) = (path ++ [c]) :: ancestors path := by
  unfold ancestors
  rw [List.inits_append]
  simp

theorem exists_ancestors_eq_cons (path : List Component) :
    ∃ above, ancestors path = path :: above := by
  rcases List.eq_nil_or_concat' path with rfl | ⟨front, c, rfl⟩
  · exact ⟨[], rfl⟩
  · exact ⟨_, ancestors_concat front c⟩

/-- The path itself if it exists, else its deepest ancestor that does. -/
def deepest (links : Nat) (t : Tree) (path : List Component) : Option (List Component) :=
  (ancestors path).find? (pathExists links t)

theorem deepest_of_exists {path : List Component} (h : pathExists links t path = true) :
    deepest links t path = some path := by
  obtain ⟨above, habove⟩ := exists_ancestors_eq_cons path
  rw [deepest, habove, List.find?_cons_of_pos h]

theorem deepest_concat {path : List Component} {c : Component}
    (h : pathExists links t (path ++ [c]) = false) :
    deepest links t (path ++ [c]) = deepest links t path := by
  rw [deepest, ancestors_concat, List.find?_cons_of_neg (by rw [h]; decide)]
  rfl

/-- What is behind an existing path and does not exist is passed over. -/
theorem deepest_append {path : List Component} (hpath : pathExists links t path = true)
    {back : List Component}
    (hback : ∀ front, front ≠ [] → front <+: back → pathExists links t (path ++ front) = false) :
    deepest links t (path ++ back) = some path := by
  induction back using List.reverseRecOn with
  | nil =>
    rw [List.append_nil]
    exact deepest_of_exists hpath
  | append_singleton back c ih =>
    have hlast := hback (back ++ [c]) (List.append_ne_nil_of_right_ne_nil _ (List.cons_ne_nil _ _))
      List.prefix_rfl
    rw [← List.append_assoc] at hlast ⊢
    rw [deepest_concat hlast]
    apply ih
    intro front hne hfront
    exact hback front hne (hfront.trans (List.prefix_append back [c]))

theorem deepest_congr (hbase : pathExists links t base = true) {back : List Component}
    (h : ∀ front, front <+: back →
      canonicalize links t (base ++ front) = canonicalize links t' (base ++ front)) :
    deepest links t (base ++ back) = deepest links t' (base ++ back) := by
  have hexists : ∀ front, front <+: back →
      pathExists links t (base ++ front) = pathExists links t' (base ++ front) := by
    intro front hfront
    rw [pathExists, h front hfront]
    rfl
  induction back using List.reverseRecOn with
  | nil =>
    have hbase' := hexists [] List.prefix_rfl
    rw [List.append_nil] at hbase' ⊢
    rw [deepest_of_exists hbase, deepest_of_exists (hbase'.symm.trans hbase)]
  | append_singleton back c ih =>
    have hlast := hexists (back ++ [c]) List.prefix_rfl
    rw [← List.append_assoc] at hlast ⊢
    by_cases hc : pathExists links t (base ++ back ++ [c]) = true
    · rw [deepest_of_exists hc, deepest_of_exists (hlast.symm.trans hc)]
    · have hmissing := Bool.eq_false_iff.mpr hc
      rw [deepest_concat hmissing, deepest_concat (hlast.symm.trans hmissing)]
      apply ih
      · intro front hfront
        exact h front (hfront.trans (List.prefix_append back [c]))
      · intro front hfront
        exact hexists front (hfront.trans (List.prefix_append back [c]))

/-- The answer, by the deepest path that exists. -/
theorem containedOrMissing_eq (hbase : canonicalize links t base = some canonBase)
    {target probe : List Component} (hprobe : deepest links t target = some probe)
    {canonical : Place} (hcanonical : canonicalize links t probe = some canonical) :
    containedOrMissing links t base target =
      if canonBase <+: canonical then .ok (pathExists links t target) else .error .traversal := by
  have hfind : (if pathExists links t target = true then some target
      else ((ancestors target).drop 1).find? (pathExists links t)) = some probe := by
    obtain ⟨above, habove⟩ := exists_ancestors_eq_cons target
    rw [← hprobe, deepest, habove]
    by_cases h : pathExists links t target = true
    · rw [if_pos h, List.find?_cons_of_pos h]
    · rw [if_neg h, List.find?_cons_of_neg h]
      rfl
  rw [containedOrMissing, hbase]
  dsimp only
  rw [hfind]
  dsimp only
  rw [hcanonical]

theorem containedOrMissing_missing (hbase : canonicalize links t base = none)
    (target : List Component) : containedOrMissing links t base target = .ok false := by
  rw [containedOrMissing, hbase]

theorem exists_deepest {base back : List Component} (hbase : pathExists links t base = true) :
    ∃ front, front <+: back ∧ deepest links t (base ++ back) = some (base ++ front) ∧
      ∃ canonical, canonicalize links t (base ++ front) = some canonical := by
  induction back using List.reverseRecOn with
  | nil =>
    refine ⟨[], List.prefix_rfl, ?_, ?_⟩
    · rw [List.append_nil]
      exact deepest_of_exists hbase
    · rw [List.append_nil]
      exact Option.isSome_iff_exists.mp hbase
  | append_singleton back c ih =>
    by_cases hc : pathExists links t (base ++ (back ++ [c])) = true
    · exact ⟨back ++ [c], List.prefix_rfl, deepest_of_exists hc, Option.isSome_iff_exists.mp hc⟩
    · obtain ⟨front, hfront, hdeepest, hcanonical⟩ := ih
      refine ⟨front, hfront.trans (List.prefix_append back [c]), ?_, hcanonical⟩
      have hmissing := Bool.eq_false_iff.mpr hc
      rw [← List.append_assoc] at hmissing ⊢
      rw [deepest_concat hmissing, hdeepest]

/-- What is said to exist inside `base` resolves to an entry inside it. -/
theorem inside_of_ok_true {names : List Component}
    (h : containedOrMissing links t base (base ++ names) = .ok true) :
    ∃ canonBase canonical, canonicalize links t base = some canonBase ∧
      canonicalize links t (base ++ names) = some canonical ∧ canonBase <+: canonical := by
  cases hbase : canonicalize links t base with
  | none =>
    rw [containedOrMissing_missing hbase] at h
    cases h
  | some canonBase =>
    have hexists : pathExists links t base = true := by
      rw [pathExists, hbase]
      rfl
    obtain ⟨front, -, hdeepest, canonical, hcanonical⟩ := @exists_deepest links t base names hexists
    rw [containedOrMissing_eq hbase hdeepest hcanonical] at h
    split_ifs at h with hinside
    have htarget : pathExists links t (base ++ names) = true := Except.ok.inj h
    rw [deepest_of_exists htarget] at hdeepest
    rw [← Option.some.inj hdeepest] at hcanonical
    exact ⟨canonBase, canonical, rfl, hcanonical, hinside⟩

/-! ## The entries that are known -/

section

variable (hbase : canonicalize links t base = some canonBase)

theorem known_inside {entry : Place} (h : canonBase <+: entry) :
    Known links t base canonBase entry :=
  ⟨entry, List.prefix_rfl, Or.inr h⟩

theorem known_way {entry : Place} (h : t.Looks ⟨links, [], base⟩ entry) :
    Known links t base canonBase entry :=
  ⟨entry, List.prefix_rfl, Or.inl h⟩

theorem known_root : Known links t base canonBase [] :=
  ⟨canonBase, List.nil_prefix, Or.inr List.prefix_rfl⟩

theorem known_of_prefix {entry below : Place} (hbelow : entry <+: below)
    (h : Known links t base canonBase below) : Known links t base canonBase entry := by
  obtain ⟨bottom, hbottom, hknown⟩ := h
  exact ⟨bottom, hbelow.trans hbottom, hknown⟩

theorem known_holder (place : Place) (name : String)
    (h : Known links t base canonBase (place ++ [name])) : Known links t base canonBase place :=
  known_of_prefix (List.prefix_append place [name]) h

/-- What an entry is in is the same wherever the entry is there. -/
theorem kind_eq_of_below {entry below : Place} (hbelow : entry <+: below)
    (hsame : t.kind below = t'.kind below) (hthere : t.kind below ≠ none) :
    t.kind entry = t'.kind entry := by
  obtain ⟨rest, rfl⟩ := hbelow
  by_cases hrest : rest = []
  · rw [hrest, List.append_nil] at hsame
    exact hsame
  · rw [kind_of_append hrest hthere, kind_of_append hrest (hsame ▸ hthere)]

include hbase

theorem plain_canonBase : t.Plain canonBase :=
  resolve_plain (Or.inl t.root) hbase

theorem agreeOn_of_sameBase (h : SameBase links base t t') :
    AgreeOn (Known links t base canonBase) t t' := by
  rintro entry ⟨below, hprefix, hway | hinside⟩
  · exact kind_eq_of_below hprefix (h.way below hway) (kind_of_looks hbase hway)
  · have hcanonBase := h.inside canonBase hbase canonBase List.prefix_rfl
    rcases List.prefix_or_prefix_of_prefix hprefix hinside with habove | hbelow
    · exact kind_eq_of_below habove hcanonBase (plain_canonBase hbase).ne_none
    · exact h.inside canonBase hbase entry hbelow

theorem canonicalize_withLinks (n : Nat) : canonicalize (links + n) t base = some canonBase := by
  obtain ⟨left, hrun⟩ := run_of_walkEnd hbase
  exact (run_walkEnd (run_withLinks hrun n)).trans (walkEnd_nil _ _)

theorem sameBase_of_agreeOn (h : AgreeOn (Known links t base canonBase) t t') (n : Nat) :
    SameBase (links + n) base t t' := by
  constructor
  · intro entry hlooks
    have hfew : t.Looks ⟨links, [], base⟩ entry :=
      @looks_withLinks t ⟨links, [], base⟩ canonBase hbase n entry hlooks
    exact h entry (known_way hfew)
  · intro canonBase' hcanon entry hinside
    rw [canonicalize_withLinks hbase n] at hcanon
    rw [← Option.some.inj hcanon] at hinside
    exact h entry (known_inside hinside)

end

/-! ## Where the walk stays -/

/-- The answer depends on what is known only. -/
theorem containedOrMissing_congr {names : List Component}
    (h : ∀ front, front <+: names →
      canonicalize links t (base ++ front) = canonicalize links t' (base ++ front)) :
    containedOrMissing links t base (base ++ names) =
      containedOrMissing links t' base (base ++ names) := by
  have hsame := h [] List.nil_prefix
  rw [List.append_nil] at hsame
  cases hbase : canonicalize links t base with
  | none =>
    rw [containedOrMissing_missing hbase, containedOrMissing_missing (hsame.symm.trans hbase)]
  | some canonBase =>
    have hexists : pathExists links t base = true := by
      rw [pathExists, hbase]
      rfl
    obtain ⟨front, hfront, hdeepest, canonical, hcanonical⟩ :=
      @exists_deepest links t base names hexists
    have hdeepest' := (deepest_congr hexists h).symm.trans hdeepest
    have hcanonical' := (h front hfront).symm.trans hcanonical
    rw [containedOrMissing_eq hbase hdeepest hcanonical,
      containedOrMissing_eq (hsame.symm.trans hbase) hdeepest' hcanonical', pathExists,
      h names List.prefix_rfl]
    rfl

theorem containedOrMissing_of_staysKnown {names : List String} (h : StaysKnown t base names)
    (hsame : SameBase links base t t') :
    containedOrMissing links t' base (base ++ names.map .normal) =
      containedOrMissing links t base (base ++ names.map .normal) := by
  have hroot : t.kind [] = t'.kind [] := by rw [t.root, t'.root]
  cases hbase : canonicalize links t base with
  | none =>
    have hbase' : canonicalize links t' base = none := by
      rw [← hbase]
      exact (walkEnd_congr hroot hsame.way).symm
    rw [containedOrMissing_missing hbase, containedOrMissing_missing hbase']
  | some canonBase =>
    have hagree := agreeOn_of_sameBase hbase hsame
    obtain ⟨left, hrun⟩ := run_of_walkEnd hbase
    symm
    apply containedOrMissing_congr
    intro front hfront
    refine walkEnd_congr hroot fun entry hlooks => hagree entry ?_
    have happend : t.Looks (Walk.append ⟨links, [], base⟩ front) entry := hlooks
    rcases looks_append hrun happend with hway | hdown
    · exact known_way hway
    · obtain ⟨back, hback⟩ := hfront
      have hall := hdown.append back
      apply h links canonBase hbase left entry
      rw [← hback]
      exact hall

end Victauri.Plugin.Mcp.ContainedPaths
