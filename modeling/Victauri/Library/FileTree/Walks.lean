import Mathlib.Data.Set.Finite.Basic
import Mathlib.Logic.Relation
import Victauri.Library.FileTree

/-!
# Walks

Path resolution as single steps: the walk stands somewhere, with so many links left to follow and so
many components still to go.  What a walk looks up is all that its end depends on.
-/

namespace FileTree

structure Walk where
  links : Nat
  place : Place
  rest : List Component

namespace Walk

/-- The walk with more to go. -/
def append (w : Walk) (more : List Component) : Walk := ⟨w.links, w.place, w.rest ++ more⟩

/-- The walk with more links to follow. -/
def withLinks (w : Walk) (n : Nat) : Walk := ⟨w.links + n, w.place, w.rest⟩

end Walk

/-- Where the target of a link begins. -/
def Path.start (target : Path) (place : Place) : Place := if target.absolute then [] else place

namespace Tree

open Relation

inductive Step (t : Tree) : Walk → Walk → Prop
  | parent {links : Nat} {place : Place} {rest : List Component}
      (hdir : t.kind place = some .dir) :
      Step t ⟨links, place, .parent :: rest⟩ ⟨links, place.dropLast, rest⟩
  | enter {links : Nat} {place : Place} {name : String} {rest : List Component}
      (hdir : t.kind place = some .dir) (hplain : t.Plain (place ++ [name])) :
      Step t ⟨links, place, .normal name :: rest⟩ ⟨links, place ++ [name], rest⟩
  | follow {links : Nat} {place : Place} {name : String} {rest : List Component} {target : Path}
      (hdir : t.kind place = some .dir)
      (hlink : t.kind (place ++ [name]) = some (.link target)) :
      Step t ⟨links + 1, place, .normal name :: rest⟩
        ⟨links, target.start place, target.components ++ rest⟩

/-- The walk looks up this entry next. -/
def Asks (t : Tree) (w : Walk) (entry : Place) : Prop :=
  t.kind w.place = some .dir ∧ ∃ name rest, w.rest = .normal name :: rest ∧ entry = w.place ++ [name]

/-- The walk looks up this entry sooner or later. -/
def Looks (t : Tree) (w : Walk) (entry : Place) : Prop :=
  ∃ w', ReflTransGen t.Step w w' ∧ t.Asks w' entry

/-- Where the walk ends. -/
def walkEnd (t : Tree) (w : Walk) : Option Place := t.resolve true w.links w.place w.rest

variable {t t' : Tree}

/-! ## Steps -/

/-- Each step uses up a link or a component. -/
theorem step_induction {P : Walk → Prop} (h : ∀ w, (∀ w', t.Step w w' → P w') → P w) (w : Walk) :
    P w := by
  obtain ⟨links, place, rest⟩ := w
  induction links generalizing place rest with
  | zero =>
    induction rest generalizing place with
    | nil => exact h _ nofun
    | cons c rest ih =>
      apply h
      intro w' hstep
      cases hstep with
      | parent => exact ih _
      | enter => exact ih _
  | succ links ihLinks =>
    induction rest generalizing place with
    | nil => exact h _ nofun
    | cons c rest ih =>
      apply h
      intro w' hstep
      cases hstep with
      | parent => exact ih _
      | enter => exact ih _
      | follow => exact ihLinks _ _

theorem step_walkEnd {w w' : Walk} (h : t.Step w w') : t.walkEnd w = t.walkEnd w' := by
  unfold walkEnd
  cases h with
  | @parent links place rest hdir =>
    cases links with
    | zero =>
      unfold resolve
      rw [resolveWith, if_neg (not_not.mpr hdir)]
    | succ links =>
      unfold resolve
      rw [resolveWith, if_neg (not_not.mpr hdir)]
  | @enter links place name rest hdir hplain =>
    cases links with
    | zero =>
      unfold resolve
      rw [resolveWith, if_neg (not_not.mpr hdir)]
      rcases hplain with hkind | hkind
      · rw [hkind]
      · rw [hkind]
    | succ links =>
      unfold resolve
      rw [resolveWith, if_neg (not_not.mpr hdir)]
      rcases hplain with hkind | hkind
      · rw [hkind]
      · rw [hkind]
  | @follow links place name rest target hdir hlink =>
    have hfollow : ¬ (rest = [] ∧ true = false) := fun h => absurd h.2 (by decide)
    change t.resolve true (links + 1) place _ = _
    rw [resolve, resolveWith, if_neg (not_not.mpr hdir), hlink]
    dsimp only
    rw [if_neg hfollow]
    rfl

theorem walkEnd_nil (links : Nat) (place : Place) : t.walkEnd ⟨links, place, []⟩ = some place := by
  unfold walkEnd
  cases links with
  | zero => rfl
  | succ links => rfl

/-- A walk that cannot go on has not arrived. -/
theorem walkEnd_stuck {w : Walk} (hrest : w.rest ≠ []) (h : ∀ w', ¬ t.Step w w') :
    t.walkEnd w = none := by
  obtain ⟨links, place, rest⟩ := w
  obtain ⟨c, rest, rfl⟩ := List.exists_cons_of_ne_nil hrest
  by_cases hdir : t.kind place = some .dir
  · cases c with
    | parent => exact absurd (Step.parent hdir) (h _)
    | normal name =>
      have hmissing : (∀ target, t.kind (place ++ [name]) ≠ some (.link target)) →
          t.kind (place ++ [name]) = none := by
        intro hlink
        cases hkind : t.kind (place ++ [name]) with
        | none => rfl
        | some kind =>
          cases kind with
          | dir => exact absurd (Step.enter hdir (Or.inl hkind)) (h _)
          | file => exact absurd (Step.enter hdir (Or.inr hkind)) (h _)
          | link target => exact absurd hkind (hlink target)
      unfold walkEnd
      cases links with
      | zero =>
        unfold resolve
        rw [resolveWith, if_neg (not_not.mpr hdir)]
        cases hkind : t.kind (place ++ [name]) with
        | none => rfl
        | some kind =>
          cases kind with
          | link target => exact if_neg fun h => absurd h.2 (by decide)
          | dir => exact absurd (Step.enter hdir (Or.inl hkind)) (h _)
          | file => exact absurd (Step.enter hdir (Or.inr hkind)) (h _)
      | succ links =>
        have hnone := hmissing fun target hlink => h _ (Step.follow hdir hlink)
        unfold resolve
        rw [resolveWith, if_neg (not_not.mpr hdir), hnone]
  · unfold walkEnd
    cases links with
    | zero => exact if_pos hdir
    | succ links => exact if_pos hdir

theorem Step.append {w w' : Walk} (h : t.Step w w') (more : List Component) :
    t.Step (w.append more) (w'.append more) := by
  cases h with
  | parent hdir => exact Step.parent hdir
  | enter hdir hplain => exact Step.enter hdir hplain
  | @follow links place name rest target hdir hlink =>
    have hstep := @Step.follow t links place name (rest ++ more) target hdir hlink
    rw [← List.append_assoc] at hstep
    exact hstep

theorem Step.withLinks {w w' : Walk} (h : t.Step w w') (n : Nat) :
    t.Step (w.withLinks n) (w'.withLinks n) := by
  cases h with
  | parent hdir => exact Step.parent hdir
  | enter hdir hplain => exact Step.enter hdir hplain
  | @follow links place name rest target hdir hlink =>
    have hstep := @Step.follow t (links + n) place name rest target hdir hlink
    rw [Nat.add_right_comm] at hstep
    exact hstep

theorem step_unique {w w' w'' : Walk} (h : t.Step w w') (h' : t.Step w w'') : w' = w'' := by
  cases h with
  | parent =>
    cases h'
    rfl
  | enter hdir hplain =>
    cases h' with
    | enter => rfl
    | follow _ hlink =>
      rcases hplain with hkind | hkind
      · rw [hlink] at hkind
        cases hkind
      · rw [hlink] at hkind
        cases hkind
  | follow hdir hlink =>
    cases h' with
    | enter _ hplain =>
      rcases hplain with hkind | hkind
      · rw [hlink] at hkind
        cases hkind
      · rw [hlink] at hkind
        cases hkind
    | follow _ hlink' =>
      obtain rfl := Kind.link.inj (Option.some.inj (hlink.symm.trans hlink'))
      rfl

theorem walkEnd_of_missing {w : Walk} {entry : Place} (hasks : t.Asks w entry)
    (hmissing : t.kind entry = none) : t.walkEnd w = none := by
  obtain ⟨links, place, rest⟩ := w
  obtain ⟨-, name, rest', hrest, rfl⟩ := hasks
  obtain rfl : rest = .normal name :: rest' := hrest
  apply walkEnd_stuck (List.cons_ne_nil _ _)
  intro w' hstep
  cases hstep with
  | enter _ hplain => exact hplain.ne_none hmissing
  | follow _ hlink => cases hlink.symm.trans hmissing

/-- A walk through directories. -/
theorem walkEnd_dirs {links : Nat} {place names : Place}
    (h : ∀ front, front <+: names → t.kind (place ++ front) = some .dir)
    (rest : List Component) :
    t.walkEnd ⟨links, place, names.map .normal ++ rest⟩ =
      t.walkEnd ⟨links, place ++ names, rest⟩ := by
  induction names generalizing place with
  | nil =>
    rw [List.append_nil]
    rfl
  | cons name names ih =>
    have hplace := h [] List.nil_prefix
    have hname := h [name] (List.prefix_append [name] names)
    rw [List.append_nil] at hplace
    have hstep := @Step.enter t links place name (names.map .normal ++ rest) hplace (Or.inl hname)
    have hdeeper : ∀ front, front <+: names → t.kind (place ++ [name] ++ front) = some .dir := by
      intro front hfront
      rw [List.append_assoc]
      exact h (name :: front) (List.prefix_cons_inj name |>.mpr hfront)
    have hrest := ih hdeeper
    rw [List.append_assoc] at hrest
    exact (step_walkEnd hstep).trans hrest

/-- A walk does not come out of directories that are deeper than it is long. -/
theorem walkEnd_deep {top : String}
    (hdirs : ∀ entry : Place, entry.head? = some top → t.kind entry = some .dir) {links : Nat}
    {place : Place} {components : List Component} (hplace : place.head? = some top)
    (hdeep : components.length < place.length) :
    ∃ q, q.head? = some top ∧ t.walkEnd ⟨links, place, components⟩ = some q := by
  induction components generalizing place with
  | nil => exact ⟨place, hplace, walkEnd_nil links place⟩
  | cons c rest ih =>
    rw [List.length_cons] at hdeep
    cases c with
    | parent =>
      obtain ⟨names, rfl⟩ := List.head?_eq_some_iff.mp hplace
      have hnames : names ≠ [] := by
        rintro rfl
        rw [List.length_singleton] at hdeep
        omega
      have hhead : (top :: names).dropLast.head? = some top := by
        rw [List.dropLast_cons_of_ne_nil hnames]
        rfl
      have hlength : rest.length < (top :: names).dropLast.length := by
        rw [List.length_dropLast]
        omega
      obtain ⟨q, hq, hend⟩ := ih hhead hlength
      exact ⟨q, hq, (step_walkEnd (Step.parent (hdirs _ hplace))).trans hend⟩
    | normal name =>
      have hhead : (place ++ [name]).head? = some top := by
        rw [List.head?_append, hplace]
        rfl
      have hlength : rest.length < (place ++ [name]).length := by
        rw [List.length_append]
        omega
      obtain ⟨q, hq, hend⟩ := ih hhead hlength
      have hstep := @Step.enter t links place name rest (hdirs _ hplace) (Or.inl (hdirs _ hhead))
      exact ⟨q, hq, (step_walkEnd hstep).trans hend⟩

/-! ## Runs -/

theorem run_walkEnd {w w' : Walk} (h : ReflTransGen t.Step w w') : t.walkEnd w = t.walkEnd w' := by
  induction h with
  | refl => rfl
  | tail _ hstep ih => exact ih.trans (step_walkEnd hstep)

theorem run_append {w w' : Walk} (h : ReflTransGen t.Step w w') (more : List Component) :
    ReflTransGen t.Step (w.append more) (w'.append more) := by
  induction h with
  | refl => exact ReflTransGen.refl
  | tail _ hstep ih => exact ih.tail (hstep.append more)

theorem run_withLinks {w w' : Walk} (h : ReflTransGen t.Step w w') (n : Nat) :
    ReflTransGen t.Step (w.withLinks n) (w'.withLinks n) := by
  induction h with
  | refl => exact ReflTransGen.refl
  | tail _ hstep ih => exact ih.tail (hstep.withLinks n)

/-- A walk that ends has gone there. -/
theorem run_of_walkEnd {w : Walk} {q : Place} (h : t.walkEnd w = some q) :
    ∃ links, ReflTransGen t.Step w ⟨links, q, []⟩ := by
  induction w using @step_induction t with
  | h w ih =>
    by_cases hrest : w.rest = []
    · obtain ⟨links, place, rest⟩ := w
      obtain rfl : rest = [] := hrest
      rw [walkEnd_nil] at h
      rw [Option.some.inj h]
      exact ⟨links, ReflTransGen.refl⟩
    · by_cases hstuck : ∀ w', ¬ t.Step w w'
      · rw [walkEnd_stuck hrest hstuck] at h
        cases h
      · obtain ⟨w', hstep⟩ := not_forall_not.mp hstuck
        rw [step_walkEnd hstep] at h
        obtain ⟨links, hrun⟩ := ih w' hstep h
        exact ⟨links, ReflTransGen.head hstep hrun⟩

theorem looks_of_asks {w : Walk} {entry : Place} (h : t.Asks w entry) : t.Looks w entry :=
  ⟨w, ReflTransGen.refl, h⟩

theorem Looks.of_step {w w' : Walk} {entry : Place} (hstep : t.Step w w')
    (h : t.Looks w' entry) : t.Looks w entry := by
  obtain ⟨w'', hrun, hasks⟩ := h
  exact ⟨w'', ReflTransGen.head hstep hrun, hasks⟩

theorem Looks.of_run {w w' : Walk} {entry : Place} (hrun : ReflTransGen t.Step w w')
    (h : t.Looks w' entry) : t.Looks w entry := by
  obtain ⟨w'', hrun', hasks⟩ := h
  exact ⟨w'', hrun.trans hrun', hasks⟩

theorem Asks.append {w : Walk} {entry : Place} (h : t.Asks w entry) (more : List Component) :
    t.Asks (w.append more) entry := by
  obtain ⟨hdir, name, rest, hrest, rfl⟩ := h
  exact ⟨hdir, name, rest ++ more, by rw [Walk.append, hrest]; rfl, rfl⟩

theorem Looks.append {w : Walk} {entry : Place} (h : t.Looks w entry) (more : List Component) :
    t.Looks (w.append more) entry := by
  obtain ⟨w', hrun, hasks⟩ := h
  exact ⟨w'.append more, run_append hrun more, hasks.append more⟩

theorem looks_cases {w : Walk} {entry : Place} (h : t.Looks w entry) :
    t.Asks w entry ∨ ∃ w', t.Step w w' ∧ t.Looks w' entry := by
  obtain ⟨w', hrun, hasks⟩ := h
  rcases ReflTransGen.cases_head hrun with rfl | ⟨w'', hstep, hrun⟩
  · exact Or.inl hasks
  · exact Or.inr ⟨w'', hstep, w', hrun, hasks⟩

/-- What a walk looks up that goes along with a run, during the run or behind it. -/
theorem looks_lift {f : Walk → Walk} (hstep : ∀ w w', t.Step w w' → t.Step (f w) (f w'))
    (hasks : ∀ w w' entry, t.Step w w' → t.Asks (f w) entry → t.Asks w entry) {w v : Walk}
    (hrun : ReflTransGen t.Step w v) {entry : Place} (h : t.Looks (f w) entry) :
    t.Looks w entry ∨ t.Looks (f v) entry := by
  induction hrun using ReflTransGen.head_induction_on with
  | refl => exact Or.inr h
  | @head w w' hhead _ ih =>
    rcases looks_cases h with hfirst | ⟨u, hu, hlooks⟩
    · exact Or.inl (looks_of_asks (hasks w w' entry hhead hfirst))
    · rw [step_unique hu (hstep w w' hhead)] at hlooks
      rcases ih hlooks with hbefore | hbehind
      · exact Or.inl (hbefore.of_step hhead)
      · exact Or.inr hbehind

theorem rest_ne_nil_of_step {w w' : Walk} (h : t.Step w w') : w.rest ≠ [] := by
  cases h with
  | parent => exact List.cons_ne_nil _ _
  | enter => exact List.cons_ne_nil _ _
  | follow => exact List.cons_ne_nil _ _

theorem asks_of_append {w : Walk} (hrest : w.rest ≠ []) {more : List Component} {entry : Place}
    (h : t.Asks (w.append more) entry) : t.Asks w entry := by
  obtain ⟨hdir, name, rest, hcons, rfl⟩ := h
  obtain ⟨c, rest', hrest'⟩ := List.exists_cons_of_ne_nil hrest
  rw [Walk.append, hrest'] at hcons
  obtain ⟨rfl, -⟩ := List.cons.inj hcons
  exact ⟨hdir, name, rest', hrest', rfl⟩

/-- What a walk with more to go looks up, before or behind the place the first part leads to. -/
theorem looks_append {w v : Walk} (hrun : ReflTransGen t.Step w v) {more : List Component}
    {entry : Place} (h : t.Looks (w.append more) entry) :
    t.Looks w entry ∨ t.Looks (v.append more) entry :=
  @looks_lift t (fun w => w.append more) (fun _ _ hstep => hstep.append more)
    (fun _ _ _ hstep hasks => asks_of_append (rest_ne_nil_of_step hstep) hasks) w v hrun entry h

theorem not_looks_nil {links : Nat} {place entry : Place} : ¬ t.Looks ⟨links, place, []⟩ entry := by
  intro h
  rcases looks_cases h with ⟨-, name, rest, hrest, -⟩ | ⟨w', hstep, -⟩
  · cases hrest
  · cases hstep

/-- A walk that ends looks up nothing else with more links to follow. -/
theorem looks_withLinks {w : Walk} {q : Place} (hend : t.walkEnd w = some q) {n : Nat}
    {entry : Place} (h : t.Looks (w.withLinks n) entry) : t.Looks w entry := by
  obtain ⟨links, hrun⟩ := run_of_walkEnd hend
  have hlift := @looks_lift t (fun w => w.withLinks n) (fun _ _ hstep => hstep.withLinks n)
    (fun _ _ _ _ hasks => hasks) w _ hrun entry h
  rcases hlift with hbefore | hbehind
  · exact hbefore
  · exact absurd hbehind not_looks_nil

theorem Looks.withLinks {w : Walk} {entry : Place} (h : t.Looks w entry) (n : Nat) :
    t.Looks (w.withLinks n) entry := by
  obtain ⟨w', hrun, hasks⟩ := h
  exact ⟨w'.withLinks n, run_withLinks hrun n, hasks⟩

theorem step_of_append {w u : Walk} (hrest : w.rest ≠ []) {more : List Component}
    (h : t.Step (w.append more) u) : ∃ w', t.Step w w' ∧ u = w'.append more := by
  obtain ⟨links, place, rest⟩ := w
  obtain ⟨c, rest, rfl⟩ := List.exists_cons_of_ne_nil hrest
  cases h with
  | parent hdir => exact ⟨_, Step.parent hdir, rfl⟩
  | enter hdir hplain => exact ⟨_, Step.enter hdir hplain, rfl⟩
  | @follow links place name rest target hdir hlink =>
    refine ⟨_, Step.follow hdir hlink, ?_⟩
    exact congrArg (Walk.mk links _) (List.append_assoc _ _ _).symm

/-- The first part of a walk that ends has an end too. -/
theorem walkEnd_of_append {w : Walk} {more : List Component} {q : Place}
    (h : t.walkEnd (w.append more) = some q) : ∃ p, t.walkEnd w = some p := by
  induction w using @step_induction t with
  | h w ih =>
    by_cases hrest : w.rest = []
    · obtain ⟨links, place, rest⟩ := w
      obtain rfl : rest = [] := hrest
      exact ⟨place, walkEnd_nil links place⟩
    by_cases hstuck : ∀ w', ¬ t.Step w w'
    · have hstuck' : ∀ u, ¬ t.Step (w.append more) u := by
        intro u hstep
        obtain ⟨w', hstep', -⟩ := step_of_append hrest hstep
        exact hstuck w' hstep'
      have hne : (w.append more).rest ≠ [] := List.append_ne_nil_of_left_ne_nil hrest _
      rw [walkEnd_stuck hne hstuck'] at h
      cases h
    · obtain ⟨w', hstep⟩ := not_forall_not.mp hstuck
      rw [step_walkEnd (hstep.append more)] at h
      obtain ⟨p, hp⟩ := ih w' hstep h
      exact ⟨p, (step_walkEnd hstep).trans hp⟩

/-- A walk that ends and looks something up goes on from there. -/
theorem step_of_looks {w : Walk} {q : Place} (hend : t.walkEnd w = some q) {entry : Place}
    (h : t.Looks w entry) :
    ∃ w' w'', ReflTransGen t.Step w w' ∧ t.Asks w' entry ∧ t.Step w' w'' ∧
      t.walkEnd w'' = some q := by
  obtain ⟨w', hrun, hasks⟩ := h
  have hne : w'.rest ≠ [] := by
    obtain ⟨-, name, rest, hrest, -⟩ := hasks
    rw [hrest]
    exact List.cons_ne_nil _ _
  have hend' := (run_walkEnd hrun).symm.trans hend
  by_cases hstuck : ∀ w'', ¬ t.Step w' w''
  · rw [walkEnd_stuck hne hstuck] at hend'
    cases hend'
  · obtain ⟨w'', hstep⟩ := not_forall_not.mp hstuck
    exact ⟨w', w'', hrun, hasks, hstep, (step_walkEnd hstep).symm.trans hend'⟩

/-- All that a walk with an end looks up is there. -/
theorem kind_of_looks {w : Walk} {q : Place} (hend : t.walkEnd w = some q) {entry : Place}
    (h : t.Looks w entry) : t.kind entry ≠ none := by
  obtain ⟨w', w'', -, ⟨-, name, rest, hrest, rfl⟩, hstep, -⟩ := step_of_looks hend h
  cases hstep with
  | parent => cases hrest
  | enter _ hplain =>
    obtain ⟨hname, -⟩ := List.cons.inj hrest
    rw [← Component.normal.inj hname]
    exact hplain.ne_none
  | follow _ hlink =>
    obtain ⟨hname, -⟩ := List.cons.inj hrest
    rw [← Component.normal.inj hname, hlink]
    exact Option.some_ne_none _

/-- A walk with an end goes on with the target of each link it looks up. -/
theorem follow_of_looks {w : Walk} {q : Place} (hend : t.walkEnd w = some q) {place : Place}
    {name : String} {target : Path} (h : t.Looks w (place ++ [name]))
    (hlink : t.kind (place ++ [name]) = some (.link target)) :
    ∃ w' left rest, ReflTransGen t.Step w w' ∧
      t.Step w' ⟨left, target.start place, target.components ++ rest⟩ ∧
      t.walkEnd ⟨left, target.start place, target.components ++ rest⟩ = some q := by
  obtain ⟨w', w'', hrun, ⟨-, name', rest, hcons, hplace⟩, hstep, hend'⟩ := step_of_looks hend h
  obtain ⟨links, place', rest'⟩ := w'
  obtain ⟨rfl, hname⟩ := List.append_inj' hplace rfl
  obtain rfl := (List.cons.inj hname).1
  obtain rfl : rest' = .normal name :: rest := hcons
  cases hstep with
  | enter _ hplain =>
    rcases hplain with hkind | hkind
    · cases hkind.symm.trans hlink
    · cases hkind.symm.trans hlink
  | @follow left _ _ _ target' hdir hlink' =>
    obtain rfl := Kind.link.inj (Option.some.inj (hlink.symm.trans hlink'))
    exact ⟨_, left, rest, hrun, Step.follow hdir hlink, hend'⟩

theorem finite_looks (w : Walk) : {entry | t.Looks w entry}.Finite := by
  have hasks : ∀ w, {entry | t.Asks w entry}.Finite := by
    intro w
    apply Set.Subsingleton.finite
    rintro entry ⟨-, name, rest, hrest, rfl⟩ entry' ⟨-, name', rest', hrest', rfl⟩
    obtain ⟨hname, -⟩ := List.cons.inj (hrest.symm.trans hrest')
    rw [Component.normal.inj hname]
  induction w using @step_induction t with
  | h w ih =>
    by_cases hstuck : ∀ w', ¬ t.Step w w'
    · apply (hasks w).subset
      intro entry h
      rcases looks_cases h with hfirst | ⟨w', hstep, -⟩
      · exact hfirst
      · exact absurd hstep (hstuck w')
    · obtain ⟨w', hstep⟩ := not_forall_not.mp hstuck
      apply ((hasks w).union (ih w' hstep)).subset
      intro entry h
      rcases looks_cases h with hfirst | ⟨w'', hstep', hlooks⟩
      · exact Or.inl hfirst
      · rw [step_unique hstep' hstep] at hlooks
        exact Or.inr hlooks

/-! ## Two trees -/

theorem kind_dropLast {place : Place} (h : t.kind place = some .dir) :
    t.kind place.dropLast = some .dir := by
  rcases List.eq_nil_or_concat' place with rfl | ⟨front, name, rfl⟩
  · exact t.root
  · rw [List.dropLast_concat]
    apply t.holder front name
    rw [h]
    exact Option.some_ne_none _

theorem plain_congr {place : Place} (h : t.kind place = t'.kind place) :
    t.Plain place → t'.Plain place := by
  unfold Plain
  rw [h]
  exact id

/-- The step is the same where the entry looked up is, and where the walk stands then is no
stranger either. -/
theorem step_congr {w w' : Walk} (hplace : t.kind w.place = t'.kind w.place)
    (hasks : ∀ entry, t.Asks w entry → t.kind entry = t'.kind entry) (h : t.Step w w') :
    t'.Step w w' ∧ t.kind w'.place = t'.kind w'.place := by
  cases h with
  | parent hdir =>
    have hdir' := hplace.symm.trans hdir
    refine ⟨Step.parent hdir', ?_⟩
    rw [kind_dropLast hdir, kind_dropLast hdir']
  | enter hdir hplain =>
    have hentry := hasks _ ⟨hdir, _, _, rfl, rfl⟩
    exact ⟨Step.enter (hplace.symm.trans hdir) (plain_congr hentry hplain), hentry⟩
  | @follow links place name rest target hdir hlink =>
    have hentry := hasks _ ⟨hdir, _, _, rfl, rfl⟩
    refine ⟨Step.follow (hplace.symm.trans hdir) (hentry.symm.trans hlink), ?_⟩
    change t.kind (target.start place) = t'.kind (target.start place)
    unfold Path.start
    split_ifs
    · rw [t.root, t'.root]
    · exact hplace

/-- A walk ends in the same place in trees that agree on what it looks up. -/
theorem walkEnd_congr {w : Walk} (hplace : t.kind w.place = t'.kind w.place)
    (hlooks : ∀ entry, t.Looks w entry → t.kind entry = t'.kind entry) :
    t.walkEnd w = t'.walkEnd w := by
  induction w using @step_induction t with
  | h w ih =>
    have hasks : ∀ entry, t.Asks w entry → t.kind entry = t'.kind entry :=
      fun entry h => hlooks entry (looks_of_asks h)
    by_cases hrest : w.rest = []
    · obtain ⟨links, place, rest⟩ := w
      obtain rfl : rest = [] := hrest
      rw [walkEnd_nil, walkEnd_nil]
    by_cases hstuck : ∀ w', ¬ t.Step w w'
    · have hstuck' : ∀ w', ¬ t'.Step w w' := by
        intro w' hstep
        have hasks' : ∀ entry, t'.Asks w entry → t'.kind entry = t.kind entry := by
          rintro entry ⟨hdir, hentry⟩
          exact (hasks entry ⟨hplace.trans hdir, hentry⟩).symm
        exact hstuck w' (step_congr hplace.symm hasks' hstep).1
      rw [walkEnd_stuck hrest hstuck, walkEnd_stuck hrest hstuck']
    · obtain ⟨w', hstep⟩ := not_forall_not.mp hstuck
      obtain ⟨hstep', hplace'⟩ := step_congr hplace hasks hstep
      rw [step_walkEnd hstep, step_walkEnd hstep']
      exact ih w' hstep hplace' fun entry h => hlooks entry (h.of_step hstep)

end Tree

end FileTree
