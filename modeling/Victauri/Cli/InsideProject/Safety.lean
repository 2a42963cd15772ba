import Victauri.Cli.InsideProject

/-!
# What an accepted path can reach

The components are looked at up to the first that is missing.  A path that goes on with `..` behind
it is accepted unseen.
-/

namespace Victauri.Cli.InsideProject

open FileTree

variable {t : Tree}

/-- Without following a link, and with its missing directories made, the path leads to a place below
the root. -/
def InsideRoot (t : Tree) (root : List Component) (path : Path) : Prop :=
  ∃ rootPlace relative place, root = rootPlace.map .normal ∧ path = ⟨true, root ++ relative⟩ ∧
    t.plainWalk rootPlace relative = some place ∧ rootPlace <+: place

/-- Below the root a name is missing in a directory, and what follows it leads out of the root or
onto a link. -/
def Escapes (t : Tree) (root : List Component) (path : Path) : Prop :=
  ∃ rootPlace head name tail, root = rootPlace.map .normal ∧
    path = ⟨true, root ++ (head.map .normal ++ .normal name :: tail)⟩ ∧
    t.Plain (rootPlace ++ head) ∧ (head = [] ∨ t.kind (rootPlace ++ head) = some .dir) ∧
    t.kind (rootPlace ++ head ++ [name]) = none ∧
    ∀ place, t.plainWalk (rootPlace ++ head ++ [name]) tail = some place → ¬ rootPlace <+: place

/-! ## The loop over the components -/

theorem append_cons_assoc (place names : Place) (name : String) :
    place ++ name :: names = (place ++ [name]) ++ names := by
  rw [List.append_assoc, List.singleton_append]

theorem map_normal_concat (place : Place) (name : String) :
    place.map Component.normal ++ [.normal name] = (place ++ [name]).map .normal := by
  rw [List.map_append]
  rfl

/-- What the loop learns about an entry. -/
theorem checkComponents_cons {place : Place} (hplace : t.Plain place) (name : String)
    (rest : List Component) :
    checkComponents t (place.map .normal) (.normal name :: rest) =
      match t.kind (place ++ [name]) with
      | some (.link _) => .error (.symlink ((place ++ [name]).map .normal))
      | some kind =>
          if rest ≠ [] ∧ kind ≠ .dir then .error (.notDirectory ((place ++ [name]).map .normal))
          else checkComponents t ((place ++ [name]).map .normal) rest
      | none => .ok () := by
  have hmeta : t.symlinkMetadata ((place ++ [name]).map .normal) = t.kind (place ++ [name]) := by
    cases hkind : t.kind (place ++ [name]) with
    | none =>
      rw [← map_normal_concat]
      exact Tree.symlinkMetadata_missing hplace hkind []
    | some kind =>
      rw [← hkind]
      apply Tree.symlinkMetadata_names
      rw [hkind]
      exact Option.some_ne_none _
  rw [← hmeta, ← map_normal_concat]
  rfl

/-- What the components are when the loop lets them pass. -/
inductive Passed (t : Tree) (place : Place) (components : List Component) : Prop where
  | all (names : Place) (hnames : components = names.map .normal)
      (hwalk : t.plainWalk place components = some (place ++ names))
  | missing (head : Place) (name : String) (tail : List Component)
      (hcomponents : components = head.map .normal ++ .normal name :: tail)
      (hplain : t.Plain (place ++ head))
      (hdir : head = [] ∨ t.kind (place ++ head) = some .dir)
      (hmissing : t.kind (place ++ head ++ [name]) = none)

theorem passed_of_ok {place : Place} (hplace : t.Plain place) {components : List Component}
    (h : checkComponents t (place.map .normal) components = .ok ()) :
    Passed t place components := by
  induction components generalizing place with
  | nil => exact .all [] rfl (by rw [List.append_nil]; rfl)
  | cons c rest ih =>
    cases c with
    | parent => cases h
    | normal name =>
      rw [checkComponents_cons hplace] at h
      cases hkind : t.kind (place ++ [name]) with
      | none =>
        refine .missing [] name rest rfl ?_ (Or.inl rfl) ?_
        · rw [List.append_nil]
          exact hplace
        · rw [List.append_nil]
          exact hkind
      | some kind =>
        rw [hkind] at h
        cases kind with
        | link target => cases h
        | dir =>
          dsimp only at h
          rw [if_neg fun hand => hand.2 rfl] at h
          have hwalk : t.plainWalk place (.normal name :: rest) =
              t.plainWalk (place ++ [name]) rest := by
            rw [Tree.plainWalk, hkind]
          cases ih (Or.inl hkind) h with
          | all names hnames hrest =>
            refine .all (name :: names) (congrArg (Component.normal name :: ·) hnames) ?_
            rw [hwalk, hrest, append_cons_assoc place names]
          | missing head missing tail hcomponents hplain hdir hmissing =>
            refine .missing (name :: head) missing tail
              (congrArg (Component.normal name :: ·) hcomponents) ?_ (Or.inr ?_) ?_
            · rw [append_cons_assoc place head]
              exact hplain
            · rw [append_cons_assoc place head]
              rcases hdir with rfl | hdir
              · rw [List.append_nil]
                exact hkind
              · exact hdir
            · rw [append_cons_assoc place head]
              exact hmissing
        | file =>
          dsimp only at h
          have hnil : rest = [] := by
            by_contra hne
            rw [if_pos ⟨hne, by decide⟩] at h
            cases h
          refine .all [name] (by rw [hnil]; rfl) ?_
          rw [hnil, Tree.plainWalk, hkind]
          rfl

/-- A missing name ends the loop, whatever follows it. -/
theorem checkComponents_missing {place head : Place} {name : String}
    (hplain : t.Plain (place ++ head)) (hdir : head = [] ∨ t.kind (place ++ head) = some .dir)
    (hmissing : t.kind (place ++ head ++ [name]) = none) (tail : List Component) :
    checkComponents t (place.map .normal) (head.map .normal ++ .normal name :: tail) = .ok () := by
  induction head generalizing place with
  | nil =>
    rw [List.append_nil] at hplain hmissing
    change checkComponents t (place.map .normal) (.normal name :: tail) = .ok ()
    rw [checkComponents_cons hplain, hmissing]
  | cons dirName head ih =>
    have hkind := hdir.resolve_left (List.cons_ne_nil _ _)
    rw [append_cons_assoc place head] at hplain hmissing hkind
    have hfirst : t.kind (place ++ [dirName]) = some .dir := by
      by_cases hnil : head = []
      · rw [hnil, List.append_nil] at hkind
        exact hkind
      · exact Tree.kind_of_append hnil hplain.ne_none
    rw [List.map_cons, List.cons_append,
      checkComponents_cons (Tree.plain_of_append (Tree.plain_of_append hplain)), hfirst]
    dsimp only
    rw [if_neg fun hand => hand.2 rfl]
    exact ih hplain (Or.inr hkind) hmissing

/-! ## The deepest entry -/

theorem deepestExisting_names {place : Place} (h : t.kind place ≠ none) :
    deepestExisting t (place.map .normal).reverse = place.map .normal := by
  rcases List.eq_nil_or_concat' place with rfl | ⟨front, name, rfl⟩
  · rfl
  · have hmeta := Tree.symlinkMetadata_names _ h
    rw [← map_normal_concat] at hmeta ⊢
    rw [List.reverse_concat, deepestExisting, List.reverse_cons, List.reverse_reverse, hmeta,
      if_pos (Option.isSome_iff_ne_none.mpr h)]

theorem deepestExisting_missing {place : Place} {name : String} (hplain : t.Plain place)
    (hmissing : t.kind (place ++ [name]) = none) (tail : List Component) :
    deepestExisting t (place.map Component.normal ++ .normal name :: tail).reverse =
      place.map .normal := by
  induction tail using List.reverseRecOn with
  | nil =>
    have hmeta := Tree.symlinkMetadata_missing hplain hmissing []
    rw [List.reverse_concat, deepestExisting, List.reverse_cons, List.reverse_reverse, hmeta,
      if_neg (by decide), deepestExisting_names hplain.ne_none]
  | append_singleton tail c ih =>
    have hmeta := Tree.symlinkMetadata_missing hplain hmissing (tail ++ [c])
    have hassoc : place.map Component.normal ++ .normal name :: (tail ++ [c]) =
        (place.map Component.normal ++ .normal name :: tail) ++ [c] := by
      rw [List.append_assoc, List.cons_append]
    rw [hassoc] at hmeta ⊢
    rw [List.reverse_concat, deepestExisting, List.reverse_cons, List.reverse_reverse, hmeta,
      if_neg (by decide), ih]

/-! ## Accepted paths -/

theorem ensureInsideProject_eq_ok_iff {root : List Component} {path : Path} :
    ensureInsideProject t root path = .ok () ↔
      ∃ relative canonical, path = ⟨true, root ++ relative⟩ ∧
        checkComponents t root relative = .ok () ∧
        t.canonicalize (deepestExisting t (root ++ relative).reverse) = some canonical ∧
        root <+: canonical.map .normal := by
  obtain ⟨absolute, components⟩ := path
  unfold ensureInsideProject
  dsimp only
  constructor
  · intro h
    by_cases hbelow : absolute = true ∧ root <+: components
    · rw [if_pos hbelow] at h
      obtain ⟨rfl, relative, rfl⟩ := hbelow
      rw [List.drop_left] at h
      cases hcheck : checkComponents t root relative with
      | error refusal =>
        rw [hcheck] at h
        cases h
      | ok _ =>
        rw [hcheck] at h
        dsimp only at h
        cases hcanonical : t.canonicalize (deepestExisting t (root ++ relative).reverse) with
        | none =>
          rw [hcanonical] at h
          cases h
        | some canonical =>
          rw [hcanonical] at h
          dsimp only at h
          refine ⟨relative, canonical, rfl, hcheck, hcanonical, ?_⟩
          by_contra houtside
          rw [if_neg houtside] at h
          cases h
    · rw [if_neg hbelow] at h
      cases h
  · rintro ⟨relative, canonical, hpath, hcheck, hcanonical, hroot⟩
    obtain ⟨rfl, rfl⟩ := FileTree.Path.mk.inj hpath
    rw [if_pos ⟨rfl, relative, rfl⟩, List.drop_left, hcheck]
    dsimp only
    rw [hcanonical]
    exact if_pos hroot

/-- The root of an accepted path is a place reached without a link. -/
theorem plain_root {root : List Component} {components : List Component} {canonical : Place}
    (hcanonical : t.canonicalize components = some canonical)
    (hroot : root <+: canonical.map .normal) :
    ∃ rootPlace : Place, root = rootPlace.map .normal ∧ t.Plain rootPlace := by
  refine ⟨canonical.take root.length, ?_, ?_⟩
  · rw [List.map_take]
    exact List.prefix_iff_eq_take.mp hroot
  · have hplain := Tree.plain_of_canonicalize hcanonical
    rw [← List.take_append_drop root.length canonical] at hplain
    exact Tree.plain_of_append hplain

theorem map_normal_injective : Function.Injective (List.map Component.normal) :=
  List.map_injective_iff.mpr fun _ _ h => Component.normal.inj h

/-- Names in front of a missing one lead where they say. -/
theorem plainWalk_names {place names : Place} (h : t.Plain (place ++ names)) :
    t.plainWalk place (names.map .normal) = some (place ++ names) := by
  induction names generalizing place with
  | nil =>
    rw [List.append_nil]
    rfl
  | cons name names ih =>
    rw [append_cons_assoc place names] at h ⊢
    rw [List.map_cons, Tree.plainWalk]
    rcases Tree.plain_of_append h with hkind | hkind
    · rw [hkind]
      exact ih h
    · rw [hkind]
      exact ih h

theorem plainWalk_missing {place head : Place} {name : String} (hplain : t.Plain (place ++ head))
    (hmissing : t.kind (place ++ head ++ [name]) = none) (tail : List Component) :
    t.plainWalk place (head.map .normal ++ .normal name :: tail) =
      t.plainWalk (place ++ head ++ [name]) tail := by
  rw [Tree.plainWalk_append, plainWalk_names hplain, Option.bind_some, Tree.plainWalk, hmissing]

theorem ok_of_escapes {root : List Component} {path : Path} (h : Escapes t root path) :
    ensureInsideProject t root path = .ok () ∧ ¬ InsideRoot t root path := by
  obtain ⟨rootPlace, head, name, tail, rfl, rfl, hplain, hdir, hmissing, hout⟩ := h
  constructor
  · have hdeepest := deepestExisting_missing hplain hmissing tail
    rw [List.map_append, List.append_assoc] at hdeepest
    refine ensureInsideProject_eq_ok_iff.mpr ⟨_, rootPlace ++ head, rfl,
      checkComponents_missing hplain hdir hmissing tail, ?_, ?_⟩
    · rw [hdeepest, ← List.map_append]
      exact Tree.canonicalize_names hplain
    · rw [List.map_append]
      exact List.prefix_append _ _
  · rintro ⟨rootPlace', relative, place, hroot, hpath, hwalk, hinside⟩
    obtain rfl := map_normal_injective hroot
    obtain rfl := List.append_cancel_left (FileTree.Path.mk.inj hpath).2
    rw [plainWalk_missing hplain hmissing] at hwalk
    exact hout place hwalk hinside

theorem insideRoot_of_ok {root : List Component} {path : Path} (hescapes : ¬ Escapes t root path)
    (h : ensureInsideProject t root path = .ok ()) : InsideRoot t root path := by
  obtain ⟨relative, canonical, rfl, hcheck, hcanonical, hroot⟩ :=
    ensureInsideProject_eq_ok_iff.mp h
  obtain ⟨rootPlace, rfl, hplain⟩ := plain_root hcanonical hroot
  cases passed_of_ok hplain hcheck with
  | all names hnames hwalk =>
    exact ⟨rootPlace, relative, _, rfl, rfl, hwalk, List.prefix_append _ _⟩
  | missing head name tail hcomponents hhead hdir hmissing =>
    by_contra hout
    apply hescapes
    refine ⟨rootPlace, head, name, tail, rfl, by rw [hcomponents], hhead, hdir, hmissing, ?_⟩
    intro place hwalk hinside
    apply hout
    refine ⟨rootPlace, relative, place, rfl, rfl, ?_, hinside⟩
    rw [hcomponents, plainWalk_missing hhead hmissing, hwalk]

/-! ## Plain trees -/

/-- Names pass in a tree without links if what comes before a name is no file. -/
theorem checkComponents_names (hlinks : ∀ place target, t.kind place ≠ some (.link target))
    {place : Place} (hplain : t.Plain place) {names : Place}
    (hparents : ∀ front name back, names = front ++ name :: back → front ≠ [] →
      t.kind (place ++ front) ≠ some .file) :
    checkComponents t (place.map .normal) (names.map .normal) = .ok () := by
  induction names generalizing place with
  | nil => rfl
  | cons name names ih =>
    rw [List.map_cons, checkComponents_cons hplain]
    cases hkind : t.kind (place ++ [name]) with
    | none => rfl
    | some kind =>
      cases kind with
      | link target => exact absurd hkind (hlinks _ target)
      | dir =>
        dsimp only
        rw [if_neg fun hand => hand.2 rfl]
        apply ih (Or.inl hkind)
        rintro front next back rfl hfront
        rw [← append_cons_assoc place front]
        exact hparents (name :: front) next back rfl (List.cons_ne_nil _ _)
      | file =>
        have hnil : names = [] := by
          by_contra hne
          obtain ⟨next, back, rfl⟩ := List.exists_cons_of_ne_nil hne
          exact hparents [name] next back rfl (List.cons_ne_nil _ _) hkind
        rw [hnil]
        rfl

theorem plain_of_ne_none (hlinks : ∀ place target, t.kind place ≠ some (.link target))
    {place : Place} (h : t.kind place ≠ none) : t.Plain place := by
  cases hkind : t.kind place with
  | none => exact absurd hkind h
  | some kind =>
    cases kind with
    | dir => exact Or.inl hkind
    | file => exact Or.inr hkind
    | link target => exact absurd hkind (hlinks place target)

theorem deepestExisting_below (hlinks : ∀ place target, t.kind place ≠ some (.link target))
    {place : Place} (hplace : t.kind place ≠ none) (names : Place) :
    ∃ front, deepestExisting t ((place ++ names).map .normal).reverse =
      (place ++ front).map .normal ∧ t.kind (place ++ front) ≠ none := by
  induction names generalizing place with
  | nil =>
    rw [List.append_nil]
    exact ⟨[], by rw [List.append_nil, deepestExisting_names hplace], by rwa [List.append_nil]⟩
  | cons name names ih =>
    by_cases hmissing : t.kind (place ++ [name]) = none
    · have hdeepest := deepestExisting_missing (plain_of_ne_none hlinks hplace) hmissing
        (names.map .normal)
      refine ⟨[], ?_, by rwa [List.append_nil]⟩
      rw [List.append_nil, List.map_append]
      exact hdeepest
    · obtain ⟨front, hdeepest, hfront⟩ := ih hmissing
      refine ⟨name :: front, ?_, ?_⟩
      · rw [append_cons_assoc place names, append_cons_assoc place front]
        exact hdeepest
      · rw [append_cons_assoc place front]
        exact hfront

theorem ensureInsideProject_names (hlinks : ∀ place target, t.kind place ≠ some (.link target))
    {rootPlace names : Place} (hroot : t.kind rootPlace ≠ none)
    (hparents : ∀ front name back, names = front ++ name :: back → front ≠ [] →
      t.kind (rootPlace ++ front) ≠ some .file) :
    ensureInsideProject t (rootPlace.map .normal) ⟨true, (rootPlace ++ names).map .normal⟩ =
      .ok () := by
  obtain ⟨front, hdeepest, hfront⟩ := deepestExisting_below hlinks hroot names
  refine ensureInsideProject_eq_ok_iff.mpr ⟨names.map .normal, rootPlace ++ front, ?_,
    checkComponents_names hlinks (plain_of_ne_none hlinks hroot) hparents, ?_, ?_⟩
  · rw [List.map_append]
  · rw [← List.map_append, hdeepest]
    exact Tree.canonicalize_names (plain_of_ne_none hlinks hfront)
  · rw [List.map_append]
    exact List.prefix_append _ _

/-! ## The tree the path is written in -/

/-- Directories and files were added, links were not. -/
def Grown (t t' : Tree) : Prop :=
  ∀ place, (t.kind place ≠ none → t'.kind place = t.kind place) ∧
    (t.kind place = none → ∀ target, t'.kind place ≠ some (.link target))

theorem Grown.plainWalk {t t' : Tree} (h : Grown t t') {place q : Place}
    {components : List Component} (hwalk : t.plainWalk place components = some q) :
    t'.plainWalk place components = some q := by
  induction components generalizing place with
  | nil => exact hwalk
  | cons c rest ih =>
    cases c with
    | parent => exact ih hwalk
    | normal name =>
      rw [Tree.plainWalk] at hwalk ⊢
      cases hkind : t.kind (place ++ [name]) with
      | none =>
        rw [hkind] at hwalk
        have hnolink := (h (place ++ [name])).2 hkind
        cases hkind' : t'.kind (place ++ [name]) with
        | none => exact ih hwalk
        | some kind =>
          cases kind with
          | dir => exact ih hwalk
          | file => exact ih hwalk
          | link target => exact absurd hkind' (hnolink target)
      | some kind =>
        have hsame := (h (place ++ [name])).1 (by rw [hkind]; exact Option.some_ne_none _)
        rw [hsame]
        rw [hkind] at hwalk ⊢
        cases kind with
        | dir => exact ih hwalk
        | file => exact ih hwalk
        | link target => cases hwalk

/-- Once its directories are made, an accepted path that does not escape is resolved to an entry
below the root. -/
theorem resolves_inside {t t' : Tree} (hgrown : Grown t t') {root : List Component} {path : Path}
    (hok : ensureInsideProject t root path = .ok ()) (hescapes : ¬ Escapes t root path)
    {follow : Bool} {links : Nat} {place : Place}
    (h : t'.resolve follow links [] path.components = some place) :
    root <+: place.map .normal := by
  obtain ⟨relative, canonical, -, -, hcanonical, hroot⟩ := ensureInsideProject_eq_ok_iff.mp hok
  obtain ⟨rootPlace, rfl, hplain⟩ := plain_root hcanonical hroot
  obtain ⟨rootPlace', relative', q, hrootEq, rfl, hwalk, hinside⟩ := insideRoot_of_ok hescapes hok
  obtain rfl := map_normal_injective hrootEq
  have hnames := @plainWalk_names t [] rootPlace hplain
  have hfull : t.plainWalk [] (rootPlace.map .normal ++ relative') = some q := by
    rw [Tree.plainWalk_append, hnames]
    exact hwalk
  have hplace : place = q := by
    cases links with
    | zero => exact Tree.resolveWith_of_plainWalk (hgrown.plainWalk hfull) h
    | succ links => exact Tree.resolveWith_of_plainWalk (hgrown.plainWalk hfull) h
  rw [hplace]
  exact hinside.map _

/-- An accepted path meets no link and stays below the root exactly if it does not escape behind a
missing name; and without links names below directories are accepted. -/
theorem ensureInsideProject_inside_iff (t : Tree) :
    (∀ root path, (ensureInsideProject t root path = .ok () → InsideRoot t root path) ↔
      ¬ Escapes t root path) ∧
    ∀ rootPlace names : Place, (∀ place target, t.kind place ≠ some (.link target)) →
      t.kind rootPlace ≠ none →
      (∀ front name back, names = front ++ name :: back → front ≠ [] →
        t.kind (rootPlace ++ front) = none ∨ t.kind (rootPlace ++ front) = some .dir) →
      ensureInsideProject t (rootPlace.map .normal) ⟨true, (rootPlace ++ names).map .normal⟩ =
        .ok () := by
  constructor
  · intro root path
    constructor
    · intro hinside hescapes
      obtain ⟨hok, hout⟩ := ok_of_escapes hescapes
      exact hout (hinside hok)
    · exact insideRoot_of_ok
  · intro rootPlace names hlinks hroot hparents
    apply ensureInsideProject_names hlinks hroot
    intro front name back hnames hfront hfile
    rcases hparents front name back hnames hfront with hkind | hkind
    · rw [hfile] at hkind
      cases hkind
    · rw [hfile] at hkind
      cases hkind

/-! ## Out of a project -/

/-- `/proj` and `/other`, and `/proj/new` when it was made. -/
def projTree (made : Bool) : Tree where
  kind place :=
    if place = [] ∨ place = ["proj"] ∨ place = ["other"] ∨ place = ["proj", "new"] ∧ made = true then
      some .dir
    else none
  root := rfl
  holder place name h := by
    have hcases : place ++ [name] = [] ∨ place ++ [name] = ["proj"] ∨ place ++ [name] = ["other"] ∨
        place ++ [name] = ["proj", "new"] ∧ made = true := by
      by_contra hnot
      exact h (if_neg hnot)
    have hholder : ∀ whole, place ++ [name] = whole → place = whole.dropLast := by
      rintro whole rfl
      rw [List.dropLast_concat]
    apply if_pos
    rcases hcases with h | h | h | ⟨h, -⟩
    · exact absurd h (List.append_ne_nil_of_right_ne_nil _ (List.cons_ne_nil _ _))
    · exact Or.inl (hholder _ h)
    · exact Or.inl (hholder _ h)
    · exact Or.inr (Or.inl (hholder _ h))

theorem ensureInsideProject_inside_main :
    ensureInsideProject (projTree false) [.normal "proj"]
      ⟨true, [.normal "proj", .normal "src", .normal "main.rs"]⟩ = .ok () := by
  apply (ensureInsideProject_inside_iff (projTree false)).2 ["proj"] ["src", "main.rs"]
  · intro place target h
    have hkind : (projTree false).kind place = some .dir ∨ (projTree false).kind place = none :=
      ite_eq_or_eq _ _ _
    rw [h] at hkind
    rcases hkind with hkind | hkind
    · cases hkind
    · cases hkind
  · decide
  · rintro front name back hnames hfront
    obtain ⟨first, more, rfl⟩ := List.exists_cons_of_ne_nil hfront
    obtain rfl : "src" = first := (List.cons.inj hnames).1
    have hnot : ¬ ("proj" :: "src" :: more = [] ∨ "proj" :: "src" :: more = ["proj"] ∨
        "proj" :: "src" :: more = ["other"] ∨
        "proj" :: "src" :: more = ["proj", "new"] ∧ false = true) := by simp
    exact Or.inl (@if_neg _ _ hnot _ (some Kind.dir) none)

/-- `/proj/new/../../other/x`: the `..` behind the missing `new` are not looked at, and with `new`
made the path leads to `/other`. -/
theorem ensureInsideProject_leaves_root :
    ensureInsideProject (projTree false) [.normal "proj"]
        ⟨true, [.normal "proj", .normal "new", .parent, .parent, .normal "other"]⟩ = .ok () ∧
      ¬ InsideRoot (projTree false) [.normal "proj"]
        ⟨true, [.normal "proj", .normal "new", .parent, .parent, .normal "other"]⟩ ∧
      (projTree true).canonicalize
        [.normal "proj", .normal "new", .parent, .parent, .normal "other"] = some ["other"] := by
  have hescapes : Escapes (projTree false) [.normal "proj"]
      ⟨true, [.normal "proj", .normal "new", .parent, .parent, .normal "other"]⟩ := by
    refine ⟨["proj"], [], "new", [.parent, .parent, .normal "other"], rfl, rfl, Or.inl rfl,
      Or.inl rfl, rfl, ?_⟩
    intro place hwalk hinside
    obtain rfl : ["other"] = place := Option.some.inj hwalk
    exact absurd hinside (by decide)
  obtain ⟨hok, hout⟩ := ok_of_escapes hescapes
  exact ⟨hok, hout, rfl⟩

end Victauri.Cli.InsideProject
