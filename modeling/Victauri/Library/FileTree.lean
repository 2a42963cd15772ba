import Mathlib.Data.List.Basic
import Mathlib.Data.List.Induction

/-!
# File trees

Directories, files and symbolic links, and how a path is resolved in them.
-/

namespace FileTree

inductive Component where
  | parent
  | normal (name : String)
  deriving DecidableEq

structure Path where
  absolute : Bool
  components : List Component
  deriving DecidableEq

inductive Kind where
  | dir
  | file
  | link (target : Path)
  deriving DecidableEq

/-- The names from the root of the tree down to an entry. -/
abbrev Place : Type := List String

structure Tree where
  kind : Place → Option Kind
  root : kind [] = some .dir
  /-- What holds an entry is a directory. -/
  holder : ∀ place name, kind (place ++ [name]) ≠ none → kind place = some .dir

namespace Tree

variable (t : Tree)

/-- The place a path leads to from a directory.  A link on the way, or at the end when links are
followed there, goes on with `onLink`. -/
def resolveWith (onLink : Place → Path → List Component → Option Place) (follow : Bool) :
    Place → List Component → Option Place
  | place, [] => some place
  | place, c :: rest =>
      if t.kind place ≠ some .dir then none
      else
        match c with
        | .parent => resolveWith onLink follow place.dropLast rest
        | .normal name =>
            match t.kind (place ++ [name]) with
            | none => none
            | some (.link target) =>
                if rest = [] ∧ follow = false then some (place ++ [name])
                else onLink place target rest
            | some _ => resolveWith onLink follow (place ++ [name]) rest

/-- Path resolution that follows so many links. -/
def resolve (follow : Bool) : (links : Nat) → Place → List Component → Option Place
  | 0 => t.resolveWith (fun _ _ _ => none) follow
  | links + 1 => t.resolveWith
      (fun place target rest =>
        resolve follow links (if target.absolute then [] else place) (target.components ++ rest))
      follow

/-- As many links as Linux follows. -/
def maxLinks : Nat := 40

/-- `std::fs::symlink_metadata`, of an absolute path. -/
def symlinkMetadata (components : List Component) : Option Kind :=
  match t.resolve false maxLinks [] components with
  | none => none
  | some place => t.kind place

/-- `std::fs::canonicalize`, of an absolute path. -/
def canonicalize (components : List Component) : Option Place := t.resolve true maxLinks [] components

/-- The place a path leads to without any link, its missing names taken for directories still to be
made; `none` if it leads onto a link. -/
def plainWalk : Place → List Component → Option Place
  | place, [] => some place
  | place, .parent :: rest => plainWalk place.dropLast rest
  | place, .normal name :: rest =>
      match t.kind (place ++ [name]) with
      | some (.link _) => none
      | _ => plainWalk (place ++ [name]) rest

/-! ## Entries -/

variable {t}

/-- An entry that is no link. -/
def Plain (t : Tree) (place : Place) : Prop :=
  t.kind place = some .dir ∨ t.kind place = some .file

theorem kind_of_append {place rest : Place} (hrest : rest ≠ []) (h : t.kind (place ++ rest) ≠ none) :
    t.kind place = some .dir := by
  induction rest using List.reverseRecOn with
  | nil => exact absurd rfl hrest
  | append_singleton rest name ih =>
    rw [← List.append_assoc] at h
    have hholder := t.holder _ _ h
    by_cases hnil : rest = []
    · rw [hnil, List.append_nil] at hholder
      exact hholder
    · apply ih hnil
      rw [hholder]
      exact Option.some_ne_none _

theorem Plain.ne_none {place : Place} (h : t.Plain place) : t.kind place ≠ none := by
  rcases h with h | h
  · rw [h]
    exact Option.some_ne_none _
  · rw [h]
    exact Option.some_ne_none _

theorem plain_of_append {place rest : Place} (h : t.Plain (place ++ rest)) : t.Plain place := by
  by_cases hrest : rest = []
  · rw [hrest, List.append_nil] at h
    exact h
  · exact Or.inl (kind_of_append hrest h.ne_none)

/-! ## Resolution -/

variable {onLink : Place → Path → List Component → Option Place} {follow : Bool}

/-- Names lead to the entry they name; to a link only where links are not followed. -/
theorem resolveWith_names {place names : Place} (h : t.kind (place ++ names) ≠ none)
    (hlink : follow = true → t.Plain (place ++ names)) :
    t.resolveWith onLink follow place (names.map .normal) = some (place ++ names) := by
  induction names generalizing place with
  | nil =>
    rw [List.append_nil]
    rfl
  | cons name names ih =>
    have hdir := kind_of_append (List.cons_ne_nil _ _) h
    have hassoc : place ++ name :: names = (place ++ [name]) ++ names := by
      rw [List.append_assoc, List.singleton_append]
    rw [hassoc] at h hlink ⊢
    have ih := ih h hlink
    rw [List.map_cons, resolveWith, if_neg (not_not.mpr hdir)]
    by_cases hnil : names = []
    · rw [hnil, List.append_nil] at h hlink ⊢
      cases hkind : t.kind (place ++ [name]) with
      | none => exact absurd hkind h
      | some kind =>
        cases kind with
        | dir => rfl
        | file => rfl
        | link target =>
          have hfollow : follow = false := by
            by_contra hne
            rcases hlink (Bool.not_eq_false _ ▸ hne) with hplain | hplain
            · rw [hkind] at hplain
              cases hplain
            · rw [hkind] at hplain
              cases hplain
          exact if_pos ⟨rfl, hfollow⟩
    · rw [kind_of_append hnil h]
      exact ih

/-- Nothing is found behind a missing name. -/
theorem resolveWith_missing {place names : Place} {name : String} (h : t.Plain (place ++ names))
    (hmissing : t.kind (place ++ names ++ [name]) = none) (rest : List Component) :
    t.resolveWith onLink follow place (names.map .normal ++ .normal name :: rest) = none := by
  induction names generalizing place with
  | nil =>
    rw [List.append_nil] at hmissing
    change t.resolveWith onLink follow place (.normal name :: rest) = none
    by_cases hdir : t.kind place = some .dir
    · rw [resolveWith, if_neg (not_not.mpr hdir)]
      rw [hmissing]
    · rw [resolveWith, if_pos hdir]
  | cons dirName names ih =>
    have hdir := kind_of_append (List.cons_ne_nil _ _) h.ne_none
    have hassoc : place ++ dirName :: names = (place ++ [dirName]) ++ names := by
      rw [List.append_assoc, List.singleton_append]
    rw [hassoc] at h hmissing
    have ih := ih h hmissing
    rw [List.map_cons, List.cons_append, resolveWith, if_neg (not_not.mpr hdir)]
    rcases plain_of_append h with hkind | hkind
    · rw [hkind]
      exact ih
    · rw [hkind]
      exact ih

theorem resolve_names {links : Nat} {place : Place} (h : t.kind place ≠ none)
    (hlink : follow = true → t.Plain place) :
    t.resolve follow links [] (place.map .normal) = some place := by
  cases links with
  | zero => exact @resolveWith_names t _ follow [] place h hlink
  | succ links => exact @resolveWith_names t _ follow [] place h hlink

theorem resolve_missing {links : Nat} {place : Place} {name : String} (h : t.Plain place)
    (hmissing : t.kind (place ++ [name]) = none) (rest : List Component) :
    t.resolve follow links [] (place.map .normal ++ .normal name :: rest) = none := by
  cases links with
  | zero => exact @resolveWith_missing t _ follow [] place name h hmissing rest
  | succ links => exact @resolveWith_missing t _ follow [] place name h hmissing rest

theorem symlinkMetadata_names (place : Place) (h : t.kind place ≠ none) :
    t.symlinkMetadata (place.map .normal) = t.kind place := by
  unfold symlinkMetadata
  rw [resolve_names h fun hfollow => absurd hfollow Bool.false_ne_true]

theorem symlinkMetadata_missing {place : Place} {name : String} (h : t.Plain place)
    (hmissing : t.kind (place ++ [name]) = none) (rest : List Component) :
    t.symlinkMetadata (place.map .normal ++ .normal name :: rest) = none := by
  unfold symlinkMetadata
  rw [resolve_missing h hmissing rest]

theorem canonicalize_names {place : Place} (h : t.Plain place) :
    t.canonicalize (place.map .normal) = some place :=
  resolve_names h.ne_none fun _ => h

/-- What a path resolves to, with links followed, is an entry that is no link. -/
theorem resolveWith_plain {onLink : Place → Path → List Component → Option Place}
    (hlinks : ∀ place target rest q, onLink place target rest = some q → t.kind place = some .dir →
      t.Plain q) {place : Place} {components : List Component} {q : Place} (hplace : t.Plain place)
    (h : t.resolveWith onLink true place components = some q) : t.Plain q := by
  induction components generalizing place with
  | nil =>
    rw [← Option.some.inj h]
    exact hplace
  | cons c rest ih =>
    unfold resolveWith at h
    by_cases hdir : t.kind place = some .dir
    · rw [if_neg (not_not.mpr hdir)] at h
      cases c with
      | parent =>
        apply ih _ h
        rcases List.eq_nil_or_concat' place with rfl | ⟨front, name, rfl⟩
        · exact Or.inl t.root
        · rw [List.dropLast_concat]
          exact plain_of_append hplace
      | normal name =>
        dsimp only at h
        cases hkind : t.kind (place ++ [name]) with
        | none =>
          rw [hkind] at h
          cases h
        | some kind =>
          rw [hkind] at h
          cases kind with
          | dir => exact ih (Or.inl hkind) h
          | file => exact ih (Or.inr hkind) h
          | link target =>
            dsimp only at h
            rw [if_neg fun hand : rest = [] ∧ true = false => absurd hand.2 (by decide)] at h
            exact hlinks place target rest q h hdir
    · rw [if_pos hdir] at h
      cases h

theorem resolve_plain {links : Nat} {place : Place} {components : List Component} {q : Place}
    (hplace : t.Plain place) (h : t.resolve true links place components = some q) : t.Plain q := by
  induction links generalizing place components q with
  | zero =>
    refine resolveWith_plain ?_ hplace h
    intro _ _ _ _ hlink
    cases hlink
  | succ links ih =>
    refine resolveWith_plain ?_ hplace h
    intro at' target rest q' hq hdir
    apply ih _ hq
    split_ifs
    · exact Or.inl t.root
    · exact Or.inl hdir

theorem plain_of_canonicalize {components : List Component} {q : Place}
    (h : t.canonicalize components = some q) : t.Plain q :=
  resolve_plain (Or.inl t.root) h

/-! ## Walks without links -/

/-- Where a path that meets no link resolves, it resolves to the place it leads to. -/
theorem resolveWith_of_plainWalk {place q place' : Place} {components : List Component}
    (hwalk : t.plainWalk place components = some q)
    (h : t.resolveWith onLink follow place components = some place') : place' = q := by
  induction components generalizing place with
  | nil => exact (Option.some.inj h).symm.trans (Option.some.inj hwalk)
  | cons c rest ih =>
    unfold resolveWith at h
    by_cases hdir : t.kind place = some .dir
    · rw [if_neg (not_not.mpr hdir)] at h
      cases c with
      | parent => exact ih hwalk h
      | normal name =>
        unfold plainWalk at hwalk
        dsimp only at h
        cases hkind : t.kind (place ++ [name]) with
        | none =>
          rw [hkind] at h
          cases h
        | some kind =>
          rw [hkind] at h hwalk
          cases kind with
          | dir => exact ih hwalk h
          | file => exact ih hwalk h
          | link target => cases hwalk
    · rw [if_pos hdir] at h
      cases h

theorem plainWalk_append {place : Place} (front back : List Component) :
    t.plainWalk place (front ++ back) =
      (t.plainWalk place front).bind fun middle => t.plainWalk middle back := by
  induction front generalizing place with
  | nil => rfl
  | cons c front ih =>
    cases c with
    | parent => exact ih
    | normal name =>
      rw [List.cons_append, plainWalk, plainWalk]
      cases hkind : t.kind (place ++ [name]) with
      | none => exact ih
      | some kind =>
        cases kind with
        | dir => exact ih
        | file => exact ih
        | link target => rfl

end Tree

end FileTree
