import Victauri.Library.FileTree

/-!
# Writing inside the project only

`ensure_inside_project` and `checked_record_output` of the CLI's `main.rs`.  A path is its
components, an absolute one of them by `components`; relative paths stand below the working
directory.
-/

namespace Victauri.Cli.InsideProject

open FileTree

/-- Why a path is refused. -/
inductive Refusal where
  | outside
  | notPlain
  | symlink (current : List Component)
  | notDirectory (current : List Component)
  | unresolved (existing : List Component)
  | resolvesOutside (canonical : Place)
  deriving DecidableEq

/-- The loop over the components below the root. -/
def checkComponents (t : Tree) (current : List Component) :
    List Component → Except Refusal Unit
  | [] => .ok ()
  | .parent :: _ => .error .notPlain
  | .normal name :: rest =>
      let current := current ++ [.normal name]
      match t.symlinkMetadata current with
      | some (.link _) => .error (.symlink current)
      | some kind =>
          if rest ≠ [] ∧ kind ≠ .dir then .error (.notDirectory current)
          else checkComponents t current rest
      -- missing: the components behind it are not looked at
      | none => .ok ()

/-- `existing`, from the components with the last one first. -/
def deepestExisting (t : Tree) : List Component → List Component
  | [] => []
  | c :: before =>
      if (t.symlinkMetadata (c :: before).reverse).isSome then (c :: before).reverse
      else deepestExisting t before

def ensureInsideProject (t : Tree) (root : List Component) (path : Path) :
    Except Refusal Unit :=
  if path.absolute = true ∧ root <+: path.components then
    match checkComponents t root (path.components.drop root.length) with
    | .error refusal => .error refusal
    | .ok () =>
        let existing := deepestExisting t path.components.reverse
        match t.canonicalize existing with
        | none => .error (.unresolved existing)
        | some canonical =>
            if root <+: canonical.map .normal then .ok ()
            else .error (.resolvesOutside canonical)
  else .error .outside

def refuseSymlink (t : Tree) (components : List Component) : Except Refusal Unit :=
  match t.symlinkMetadata components with
  | some (.link _) => .error (.symlink components)
  | _ => .ok ()

def checkedRecordOutput (t : Tree) (cwd : List Component) (output : Path) :
    Except Refusal (List Component) :=
  match t.canonicalize cwd with
  | none => .error (.unresolved cwd)
  | some canonical =>
      let cwd := canonical.map Component.normal
      let absolute := if output.absolute then output.components else cwd ++ output.components
      let checked :=
        if cwd <+: absolute then ensureInsideProject t cwd ⟨true, absolute⟩
        else refuseSymlink t absolute
      match checked with
      | .error refusal => .error refusal
      | .ok () => .ok absolute

end Victauri.Cli.InsideProject
