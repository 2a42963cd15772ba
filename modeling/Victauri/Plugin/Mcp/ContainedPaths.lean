import Mathlib.Data.List.Infix
import Victauri.Library.FileTree.Walks

/-!
# Paths below a base directory

`contained_or_missing` of the plugin's `mcp/mod.rs`.  Paths are absolute; a system follows so many
links of one.
-/

namespace Victauri.Plugin.Mcp.ContainedPaths

open FileTree

inductive Refusal where
  | unresolved
  | traversal
  deriving DecidableEq

def Refusal.text (error : String) : Refusal → String
  | .unresolved => "cannot resolve target path: " ++ error
  | .traversal => "path traversal not allowed"

/-- `std::fs::canonicalize`. -/
def canonicalize (links : Nat) (t : Tree) (path : List Component) : Option Place :=
  t.walkEnd ⟨links, [], path⟩

/-- `Path::exists`. -/
def pathExists (links : Nat) (t : Tree) (path : List Component) : Bool :=
  (canonicalize links t path).isSome

/-- `Path::ancestors`: the path, its parent, and so on to the root. -/
def ancestors (path : List Component) : List (List Component) := path.inits.reverse

def containedOrMissing (links : Nat) (t : Tree) (base target : List Component) :
    Except Refusal Bool :=
  match canonicalize links t base with
  | none => .ok false
  | some canonBase =>
      let targetExists := pathExists links t target
      let probe :=
        if targetExists then some target
        else ((ancestors target).drop 1).find? (pathExists links t)
      match probe with
      | none => .ok targetExists
      | some probe =>
          match canonicalize links t probe with
          | none => .error .unresolved
          | some canonical =>
              if canonBase <+: canonical then .ok targetExists else .error .traversal

/-! ## What may be told -/

/-- Trees equal inside `base` and on the way to it. -/
structure SameBase (links : Nat) (base : List Component) (t t' : Tree) : Prop where
  way : ∀ entry, t.Looks ⟨links, [], base⟩ entry → t.kind entry = t'.kind entry
  inside : ∀ canonBase, canonicalize links t base = some canonBase →
    ∀ entry, canonBase <+: entry → t.kind entry = t'.kind entry

/-- The entries inside `base` and those on the way to it, and the directories these are in. -/
def Known (links : Nat) (t : Tree) (base : List Component) (canonBase entry : Place) : Prop :=
  ∃ below, entry <+: below ∧ (t.Looks ⟨links, [], base⟩ below ∨ canonBase <+: below)

/-- A walk down from `base`, however many links it may follow, looks up nothing else. -/
def StaysKnown (t : Tree) (base : List Component) (names : List String) : Prop :=
  ∀ links canonBase, canonicalize links t base = some canonBase →
    ∀ more entry, t.Looks ⟨more, canonBase, names.map .normal⟩ entry →
      Known links t base canonBase entry

end Victauri.Plugin.Mcp.ContainedPaths
