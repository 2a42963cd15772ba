import Mathlib.Algebra.BigOperators.Fin
import Mathlib.Data.Fintype.Basic
import Victauri.Core.Usize

/-!
# The deepest chain of views

`deepest_view_chain` of `database.rs`: the views of a schema, each with a nesting cost,
form a graph by the names they mention, and the function returns the largest cost any
chain of them adds up to.  It is Tarjan's search for strongly connected components, with
an explicit stack, fused with a longest-path recursion over the components it closes.

What `sql_words`, `view_definition` and `table_mentions` read from a view's text comes
in as a `ViewDef`.  A `Vec` indexed by nodes is a function of `Fin n`; `group` and
`stack` have their last element first.
-/

namespace Victauri.Plugin.Database

open Victauri.Core

/-- A view definition: its name, the names it mentions, its nesting cost. -/
structure ViewDef where
  name : String
  mentions : List String
  cost : Nat

/-! ## The graph -/

/-- The names of the views, in order of first appearance.  A node is a place in this
list: a repeated name is one node. -/
def viewNames (views : List ViewDef) : List String :=
  views.foldl (fun names v => if v.name ∈ names then names else names ++ [v.name]) []

abbrev Node (views : List ViewDef) : Type := Fin (viewNames views).length

/-- `index.get(name)`. -/
def index (views : List ViewDef) (name : String) : Option (Node views) :=
  if h : name ∈ viewNames views then
    some ⟨(viewNames views).idxOf name, List.idxOf_lt_length_iff.mpr h⟩
  else none

/-- `own[node] = own[node].max(*cost)`. -/
def charge (views : List ViewDef) (own : Node views → Nat) (v : ViewDef) : Node views → Nat :=
  match index views v.name with
  | some node => Function.update own node (max (own node) v.cost)
  | none => own

def ownCosts (views : List ViewDef) : Node views → Nat :=
  views.foldl (charge views) fun _ => 0

/-- `deps[*node].extend(found)`. -/
def extend (views : List ViewDef) (deps : Node views → List (Node views)) (v : ViewDef) :
    Node views → List (Node views) :=
  match index views v.name with
  | some node => Function.update deps node (deps node ++ v.mentions.filterMap (index views))
  | none => deps

def dependencies (views : List ViewDef) : Node views → List (Node views) :=
  views.foldl (extend views) fun _ => []

/-! ## The search -/

structure Search (n : Nat) where
  /-- In which order the nodes were first seen, from 1; 0 is `UNSEEN`. -/
  order : Fin n → Nat
  low : Fin n → Nat
  isOpen : Fin n → Bool
  group : List (Fin n)
  chain : Fin n → Nat
  visited : Nat
  deepest : Nat
  /-- The nodes being searched, each with the place of its next dependency. -/
  stack : List (Fin n × Nat)

namespace Search

variable {n : Nat}

def init (n : Nat) : Search n :=
  { order := fun _ => 0, low := fun _ => 0, isOpen := fun _ => false, group := []
    chain := fun _ => 0, visited := 0, deepest := 0, stack := [] }

/-- See `node` for the first time: number it, open it and search it next. -/
def push (s : Search n) (node : Fin n) : Search n :=
  { s with
    visited := s.visited + 1
    order := Function.update s.order node (s.visited + 1)
    low := Function.update s.low node (s.visited + 1)
    isOpen := Function.update s.isOpen node true
    group := node :: s.group
    stack := (node, 0) :: s.stack }

/-- `group.split_off(start)`, where `start` is the last place of `node`: the members cut
off, and what stays. -/
def splitOff (node : Fin n) : List (Fin n) → List (Fin n) × List (Fin n)
  | [] => ([], [])
  | m :: ms =>
      if m = node then ([m], ms)
      else
        let (members, rest) := splitOff node ms
        (m :: members, rest)

/-- Close the group that `node` leads: charge its members once each, and below them the
heaviest chain they depend on. -/
def close (own : Fin n → Nat) (deps : Fin n → List (Fin n)) (s : Search n) (node : Fin n) :
    Search n :=
  let (members, rest) := splitOff node s.group
  let cost := members.foldl (fun sum m => Core.saturatingAdd sum (own m)) 0
  let below := ((members.flatMap deps).map s.chain).max?.getD 0
  let total := Core.saturatingAdd cost below
  { s with
    group := rest
    isOpen := fun m => if m ∈ members then false else s.isOpen m
    chain := fun m => if m ∈ members then total else s.chain m
    deepest := max s.deepest total }

/-- One round of `while let Some((node, next)) = stack.last_mut()`. -/
def step (own : Fin n → Nat) (deps : Fin n → List (Fin n)) (s : Search n) : Option (Search n) :=
  match s.stack with
  | [] => none
  | (node, next) :: rest =>
      match (deps node)[next]? with
      | some dep =>
          let s := { s with stack := (node, next + 1) :: rest }
          if s.order dep = 0 then some (s.push dep)
          else if s.isOpen dep then
            some { s with low := Function.update s.low node (min (s.low node) (s.order dep)) }
          else some s
      | none =>
          let s := { s with stack := rest }
          let s : Search n :=
            match rest with
            | (parent, _) :: _ =>
                { s with
                  low := Function.update s.low parent (min (s.low parent) (s.low node)) }
            | [] => s
          if s.low node ≠ s.order node then some s else some (s.close own deps node)

/-! ### The search ends

Every round takes one dependency of a node on the stack, or the node itself. -/

/-- The rounds still to come: for every unseen node, and for every node on the stack. -/
def work (deps : Fin n → List (Fin n)) (s : Search n) : Nat :=
  (∑ v with s.order v = 0, ((deps v).length + 1)) +
    (s.stack.map fun e => (deps e.1).length - e.2 + 1).sum

theorem work_push (deps : Fin n → List (Fin n)) (s : Search n) {dep : Fin n}
    (h : s.order dep = 0) : work deps (s.push dep) = work deps s := by
  have herase : Finset.univ.filter (fun v => (s.push dep).order v = 0) =
      (Finset.univ.filter fun v => s.order v = 0).erase dep := by
    ext v
    rw [Finset.mem_erase, Finset.mem_filter, Finset.mem_filter]
    by_cases hv : v = dep
    · simp [push, hv]
    · simp [push, hv]
  have hsum := Finset.add_sum_erase (Finset.univ.filter fun v => s.order v = 0)
    (fun v => (deps v).length + 1) (Finset.mem_filter.mpr ⟨Finset.mem_univ dep, h⟩)
  simp only [work, herase]
  simp only [push, List.map_cons, List.sum_cons]
  omega

theorem step_work {own : Fin n → Nat} {deps : Fin n → List (Fin n)} {s s' : Search n}
    (h : s.step own deps = some s') : work deps s' < work deps s := by
  rw [step] at h
  split at h
  · cases h
  · rename_i node next rest hstack
    have hwork : work deps { s with stack := rest } < work deps s := by
      simp only [work, hstack, List.map_cons, List.sum_cons]
      omega
    split at h
    · rename_i dep hdep
      obtain ⟨hnext, -⟩ := List.getElem?_eq_some_iff.mp hdep
      have hadvance : work deps { s with stack := (node, next + 1) :: rest } < work deps s := by
        simp only [work, hstack, List.map_cons, List.sum_cons]
        omega
      simp only at h
      split at h
      · rename_i hunseen
        obtain rfl := Option.some.inj h
        have hpush := work_push deps { s with stack := (node, next + 1) :: rest } hunseen
        rw [hpush]
        exact hadvance
      · split at h
        · obtain rfl := Option.some.inj h
          exact hadvance
        · obtain rfl := Option.some.inj h
          exact hadvance
    · -- Neither `low` nor what closing changes is counted.
      simp only at h
      split at h <;> split at h <;> (obtain rfl := Option.some.inj h; exact hwork)

/-- The `while` loop. -/
def loop (own : Fin n → Nat) (deps : Fin n → List (Fin n)) (s : Search n) : Search n :=
  match _h : s.step own deps with
  | none => s
  | some s' => loop own deps s'
termination_by work deps s
decreasing_by exact step_work ‹_›

/-- Search from `root`, unless it has been seen. -/
def searchFrom (own : Fin n → Nat) (deps : Fin n → List (Fin n)) (s : Search n) (root : Fin n) :
    Search n :=
  if s.order root ≠ 0 then s else loop own deps { s.push root with stack := [(root, 0)] }

/-- Search from every node. -/
def searchAll (own : Fin n → Nat) (deps : Fin n → List (Fin n)) : Search n :=
  (List.finRange n).foldl (searchFrom own deps) (init n)

end Search

def deepestViewChain (views : List ViewDef) : Nat :=
  (Search.searchAll (ownCosts views) (dependencies views)).deepest

end Victauri.Plugin.Database
