import Victauri.Core.Verification
import Victauri.Core.Json.Printer

/-!
# Where two values differ

A position is a way down a value.  Two values differ at a position that one of them does not
have, or where they have unequal values that cannot be gone into on both sides; a comparison
reports the first such position on each way down.
-/

namespace Victauri.Core.Verification

open Json

/-! ## Values as the types promise them -/

/-- No object of the value has a key twice. -/
inductive MapsOnly : Value → Prop
  | null : MapsOnly .null
  | bool {b} : MapsOnly (.bool b)
  | number {n} : MapsOnly (.number n)
  | string {s} : MapsOnly (.string s)
  | array {items} (h : ∀ v ∈ items, MapsOnly v) : MapsOnly (.array items)
  | object {members} (hkeys : DistinctKeys members) (h : ∀ m ∈ members, MapsOnly m.2) :
      MapsOnly (.object members)

mutual

/-- How deep a value nests. -/
def nesting : Value → Nat
  | .array items => itemsNesting items + 1
  | .object members => membersNesting members + 1
  | _ => 0

def itemsNesting : List Value → Nat
  | [] => 0
  | v :: vs => max (nesting v) (itemsNesting vs)

def membersNesting : List (String × Value) → Nat
  | [] => 0
  | (_, v) :: ms => max (nesting v) (membersNesting ms)

end

/-! ## Positions -/

/-- One step down a value. -/
inductive Step where
  | key (k : String)
  | index (i : Nat)
  deriving DecidableEq

abbrev Position := List Step

/-- What a step leads to. -/
def child : Step → Value → Option Value
  | .key k, .object members => get k members
  | .index i, .array items => items[i]?
  | _, _ => none

/-- What is found at a position. -/
def valueAt (v : Option Value) (p : Position) : Option Value :=
  p.foldl (fun v s => v.bind (child s)) v

/-- Both are objects, or both arrays: a comparison goes into them. -/
def bothContainers : Value → Value → Bool
  | .object _, .object _ => true
  | .array _, .array _ => true
  | _, _ => false

section Differences

variable (floats : Floats)

/-- A difference: only one side is there, or two values are that are unequal and not compared
inside. -/
def Differ : Option Value → Option Value → Prop
  | some f, some b => strictlyEqual floats f b = false ∧ bothContainers f b = false
  | some _, none => True
  | none, some _ => True
  | none, none => False

/-- The two sides differ at a position and nowhere above it. -/
def MinimalDifference (f b : Option Value) (p : Position) : Prop :=
  Differ floats (valueAt f p) (valueAt b p) ∧
    ∀ q, q <+: p → q ≠ p → ¬Differ floats (valueAt f q) (valueAt b q)

def stepPath (path : String) : Step → String
  | .key k => keyPath path k
  | .index i => indexPath path i

/-- The path text of a position, from a path on. -/
def pathAt (path : String) (p : Position) : String := p.foldl stepPath path

/-- How a difference at a position is to be reported. -/
def report (path : String) (f b : Option Value) (p : Position) : Divergence :=
  match valueAt f p, valueAt b p with
  | some x, some y =>
      { path := reportPath (pathAt path p), frontendValue := x, backendValue := y
        severity := classifySeverity floats x y }
  | x, y =>
      { path := pathAt path p, frontendValue := x.getD .null, backendValue := y.getD .null
        severity := .warning }

variable {floats}

theorem minimalDifference_nil {f b : Option Value} :
    MinimalDifference floats f b [] ↔ Differ floats f b := by
  constructor
  · exact And.left
  · intro h
    refine ⟨h, ?_⟩
    intro q hq hne
    exact absurd (List.prefix_nil.mp hq) hne

theorem minimalDifference_cons {f b : Option Value} {s : Step} {p : Position} :
    MinimalDifference floats f b (s :: p) ↔
      ¬Differ floats f b ∧
        MinimalDifference floats (f.bind (child s)) (b.bind (child s)) p := by
  constructor
  · intro h
    refine ⟨h.2 [] List.nil_prefix (List.cons_ne_nil s p).symm, h.1, ?_⟩
    intro q hq hne
    refine h.2 (s :: q) (List.cons_prefix_cons.mpr ⟨rfl, hq⟩) ?_
    intro heq
    exact hne (List.cons.inj heq).2
  · intro h
    refine ⟨h.2.1, ?_⟩
    intro q hq hne
    cases q with
    | nil => exact h.1
    | cons s' q =>
        obtain ⟨rfl, hprefix⟩ := List.cons_prefix_cons.mp hq
        refine h.2.2 q hprefix ?_
        intro heq
        exact hne (congrArg (s' :: ·) heq)

theorem minimalDifference_none {p : Position} : ¬MinimalDifference floats none none p := by
  intro h
  have hnone : valueAt none p = none := by
    induction p with
    | nil => rfl
    | cons s p ih => exact ih (minimalDifference_cons.mp h).2
  have hdiffer := h.1
  rw [hnone] at hdiffer
  exact hdiffer

/-- Where one side is missing nothing below is looked at. -/
theorem minimalDifference_frontendOnly {x : Value} {p : Position} :
    MinimalDifference floats (some x) none p ↔ p = [] := by
  cases p with
  | nil => exact ⟨fun _ => rfl, fun _ => minimalDifference_nil.mpr trivial⟩
  | cons s p =>
      rw [minimalDifference_cons]
      exact ⟨fun h => absurd trivial h.1, fun h => absurd h (List.cons_ne_nil s p)⟩

theorem minimalDifference_backendOnly {y : Value} {p : Position} :
    MinimalDifference floats none (some y) p ↔ p = [] := by
  cases p with
  | nil => exact ⟨fun _ => rfl, fun _ => minimalDifference_nil.mpr trivial⟩
  | cons s p =>
      rw [minimalDifference_cons]
      exact ⟨fun h => absurd trivial h.1, fun h => absurd h (List.cons_ne_nil s p)⟩

/-- Values that are not compared inside differ as wholes. -/
theorem minimalDifference_leaf {x y : Value} (h : bothContainers x y = false) {p : Position} :
    MinimalDifference floats (some x) (some y) p ↔ strictlyEqual floats x y = false ∧ p = [] := by
  cases p with
  | nil =>
      rw [minimalDifference_nil]
      exact ⟨fun hdiffer => ⟨hdiffer.1, rfl⟩, fun hdiffer => ⟨hdiffer.1, h⟩⟩
  | cons s p =>
      rw [minimalDifference_cons]
      constructor
      · rintro ⟨hsame, hbelow⟩
        -- equal values that are not compared inside have nothing inside
        have hequal : strictlyEqual floats x y = true := by
          by_contra hne
          exact hsame ⟨Bool.eq_false_iff.mpr hne, h⟩
        have hchild : child s x = none ∧ child s y = none := by
          cases x <;> cases y <;> cases s <;> first
            | exact ⟨rfl, rfl⟩
            | exact absurd hequal Bool.false_ne_true
            | exact absurd h.symm Bool.false_ne_true
        rw [Option.bind_some, Option.bind_some, hchild.1, hchild.2] at hbelow
        exact absurd hbelow minimalDifference_none
      · intro hdiffer
        exact absurd hdiffer.2 (List.cons_ne_nil s p)

/-- Values that are compared inside differ below. -/
theorem minimalDifference_both {x y : Value} (h : bothContainers x y = true) {p : Position} :
    MinimalDifference floats (some x) (some y) p ↔
      ∃ s q, p = s :: q ∧ MinimalDifference floats (child s x) (child s y) q := by
  have hsame : ¬Differ floats (some x) (some y) := by
    intro hdiffer
    rw [hdiffer.2] at h
    exact Bool.false_ne_true h
  cases p with
  | nil =>
      rw [minimalDifference_nil]
      refine ⟨fun hdiffer => absurd hdiffer hsame, ?_⟩
      rintro ⟨s, q, hp, -⟩
      exact absurd hp.symm (List.cons_ne_nil s q)
  | cons s p =>
      rw [minimalDifference_cons]
      constructor
      · intro hdiffer
        exact ⟨s, p, rfl, hdiffer.2⟩
      · rintro ⟨s', q, hp, hbelow⟩
        obtain ⟨rfl, rfl⟩ := List.cons.inj hp
        exact ⟨hsame, hbelow⟩

end Differences

end Victauri.Core.Verification
