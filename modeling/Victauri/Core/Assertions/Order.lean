import Victauri.Core.Assertions.Equality

/-!
# Which comparison of two integers passes

Equality of integers is exact; the order goes through `f64`, which does not tell neighbouring
large integers apart.
-/

namespace Victauri.Core.Verification

open Json

section Comparison

variable (floats : Floats) (texts : Texts)

/-- Whether the assertion that `actual` meets a condition against `expected` passes. -/
def passes (condition : AssertionCondition) (actual expected : Value) : Bool :=
  (evaluateAssertion floats texts actual ⟨"", condition, expected⟩).passed

/-- Of the three comparisons exactly the one of the integers' order passes. -/
def OrderPasses (a b : Number) (y z : Int) : Prop :=
  (passes floats texts .equals (.number a) (.number b) = true ↔ y = z) ∧
    (passes floats texts .greaterThan (.number a) (.number b) = true ↔ z < y) ∧
    (passes floats texts .lessThan (.number a) (.number b) = true ↔ y < z)

variable {a b : Number} {y z : Int} (ha : integerValue a = some y) (hb : integerValue b = some z)

include ha

theorem asF64_integer : asF64 a = Binary64.ofInt y := by
  cases a with
  | float x => cases ha
  | posInt n => exact congrArg Binary64.ofInt (Option.some.inj ha)
  | negInt n => exact congrArg Binary64.ofInt (Option.some.inj ha)

theorem natAbs_lt : y.natAbs < 2 ^ 64 := by
  obtain ⟨hlow, hhigh⟩ := integerValue_bounds ha
  omega

include hb

theorem passes_equals : passes floats texts .equals (.number a) (.number b) = true ↔ y = z := by
  change strictlyEqual floats (.number a) (.number b) = true ↔ y = z
  rw [strictlyEqual]
  exact numbersEqual_integers floats ha hb

theorem passes_greaterThan : passes floats texts .greaterThan (.number a) (.number b) = true ↔
    z < y ∧ Binary64.ofInt z ≠ Binary64.ofInt y := by
  change Binary64.lt (asF64 b) (asF64 a) = true ↔ _
  rw [asF64_integer ha, asF64_integer hb]
  exact Binary64.lt_ofInt (natAbs_lt hb) (natAbs_lt ha)

theorem passes_lessThan : passes floats texts .lessThan (.number a) (.number b) = true ↔
    y < z ∧ Binary64.ofInt y ≠ Binary64.ofInt z := by
  change Binary64.lt (asF64 a) (asF64 b) = true ↔ _
  rw [asF64_integer ha, asF64_integer hb]
  exact Binary64.lt_ofInt (natAbs_lt ha) (natAbs_lt hb)

end Comparison

/-- The comparisons match the integers' order if and only if the integers are equal or have
different `f64`s. -/
theorem evaluateAssertion_order_iff (floats : Floats) (texts : Texts) {a b : Number} {y z : Int}
    (ha : integerValue a = some y) (hb : integerValue b = some z) :
    OrderPasses floats texts a b y z ↔ y = z ∨ Binary64.ofInt y ≠ Binary64.ofInt z := by
  unfold OrderPasses
  rw [passes_equals floats texts ha hb, passes_greaterThan floats texts ha hb,
    passes_lessThan floats texts ha hb]
  constructor
  · rintro ⟨-, hgreater, hless⟩
    rcases Int.lt_trichotomy y z with hlt | heq | hgt
    · exact Or.inr (hless.mpr hlt).2
    · exact Or.inl heq
    · exact Or.inr (hgreater.mpr hgt).2.symm
  · rintro (rfl | hne)
    · exact ⟨Iff.rfl, ⟨fun h => h.1, fun h => absurd h (Int.lt_irrefl _)⟩,
        ⟨fun h => h.1, fun h => absurd h (Int.lt_irrefl _)⟩⟩
    · exact ⟨Iff.rfl, ⟨fun h => h.1, fun h => ⟨h, hne.symm⟩⟩, ⟨fun h => h.1, fun h => ⟨h, hne⟩⟩⟩

/-! ## Neighbouring ids -/

/-- No float, and no text of one. -/
def noFloats : Floats := ⟨fun _ _ => false, fun _ _ => false, fun _ => none, fun _ _ => false⟩

def noTexts : Texts where
  parse _ := none
  print _ := []
  parseF64 _ := none
  debug _ := ""

theorem evaluateAssertion_order_small :
    OrderPasses noFloats noTexts (.posInt 3) (.negInt (-2)) 3 (-2) ↔
      (3 : Int) = -2 ∨ Binary64.ofInt 3 ≠ Binary64.ofInt (-2) :=
  evaluateAssertion_order_iff noFloats noTexts rfl rfl

/-- Of two ids next to each other none is equal to, greater than or less than the other. -/
theorem evaluateAssertion_order_ids :
    passes noFloats noTexts .equals (.number (.posInt 9007199254740993))
        (.number (.posInt 9007199254740992)) = false ∧
      passes noFloats noTexts .greaterThan (.number (.posInt 9007199254740993))
        (.number (.posInt 9007199254740992)) = false ∧
      passes noFloats noTexts .lessThan (.number (.posInt 9007199254740993))
        (.number (.posInt 9007199254740992)) = false := by
  decide

end Victauri.Core.Verification
