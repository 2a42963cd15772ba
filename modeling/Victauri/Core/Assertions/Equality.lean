import Victauri.Core.Assertions
import Victauri.Core.Verification.Compare

/-!
# Equality of values

Without floats, strict equality is equality of what the values denote, and the equality of the
assertions adds numbers against their canonical texts.
-/

namespace Victauri.Core.Verification

open Json

/-! ## What a value denotes -/

/-- A JSON value with integers for numbers; an object is a finite map. -/
inductive Meaning where
  | null
  | bool (b : Bool)
  | integer (z : Int)
  | string (s : String)
  | array (items : List Meaning)
  | object (get : String → Option Meaning)

mutual

def denote : Value → Meaning
  | .null => .null
  | .bool b => .bool b
  | .number n => .integer ((integerValue n).getD 0)
  | .string s => .string s
  | .array items => .array (denoteItems items)
  | .object members => .object (denoteMembers members)

def denoteItems : List Value → List Meaning
  | [] => []
  | v :: items => denote v :: denoteItems items

def denoteMembers : List (String × Value) → String → Option Meaning
  | [], _ => none
  | (key, v) :: members, k => if k = key then some (denote v) else denoteMembers members k

end

theorem denoteMembers_eq (members : List (String × Value)) (k : String) :
    denoteMembers members k = (get k members).map denote := by
  induction members with
  | nil => rw [denoteMembers]; rfl
  | cons m members ih =>
    obtain ⟨key, v⟩ := m
    rw [denoteMembers, get_cons, ih]
    split_ifs
    · rfl
    · rfl

/-- A value without floats, in which no object has a key twice. -/
inductive IntegersOnly : Value → Prop
  | null : IntegersOnly .null
  | bool {b} : IntegersOnly (.bool b)
  | number {n} (h : (integerValue n).isSome = true) : IntegersOnly (.number n)
  | string {s} : IntegersOnly (.string s)
  | array {items} (h : ∀ v ∈ items, IntegersOnly v) : IntegersOnly (.array items)
  | object {members} (hkeys : DistinctKeys members) (h : ∀ m ∈ members, IntegersOnly m.2) :
      IntegersOnly (.object members)

section Strict

variable (floats : Floats)

theorem numbersEqual_integers {m n : Number} {y z : Int} (hm : integerValue m = some y)
    (hn : integerValue n = some z) : numbersEqual floats m n = true ↔ y = z := by
  have heq : numbersEqual floats m n = (integerValue m == integerValue n) := by
    cases m with
    | float x => cases hm
    | posInt m =>
      cases n with
      | float x => cases hn
      | posInt n => rfl
      | negInt n => rfl
    | negInt m =>
      cases n with
      | float x => cases hn
      | posInt n => rfl
      | negInt n => rfl
  rw [heq, hm, hn, beq_iff_eq, Option.some.injEq]

/-- Strict equality of two values is equality of what they denote. -/
def SameAs (a b : Value) : Prop := strictlyEqual floats a b = true ↔ denote a = denote b

theorem sameAs_number {m n : Number} (hm : (integerValue m).isSome = true)
    (hn : (integerValue n).isSome = true) : SameAs floats (.number m) (.number n) := by
  obtain ⟨y, hy⟩ := Option.isSome_iff_exists.mp hm
  obtain ⟨z, hz⟩ := Option.isSome_iff_exists.mp hn
  unfold SameAs
  rw [strictlyEqual, numbersEqual_integers floats hy hz, denote, denote, hy, hz]
  exact ⟨congrArg Meaning.integer, Meaning.integer.inj⟩

theorem itemsStrictlyEqual_iff {xs ys : List Value}
    (ih : ∀ x ∈ xs, ∀ y ∈ ys, SameAs floats x y) :
    (xs.length = ys.length ∧ itemsStrictlyEqual floats xs ys = true) ↔
      denoteItems xs = denoteItems ys := by
  induction xs generalizing ys with
  | nil =>
    cases ys with
    | nil => exact ⟨fun _ => rfl, fun _ => ⟨rfl, rfl⟩⟩
    | cons y ys =>
      rw [denoteItems, denoteItems]
      exact ⟨fun h => absurd h.1 (Nat.zero_ne_add_one _),
        fun h => absurd h.symm (List.cons_ne_nil _ _)⟩
  | cons x xs ihxs =>
    cases ys with
    | nil =>
      rw [denoteItems, denoteItems]
      exact ⟨fun h => absurd h.1 (Nat.add_one_ne_zero _),
        fun h => absurd h (List.cons_ne_nil _ _)⟩
    | cons y ys =>
      have hx : strictlyEqual floats x y = true ↔ denote x = denote y :=
        ih x List.mem_cons_self y List.mem_cons_self
      rw [denoteItems, denoteItems, itemsStrictlyEqual, List.length_cons, List.length_cons,
        Nat.add_right_cancel_iff, Bool.and_eq_true, List.cons.injEq, hx,
        ← ihxs fun x hx y hy => ih x (List.mem_cons_of_mem _ hx) y (List.mem_cons_of_mem _ hy)]
      exact and_left_comm

theorem membersStrictlyEqual_iff {ms ns : List (String × Value)} :
    membersStrictlyEqual floats ms ns = true ↔
      ∀ m ∈ ms, ∃ y, get m.1 ns = some y ∧ strictlyEqual floats m.2 y = true := by
  induction ms with
  | nil => exact ⟨fun _ => List.forall_mem_nil _, fun _ => rfl⟩
  | cons m ms ih =>
    obtain ⟨key, x⟩ := m
    rw [membersStrictlyEqual, Bool.and_eq_true, ih, List.forall_mem_cons]
    apply and_congr _ Iff.rfl
    cases hy : get key ns with
    | none =>
      constructor
      · intro h
        cases h
      · rintro ⟨y, hsome, -⟩
        cases hsome
    | some y =>
      constructor
      · exact fun h => ⟨y, rfl, h⟩
      · rintro ⟨y', hsome, h⟩
        rw [← Option.some.inj hsome] at h
        exact h

theorem denoteMembers_of_mem {ms : List (String × Value)} (hkeys : DistinctKeys ms)
    {m : String × Value} (h : m ∈ ms) : denoteMembers ms m.1 = some (denote m.2) := by
  rw [denoteMembers_eq, get_of_mem hkeys h]
  rfl

/-- With distinct keys on both sides, members that all are in the other object make the objects
the same map. -/
theorem sameAs_object {ms ns : List (String × Value)} (hms : DistinctKeys ms)
    (hns : DistinctKeys ns) (ih : ∀ m ∈ ms, ∀ n ∈ ns, SameAs floats m.2 n.2) :
    SameAs floats (.object ms) (.object ns) := by
  unfold SameAs
  rw [strictlyEqual, Bool.and_eq_true, beq_iff_eq, membersStrictlyEqual_iff, denote, denote]
  constructor
  · rintro ⟨hlength, hmembers⟩
    have hsome : ∀ m ∈ ms, (get m.1 ns).isSome := by
      intro m hm
      obtain ⟨y, hy, -⟩ := hmembers m hm
      rw [hy]
      rfl
    have hback := (keys_of_length hms hns hsome).mpr hlength
    refine congrArg Meaning.object (funext fun k => ?_)
    cases hk : get k ms with
    | some x =>
      have hm := mem_of_get hk
      obtain ⟨y, hy, hequal⟩ := hmembers (k, x) hm
      have hsame := (ih (k, x) hm (k, y) (mem_of_get hy)).mp hequal
      rw [denoteMembers_eq, denoteMembers_eq, hk, hy, Option.map_some, Option.map_some]
      exact congrArg some hsame
    | none =>
      have hnone : get k ns = none := by
        by_contra hne
        obtain ⟨y, hy⟩ := Option.ne_none_iff_exists'.mp hne
        have hsome' := hback (k, y) (mem_of_get hy)
        rw [hk] at hsome'
        cases hsome'
      rw [denoteMembers_eq, denoteMembers_eq, hk, hnone]
  · intro h
    have hmaps : ∀ k, denoteMembers ms k = denoteMembers ns k :=
      fun k => congrFun (Meaning.object.inj h) k
    have hmembers : ∀ m ∈ ms, ∃ y, get m.1 ns = some y ∧ strictlyEqual floats m.2 y = true := by
      intro m hm
      have hk := hmaps m.1
      rw [denoteMembers_of_mem hms hm, denoteMembers_eq] at hk
      obtain ⟨y, hy, hdenote⟩ := Option.map_eq_some_iff.mp hk.symm
      exact ⟨y, hy, (ih m hm (m.1, y) (mem_of_get hy)).mpr hdenote.symm⟩
    refine ⟨?_, hmembers⟩
    have hsome : ∀ m ∈ ms, (get m.1 ns).isSome := by
      intro m hm
      obtain ⟨y, hy, -⟩ := hmembers m hm
      rw [hy]
      rfl
    rw [← keys_of_length hms hns hsome]
    intro n hn
    have hk := hmaps n.1
    rw [denoteMembers_of_mem hns hn, denoteMembers_eq] at hk
    obtain ⟨x, hx, -⟩ := Option.map_eq_some_iff.mp hk
    rw [hx]
    rfl

/-- Values of different kinds are neither equal nor denote the same. -/
theorem sameAs {a b : Value} (ha : IntegersOnly a) (hb : IntegersOnly b) : SameAs floats a b := by
  induction a using Value.inductOn generalizing b with
  | null => cases hb <;> simp [SameAs, strictlyEqual, valueEq, denote]
  | bool c => cases hb <;> simp [SameAs, strictlyEqual, valueEq, denote]
  | string s => cases hb <;> simp [SameAs, strictlyEqual, valueEq, denote]
  | number n =>
    cases ha with
    | number hn =>
      cases hb with
      | number hm => exact sameAs_number floats hn hm
      | _ => simp [SameAs, strictlyEqual, valueEq, denote]
  | array xs ih =>
    cases ha with
    | array hxs =>
      cases hb with
      | array hys =>
        unfold SameAs
        rw [strictlyEqual, Bool.and_eq_true, beq_iff_eq,
          itemsStrictlyEqual_iff floats fun x hx y hy => ih x hx (hxs x hx) (hys y hy), denote,
          denote]
        exact ⟨congrArg Meaning.array, Meaning.array.inj⟩
      | _ => simp [SameAs, strictlyEqual, valueEq, denote]
  | object ms ih =>
    cases ha with
    | object hkeys hms =>
      cases hb with
      | object hkeys' hns =>
        exact sameAs_object floats hkeys hkeys' fun m hm n hn => ih m hm (hms m hm) (hns n hn)
      | _ => simp [SameAs, strictlyEqual, valueEq, denote]

end Strict

/-! ## The equality of the assertions -/

section Coercion

variable (floats : Floats) (texts : FloatTexts)

/-- A text that is how a number is printed, and is read as that number. -/
def CanonicalText (s : String) (n : Number) : Prop :=
  readNumber texts s.toList = some n ∧ printNumber texts n = s.toList

/-- The integer a number has as its value, if it is whole. -/
def wholeValue : Number → Option Int
  | .float x => floats.whole x
  | n => integerValue n

theorem canonicalNumber_eq_some {s : String} {n : Number} :
    canonicalNumber texts s = some n ↔ CanonicalText texts s n := by
  unfold canonicalNumber CanonicalText
  rw [Option.filter_eq_some_iff, beq_iff_eq]

theorem numbersEqual_whole {m n : Number} {z : Int} (hn : integerValue n = some z) :
    numbersEqual floats m n = true ↔ wholeValue floats m = some z := by
  cases m with
  | posInt m =>
    rw [numbersEqual_integers floats rfl hn]
    exact Option.some_inj.symm
  | negInt m =>
    rw [numbersEqual_integers floats rfl hn]
    exact Option.some_inj.symm
  | float x =>
    have heq : numbersEqual floats (.float x) n =
        (floats.whole x).any fun k => integerValue n == some k := by
      cases n with
      | float y => cases hn
      | posInt n => rfl
      | negInt n => rfl
    have hwhole : wholeValue floats (.float x) = floats.whole x := rfl
    rw [heq, hn, hwhole, Option.any_eq_true]
    constructor
    · rintro ⟨k, hk, hequal⟩
      rw [hk, beq_iff_eq.mp hequal]
    · exact fun h => ⟨z, h, beq_self_eq_true _⟩

/-- A number equals a text that is canonical for a number of the same value. -/
theorem number_string {n : Number} {z : Int} (hn : integerValue n = some z) (s : String) :
    jsonValuesEqual floats texts (.number n) (.string s) = true ↔
      ∃ m, CanonicalText texts s m ∧ wholeValue floats m = some z := by
  have heq : jsonValuesEqual floats texts (.number n) (.string s) =
      (canonicalNumber texts s).any fun parsed => numbersEqual floats parsed n := rfl
  rw [heq, Option.any_eq_true]
  constructor
  · rintro ⟨m, hm, hequal⟩
    exact ⟨m, (canonicalNumber_eq_some texts).mp hm, (numbersEqual_whole floats hn).mp hequal⟩
  · rintro ⟨m, hm, hwhole⟩
    exact ⟨m, (canonicalNumber_eq_some texts).mpr hm, (numbersEqual_whole floats hn).mpr hwhole⟩

/-- The texts canonical for integers are their decimal texts. -/
theorem canonicalText_integer {z : Int} (hlow : -2 ^ 63 ≤ z) (hhigh : z < 2 ^ 64) (s : String) :
    (∃ m, CanonicalText texts s m ∧ integerValue m = some z) ↔ s.toList = printInteger z := by
  constructor
  · rintro ⟨m, ⟨-, hprint⟩, hvalue⟩
    rw [← hprint, printNumber_of_integerValue texts hvalue]
  · intro hs
    obtain ⟨n, hread, hvalue⟩ := readNumber_printInteger texts hlow hhigh
    refine ⟨n, ⟨?_, ?_⟩, hvalue⟩
    · rw [hs, hread]
    · rw [hs, printNumber_of_integerValue texts hvalue]

theorem integerValue_bounds {n : Number} {z : Int} (h : integerValue n = some z) :
    -2 ^ 63 ≤ z ∧ z < 2 ^ 64 := by
  cases n with
  | float x => cases h
  | posInt n =>
    have hn := n.toNat_lt
    have hz : (n.toNat : Int) = z := Option.some.inj h
    omega
  | negInt n =>
    have hlow := n.le_toInt
    have hhigh := n.toInt_lt
    have hz : n.toInt = z := Option.some.inj h
    omega

/-- A number against a string, one way or the other. -/
def NumberAgainstString (a b : Value) : Prop :=
  (∃ n s, a = .number n ∧ b = .string s) ∨ ∃ n s, a = .string s ∧ b = .number n

theorem jsonValuesEqual_strict {a b : Value} (h : ¬ NumberAgainstString a b) :
    jsonValuesEqual floats texts a b = strictlyEqual floats a b := by
  unfold jsonValuesEqual
  split
  · exact absurd (Or.inl ⟨_, _, rfl, rfl⟩) h
  · exact absurd (Or.inr ⟨_, _, rfl, rfl⟩) h
  · rfl

end Coercion

/-- A value without floats and without a repeated key. -/
abbrev IntegerValue : Type := { v : Value // IntegersOnly v }

/-- On values whose numbers are integers, strict equality is an equivalence that holds exactly when
the values denote the same.  The equality of the assertions is reflexive and symmetric and agrees
with it, but for a number against a string, which has to be a canonical text of a number of that
value; an integer's is its decimal text. -/
theorem jsonValuesEqual_denotes (floats : Floats) (texts : FloatTexts) :
    Equivalence (fun a b : IntegerValue => strictlyEqual floats a.1 b.1 = true) ∧
      (∀ a b : IntegerValue, strictlyEqual floats a.1 b.1 = true ↔ denote a.1 = denote b.1) ∧
      (∀ a : IntegerValue, jsonValuesEqual floats texts a.1 a.1 = true) ∧
      (∀ a b : IntegerValue,
        jsonValuesEqual floats texts a.1 b.1 = jsonValuesEqual floats texts b.1 a.1) ∧
      (∀ a b : IntegerValue, ¬ NumberAgainstString a.1 b.1 →
        jsonValuesEqual floats texts a.1 b.1 = strictlyEqual floats a.1 b.1) ∧
      (∀ n z, integerValue n = some z → ∀ s,
        (jsonValuesEqual floats texts (.number n) (.string s) = true ↔
          ∃ m, CanonicalText texts s m ∧ wholeValue floats m = some z) ∧
        ((∃ m, CanonicalText texts s m ∧ integerValue m = some z) ↔
          s.toList = printInteger z)) ∧
      ∀ s t, s ≠ t → jsonValuesEqual floats texts (.string s) (.string t) = false := by
  have hsame (a b : IntegerValue) : strictlyEqual floats a.1 b.1 = true ↔ denote a.1 = denote b.1 :=
    sameAs floats a.2 b.2
  refine ⟨⟨?_, ?_, ?_⟩, hsame, ?_, ?_, fun a b h => jsonValuesEqual_strict floats texts h, ?_, ?_⟩
  · exact fun a => (hsame a a).mpr rfl
  · exact fun {a b} h => (hsame b a).mpr ((hsame a b).mp h).symm
  · exact fun {a b c} hab hbc => (hsame a c).mpr (((hsame a b).mp hab).trans ((hsame b c).mp hbc))
  · intro a
    rw [jsonValuesEqual_strict floats texts, hsame]
    rintro (⟨n, s, hn, hs⟩ | ⟨n, s, hs, hn⟩)
    · rw [hn] at hs
      cases hs
    · rw [hn] at hs
      cases hs
  · intro a b
    by_cases h : NumberAgainstString a.1 b.1
    · obtain (⟨n, s, ha, hb⟩ | ⟨n, s, ha, hb⟩) := h
      · rw [ha, hb]
        rfl
      · rw [ha, hb]
        rfl
    · have h' : ¬ NumberAgainstString b.1 a.1 := by
        rintro (⟨n, s, hb, ha⟩ | ⟨n, s, hb, ha⟩)
        · exact h (Or.inr ⟨n, s, ha, hb⟩)
        · exact h (Or.inl ⟨n, s, ha, hb⟩)
      rw [jsonValuesEqual_strict floats texts h, jsonValuesEqual_strict floats texts h',
        Bool.eq_iff_iff, hsame, hsame, eq_comm]
  · intro n z hn s
    obtain ⟨hlow, hhigh⟩ := integerValue_bounds hn
    exact ⟨number_string floats texts hn s, canonicalText_integer texts hlow hhigh s⟩
  · intro s t hne
    change strictlyEqual floats (.string s) (.string t) = false
    rw [strictlyEqual, valueEq, beq_eq_false_iff_ne]
    · exact hne
    all_goals
      intro _ _ h
      cases h

end Victauri.Core.Verification
