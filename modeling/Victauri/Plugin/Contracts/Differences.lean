import Mathlib.Data.List.Basic
import Mathlib.Data.List.Nodup
import Victauri.Plugin.Contracts

/-!
# What a comparison of shapes reports

Each report is about a position where the shapes first differ, and each such position is reported
once.
-/

namespace Victauri.Plugin.Contracts

open Core.Json (Value)

/-! ## Shapes whose maps hold a key once -/

inductive JsonShape.Distinct : JsonShape → Prop
  | null : Distinct .null
  | bool : Distinct .bool
  | number : Distinct .number
  | string : Distinct .string
  | array {elem : JsonShape} (helem : Distinct elem) : Distinct (.array elem)
  | object {fields : List (String × JsonShape)} (hkeys : (fields.map Prod.fst).Nodup)
      (hfields : ∀ field ∈ fields, Distinct field.2) : Distinct (.object fields)

/-- A shape as the code holds it. -/
structure Shape where
  tree : JsonShape
  distinct : tree.Distinct

/-- A value whose objects hold a key once, as every parsed one. -/
inductive DistinctValue : Value → Prop
  | null : DistinctValue .null
  | bool (b : Bool) : DistinctValue (.bool b)
  | number (n : Core.Json.Number) : DistinctValue (.number n)
  | string (s : String) : DistinctValue (.string s)
  | array {items : List Value} (hitems : ∀ item ∈ items, DistinctValue item) :
      DistinctValue (.array items)
  | object {members : List (String × Value)} (hkeys : (members.map Prod.fst).Nodup)
      (hmembers : ∀ m ∈ members, DistinctValue m.2) : DistinctValue (.object members)

theorem fromMembers_eq_map (members : List (String × Value)) :
    JsonShape.fromMembers members = members.map fun m => (m.1, JsonShape.fromValue m.2) := by
  induction members with
  | nil => rw [JsonShape.fromMembers, List.map_nil]
  | cons m members ih => rw [JsonShape.fromMembers, ih, List.map_cons]

/-- The shape that is inferred of a value is one. -/
theorem distinct_fromValue {value : Value} (h : DistinctValue value) :
    (JsonShape.fromValue value).Distinct := by
  induction h with
  | null => rw [JsonShape.fromValue]; exact .null
  | bool b => rw [JsonShape.fromValue]; exact .bool
  | number n => rw [JsonShape.fromValue]; exact .number
  | string s => rw [JsonShape.fromValue]; exact .string
  | @array items hitems ih =>
    cases items with
    | nil => rw [JsonShape.fromValue]; exact .array .null
    | cons item items => rw [JsonShape.fromValue]; exact .array (ih item List.mem_cons_self)
  | @object members hkeys hmembers ih =>
    rw [JsonShape.fromValue, fromMembers_eq_map]
    refine .object ?_ ?_
    · rw [List.map_map]
      exact hkeys
    · intro field hfield
      obtain ⟨m, hm, rfl⟩ := List.mem_map.mp hfield
      exact ih m hm

def Shape.ofValue (value : Value) (h : DistinctValue value) : Shape where
  tree := .fromValue value
  distinct := distinct_fromValue h

namespace JsonShape

theorem get_of_mem {fields : List (String × JsonShape)} (hkeys : (fields.map Prod.fst).Nodup)
    {field : String × JsonShape} (h : field ∈ fields) : get field.1 fields = some field.2 := by
  induction fields with
  | nil => exact absurd h List.not_mem_nil
  | cons first fields ih =>
    rw [List.map_cons, List.nodup_cons] at hkeys
    rw [get]
    rcases List.mem_cons.mp h with rfl | htail
    · exact if_pos rfl
    · have hne : first.1 ≠ field.1 := by
        intro hsame
        exact hkeys.1 (hsame ▸ List.mem_map_of_mem htail)
      rw [if_neg hne]
      exact ih hkeys.2 htail

theorem mem_of_get {fields : List (String × JsonShape)} {key : String} {s : JsonShape}
    (h : get key fields = some s) : (key, s) ∈ fields := by
  induction fields with
  | nil => cases h
  | cons first fields ih =>
    rw [get] at h
    split_ifs at h with hsame
    · rw [← hsame, ← Option.some.inj h]
      exact List.mem_cons_self
    · exact List.mem_cons_of_mem _ (ih h)

theorem get_eq_none {fields : List (String × JsonShape)} {key : String} :
    get key fields = none ↔ key ∉ fields.map Prod.fst := by
  induction fields with
  | nil => exact ⟨fun _ => List.not_mem_nil, fun _ => rfl⟩
  | cons first fields ih =>
    rw [get, List.map_cons, List.mem_cons, not_or]
    split_ifs with hsame
    · exact ⟨fun h => (by cases h), fun h => absurd hsame.symm h.1⟩
    · rw [ih]
      exact ⟨fun h => ⟨fun hsame' => hsame hsame'.symm, h⟩, And.right⟩

end JsonShape

open JsonShape (get)

/-! ## Positions -/

inductive Step where
  | field (key : String)
  | element
  deriving DecidableEq

def JsonShape.child : JsonShape → Step → Option JsonShape
  | .object fields, .field key => get key fields
  | .array elem, .element => some elem
  | _, _ => none

/-- The type at a position, if there is one. -/
def kindAt : JsonShape → List Step → Option String
  | s, [] => some s.typeName
  | s, step :: rest => (s.child step).bind fun s => kindAt s rest

/-- How `diff_shapes` writes a position. -/
def pathText (path : String) : List Step → String
  | [] => path
  | .field key :: rest => pathText (fieldPath path key) rest
  | .element :: rest => pathText (path ++ "[]") rest

/-- The shapes differ at a position and nowhere above it. -/
def IsFirst (b c : JsonShape) (position : List Step) : Prop :=
  kindAt b position ≠ kindAt c position ∧
    ∀ front, front <+: position → front ≠ position → kindAt b front = kindAt c front

mutual

/-- The positions of the first differences, in the order of the reports. -/
def differences : JsonShape → JsonShape → List (List Step)
  | .object bFields, .object cFields =>
      fieldDifferences bFields cFields ++
        (cFields.filter fun field => (get field.1 bFields).isNone).map fun field => [.field field.1]
  | .array b, .array c => (differences b c).map (.element :: ·)
  | b, c => if b.typeName ≠ c.typeName then [[]] else []

def fieldDifferences : List (String × JsonShape) → List (String × JsonShape) → List (List Step)
  | [], _ => []
  | (key, b) :: bFields, cFields =>
      (match get key cFields with
        | some c => (differences b c).map (.field key :: ·)
        | none => [[.field key]]) ++ fieldDifferences bFields cFields

end

/-! ## Reports of positions -/

/-- The change of type at a position that both have. -/
def changeAt (b c : JsonShape) (path : String) (position : List Step) : Option TypeChange :=
  match kindAt b position, kindAt c position with
  | some baselineType, some currentType => some ⟨pathText path position, baselineType, currentType⟩
  | _, _ => none

/-- What is reported of positions. -/
def foundAt (b c : JsonShape) (path : String) (positions : List (List Step)) : Found where
  newFields := (positions.filter fun position => (kindAt b position).isNone).map (pathText path)
  removedFields := (positions.filter fun position => (kindAt c position).isNone).map (pathText path)
  typeChanges := positions.filterMap (changeAt b c path)

theorem foundAt_append (b c : JsonShape) (path : String) (positions positions' : List (List Step)) :
    foundAt b c path (positions ++ positions') =
      (foundAt b c path positions).append (foundAt b c path positions') := by
  simp only [foundAt, Found.append, List.filter_append, List.map_append, List.filterMap_append]

/-- Below a step that both take. -/
theorem foundAt_map {b c b' c' : JsonShape} {step : Step} (hb : b.child step = some b')
    (hc : c.child step = some c') (path : String) (positions : List (List Step)) :
    foundAt b c path (positions.map (step :: ·)) =
      foundAt b' c' (pathText path [step]) positions := by
  have hkindb (rest : List Step) : kindAt b (step :: rest) = kindAt b' rest := by
    rw [kindAt, hb, Option.bind_some]
  have hkindc (rest : List Step) : kindAt c (step :: rest) = kindAt c' rest := by
    rw [kindAt, hc, Option.bind_some]
  have htext (rest : List Step) : pathText path (step :: rest) =
      pathText (pathText path [step]) rest := by
    cases step <;> rfl
  generalize pathText path [step] = below at htext
  simp only [foundAt, List.filter_map, List.map_map, List.filterMap_map, Function.comp_def, changeAt,
    hkindb, hkindc, htext]
  rfl

theorem foundAt_new {bFields cFields : List (String × JsonShape)} (path : String)
    {fields : List (String × JsonShape)}
    (hfields : ∀ field ∈ fields, get field.1 bFields = none ∧ get field.1 cFields = some field.2) :
    foundAt (.object bFields) (.object cFields) path (fields.map fun field => [.field field.1]) =
      { Found.none with newFields := fields.map fun field => fieldPath path field.1 } := by
  induction fields with
  | nil => rfl
  | cons field fields ih =>
    obtain ⟨hb, hc⟩ := hfields field List.mem_cons_self
    have hkindb : kindAt (.object bFields) [.field field.1] = none := by
      rw [kindAt, JsonShape.child, hb, Option.bind_none]
    have hkindc : kindAt (.object cFields) [.field field.1] = some field.2.typeName := by
      rw [kindAt, JsonShape.child, hc, Option.bind_some, kindAt]
    have hone : foundAt (.object bFields) (.object cFields) path [[.field field.1]] =
        { Found.none with newFields := [fieldPath path field.1] } := by
      simp only [foundAt, List.filter_cons, List.filterMap_cons, changeAt, hkindb, hkindc]
      rfl
    have hrest := ih fun other h => hfields other (List.mem_cons_of_mem _ h)
    rw [List.map_cons, ← List.singleton_append, foundAt_append, hone, hrest]
    rfl

theorem diffFields_eq {bFields cFields fields : List (String × JsonShape)} (path : String)
    (hfields : ∀ field ∈ fields, get field.1 bFields = some field.2)
    (hchild : ∀ field ∈ fields, ∀ c, get field.1 cFields = some c →
      diffShapesInner field.2 c (fieldPath path field.1) =
        foundAt field.2 c (fieldPath path field.1) (differences field.2 c)) :
    diffFields fields cFields path =
      foundAt (.object bFields) (.object cFields) path (fieldDifferences fields cFields) := by
  induction fields with
  | nil =>
    rw [diffFields, fieldDifferences]
    rfl
  | cons field fields ih =>
    obtain ⟨key, b⟩ := field
    have hb : get key bFields = some b := hfields (key, b) List.mem_cons_self
    have hrest := ih (fun other h => hfields other (List.mem_cons_of_mem _ h))
      (fun other h => hchild other (List.mem_cons_of_mem _ h))
    rw [diffFields, fieldDifferences, foundAt_append, hrest]
    congr 1
    cases hc : get key cFields with
    | some c =>
      dsimp only
      have hbelow := foundAt_map (show (JsonShape.object bFields).child (.field key) = some b from hb)
        (show (JsonShape.object cFields).child (.field key) = some c from hc) path (differences b c)
      rw [hbelow]
      exact hchild (key, b) List.mem_cons_self c hc
    | none =>
      have hkindb : kindAt (.object bFields) [.field key] = some b.typeName := by
        rw [kindAt, JsonShape.child, hb, Option.bind_some, kindAt]
      have hkindc : kindAt (.object cFields) [.field key] = none := by
        rw [kindAt, JsonShape.child, hc, Option.bind_none]
      simp only [foundAt, List.filter_cons, List.filterMap_cons, changeAt, hkindb, hkindc]
      rfl

/-- Shapes that are not both objects or both arrays are compared by their types. -/
theorem diffShapesInner_leaf {b c : JsonShape} (path : String)
    (hobject : ∀ bFields cFields, b = .object bFields → c = .object cFields → False)
    (harray : ∀ elem elem', b = .array elem → c = .array elem' → False) :
    diffShapesInner b c path = foundAt b c path (differences b c) := by
  have hroot : foundAt b c path [[]] =
      { Found.none with typeChanges := [⟨path, b.typeName, c.typeName⟩] } := by
    simp only [foundAt, List.filter_cons, List.filterMap_cons, changeAt, kindAt]
    rfl
  rw [diffShapesInner, differences]
  · split_ifs
    · exact hroot.symm
    · rfl
  · exact hobject
  · exact harray
  · exact hobject
  · exact harray

/-- The code reports the first differences. -/
theorem diffShapesInner_eq {b : JsonShape} (hb : b.Distinct) {c : JsonShape} (hc : c.Distinct)
    (path : String) : diffShapesInner b c path = foundAt b c path (differences b c) := by
  induction b using JsonShape.inductOn generalizing c path with
  | array elem ih =>
    cases c with
    | array elem' =>
      cases hb with
      | array helem =>
        cases hc with
        | array helem' =>
          have hbelow := foundAt_map (show (JsonShape.array elem).child .element = some elem from rfl)
            (show (JsonShape.array elem').child .element = some elem' from rfl) path
            (differences elem elem')
          rw [diffShapesInner, differences, hbelow]
          exact ih helem helem' _
    | _ => exact diffShapesInner_leaf path (fun _ _ h _ => by cases h) (fun _ _ _ h => by cases h)
  | object bFields ih =>
    cases c with
    | object cFields =>
      cases hb with
      | object hbkeys hbfields =>
        cases hc with
        | object hckeys hcfields =>
          rw [diffShapesInner, differences, foundAt_append]
          congr 1
          · apply diffFields_eq
            · exact fun field hfield => JsonShape.get_of_mem hbkeys hfield
            · intro field hfield c' hget
              have hmem := JsonShape.mem_of_get hget
              exact ih field hfield (hbfields field hfield) (hcfields _ hmem) _
          · symm
            apply foundAt_new
            intro field hfield
            rw [List.mem_filter, Option.isNone_iff_eq_none] at hfield
            exact ⟨hfield.2, JsonShape.get_of_mem hckeys hfield.1⟩
    | _ => exact diffShapesInner_leaf path (fun _ _ _ h => by cases h) (fun _ _ h _ => by cases h)
  | _ => exact diffShapesInner_leaf path (fun _ _ h _ => by cases h) (fun _ _ h _ => by cases h)

/-! ## First differences -/

theorem isFirst_nil (b c : JsonShape) : IsFirst b c [] ↔ b.typeName ≠ c.typeName := by
  constructor
  · intro h hsame
    exact h.1 (congrArg some hsame)
  · intro h
    refine ⟨fun hsame => h (Option.some.inj hsame), fun front hfront hne => ?_⟩
    exact absurd (List.prefix_nil.mp hfront) hne

/-- What holds above a position. -/
theorem above_cons {P : List Step → Prop} {step : Step} {rest : List Step} :
    (∀ front, front <+: step :: rest → front ≠ step :: rest → P front) ↔
      P [] ∧ ∀ front, front <+: rest → front ≠ rest → P (step :: front) := by
  constructor
  · intro h
    refine ⟨h [] List.nil_prefix (List.cons_ne_nil _ _).symm, fun front hfront hne => ?_⟩
    refine h (step :: front) (List.cons_prefix_cons.mpr ⟨rfl, hfront⟩) fun heq => ?_
    exact hne (List.cons.inj heq).2
  · rintro ⟨hnil, hcons⟩ front hfront hne
    cases front with
    | nil => exact hnil
    | cons first front =>
      obtain ⟨rfl, hbelow⟩ := List.cons_prefix_cons.mp hfront
      exact hcons front hbelow fun heq => hne (congrArg _ heq)

theorem isFirst_below {b c b' c' : JsonShape} {step : Step} (hb : b.child step = some b')
    (hc : c.child step = some c') (rest : List Step) :
    IsFirst b c (step :: rest) ↔ b.typeName = c.typeName ∧ IsFirst b' c' rest := by
  have hkindb (rest : List Step) : kindAt b (step :: rest) = kindAt b' rest := by
    rw [kindAt, hb, Option.bind_some]
  have hkindc (rest : List Step) : kindAt c (step :: rest) = kindAt c' rest := by
    rw [kindAt, hc, Option.bind_some]
  rw [IsFirst, above_cons, IsFirst, hkindb, hkindc]
  simp only [hkindb, hkindc]
  rw [kindAt, kindAt, Option.some.injEq]
  exact and_left_comm

theorem isFirst_removed {b c b' : JsonShape} {step : Step} (hb : b.child step = some b')
    (hc : c.child step = none) (rest : List Step) :
    IsFirst b c (step :: rest) ↔ b.typeName = c.typeName ∧ rest = [] := by
  have hkindb (rest : List Step) : kindAt b (step :: rest) = kindAt b' rest := by
    rw [kindAt, hb, Option.bind_some]
  have hkindc (rest : List Step) : kindAt c (step :: rest) = none := by
    rw [kindAt, hc, Option.bind_none]
  rw [IsFirst, above_cons, hkindb, hkindc]
  simp only [hkindb, hkindc]
  rw [kindAt, kindAt, Option.some.injEq]
  constructor
  · rintro ⟨-, htype, habove⟩
    refine ⟨htype, ?_⟩
    by_contra hne
    have hroot := habove [] List.nil_prefix (Ne.symm hne)
    cases hroot
  · rintro ⟨htype, rfl⟩
    refine ⟨fun h => (by cases h), htype, fun front hfront hne => ?_⟩
    exact absurd (List.prefix_nil.mp hfront) hne

theorem IsFirst.symm {b c : JsonShape} {position : List Step} (h : IsFirst b c position) :
    IsFirst c b position :=
  ⟨h.1.symm, fun front hfront hne => (h.2 front hfront hne).symm⟩

theorem isFirst_comm (b c : JsonShape) (position : List Step) :
    IsFirst b c position ↔ IsFirst c b position := ⟨IsFirst.symm, IsFirst.symm⟩

theorem isFirst_new {b c c' : JsonShape} {step : Step} (hb : b.child step = none)
    (hc : c.child step = some c') (rest : List Step) :
    IsFirst b c (step :: rest) ↔ b.typeName = c.typeName ∧ rest = [] := by
  rw [isFirst_comm, isFirst_removed hc hb, eq_comm]

theorem not_isFirst {b c : JsonShape} {step : Step} (hb : b.child step = none)
    (hc : c.child step = none) (rest : List Step) : ¬ IsFirst b c (step :: rest) := by
  intro h
  have hkind := h.1
  rw [kindAt, kindAt, hb, hc] at hkind
  exact hkind rfl

/-- Above every difference, or at it, is a first one. -/
theorem exists_isFirst {b c : JsonShape} (position : List Step)
    (h : kindAt b position ≠ kindAt c position) :
    ∃ front, front <+: position ∧ IsFirst b c front := by
  induction hn : position.length using Nat.strongRecOn generalizing position with
  | ind n ih =>
    by_cases habove : ∀ front, front <+: position → front ≠ position →
        kindAt b front = kindAt c front
    · exact ⟨position, List.prefix_rfl, h, habove⟩
    · rw [not_forall] at habove
      obtain ⟨front, habove⟩ := habove
      rw [Classical.not_imp, Classical.not_imp] at habove
      obtain ⟨hfront, hne, hkind⟩ := habove
      have hlt : front.length < n := by
        rw [← hn]
        refine Nat.lt_of_le_of_ne hfront.length_le fun hlength => ?_
        exact hne (hfront.eq_of_length hlength)
      obtain ⟨top, htop, hfirst⟩ := ih front.length hlt front hkind rfl
      exact ⟨top, htop.trans hfront, hfirst⟩

/-! ## All of them -/

theorem child_of_leaf {b c : JsonShape}
    (hobject : ∀ bFields cFields, b = .object bFields → c = .object cFields → False)
    (harray : ∀ elem elem', b = .array elem → c = .array elem' → False)
    (htype : b.typeName = c.typeName) (step : Step) :
    b.child step = none ∧ c.child step = none := by
  cases b <;> cases c <;> first
    | exact ⟨rfl, rfl⟩
    | exact (hobject _ _ rfl rfl).elim
    | exact (harray _ _ rfl rfl).elim
    | simp [JsonShape.typeName] at htype

theorem mem_differences_leaf {b c : JsonShape} (position : List Step)
    (hobject : ∀ bFields cFields, b = .object bFields → c = .object cFields → False)
    (harray : ∀ elem elem', b = .array elem → c = .array elem' → False) :
    position ∈ differences b c ↔ IsFirst b c position := by
  rw [differences]
  · cases position with
    | nil =>
      rw [isFirst_nil]
      split_ifs with htype
      · exact ⟨fun _ => htype, fun _ => List.mem_cons_self⟩
      · exact ⟨fun h => absurd h List.not_mem_nil, fun h => absurd h htype⟩
    | cons step rest =>
      have hnot : ¬ IsFirst b c (step :: rest) := by
        intro h
        have htype : b.typeName = c.typeName :=
          Option.some.inj (h.2 [] List.nil_prefix (List.cons_ne_nil _ _).symm)
        obtain ⟨hb, hc⟩ := child_of_leaf hobject harray htype step
        exact not_isFirst hb hc rest h
      refine ⟨fun h => ?_, fun h => absurd h hnot⟩
      split_ifs at h
      · cases List.mem_singleton.mp h
      · exact absurd h List.not_mem_nil
  · exact hobject
  · exact harray

theorem mem_fieldDifferences {fields cFields : List (String × JsonShape)} {position : List Step} :
    position ∈ fieldDifferences fields cFields ↔
      ∃ field ∈ fields, ∃ rest, position = .field field.1 :: rest ∧
        match get field.1 cFields with
        | some c => rest ∈ differences field.2 c
        | none => rest = [] := by
  induction fields with
  | nil =>
    rw [fieldDifferences]
    constructor
    · exact fun h => absurd h List.not_mem_nil
    · rintro ⟨field, hfield, -⟩
      exact absurd hfield List.not_mem_nil
  | cons first fields ih =>
    obtain ⟨key, b⟩ := first
    rw [fieldDifferences, List.mem_append, ih, List.exists_mem_cons_iff]
    apply or_congr_left
    dsimp only
    cases get key cFields with
    | some c =>
      dsimp only
      rw [List.mem_map]
      constructor
      · rintro ⟨rest, hrest, rfl⟩
        exact ⟨rest, rfl, hrest⟩
      · rintro ⟨rest, rfl, hrest⟩
        exact ⟨rest, hrest, rfl⟩
    | none =>
      dsimp only
      rw [List.mem_singleton]
      constructor
      · rintro rfl
        exact ⟨[], rfl, rfl⟩
      · rintro ⟨rest, rfl, rfl⟩
        rfl

/-- Of two objects the differing positions are below a field of the baseline or a new field. -/
theorem mem_differences_object {bFields cFields : List (String × JsonShape)}
    (hbkeys : (bFields.map Prod.fst).Nodup) (hckeys : (cFields.map Prod.fst).Nodup)
    (hchild : ∀ field ∈ bFields, ∀ c, get field.1 cFields = some c → ∀ rest,
      rest ∈ differences field.2 c ↔ IsFirst field.2 c rest) (position : List Step) :
    position ∈ differences (.object bFields) (.object cFields) ↔
      IsFirst (.object bFields) (.object cFields) position := by
  rw [differences, List.mem_append, mem_fieldDifferences, List.mem_map]
  cases position with
  | nil =>
    rw [isFirst_nil]
    constructor
    · rintro (⟨field, -, rest, h, -⟩ | ⟨field, -, h⟩)
      · cases h
      · cases h
    · exact fun h => absurd rfl h
  | cons step rest =>
    cases step with
    | element =>
      constructor
      · rintro (⟨field, -, rest, h, -⟩ | ⟨field, -, h⟩)
        · cases h
        · cases h
      · exact fun h => absurd h (not_isFirst rfl rfl rest)
    | field key =>
      have hbchild : (JsonShape.object bFields).child (.field key) = get key bFields := rfl
      have hcchild : (JsonShape.object cFields).child (.field key) = get key cFields := rfl
      cases hb : get key bFields with
      | some b =>
        have hmem := JsonShape.mem_of_get hb
        have honly : ∀ field ∈ bFields, field.1 = key → field.2 = b := by
          rintro field hfield rfl
          rw [JsonShape.get_of_mem hbkeys hfield] at hb
          exact Option.some.inj hb
        have hnotnew : ¬ ∃ field ∈ cFields.filter fun field => (get field.1 bFields).isNone,
            [Step.field field.1] = .field key :: rest := by
          rintro ⟨field, hfield, h⟩
          obtain ⟨hkey, -⟩ := List.cons.inj h
          rw [List.mem_filter, Option.isNone_iff_eq_none, Step.field.inj hkey, hb] at hfield
          cases hfield.2
        rw [or_iff_left hnotnew]
        cases hc : get key cFields with
        | some c =>
          rw [isFirst_below (hbchild.trans hb) (hcchild.trans hc), ← hchild (key, b) hmem c hc]
          constructor
          · rintro ⟨field, hfield, rest', h, hrest⟩
            obtain ⟨hkey, rfl⟩ := List.cons.inj h
            have hsame := Step.field.inj hkey
            rw [← hsame, hc, honly field hfield hsame.symm] at hrest
            exact ⟨rfl, hrest⟩
          · rintro ⟨-, hrest⟩
            refine ⟨(key, b), hmem, rest, rfl, ?_⟩
            rw [hc]
            exact hrest
        | none =>
          rw [isFirst_removed (hbchild.trans hb) (hcchild.trans hc)]
          constructor
          · rintro ⟨field, hfield, rest', h, hrest⟩
            obtain ⟨hkey, rfl⟩ := List.cons.inj h
            rw [← Step.field.inj hkey, hc] at hrest
            exact ⟨rfl, hrest⟩
          · rintro ⟨-, hrest⟩
            refine ⟨(key, b), hmem, rest, rfl, ?_⟩
            rw [hc]
            exact hrest
      | none =>
        have hnotold : ¬ ∃ field ∈ bFields, ∃ rest', Step.field key :: rest = .field field.1 :: rest' ∧
            match get field.1 cFields with
            | some c => rest' ∈ differences field.2 c
            | none => rest' = [] := by
          rintro ⟨field, hfield, rest', h, -⟩
          obtain ⟨hkey, -⟩ := List.cons.inj h
          rw [Step.field.inj hkey, JsonShape.get_of_mem hbkeys hfield] at hb
          cases hb
        rw [or_iff_right hnotold]
        cases hc : get key cFields with
        | some c =>
          rw [isFirst_new (hbchild.trans hb) (hcchild.trans hc)]
          constructor
          · rintro ⟨field, -, h⟩
            exact ⟨rfl, (List.cons.inj h).2.symm⟩
          · rintro ⟨-, rfl⟩
            refine ⟨(key, c), List.mem_filter.mpr ⟨JsonShape.mem_of_get hc, ?_⟩, rfl⟩
            rw [hb]
            rfl
        | none =>
          constructor
          · rintro ⟨field, hfield, h⟩
            obtain ⟨hkey, -⟩ := List.cons.inj h
            have hget := JsonShape.get_of_mem hckeys (List.mem_filter.mp hfield).1
            rw [Step.field.inj hkey, hc] at hget
            cases hget
          · exact fun h => absurd h (not_isFirst (hbchild.trans hb) (hcchild.trans hc) rest)

theorem mem_differences {b : JsonShape} (hb : b.Distinct) {c : JsonShape} (hc : c.Distinct)
    (position : List Step) : position ∈ differences b c ↔ IsFirst b c position := by
  induction b using JsonShape.inductOn generalizing c position with
  | array elem ih =>
    cases c with
    | array elem' =>
      cases hb with
      | array helem =>
        cases hc with
        | array helem' =>
          rw [differences, List.mem_map]
          cases position with
          | nil =>
            rw [isFirst_nil]
            constructor
            · rintro ⟨rest, -, h⟩
              cases h
            · exact fun h => absurd rfl h
          | cons step rest =>
            cases step with
            | field key =>
              constructor
              · rintro ⟨rest, -, h⟩
                cases h
              · exact fun h => absurd h (not_isFirst rfl rfl rest)
            | element =>
              rw [isFirst_below (show (JsonShape.array elem).child .element = some elem from rfl)
                (show (JsonShape.array elem').child .element = some elem' from rfl),
                ← ih helem helem']
              constructor
              · rintro ⟨rest', hrest, h⟩
                rw [← (List.cons.inj h).2]
                exact ⟨rfl, hrest⟩
              · rintro ⟨-, hrest⟩
                exact ⟨rest, hrest, rfl⟩
    | _ => exact mem_differences_leaf position (fun _ _ h _ => by cases h) (fun _ _ _ h => by cases h)
  | object bFields ih =>
    cases c with
    | object cFields =>
      cases hb with
      | object hbkeys hbfields =>
        cases hc with
        | object hckeys hcfields =>
          refine mem_differences_object hbkeys hckeys (fun field hfield c hget rest => ?_) position
          have hmem := JsonShape.mem_of_get hget
          exact ih field hfield (hbfields field hfield) (hcfields _ hmem) rest
    | _ => exact mem_differences_leaf position (fun _ _ _ h => by cases h) (fun _ _ h _ => by cases h)
  | _ => exact mem_differences_leaf position (fun _ _ h _ => by cases h) (fun _ _ h _ => by cases h)

end Victauri.Plugin.Contracts
