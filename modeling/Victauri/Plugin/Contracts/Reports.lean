import Mathlib.Data.List.Perm.Subperm
import Victauri.Plugin.Contracts.Differences

/-!
# Comparisons of shapes are exact

No difference is reported twice, none of equal shapes, and the other way round the same are reported
with their sides swapped.
-/

namespace Victauri.Plugin.Contracts

open JsonShape (get)

/-! ## Each once -/

theorem nodup_map_cons {positions : List (List Step)} (h : positions.Nodup) (step : Step) :
    (positions.map (step :: ·)).Nodup :=
  h.map fun _ _ heq => (List.cons.inj heq).2

theorem nodup_fieldDifferences {fields cFields : List (String × JsonShape)}
    (hkeys : (fields.map Prod.fst).Nodup)
    (hchild : ∀ field ∈ fields, ∀ c, get field.1 cFields = some c →
      (differences field.2 c).Nodup) : (fieldDifferences fields cFields).Nodup := by
  induction fields with
  | nil =>
    rw [fieldDifferences]
    exact List.nodup_nil
  | cons first fields ih =>
    obtain ⟨key, b⟩ := first
    rw [List.map_cons, List.nodup_cons] at hkeys
    have hrest := ih hkeys.2 fun field h => hchild field (List.mem_cons_of_mem _ h)
    rw [fieldDifferences]
    apply List.Nodup.append ?_ hrest ?_
    · cases hc : get key cFields with
      | some c => exact nodup_map_cons (hchild (key, b) List.mem_cons_self c hc) _
      | none => exact List.nodup_singleton _
    · -- the others begin with another key
      intro position hfirst hlater
      obtain ⟨field, hfield, rest, rfl, -⟩ := mem_fieldDifferences.mp hlater
      have hkey : field.1 = key := by
        cases hc : get key cFields with
        | some c =>
          rw [hc] at hfirst
          obtain ⟨rest', -, h⟩ := List.mem_map.mp hfirst
          exact (Step.field.inj (List.cons.inj h).1).symm
        | none =>
          rw [hc] at hfirst
          exact Step.field.inj (List.cons.inj (List.mem_singleton.mp hfirst)).1
      have hmem : field.1 ∈ fields.map Prod.fst := List.mem_map_of_mem hfield
      rw [hkey] at hmem
      exact hkeys.1 hmem

theorem nodup_differences_leaf {b c : JsonShape}
    (hobject : ∀ bFields cFields, b = .object bFields → c = .object cFields → False)
    (harray : ∀ elem elem', b = .array elem → c = .array elem' → False) :
    (differences b c).Nodup := by
  rw [differences]
  · split_ifs
    · exact List.nodup_singleton _
    · exact List.nodup_nil
  · exact hobject
  · exact harray

theorem nodup_differences {b : JsonShape} (hb : b.Distinct) {c : JsonShape} (hc : c.Distinct) :
    (differences b c).Nodup := by
  induction b using JsonShape.inductOn generalizing c with
  | array elem ih =>
    cases c with
    | array elem' =>
      cases hb with
      | array helem =>
        cases hc with
        | array helem' =>
          rw [differences]
          exact nodup_map_cons (ih helem helem') _
    | _ => exact nodup_differences_leaf (fun _ _ h _ => by cases h) (fun _ _ _ h => by cases h)
  | object bFields ih =>
    cases c with
    | object cFields =>
      cases hb with
      | object hbkeys hbfields =>
        cases hc with
        | object hckeys hcfields =>
          rw [differences]
          apply List.Nodup.append
          · apply nodup_fieldDifferences hbkeys
            intro field hfield c hget
            exact ih field hfield (hbfields field hfield) (hcfields _ (JsonShape.mem_of_get hget))
          · have hsub : List.Sublist
                ((cFields.filter fun field => (get field.1 bFields).isNone).map Prod.fst)
                (cFields.map Prod.fst) := List.filter_sublist.map Prod.fst
            have hnew := (hckeys.sublist hsub).map (f := fun key => [Step.field key])
              fun a b h => Step.field.inj (List.cons.inj h).1
            rw [List.map_map] at hnew
            exact hnew
          · intro position hold hnew
            obtain ⟨field, hfield, rest, rfl, -⟩ := mem_fieldDifferences.mp hold
            obtain ⟨field', hfield', h⟩ := List.mem_map.mp hnew
            rw [List.mem_filter, Option.isNone_iff_eq_none] at hfield'
            have hkey := Step.field.inj (List.cons.inj h).1
            rw [hkey, JsonShape.get_of_mem hbkeys hfield] at hfield'
            cases hfield'.2
    | _ => exact nodup_differences_leaf (fun _ _ _ h => by cases h) (fun _ _ h _ => by cases h)
  | _ => exact nodup_differences_leaf (fun _ _ h _ => by cases h) (fun _ _ h _ => by cases h)

/-! ## Equal shapes -/

theorem equalFields_iff (fields cFields : List (String × JsonShape)) :
    JsonShape.equalFields fields cFields = true ↔
      ∀ field ∈ fields, ∃ c, get field.1 cFields = some c ∧ field.2.equal c = true := by
  induction fields with
  | nil =>
    rw [JsonShape.equalFields]
    exact ⟨fun _ field h => absurd h List.not_mem_nil, fun _ => rfl⟩
  | cons first fields ih =>
    obtain ⟨key, b⟩ := first
    rw [JsonShape.equalFields, Bool.and_eq_true, ih, List.forall_mem_cons]
    apply and_congr_left'
    dsimp only
    cases get key cFields with
    | some c =>
      constructor
      · exact fun h => ⟨c, rfl, h⟩
      · rintro ⟨c', hc', h⟩
        rw [Option.some.inj hc']
        exact h
    | none =>
      constructor
      · exact fun h => by cases h
      · rintro ⟨c, hc, -⟩
        cases hc

theorem equal_leaf {b c : JsonShape}
    (hobject : ∀ bFields cFields, b = .object bFields → c = .object cFields → False)
    (harray : ∀ elem elem', b = .array elem → c = .array elem' → False) :
    b.equal c = true ↔ ∀ position, kindAt b position = kindAt c position := by
  constructor
  · intro h
    have htype : b.typeName = c.typeName := by
      cases b <;> cases c <;> first
        | rfl
        | exact (hobject _ _ rfl rfl).elim
        | exact (harray _ _ rfl rfl).elim
        | cases h
    intro position
    cases position with
    | nil => exact congrArg some htype
    | cons step rest =>
      obtain ⟨hb, hc⟩ := child_of_leaf hobject harray htype step
      rw [kindAt, kindAt, hb, hc, Option.bind_none]
  · intro h
    have htype : b.typeName = c.typeName := Option.some.inj (h [])
    cases b <;> cases c <;> first
      | rfl
      | exact (hobject _ _ rfl rfl).elim
      | exact (harray _ _ rfl rfl).elim
      | simp [JsonShape.typeName] at htype

theorem kindAt_field (fields : List (String × JsonShape)) (key : String) (rest : List Step) :
    kindAt (.object fields) (.field key :: rest) = (get key fields).bind fun s => kindAt s rest := rfl

/-- Two maps with the same keys hold as many. -/
theorem length_eq_of_keys {bFields cFields : List (String × JsonShape)}
    (hbkeys : (bFields.map Prod.fst).Nodup) (hckeys : (cFields.map Prod.fst).Nodup)
    (h : ∀ key, (get key bFields).isSome = (get key cFields).isSome) :
    bFields.length = cFields.length := by
  have hperm : (bFields.map Prod.fst).Perm (cFields.map Prod.fst) := by
    rw [List.perm_ext_iff_of_nodup hbkeys hckeys]
    intro key
    have hkey := h key
    rw [← not_iff_not, ← JsonShape.get_eq_none, ← JsonShape.get_eq_none,
      ← Option.not_isSome_iff_eq_none, ← Option.not_isSome_iff_eq_none, hkey]
  have hlength := hperm.length_eq
  rw [List.length_map, List.length_map] at hlength
  exact hlength

/-- No key is left over where there are as many. -/
theorem keys_of_length_eq {bFields cFields : List (String × JsonShape)}
    (hbkeys : (bFields.map Prod.fst).Nodup) (hlength : bFields.length = cFields.length)
    (hsub : ∀ field ∈ bFields, (get field.1 cFields).isSome = true) {key : String}
    (hb : get key bFields = none) : get key cFields = none := by
  have hsubset : bFields.map Prod.fst ⊆ cFields.map Prod.fst := by
    intro key hkey
    obtain ⟨field, hfield, rfl⟩ := List.mem_map.mp hkey
    by_contra hnot
    have hsome := hsub field hfield
    rw [JsonShape.get_eq_none.mpr hnot] at hsome
    cases hsome
  have hperm : (bFields.map Prod.fst).Perm (cFields.map Prod.fst) := by
    apply (hbkeys.subperm hsubset).perm_of_length_le
    rw [List.length_map, List.length_map]
    exact Nat.le_of_eq hlength.symm
  rw [JsonShape.get_eq_none, ← hperm.mem_iff, ← JsonShape.get_eq_none]
  exact hb

theorem equal_object {bFields cFields : List (String × JsonShape)}
    (hbkeys : (bFields.map Prod.fst).Nodup) (hckeys : (cFields.map Prod.fst).Nodup)
    (hchild : ∀ field ∈ bFields, ∀ c, get field.1 cFields = some c →
      (field.2.equal c = true ↔ ∀ position, kindAt field.2 position = kindAt c position)) :
    (JsonShape.object bFields).equal (.object cFields) = true ↔
      ∀ position, kindAt (.object bFields) position = kindAt (.object cFields) position := by
  rw [JsonShape.equal, Bool.and_eq_true, beq_iff_eq, equalFields_iff]
  constructor
  · rintro ⟨hlength, hfields⟩ position
    cases position with
    | nil => rfl
    | cons step rest =>
      cases step with
      | element => rfl
      | field key =>
        rw [kindAt_field, kindAt_field]
        cases hb : get key bFields with
        | none =>
          have hsub : ∀ field ∈ bFields, (get field.1 cFields).isSome = true := by
            intro field hfield
            obtain ⟨c, hc, -⟩ := hfields field hfield
            rw [hc]
            rfl
          rw [keys_of_length_eq hbkeys hlength hsub hb]
        | some b =>
          have hmem := JsonShape.mem_of_get hb
          obtain ⟨c, hc, hequal⟩ := hfields (key, b) hmem
          rw [hc, Option.bind_some, Option.bind_some]
          exact (hchild (key, b) hmem c hc).mp hequal rest
  · intro h
    have hsome (key : String) : (get key bFields).isSome = (get key cFields).isSome := by
      have hkey := h [.field key]
      rw [kindAt_field, kindAt_field] at hkey
      cases hb : get key bFields <;> cases hc : get key cFields
      · rfl
      · rw [hb, hc] at hkey
        cases hkey
      · rw [hb, hc] at hkey
        cases hkey
      · rfl
    refine ⟨length_eq_of_keys hbkeys hckeys hsome, fun field hfield => ?_⟩
    have hget := JsonShape.get_of_mem hbkeys hfield
    have hthere := hsome field.1
    rw [hget, Option.isSome_some, eq_comm, Option.isSome_iff_exists] at hthere
    obtain ⟨c, hc⟩ := hthere
    refine ⟨c, hc, (hchild field hfield c hc).mpr fun position => ?_⟩
    have hposition := h (.field field.1 :: position)
    rw [kindAt_field, kindAt_field, hget, hc] at hposition
    exact hposition

theorem equal_iff {b : JsonShape} (hb : b.Distinct) {c : JsonShape} (hc : c.Distinct) :
    b.equal c = true ↔ ∀ position, kindAt b position = kindAt c position := by
  induction b using JsonShape.inductOn generalizing c with
  | array elem ih =>
    cases c with
    | array elem' =>
      cases hb with
      | array helem =>
        cases hc with
        | array helem' =>
          rw [JsonShape.equal, ih helem helem']
          constructor
          · intro h position
            cases position with
            | nil => rfl
            | cons step rest =>
              cases step with
              | field key => rfl
              | element => exact h rest
          · exact fun h position => h (.element :: position)
    | _ => exact equal_leaf (fun _ _ h _ => by cases h) (fun _ _ _ h => by cases h)
  | object bFields ih =>
    cases c with
    | object cFields =>
      cases hb with
      | object hbkeys hbfields =>
        cases hc with
        | object hckeys hcfields =>
          apply equal_object hbkeys hckeys
          intro field hfield c hget
          exact ih field hfield (hbfields field hfield) (hcfields _ (JsonShape.mem_of_get hget))
    | _ => exact equal_leaf (fun _ _ _ h => by cases h) (fun _ _ h _ => by cases h)
  | _ => exact equal_leaf (fun _ _ h _ => by cases h) (fun _ _ h _ => by cases h)

/-! ## The other way round -/

def TypeChange.swap (change : TypeChange) : TypeChange where
  path := change.path
  baselineType := change.currentType
  currentType := change.baselineType

theorem changeAt_swap (b c : JsonShape) (path : String) (position : List Step) :
    changeAt c b path position = (changeAt b c path position).map TypeChange.swap := by
  rw [changeAt, changeAt]
  cases kindAt b position <;> cases kindAt c position <;> rfl

theorem perm_differences {b : JsonShape} (hb : b.Distinct) {c : JsonShape} (hc : c.Distinct) :
    (differences c b).Perm (differences b c) := by
  rw [List.perm_ext_iff_of_nodup (nodup_differences hc hb) (nodup_differences hb hc)]
  intro position
  rw [mem_differences hc hb, mem_differences hb hc]
  exact isFirst_comm c b position

/-! ## The result -/

/-- Every position is reported in one of the lists. -/
theorem foundAt_eq_none (b c : JsonShape) (path : String) (positions : List (List Step)) :
    (foundAt b c path positions).newFields = [] ∧ (foundAt b c path positions).removedFields = [] ∧
      (foundAt b c path positions).typeChanges = [] ↔ positions = [] := by
  constructor
  · rintro ⟨hnew, hremoved, hchanges⟩
    rw [foundAt, List.map_eq_nil_iff, List.filter_eq_nil_iff] at hnew hremoved
    rw [foundAt, List.filterMap_eq_nil_iff] at hchanges
    rw [List.eq_nil_iff_forall_not_mem]
    intro position hposition
    have hb := hnew position hposition
    have hc := hremoved position hposition
    have hchange := hchanges position hposition
    rw [changeAt] at hchange
    cases hkindb : kindAt b position with
    | none => exact hb (by rw [hkindb]; rfl)
    | some baselineType =>
      cases hkindc : kindAt c position with
      | none => exact hc (by rw [hkindc]; rfl)
      | some currentType =>
        rw [hkindb, hkindc] at hchange
        cases hchange
  · rintro rfl
    exact ⟨rfl, rfl, rfl⟩

theorem differences_eq_nil {b : JsonShape} (hb : b.Distinct) {c : JsonShape} (hc : c.Distinct) :
    differences b c = [] ↔ b.equal c = true := by
  rw [equal_iff hb hc, List.eq_nil_iff_forall_not_mem]
  constructor
  · intro hnone position
    by_contra hdiffer
    obtain ⟨front, -, hfirst⟩ := exists_isFirst position hdiffer
    exact hnone front ((mem_differences hb hc front).mpr hfirst)
  · intro hsame position hposition
    exact ((mem_differences hb hc position).mp hposition).1 (hsame position)

/-- What is reported of some positions. -/
structure Reports (b c : Shape) (path : String) (positions : List (List Step))
    (drift : ContractDrift) : Prop where
  newFields : drift.newFields =
    (positions.filter fun position => (kindAt b.tree position).isNone).map (pathText path)
  removedFields : drift.removedFields =
    (positions.filter fun position => (kindAt c.tree position).isNone).map (pathText path)
  typeChanges : drift.typeChanges = positions.filterMap (changeAt b.tree c.tree path)

/-- The reports are those of the positions where the shapes first differ, each once; every position
where they differ is at or below one of them; none is made exactly of equal shapes; and the other
way round they are the same with their sides swapped. -/
theorem diffShapes_exact (b c : Shape) (path : String) :
    (∃ positions, positions.Nodup ∧
      (∀ position, position ∈ positions ↔ IsFirst b.tree c.tree position) ∧
      (∀ position, kindAt b.tree position ≠ kindAt c.tree position →
        ∃ front ∈ positions, front <+: position) ∧
      Reports b c path positions (diffShapes b.tree c.tree path)) ∧
    ((diffShapes b.tree c.tree path).newFields = [] ∧
        (diffShapes b.tree c.tree path).removedFields = [] ∧
        (diffShapes b.tree c.tree path).typeChanges = [] ↔ b.tree.equal c.tree = true) ∧
    (diffShapes b.tree c.tree path).shapeMatches = b.tree.equal c.tree ∧
    (diffShapes c.tree b.tree path).newFields.Perm (diffShapes b.tree c.tree path).removedFields ∧
    (diffShapes c.tree b.tree path).removedFields.Perm (diffShapes b.tree c.tree path).newFields ∧
    (diffShapes c.tree b.tree path).typeChanges.Perm
      ((diffShapes b.tree c.tree path).typeChanges.map TypeChange.swap) := by
  have hmem := mem_differences b.distinct c.distinct
  have hfound := diffShapesInner_eq b.distinct c.distinct path
  have hswapped := diffShapesInner_eq c.distinct b.distinct path
  have hperm := perm_differences b.distinct c.distinct
  have hnone : (diffShapes b.tree c.tree path).newFields = [] ∧
      (diffShapes b.tree c.tree path).removedFields = [] ∧
      (diffShapes b.tree c.tree path).typeChanges = [] ↔ b.tree.equal c.tree = true := by
    rw [diffShapes, hfound, foundAt_eq_none]
    exact differences_eq_nil b.distinct c.distinct
  refine ⟨⟨differences b.tree c.tree, nodup_differences b.distinct c.distinct, hmem, ?_, ?_⟩, hnone,
    ?_, ?_, ?_, ?_⟩
  · intro position hposition
    obtain ⟨front, hfront, hfirst⟩ := exists_isFirst position hposition
    exact ⟨front, (hmem front).mpr hfirst, hfront⟩
  · constructor
    · rw [diffShapes, hfound]
      rfl
    · rw [diffShapes, hfound]
      rfl
    · rw [diffShapes, hfound]
      rfl
  · rw [Bool.eq_iff_iff, ← hnone]
    simp only [diffShapes, Bool.and_eq_true, List.isEmpty_iff, and_assoc]
  · rw [diffShapes, diffShapes, hfound, hswapped]
    exact (hperm.filter _).map _
  · rw [diffShapes, diffShapes, hfound, hswapped]
    exact (hperm.filter _).map _
  · rw [diffShapes, diffShapes, hfound, hswapped]
    dsimp only [foundAt]
    rw [List.map_filterMap, funext fun position => changeAt_swap b.tree c.tree path position]
    exact hperm.filterMap _

end Victauri.Plugin.Contracts
