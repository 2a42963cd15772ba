import Mathlib.Data.List.Nodup
import Mathlib.Data.List.Perm.Subperm
import Victauri.Core.Verification.Positions

/-!
# What a comparison reports

The comparison visits the positions where the two values differ, each once, and reports what
is there.
-/

namespace Victauri.Core.Verification

open Json

/-! ## Lookup -/

section Lookup

variable {members : List (String × Value)}

theorem get_cons (k : String) (m : String × Value) :
    get k (m :: members) = if k = m.1 then some m.2 else get k members := by
  obtain ⟨key, v⟩ := m
  rw [get, List.lookup_cons, get]
  by_cases heq : k = key
  · rw [if_pos heq, beq_iff_eq.mpr heq]
  · rw [if_neg heq, beq_false_of_ne heq]

theorem mem_of_get {k : String} {v : Value} (h : get k members = some v) : (k, v) ∈ members := by
  induction members with
  | nil => cases h
  | cons m members ih =>
      rw [get_cons] at h
      split_ifs at h with heq
      · cases h
        rw [heq]
        exact List.mem_cons_self ..
      · exact List.mem_cons_of_mem _ (ih h)

theorem get_of_mem (hkeys : DistinctKeys members) {m : String × Value} (h : m ∈ members) :
    get m.1 members = some m.2 := by
  induction members with
  | nil => cases h
  | cons m' members ih =>
      rw [DistinctKeys, List.map_cons, List.nodup_cons] at hkeys
      rw [get_cons]
      rcases List.mem_cons.mp h with rfl | h
      · exact if_pos rfl
      · rw [if_neg, ih hkeys.2 h]
        intro heq
        exact hkeys.1 (heq ▸ List.mem_map_of_mem h)

theorem get_isSome_iff {k : String} : (get k members).isSome ↔ k ∈ members.map Prod.fst := by
  induction members with
  | nil => exact ⟨fun h => absurd h Bool.false_ne_true, fun h => absurd h List.not_mem_nil⟩
  | cons m members ih =>
      rw [get_cons, List.map_cons, List.mem_cons, ← ih]
      split_ifs with heq
      · exact ⟨fun _ => .inl heq, fun _ => rfl⟩
      · exact ⟨.inr, fun h => h.resolve_left heq⟩

end Lookup

section Compare

variable (floats : Floats)

/-! ## The positions visited -/

mutual

/-- The positions a comparison reports, in its order. -/
def differences (f b : Value) : List Position :=
  match f, b with
  | .object fMap, .object bMap =>
      memberDifferences fMap bMap ++
        (bMap.filter fun m => (get m.1 fMap).isNone).map fun m => [.key m.1]
  | .array fArr, .array bArr => itemDifferences fArr bArr 0
  | f, b => if strictlyEqual floats f b then [] else [[]]

def memberDifferences (fMap bMap : List (String × Value)) : List Position :=
  match fMap with
  | [] => []
  | (key, fVal) :: rest =>
      (match get key bMap with
        | some bVal => (differences fVal bVal).map (.key key :: ·)
        | none => [[.key key]]) ++ memberDifferences rest bMap

def itemDifferences (fArr bArr : List Value) (i : Nat) : List Position :=
  match fArr, bArr with
  | fVal :: fRest, bVal :: bRest =>
      (differences fVal bVal).map (.index i :: ·) ++ itemDifferences fRest bRest (i + 1)
  | _ :: fRest, [] => [.index i] :: itemDifferences fRest [] (i + 1)
  | [], bRest => bRest.mapIdx fun j _ => [.index (i + j)]

end

variable {floats}

theorem differences_leaf {f b : Value} (h : bothContainers f b = false) :
    differences floats f b = if strictlyEqual floats f b then [] else [[]] := by
  cases f <;> cases b <;> first
    | rfl
    | exact absurd h.symm Bool.false_ne_true

/-- What the positions are, of two values. -/
def Exact (floats : Floats) (f b : Value) : Prop :=
  (differences floats f b).Nodup ∧
    ∀ p, p ∈ differences floats f b ↔ MinimalDifference floats (some f) (some b) p

theorem exists_index_succ {M : Nat → Position → Prop} {i : Nat} {p : Position} :
    (∃ j q, p = .index (i + j) :: q ∧ M j q) ↔
      (∃ q, p = .index i :: q ∧ M 0 q) ∨ ∃ j q, p = .index (i + 1 + j) :: q ∧ M (j + 1) q := by
  constructor
  · rintro ⟨j, q, rfl, h⟩
    cases j with
    | zero => exact .inl ⟨q, rfl, h⟩
    | succ j =>
        refine .inr ⟨j, q, ?_, h⟩
        rw [Nat.add_assoc, Nat.add_comm 1 j]
  · rintro (⟨q, rfl, h⟩ | ⟨j, q, rfl, h⟩)
    · exact ⟨0, q, rfl, h⟩
    · refine ⟨j + 1, q, ?_, h⟩
      rw [Nat.add_assoc, Nat.add_comm 1 j]

theorem mem_itemDifferences {xs ys : List Value} {i : Nat}
    (ih : ∀ x ∈ xs, ∀ y ∈ ys, Exact floats x y) (p : Position) :
    p ∈ itemDifferences floats xs ys i ↔
      ∃ j q, p = .index (i + j) :: q ∧ MinimalDifference floats xs[j]? ys[j]? q := by
  induction xs generalizing ys i with
  | nil =>
      rw [itemDifferences, List.mem_mapIdx]
      constructor
      · rintro ⟨j, hj, rfl⟩
        refine ⟨j, [], rfl, ?_⟩
        rw [List.getElem?_eq_getElem hj]
        exact minimalDifference_backendOnly.mpr rfl
      · rintro ⟨j, q, rfl, h⟩
        cases hy : ys[j]? with
        | none =>
            rw [hy] at h
            exact absurd h minimalDifference_none
        | some y =>
            rw [hy] at h
            obtain ⟨hj, -⟩ := List.getElem?_eq_some_iff.mp hy
            exact ⟨j, hj, by rw [minimalDifference_backendOnly.mp h]⟩
  | cons x xs ihxs =>
      rw [exists_index_succ]
      cases ys with
      | nil =>
          rw [itemDifferences, List.mem_cons, ihxs fun _ _ _ hy => absurd hy List.not_mem_nil]
          refine or_congr ⟨?_, ?_⟩ Iff.rfl
          · rintro rfl
            exact ⟨[], rfl, minimalDifference_frontendOnly.mpr rfl⟩
          · rintro ⟨q, rfl, h⟩
            rw [minimalDifference_frontendOnly.mp h]
      | cons y ys =>
          rw [itemDifferences, List.mem_append,
            ihxs fun x hx y hy => ih x (List.mem_cons_of_mem _ hx) y (List.mem_cons_of_mem _ hy)]
          refine or_congr ?_ Iff.rfl
          rw [List.mem_map]
          have hexact := (ih x (List.mem_cons_self ..) y (List.mem_cons_self ..)).2
          constructor
          · rintro ⟨q, hq, rfl⟩
            exact ⟨q, rfl, (hexact q).mp hq⟩
          · rintro ⟨q, rfl, h⟩
            exact ⟨q, (hexact q).mpr h, rfl⟩

theorem nodup_below {ps : List Position} (h : ps.Nodup) (s : Step) : (ps.map (s :: ·)).Nodup :=
  h.map fun _ _ heq => (List.cons.inj heq).2

theorem nodup_itemDifferences {xs ys : List Value} {i : Nat}
    (ih : ∀ x ∈ xs, ∀ y ∈ ys, Exact floats x y) : (itemDifferences floats xs ys i).Nodup := by
  induction xs generalizing ys i with
  | nil =>
      rw [itemDifferences, List.nodup_iff_pairwise_ne, List.pairwise_iff_getElem]
      intro a b ha hb hab heq
      rw [List.getElem_mapIdx, List.getElem_mapIdx] at heq
      have hindex := Step.index.inj (List.cons.inj heq).1
      omega
  | cons x xs ihxs =>
      -- what comes later has a later index
      have hlater {ys : List Value} (ih : ∀ x ∈ xs, ∀ y ∈ ys, Exact floats x y) (q : Position) :
          .index i :: q ∉ itemDifferences floats xs ys (i + 1) := by
        intro h
        obtain ⟨j, q', heq, -⟩ := (mem_itemDifferences ih _).mp h
        have hindex := Step.index.inj (List.cons.inj heq).1
        omega
      cases ys with
      | nil =>
          have hnil : ∀ x ∈ xs, ∀ y ∈ ([] : List Value), Exact floats x y :=
            fun _ _ _ hy => absurd hy List.not_mem_nil
          rw [itemDifferences, List.nodup_cons]
          exact ⟨hlater hnil [], ihxs hnil⟩
      | cons y ys =>
          have hrest : ∀ x ∈ xs, ∀ y ∈ ys, Exact floats x y :=
            fun x hx y hy => ih x (List.mem_cons_of_mem _ hx) y (List.mem_cons_of_mem _ hy)
          rw [itemDifferences, List.nodup_append]
          refine ⟨nodup_below (ih x (List.mem_cons_self ..) y (List.mem_cons_self ..)).1 _,
            ihxs hrest, ?_⟩
          intro p hp p' hp' heq
          obtain ⟨q, -, rfl⟩ := List.mem_map.mp hp
          rw [← heq] at hp'
          exact hlater hrest q hp'

theorem mem_memberDifferences {ms ns : List (String × Value)}
    (ih : ∀ m ∈ ms, ∀ y, get m.1 ns = some y → Exact floats m.2 y) (p : Position) :
    p ∈ memberDifferences floats ms ns ↔
      ∃ m ∈ ms, ∃ q, p = .key m.1 :: q ∧
        MinimalDifference floats (some m.2) (get m.1 ns) q := by
  induction ms with
  | nil =>
      rw [memberDifferences]
      simp only [List.not_mem_nil, false_and, exists_false]
  | cons m ms ihms =>
      obtain ⟨key, x⟩ := m
      rw [memberDifferences, List.mem_append, ihms fun m hm => ih m (List.mem_cons_of_mem _ hm),
        List.exists_mem_cons_iff]
      refine or_congr ?_ Iff.rfl
      have hhead := ih (key, x) (List.mem_cons_self ..)
      cases hy : get key ns with
      | none =>
          rw [List.mem_singleton]
          constructor
          · rintro rfl
            exact ⟨[], rfl, minimalDifference_frontendOnly.mpr rfl⟩
          · rintro ⟨q, rfl, h⟩
            rw [minimalDifference_frontendOnly.mp h]
      | some y =>
          rw [List.mem_map]
          constructor
          · rintro ⟨q, hq, rfl⟩
            exact ⟨q, rfl, ((hhead y hy).2 q).mp hq⟩
          · rintro ⟨q, rfl, h⟩
            exact ⟨q, ((hhead y hy).2 q).mpr h, rfl⟩

theorem nodup_memberDifferences {ms ns : List (String × Value)} (hkeys : DistinctKeys ms)
    (ih : ∀ m ∈ ms, ∀ y, get m.1 ns = some y → Exact floats m.2 y) :
    (memberDifferences floats ms ns).Nodup := by
  induction ms with
  | nil => exact List.nodup_nil
  | cons m ms ihms =>
      obtain ⟨key, x⟩ := m
      rw [DistinctKeys, List.map_cons, List.nodup_cons] at hkeys
      have hrest := fun m hm => ih m (List.mem_cons_of_mem _ hm)
      have hlater (q : Position) : .key key :: q ∉ memberDifferences floats ms ns := by
        intro h
        obtain ⟨m, hm, q', heq, -⟩ := (mem_memberDifferences hrest _).mp h
        have hkey : key = m.1 := Step.key.inj (List.cons.inj heq).1
        have hmem : m.1 ∈ ms.map Prod.fst := List.mem_map_of_mem hm
        exact hkeys.1 (hkey ▸ hmem)
      rw [memberDifferences, List.nodup_append]
      refine ⟨?_, ihms hkeys.2 hrest, ?_⟩
      · cases hy : get key ns with
        | none => exact List.nodup_singleton _
        | some y => exact nodup_below (ih (key, x) (List.mem_cons_self ..) y hy).1 _
      · intro p hp p' hp' heq
        rw [← heq] at hp'
        cases hy : get key ns with
        | none =>
            rw [hy, List.mem_singleton] at hp
            rw [hp] at hp'
            exact hlater [] hp'
        | some y =>
            rw [hy, List.mem_map] at hp
            obtain ⟨q, -, rfl⟩ := hp
            exact hlater q hp'

theorem Exact.object {ms ns : List (String × Value)} (hkeys : DistinctKeys ms)
    (hkeys' : DistinctKeys ns)
    (ih : ∀ m ∈ ms, ∀ y, get m.1 ns = some y → Exact floats m.2 y) :
    Exact floats (.object ms) (.object ns) := by
  have honly (p : Position) :
      p ∈ ((ns.filter fun m => (get m.1 ms).isNone).map fun m => [Step.key m.1]) ↔
        ∃ k q, p = .key k :: q ∧ get k ms = none ∧
          MinimalDifference floats none (get k ns) q := by
    rw [List.mem_map]
    constructor
    · rintro ⟨m, hm, rfl⟩
      rw [List.mem_filter, Option.isNone_iff_eq_none] at hm
      refine ⟨m.1, [], rfl, hm.2, ?_⟩
      rw [get_of_mem hkeys' hm.1]
      exact minimalDifference_backendOnly.mpr rfl
    · rintro ⟨k, q, rfl, hnone, h⟩
      cases hy : get k ns with
      | none =>
          rw [hy] at h
          exact absurd h minimalDifference_none
      | some y =>
          rw [hy] at h
          refine ⟨(k, y), ?_, by rw [minimalDifference_backendOnly.mp h]⟩
          rw [List.mem_filter, Option.isNone_iff_eq_none]
          exact ⟨mem_of_get hy, hnone⟩
  constructor
  · rw [differences, List.nodup_append]
    refine ⟨nodup_memberDifferences hkeys ih, ?_, ?_⟩
    · have hnodup : ((ns.filter fun m => (get m.1 ms).isNone).map Prod.fst).Nodup :=
        List.Nodup.sublist (List.filter_sublist.map _) hkeys'
      have hmap := hnodup.map fun a b (heq : [Step.key a] = [Step.key b]) =>
        Step.key.inj (List.cons.inj heq).1
      rwa [List.map_map] at hmap
    · intro p hp p' hp' heq
      obtain ⟨m, hm, q, rfl, -⟩ := (mem_memberDifferences ih _).mp hp
      obtain ⟨k, q', rfl, hnone, -⟩ := (honly _).mp hp'
      rw [← Step.key.inj (List.cons.inj heq).1, get_of_mem hkeys hm] at hnone
      cases hnone
  · intro p
    rw [differences, List.mem_append, mem_memberDifferences ih, honly, minimalDifference_both rfl]
    constructor
    · rintro (⟨m, hm, q, rfl, h⟩ | ⟨k, q, rfl, hnone, h⟩)
      · refine ⟨.key m.1, q, rfl, ?_⟩
        rw [child, child, get_of_mem hkeys hm]
        exact h
      · refine ⟨.key k, q, rfl, ?_⟩
        rw [child, child, hnone]
        exact h
    · rintro ⟨s, q, rfl, h⟩
      cases s with
      | index i => exact absurd h minimalDifference_none
      | key k =>
          rw [child, child] at h
          cases hx : get k ms with
          | none =>
              rw [hx] at h
              exact .inr ⟨k, q, rfl, hx, h⟩
          | some x =>
              rw [hx] at h
              exact .inl ⟨(k, x), mem_of_get hx, q, rfl, h⟩

theorem Exact.array {xs ys : List Value} (ih : ∀ x ∈ xs, ∀ y ∈ ys, Exact floats x y) :
    Exact floats (.array xs) (.array ys) := by
  refine ⟨nodup_itemDifferences ih, ?_⟩
  intro p
  rw [differences, mem_itemDifferences ih, minimalDifference_both rfl]
  constructor
  · rintro ⟨j, q, rfl, h⟩
    rw [Nat.zero_add]
    exact ⟨.index j, q, rfl, h⟩
  · rintro ⟨s, q, rfl, h⟩
    cases s with
    | key k => exact absurd h minimalDifference_none
    | index j =>
        refine ⟨j, q, ?_, h⟩
        rw [Nat.zero_add]

theorem Exact.leaf {f b : Value} (h : bothContainers f b = false) : Exact floats f b := by
  unfold Exact
  rw [differences_leaf h]
  cases hequal : strictlyEqual floats f b with
  | true =>
      refine ⟨List.nodup_nil, ?_⟩
      intro p
      rw [minimalDifference_leaf h, hequal]
      simp only [if_true, List.not_mem_nil, Bool.true_eq_false, false_and]
  | false =>
      refine ⟨List.nodup_singleton _, ?_⟩
      intro p
      rw [minimalDifference_leaf h, hequal]
      simp only [Bool.false_eq_true, if_false, List.mem_singleton, true_and]

/-- A comparison visits the minimal positions that differ, each once. -/
theorem differences_exact {f b : Value} (hf : MapsOnly f) (hb : MapsOnly b) :
    Exact floats f b := by
  induction f using Value.inductOn generalizing b with
  | null => exact .leaf rfl
  | bool => exact .leaf rfl
  | number => exact .leaf rfl
  | string => exact .leaf rfl
  | array xs ih =>
      cases hf with
      | array hxs =>
          cases hb with
          | array hys => exact .array fun x hx y hy => ih x hx (hxs x hx) (hys y hy)
          | _ => exact .leaf rfl
  | object ms ih =>
      cases hf with
      | object hkeys hms =>
          cases hb with
          | object hkeys' hns =>
              refine .object hkeys hkeys' fun m hm y hy => ?_
              exact ih m hm (hms m hm) (hns _ (mem_of_get hy))
          | _ => exact .leaf rfl

/-! ## Equal values -/

theorem numbersEqual_of_eq {a b : Number} (h : numberEq floats a b = true) :
    numbersEqual floats a b = true := by
  cases a with
  | posInt a =>
      cases b with
      | posInt b =>
          rw [numberEq, beq_iff_eq] at h
          subst h
          exact beq_self_eq_true (integerValue (.posInt a))
      | _ => cases h
  | negInt a =>
      cases b with
      | negInt b =>
          rw [numberEq, beq_iff_eq] at h
          subst h
          exact beq_self_eq_true (integerValue (.negInt a))
      | _ => cases h
  | float a =>
      cases b with
      | float b =>
          rw [numberEq] at h
          rw [numbersEqual, h]
          rfl
      | _ => cases h

theorem strictlyEqual_of_eq {f b : Value} (h : valueEq floats f b = true) :
    strictlyEqual floats f b = true := by
  induction f using Value.inductOn generalizing b with
  | null => cases b <;> exact h
  | bool => cases b <;> exact h
  | number n =>
      cases b with
      | number n' => exact numbersEqual_of_eq h
      | _ => exact h
  | string => cases b <;> exact h
  | array xs ih =>
      cases b with
      | array ys =>
          rw [valueEq] at h
          rw [strictlyEqual, Bool.and_eq_true, beq_iff_eq]
          induction xs generalizing ys with
          | nil =>
              cases ys with
              | nil => exact ⟨rfl, rfl⟩
              | cons => cases h
          | cons x xs ihxs =>
              cases ys with
              | nil => cases h
              | cons y ys =>
                  rw [itemsEq, Bool.and_eq_true] at h
                  have hrest := ihxs (fun x hx => ih x (List.mem_cons_of_mem _ hx)) ys h.2
                  rw [itemsStrictlyEqual, List.length_cons, List.length_cons, hrest.1,
                    Bool.and_eq_true]
                  exact ⟨rfl, ih x (List.mem_cons_self ..) h.1, hrest.2⟩
      | _ => exact h
  | object ms ih =>
      cases b with
      | object ns =>
          rw [valueEq, Bool.and_eq_true] at h
          rw [strictlyEqual, Bool.and_eq_true]
          refine ⟨h.1, ?_⟩
          have hmembers := h.2
          clear h
          induction ms with
          | nil => rfl
          | cons m ms ihms =>
              obtain ⟨key, x⟩ := m
              rw [membersEq, Bool.and_eq_true] at hmembers
              rw [membersStrictlyEqual, Bool.and_eq_true]
              refine ⟨?_, ihms (fun m hm => ih m (List.mem_cons_of_mem _ hm)) hmembers.2⟩
              have hhead := hmembers.1
              cases hy : get key ns with
              | none =>
                  rw [hy] at hhead
                  cases hhead
              | some y =>
                  rw [hy] at hhead
                  exact ih (key, x) (List.mem_cons_self ..) hhead
      | _ => exact h

theorem itemDifferences_eq_nil {xs ys : List Value} {i : Nat}
    (ih : ∀ x ∈ xs, ∀ y ∈ ys, differences floats x y = [] ↔ strictlyEqual floats x y = true) :
    itemDifferences floats xs ys i = [] ↔
      xs.length = ys.length ∧ itemsStrictlyEqual floats xs ys = true := by
  induction xs generalizing ys i with
  | nil =>
      cases ys with
      | nil => exact ⟨fun _ => ⟨rfl, rfl⟩, fun _ => rfl⟩
      | cons y ys =>
          rw [itemDifferences, List.mapIdx_cons]
          exact ⟨fun h => absurd h (List.cons_ne_nil _ _), fun h => absurd h.1 (Nat.zero_ne_add_one _)⟩
  | cons x xs ihxs =>
      cases ys with
      | nil =>
          rw [itemDifferences]
          exact ⟨fun h => absurd h (List.cons_ne_nil _ _), fun h => absurd h.1 (Nat.add_one_ne_zero _)⟩
      | cons y ys =>
          rw [itemDifferences, List.append_eq_nil_iff, List.map_eq_nil_iff,
            ih x (List.mem_cons_self ..) y (List.mem_cons_self ..),
            ihxs fun x hx y hy => ih x (List.mem_cons_of_mem _ hx) y (List.mem_cons_of_mem _ hy),
            itemsStrictlyEqual, Bool.and_eq_true, List.length_cons, List.length_cons,
            Nat.add_right_cancel_iff]
          exact and_left_comm

theorem memberDifferences_eq_nil {ms ns : List (String × Value)}
    (ih : ∀ m ∈ ms, ∀ y, get m.1 ns = some y →
      (differences floats m.2 y = [] ↔ strictlyEqual floats m.2 y = true)) :
    memberDifferences floats ms ns = [] ↔ membersStrictlyEqual floats ms ns = true := by
  induction ms with
  | nil => exact ⟨fun _ => rfl, fun _ => rfl⟩
  | cons m ms ihms =>
      obtain ⟨key, x⟩ := m
      rw [memberDifferences, List.append_eq_nil_iff, membersStrictlyEqual, Bool.and_eq_true,
        ihms fun m hm => ih m (List.mem_cons_of_mem _ hm)]
      refine and_congr ?_ Iff.rfl
      cases hy : get key ns with
      | none => exact ⟨fun h => absurd h (List.cons_ne_nil _ _), fun h => absurd h Bool.false_ne_true⟩
      | some y =>
          rw [List.map_eq_nil_iff]
          exact ih (key, x) (List.mem_cons_self ..) y hy

theorem isSome_of_membersStrictlyEqual {ms ns : List (String × Value)}
    (h : membersStrictlyEqual floats ms ns = true) : ∀ m ∈ ms, (get m.1 ns).isSome := by
  induction ms with
  | nil => exact fun _ hm => absurd hm List.not_mem_nil
  | cons m ms ih =>
      obtain ⟨key, x⟩ := m
      rw [membersStrictlyEqual, Bool.and_eq_true] at h
      rw [List.forall_mem_cons]
      refine ⟨?_, ih h.2⟩
      cases hy : get key ns with
      | none =>
          rw [hy] at h
          exact absurd h.1 Bool.false_ne_true
      | some y => rfl

/-- With as many members, each side has the keys of the other. -/
theorem keys_of_length {ms ns : List (String × Value)} (hkeys : DistinctKeys ms)
    (hkeys' : DistinctKeys ns) (hsub : ∀ m ∈ ms, (get m.1 ns).isSome) :
    (∀ m ∈ ns, (get m.1 ms).isSome) ↔ ms.length = ns.length := by
  have hsub' : ms.map Prod.fst ⊆ ns.map Prod.fst := by
    intro k hk
    obtain ⟨m, hm, rfl⟩ := List.mem_map.mp hk
    exact get_isSome_iff.mp (hsub m hm)
  have hsubperm := List.subperm_of_subset hkeys hsub'
  constructor
  · intro hall
    have hback : ns.map Prod.fst ⊆ ms.map Prod.fst := by
      intro k hk
      obtain ⟨m, hm, rfl⟩ := List.mem_map.mp hk
      exact get_isSome_iff.mp (hall m hm)
    have hlength := (hsubperm.antisymm (List.subperm_of_subset hkeys' hback)).length_eq
    rwa [List.length_map, List.length_map] at hlength
  · intro hlength m hm
    have hperm := hsubperm.perm_of_length_le (Nat.le_of_eq (by
      rw [List.length_map, List.length_map, hlength]))
    exact get_isSome_iff.mpr (hperm.mem_iff.mpr (List.mem_map_of_mem hm))

/-- No position differs between values that are strictly equal, and between no others. -/
theorem differences_eq_nil {f b : Value} (hf : MapsOnly f) (hb : MapsOnly b) :
    differences floats f b = [] ↔ strictlyEqual floats f b = true := by
  have hleaf {f b : Value} (h : bothContainers f b = false) :
      differences floats f b = [] ↔ strictlyEqual floats f b = true := by
    rw [differences_leaf h, ite_eq_left_iff]
    simp only [Bool.not_eq_true, List.cons_ne_nil, imp_false, Bool.not_eq_false]
  induction f using Value.inductOn generalizing b with
  | null => exact hleaf rfl
  | bool => exact hleaf rfl
  | number => exact hleaf rfl
  | string => exact hleaf rfl
  | array xs ih =>
      cases hf with
      | array hxs =>
          cases hb with
          | array hys =>
              rw [differences, strictlyEqual, Bool.and_eq_true, beq_iff_eq,
                itemDifferences_eq_nil fun x hx y hy => ih x hx (hxs x hx) (hys y hy)]
          | _ => exact hleaf rfl
  | object ms ih =>
      cases hf with
      | object hkeys hms =>
          cases hb with
          | @object ns hkeys' hns =>
              have hmembers : memberDifferences floats ms ns = [] ↔
                  membersStrictlyEqual floats ms ns = true :=
                memberDifferences_eq_nil fun m hm y hy =>
                  ih m hm (hms m hm) (hns _ (mem_of_get hy))
              rw [differences, strictlyEqual, Bool.and_eq_true, beq_iff_eq,
                List.append_eq_nil_iff, hmembers, List.map_eq_nil_iff, List.filter_eq_nil_iff,
                and_comm]
              refine and_congr_left ?_
              intro hequal
              rw [← keys_of_length hkeys hkeys' (isSome_of_membersStrictlyEqual hequal)]
              refine forall₂_congr fun m _ => ?_
              rw [Option.isNone_iff_eq_none]
              exact Option.isSome_iff_ne_none.symm
          | _ => exact hleaf rfl

/-! ## What is pushed -/

theorem report_frontendOnly {path : String} {f b : Option Value} {p : Position} {x : Value}
    (hf : valueAt f p = some x) (hb : valueAt b p = none) :
    report floats path f b p = frontendOnly (pathAt path p) x := by
  rw [report, hf, hb]
  rfl

theorem report_backendOnly {path : String} {f b : Option Value} {p : Position} {y : Value}
    (hf : valueAt f p = none) (hb : valueAt b p = some y) :
    report floats path f b p = backendOnly (pathAt path p) y := by
  rw [report, hf, hb]
  rfl

theorem nesting_le_of_mem {items : List Value} {v : Value} (h : v ∈ items) :
    nesting v ≤ itemsNesting items := by
  induction items with
  | nil => cases h
  | cons x items ih =>
      rw [itemsNesting]
      rcases List.mem_cons.mp h with rfl | h
      · exact Nat.le_max_left _ _
      · exact Nat.le_trans (ih h) (Nat.le_max_right _ _)

theorem nesting_le_of_mem_members {members : List (String × Value)} {m : String × Value}
    (h : m ∈ members) : nesting m.2 ≤ membersNesting members := by
  induction members with
  | nil => cases h
  | cons x members ih =>
      obtain ⟨key, v⟩ := x
      rw [membersNesting]
      rcases List.mem_cons.mp h with rfl | h
      · exact Nat.le_max_left _ _
      · exact Nat.le_trans (ih h) (Nat.le_max_right _ _)

/-- The comparison of two values pushes what is to be reported where they differ. -/
def Pushes (floats : Floats) (f b : Value) : Prop :=
  ∀ path depth, nesting f + depth < maxCompareDepth →
    compareValues floats path f b depth =
      (differences floats f b).map (report floats path (some f) (some b))

theorem strictlyEqual_leaf {f b : Value} (h : bothContainers f b = false) :
    strictlyEqual floats f b = (valueEq floats f b || sameNumber floats f b) := by
  cases f with
  | number n =>
      cases b with
      | number n' =>
          rw [strictlyEqual, valueEq, sameNumber]
          cases heq : numberEq floats n n' with
          | true => exact numbersEqual_of_eq heq
          | false => rfl
      | _ => rfl
  | array xs =>
      cases b with
      | array ys => exact absurd h.symm Bool.false_ne_true
      | _ => rfl
  | object ms =>
      cases b with
      | object ns => exact absurd h.symm Bool.false_ne_true
      | _ => rfl
  | _ => cases b <;> exact (Bool.or_false _).symm

theorem Pushes.leaf {f b : Value} (h : bothContainers f b = false) : Pushes floats f b := by
  intro path depth hdepth
  have hshallow : ¬maxCompareDepth ≤ depth := by omega
  rw [differences_leaf h, strictlyEqual_leaf h, compareValues.eq_def]
  cases hequal : valueEq floats f b with
  | true => rfl
  | false =>
      cases hnumber : sameNumber floats f b with
      | true => rfl
      | false =>
          rw [if_neg Bool.false_ne_true, if_neg Bool.false_ne_true, if_neg hshallow]
          cases f <;> cases b <;> first
            | rfl
            | exact absurd h.symm Bool.false_ne_true

theorem compareItems_eq {path : String} {f b : Value} {xs ys : List Value} {i depth : Nat}
    (hf : ∀ j, child (.index (i + j)) f = xs[j]?) (hb : ∀ j, child (.index (i + j)) b = ys[j]?)
    (ih : ∀ x ∈ xs, ∀ y ∈ ys, Pushes floats x y)
    (hdepth : itemsNesting xs + (depth + 1) < maxCompareDepth) :
    compareItems floats path xs ys i depth =
      (itemDifferences floats xs ys i).map (report floats path (some f) (some b)) := by
  induction xs generalizing ys i with
  | nil =>
      rw [compareItems, itemDifferences]
      apply List.ext_getElem
      · rw [List.length_map, List.length_mapIdx, List.length_mapIdx]
      · intro j hj hj'
        rw [List.length_mapIdx] at hj
        rw [List.getElem_mapIdx, List.getElem_map, List.getElem_mapIdx]
        have hnone : valueAt (some f) [.index (i + j)] = none := hf j
        have hsome : valueAt (some b) [.index (i + j)] = some ys[j] :=
          (hb j).trans (List.getElem?_eq_getElem hj)
        exact (report_backendOnly hnone hsome).symm
  | cons x xs ihxs =>
      have hf' : ∀ j, child (.index (i + 1 + j)) f = xs[j]? := by
        intro j
        rw [Nat.add_assoc, Nat.add_comm 1 j, hf (j + 1), List.getElem?_cons_succ]
      have hx : child (.index i) f = some x := hf 0
      rw [itemsNesting] at hdepth
      cases ys with
      | nil =>
          have hnil : ∀ x ∈ xs, ∀ y ∈ ([] : List Value), Pushes floats x y :=
            fun _ _ _ hy => absurd hy List.not_mem_nil
          have hb' : ∀ j, child (.index (i + 1 + j)) b = ([] : List Value)[j]? := by
            intro j
            rw [Nat.add_assoc, hb (1 + j)]
            rfl
          have hsome : valueAt (some f) [.index i] = some x := hx
          have hnone : valueAt (some b) [.index i] = none := hb 0
          rw [compareItems, itemDifferences, List.map_cons, ihxs hf' hb' hnil (by omega),
            report_frontendOnly hsome hnone]
          rfl
      | cons y ys =>
          have hb' : ∀ j, child (.index (i + 1 + j)) b = ys[j]? := by
            intro j
            rw [Nat.add_assoc, Nat.add_comm 1 j, hb (j + 1), List.getElem?_cons_succ]
          have hy : child (.index i) b = some y := hb 0
          rw [compareItems, itemDifferences, List.map_append, List.map_map,
            ihxs hf' hb' (fun x hx y hy => ih x (List.mem_cons_of_mem _ hx) y (List.mem_cons_of_mem _ hy)) (by omega),
            ih x (List.mem_cons_self ..) y (List.mem_cons_self ..) _ _ (by omega)]
          congr 1
          refine List.map_congr_left fun p _ => ?_
          change _ = report floats (indexPath path i) (child (.index i) f) (child (.index i) b) p
          rw [hx, hy]

theorem compareMembers_eq {path : String} {f b : Value} {ms ns : List (String × Value)}
    {depth : Nat} (hf : ∀ m ∈ ms, child (.key m.1) f = some m.2)
    (hb : ∀ k, child (.key k) b = get k ns)
    (ih : ∀ m ∈ ms, ∀ y, get m.1 ns = some y → Pushes floats m.2 y)
    (hdepth : membersNesting ms + (depth + 1) < maxCompareDepth) :
    compareMembers floats path ms ns depth =
      (memberDifferences floats ms ns).map (report floats path (some f) (some b)) := by
  induction ms with
  | nil => rw [compareMembers, memberDifferences, List.map_nil]
  | cons m ms ihms =>
      obtain ⟨key, x⟩ := m
      have hx : child (.key key) f = some x := hf (key, x) (List.mem_cons_self ..)
      rw [membersNesting] at hdepth
      rw [compareMembers, memberDifferences, List.map_append,
        ihms (fun m hm => hf m (List.mem_cons_of_mem _ hm))
          (fun m hm => ih m (List.mem_cons_of_mem _ hm)) (by omega)]
      congr 1
      cases hy : get key ns with
      | none =>
          have hsome : valueAt (some f) [.key key] = some x := hx
          have hnone : valueAt (some b) [.key key] = none := (hb key).trans hy
          rw [List.map_singleton, report_frontendOnly hsome hnone]
          rfl
      | some y =>
          have hpushes : Pushes floats x y := ih (key, x) (List.mem_cons_self ..) y hy
          dsimp only
          rw [List.map_map, hpushes _ _ (by omega)]
          refine List.map_congr_left fun p _ => ?_
          change _ = report floats (keyPath path key) (child (.key key) f) (child (.key key) b) p
          rw [hx, hb, hy]

theorem Pushes.array {xs ys : List Value} (hf : MapsOnly (.array xs)) (hb : MapsOnly (.array ys))
    (ih : ∀ x ∈ xs, ∀ y ∈ ys, Pushes floats x y) : Pushes floats (.array xs) (.array ys) := by
  intro path depth hdepth
  have hshallow : ¬maxCompareDepth ≤ depth := by omega
  rw [nesting] at hdepth
  rw [compareValues.eq_def]
  cases hequal : valueEq floats (.array xs) (.array ys) with
  | true =>
      rw [(differences_eq_nil hf hb).mpr (strictlyEqual_of_eq hequal)]
      rfl
  | false =>
      have hnumber : sameNumber floats (.array xs) (.array ys) = false := rfl
      rw [if_neg Bool.false_ne_true, hnumber, if_neg Bool.false_ne_true, if_neg hshallow,
        differences]
      refine compareItems_eq ?_ ?_ ih (by omega)
      · intro j
        rw [Nat.zero_add]
        rfl
      · intro j
        rw [Nat.zero_add]
        rfl

theorem Pushes.object {ms ns : List (String × Value)} (hf : MapsOnly (.object ms))
    (hb : MapsOnly (.object ns)) (hkeys : DistinctKeys ms) (hkeys' : DistinctKeys ns)
    (ih : ∀ m ∈ ms, ∀ y, get m.1 ns = some y → Pushes floats m.2 y) :
    Pushes floats (.object ms) (.object ns) := by
  intro path depth hdepth
  have hshallow : ¬maxCompareDepth ≤ depth := by omega
  rw [nesting] at hdepth
  rw [compareValues.eq_def]
  cases hequal : valueEq floats (.object ms) (.object ns) with
  | true =>
      rw [(differences_eq_nil hf hb).mpr (strictlyEqual_of_eq hequal)]
      rfl
  | false =>
      have hnumber : sameNumber floats (.object ms) (.object ns) = false := rfl
      rw [if_neg Bool.false_ne_true, hnumber, if_neg Bool.false_ne_true, if_neg hshallow,
        differences, List.map_append]
      have hmembers : compareMembers floats path ms ns depth =
          (memberDifferences floats ms ns).map
            (report floats path (some (.object ms)) (some (.object ns))) :=
        compareMembers_eq (fun m hm => get_of_mem hkeys hm) (fun k => rfl) ih (by omega)
      dsimp only
      rw [hmembers, List.map_map]
      congr 1
      refine List.map_congr_left fun m hm => ?_
      rw [List.mem_filter, Option.isNone_iff_eq_none] at hm
      have hnone : valueAt (some (.object ms)) [.key m.1] = none := hm.2
      have hsome : valueAt (some (.object ns)) [.key m.1] = some m.2 := get_of_mem hkeys' hm.1
      exact (report_backendOnly hnone hsome).symm

theorem compareValues_eq {f b : Value} (hf : MapsOnly f) (hb : MapsOnly b) :
    Pushes floats f b := by
  induction f using Value.inductOn generalizing b with
  | null => exact .leaf rfl
  | bool => exact .leaf rfl
  | number => exact .leaf rfl
  | string => exact .leaf rfl
  | array xs ih =>
      cases b with
      | array ys =>
          cases hf with
          | array hxs =>
              cases hb with
              | array hys =>
                  exact .array (.array hxs) (.array hys) fun x hx y hy =>
                    ih x hx (hxs x hx) (hys y hy)
      | _ => exact .leaf rfl
  | object ms ih =>
      cases b with
      | object ns =>
          cases hf with
          | object hkeys hms =>
              cases hb with
              | object hkeys' hns =>
                  refine .object (.object hkeys hms) (.object hkeys' hns) hkeys hkeys' ?_
                  exact fun m hm y hy => ih m hm (hms m hm) (hns _ (mem_of_get hy))
      | _ => exact .leaf rfl

variable (floats)

/-- `verify_state` passes exactly the strictly equal states, and reports every minimal position
where two others differ, once, with what is found there. -/
theorem verifyState_exact {f b : Value} (hf : MapsOnly f) (hb : MapsOnly b)
    (hdepth : nesting f < maxCompareDepth) :
    let result := verifyState floats f b
    (result.passed = true ↔ strictlyEqual floats f b = true) ∧
      ∃ positions : List Position,
        positions.Nodup ∧
        (∀ p, p ∈ positions ↔ MinimalDifference floats (some f) (some b) p) ∧
        result.divergences = positions.map (report floats "" (some f) (some b)) := by
  intro result
  have hpushed : result.divergences =
      (differences floats f b).map (report floats "" (some f) (some b)) :=
    compareValues_eq hf hb "" 0 hdepth
  have hexact : Exact floats f b := differences_exact hf hb
  refine ⟨?_, differences floats f b, hexact.1, hexact.2, hpushed⟩
  rw [← differences_eq_nil hf hb]
  change result.divergences.isEmpty = true ↔ _
  rw [hpushed, List.isEmpty_iff, List.map_eq_nil_iff]

end Compare

/-- Two states that agree on `5` and `5.0` and differ in an array's length. -/
theorem verifyState_exact_of_longer :
    let five : UInt64 := 0x4014000000000000
    let floats : Floats :=
      { eq := fun x y => x == y
        close := fun _ _ => false
        whole := fun x => if x = five then some 5 else none
        withinEpsilon := fun _ _ => false }
    let f : Value := .object [("n", .number (.posInt 5)), ("a", .array [.null])]
    let b : Value := .object [("n", .number (.float five)), ("a", .array [.null, .null])]
    (verifyState floats f b).passed = false ∧
      ∃ positions : List Position,
        positions.Nodup ∧
        (∀ p, p ∈ positions ↔ MinimalDifference floats (some f) (some b) p) ∧
        (verifyState floats f b).divergences =
          positions.map (report floats "" (some f) (some b)) := by
  intro five floats f b
  have hitems : ∀ v ∈ [Value.null, .null], MapsOnly v := by
    intro v hv
    rw [List.mem_cons, List.mem_singleton, or_self] at hv
    rw [hv]
    exact .null
  have hf : MapsOnly f := by
    refine .object (show ["n", "a"].Nodup by decide) ?_
    rw [List.forall_mem_cons, List.forall_mem_singleton]
    exact ⟨.number, .array fun v hv => hitems v (List.mem_cons_of_mem _ hv)⟩
  have hb : MapsOnly b := by
    refine .object (show ["n", "a"].Nodup by decide) ?_
    rw [List.forall_mem_cons, List.forall_mem_singleton]
    exact ⟨.number, .array hitems⟩
  obtain ⟨hpassed, hpositions⟩ := verifyState_exact floats hf hb (by decide)
  refine ⟨?_, hpositions⟩
  rw [← Bool.not_eq_true, hpassed]
  decide

end Victauri.Core.Verification
