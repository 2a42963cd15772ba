import Victauri.Plugin.Database.QueryRows.Exact

/-!
# The keys of the columns

The search of `unique_column_keys`, test by test.  It ends, a name keeps its key where it first
stands, and no generated key is the name of a column, before or behind it.
-/

namespace Victauri.Plugin.Database

variable (originals used : List String) (name : String)

/-! ## The search -/

/-- The `while` loop with so many tests of its condition; nothing if it has not ended with them.
The `u32` of the source is not bounded here: it passes no more numbers than there are tests. -/
def searchKey : (tests : Nat) → (key : String) → (n : Nat) → Option String
  | 0, _, _ => none
  | tests + 1, key, n =>
      if key ∈ used ∨ 0 < n ∧ key ∈ originals then
        searchKey tests (numbered name (n + 1)) (n + 1)
      else some key

/-- The number at which the search ends. -/
def searchEnd : Nat → Nat := Suffixes.next (numberedKeys name) (used ++ originals)

/-- The key of a column behind those that `used` are. -/
def columnKey : String :=
  if name ∈ used then numbered name (searchEnd originals used name 0) else name

theorem columnKeys_cons (names : List String) :
    columnKeys originals used (name :: names) = columnKey originals used name ::
      columnKeys originals (used ++ [columnKey originals used name]) names := rfl

theorem searchKey_numbered {n tests : Nat} (h : searchEnd originals used name n ≤ n + tests) :
    searchKey originals used name tests (numbered name (n + 1)) (n + 1) =
      some (numbered name (searchEnd originals used name n)) := by
  have hmem (n : Nat) : numberedKeys name (n + 1) ∈ used ++ originals ↔
      numbered name (n + 1) ∈ used ∨ 0 < n + 1 ∧ numbered name (n + 1) ∈ originals := by
    rw [List.mem_append]
    exact or_congr_right (iff_and_self.mpr fun _ => Nat.succ_pos n)
  have hlater : n < searchEnd originals used name n := Suffixes.lt_next _ _ n
  induction tests generalizing n with
  | zero => omega
  | succ tests ih =>
    rw [searchKey]
    unfold searchEnd at h hlater ⊢
    rw [Suffixes.next] at h hlater ⊢
    by_cases htaken : numberedKeys name (n + 1) ∈ used ++ originals
    · rw [if_pos ((hmem n).mp htaken), if_pos htaken]
      rw [if_pos htaken] at h
      exact ih (by unfold searchEnd; omega) (Suffixes.lt_next _ _ _)
    · rw [if_neg fun htest => htaken ((hmem n).mpr htest), if_neg htaken]

/-- The loop ends, with the key of the column. -/
theorem searchKey_eq {tests : Nat} (h : used.length + originals.length + 1 < tests) :
    searchKey originals used name tests name 0 = some (columnKey originals used name) := by
  obtain ⟨tests, rfl⟩ := Nat.exists_eq_add_of_lt (Nat.zero_lt_of_lt h)
  rw [Nat.zero_add, searchKey, columnKey]
  by_cases hused : name ∈ used
  · have hend := Suffixes.next_le (numberedKeys name) (used ++ originals) 0
    rw [List.length_append] at hend
    rw [if_pos (.inl hused), if_pos hused]
    exact searchKey_numbered _ _ _ (by unfold searchEnd; omega)
  · have htest : ¬(name ∈ used ∨ 0 < 0 ∧ name ∈ originals) := by
      rintro (hmem | ⟨hzero, -⟩)
      · exact hused hmem
      · exact Nat.lt_irrefl 0 hzero
    rw [if_neg htest, if_neg hused]

/-! ## The keys -/

/-- A key that is generated is no name of a column, also of a later one. -/
theorem columnKey_eq_or :
    columnKey originals used name = name ∨ columnKey originals used name ∉ originals := by
  rw [columnKey]
  split_ifs
  · right
    have hnext := Suffixes.next_not_mem (numberedKeys name) (used ++ originals) 0
    exact fun hmem => hnext (List.mem_append_right _ hmem)
  · exact .inl rfl

variable {originals used name}

/-- The key of a column is searched among those before it. -/
theorem columnKeys_getElem? {names : List String} {i : Nat} (h : names[i]? = some name) :
    (columnKeys originals used names)[i]? =
      some (columnKey originals (used ++ (columnKeys originals used names).take i) name) := by
  induction names generalizing used i with
  | nil => cases h
  | cons first names ih =>
    rw [columnKeys_cons]
    cases i with
    | zero =>
      rw [List.getElem?_cons_zero] at h ⊢
      rw [Option.some.inj h, List.take_zero, List.append_nil]
    | succ i =>
      rw [List.getElem?_cons_succ] at h ⊢
      rw [ih h, List.take_succ_cons, List.append_assoc, List.singleton_append]

theorem uniqueColumnKeys_getElem? {names : List String} {i : Nat} (h : names[i]? = some name) :
    (uniqueColumnKeys names)[i]? =
      some (columnKey names ((uniqueColumnKeys names).take i) name) :=
  columnKeys_getElem? h

theorem length_uniqueColumnKeys (names : List String) :
    (uniqueColumnKeys names).length = names.length := (columnKeys_spec names [] names).1

/-- Before a name stands for the first time no column has it for its key. -/
theorem not_mem_take_uniqueColumnKeys {names : List String} {i : Nat} (h : names[i]? = some name)
    (hfirst : name ∉ names.take i) : name ∉ (uniqueColumnKeys names).take i := by
  intro hmem
  obtain ⟨j, hj⟩ := List.mem_iff_getElem?.mp hmem
  have hlt : j < i := by
    by_contra hle
    rw [List.getElem?_take, if_neg hle] at hj
    cases hj
  have hkey : (uniqueColumnKeys names)[j]? = some name := by
    rwa [List.getElem?_take, if_pos hlt] at hj
  have hbound : j < names.length := by
    rw [← length_uniqueColumnKeys]
    exact (List.getElem?_eq_some_iff.mp hkey).1
  have hsource : names[j]? = some names[j] := List.getElem?_eq_getElem hbound
  rw [uniqueColumnKeys_getElem? hsource] at hkey
  have hname : columnKey names ((uniqueColumnKeys names).take j) names[j] = name :=
    Option.some.inj hkey
  rcases columnKey_eq_or names ((uniqueColumnKeys names).take j) names[j] with hkept | hnew
  · apply hfirst
    rw [← hname, hkept]
    exact List.mem_iff_getElem?.mpr ⟨j, by rw [List.getElem?_take, if_pos hlt, hsource]⟩
  · exact hnew (hname ▸ List.mem_iff_getElem?.mpr ⟨i, h⟩)

theorem uniqueColumnKeys_unique (names : List String) :
    (uniqueColumnKeys names).length = names.length ∧ (uniqueColumnKeys names).Nodup ∧
      (∀ (i : Nat) (name : String), names[i]? = some name → name ∉ names.take i →
        (uniqueColumnKeys names)[i]? = some name) ∧
      ∀ (i : Nat) (name : String), names[i]? = some name →
        searchKey names ((uniqueColumnKeys names).take i) name (2 * names.length + 1) name 0 =
          (uniqueColumnKeys names)[i]? := by
  refine ⟨length_uniqueColumnKeys names, (columnKeys_spec names [] names).2.1, ?_, ?_⟩
  · intro i name h hfirst
    rw [uniqueColumnKeys_getElem? h, columnKey,
      if_neg (not_mem_take_uniqueColumnKeys h hfirst)]
  · intro i name h
    rw [uniqueColumnKeys_getElem? h]
    apply searchKey_eq
    have hbound : i < names.length := (List.getElem?_eq_some_iff.mp h).1
    rw [List.length_take, length_uniqueColumnKeys]
    omega

end Victauri.Plugin.Database
