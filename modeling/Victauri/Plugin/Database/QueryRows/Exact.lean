import Victauri.Plugin.Database.QueryRows.Sizes

/-!
# What a query returns, and what it is charged

A prefix of the statement's rows, charged byte for byte.
-/

namespace Victauri.Plugin.Database

open Victauri.Core.Json

/-! ## Columns -/

theorem columnKeys_spec (originals used names : List String) :
    (columnKeys originals used names).length = names.length ∧
      (columnKeys originals used names).Nodup ∧
      ∀ key ∈ columnKeys originals used names, key ∉ used := by
  induction names generalizing used with
  | nil => exact ⟨rfl, List.nodup_nil, List.forall_mem_nil _⟩
  | cons name names ih =>
    rw [columnKeys]
    generalize hkey : (if name ∈ used then
      numbered name (Suffixes.next (numberedKeys name) (used ++ originals) 0) else name) = key
    obtain ⟨hlength, hnodup, hfresh⟩ := ih (used ++ [key])
    have hunused : key ∉ used := by
      rw [← hkey]
      split_ifs with hused
      · have hnext := Suffixes.next_not_mem (numberedKeys name) (used ++ originals) 0
        exact fun hmem => hnext (List.mem_append_left _ hmem)
      · exact hused
    refine ⟨by rw [List.length_cons, List.length_cons, hlength], ?_, ?_⟩
    · rw [List.nodup_cons]
      refine ⟨fun hmem => ?_, hnodup⟩
      exact hfresh key hmem (List.mem_append_right _ (List.mem_singleton.mpr rfl))
    · rw [List.forall_mem_cons]
      exact ⟨hunused, fun k hk hmem => hfresh k hk (List.mem_append_left _ hmem)⟩

section Rows

variable {number : NumberFormat} (encoder : Encoder number) (row : List ValueRef)

/-! ## A row -/

/-- The members of a row's object from the `i`th column on. -/
def rowMembers : List String → Nat → List (String × Value)
  | [], _ => []
  | key :: columns, i => (key, cellValue encoder row[i]?) :: rowMembers columns (i + 1)

/-- A row under its keys. -/
def rowObject (columns : List String) (row : List ValueRef) : Value :=
  .object (rowMembers encoder row columns 0)

/-- What members are charged. -/
def membersBytes (members : List (String × Value)) : Nat :=
  (members.map fun m => keyBytes encoder m.1 + jsonLen encoder m.2).sum

theorem length_rowMembers (columns : List String) (i : Nat) :
    (rowMembers encoder row columns i).length = columns.length := by
  induction columns generalizing i with
  | nil => rfl
  | cons key columns ih => rw [rowMembers, List.length_cons, ih, List.length_cons]

theorem jsonLen_rowObject (columns : List String) :
    jsonLen encoder (rowObject encoder columns row) =
      2 + (columns.length - 1) + membersBytes encoder (rowMembers encoder row columns 0) := by
  rw [rowObject, jsonLen_object, length_rowMembers, membersBytes]

theorem membersBytes_cons (m : String × Value) (members : List (String × Value)) :
    membersBytes encoder (m :: members) =
      keyBytes encoder m.1 + jsonLen encoder m.2 + membersBytes encoder members := by
  rw [membersBytes, List.map_cons, List.sum_cons, membersBytes]

variable {maxResultBytes : Nat} (hmax : maxResultBytes ≤ usizeMax)

include hmax

/-- A budget that a saturated sum leaves is no room for any cell. -/
theorem fits_iff (resultBytes spent key : Nat) {bytes : Nat} (hbytes : 0 < bytes) :
    bytes ≤ maxResultBytes - saturatingAdd (saturatingAdd resultBytes spent) key ↔
      resultBytes + spent + key + bytes ≤ maxResultBytes := by
  unfold saturatingAdd
  omega

/-- The cells of a row are read if all of them fit, with what they are charged. -/
theorem readCells_eq (resultBytes : Nat) {columns : List String} (hnodup : columns.Nodup) (i : Nat)
    (rowBytes : Nat) {obj : List (String × Value)}
    (hfresh : ∀ key ∈ columns, key ∉ obj.map Prod.fst) :
    readCells encoder maxResultBytes row resultBytes columns i rowBytes obj =
      if columns = [] ∨ resultBytes + rowBytes +
          membersBytes encoder (rowMembers encoder row columns i) ≤ maxResultBytes then
        some (rowBytes + membersBytes encoder (rowMembers encoder row columns i),
          obj ++ rowMembers encoder row columns i)
      else none := by
  induction columns generalizing i rowBytes obj with
  | nil =>
    rw [if_pos (Or.inl rfl), rowMembers, List.append_nil]
    rfl
  | cons key columns ih =>
    rw [List.nodup_cons] at hnodup
    rw [List.forall_mem_cons] at hfresh
    have hpos := jsonLen_pos encoder (cellValue encoder row[i]?)
    have hfits := fits_iff hmax resultBytes rowBytes (keyBytes encoder key) hpos
    rw [readCells, rowMembers, membersBytes_cons, cellToJson_eq]
    unfold cellToJson.fitting
    dsimp only
    by_cases hcell : resultBytes + rowBytes + keyBytes encoder key +
        jsonLen encoder (cellValue encoder row[i]?) ≤ maxResultBytes
    · have hsum : saturatingAdd (saturatingAdd rowBytes (keyBytes encoder key))
          (jsonLen encoder (cellValue encoder row[i]?)) =
          rowBytes + keyBytes encoder key + jsonLen encoder (cellValue encoder row[i]?) := by
        unfold saturatingAdd
        omega
      have hnext : ∀ k ∈ columns,
          k ∉ (obj ++ [(key, cellValue encoder row[i]?)]).map Prod.fst := by
        intro k hk hmem
        rw [List.map_append, List.mem_append, List.map_singleton, List.mem_singleton] at hmem
        rcases hmem with hobj | rfl
        · exact hfresh.2 k hk hobj
        · exact hnodup.1 hk
      rw [if_pos (hfits.mpr hcell)]
      dsimp only
      rw [hsum, insertMember_of_new hfresh.1, ih hnodup.2 _ _ hnext]
      refine if_congr ?_ (congrArg some (Prod.ext ?_ ?_)) rfl
      · constructor
        · rintro (rfl | htotal)
          · right
            have hnil : membersBytes encoder (rowMembers encoder row [] (i + 1)) = 0 := rfl
            omega
          · exact Or.inr (by omega)
        · rintro (hnil | htotal)
          · cases hnil
          · exact Or.inr (by omega)
      · dsimp only
        omega
      · exact List.append_assoc _ _ _
    · rw [if_neg (fun h => hcell (hfits.mp h)), if_neg]
      rintro (hnil | htotal)
      · cases hnil
      · omega

/-- A row is returned if its JSON fits behind what is returned already. -/
theorem readRows_cons {columns : List String} (hnodup : columns.Nodup) (maxRows : Nat)
    (rows : List (List ValueRef)) (rowsOut : List Value) {resultBytes : Nat}
    (hempty : columns = [] → resultBytes + 2 ≤ usizeMax) :
    readRows encoder maxResultBytes columns maxRows (row :: rows) rowsOut resultBytes =
      if maxRows ≤ rowsOut.length ∨
          maxResultBytes < resultBytes + jsonLen encoder (rowObject encoder columns row) then
        (rowsOut, resultBytes, true)
      else
        readRows encoder maxResultBytes columns maxRows rows
          (rowsOut ++ [rowObject encoder columns row])
          (resultBytes + jsonLen encoder (rowObject encoder columns row)) := by
  rw [readRows]
  by_cases hrows : maxRows ≤ rowsOut.length
  · rw [if_pos hrows, if_pos (Or.inl hrows)]
  · have hfresh : ∀ key ∈ columns, key ∉ ([] : List (String × Value)).map Prod.fst :=
      fun key _ => List.not_mem_nil
    rw [if_neg hrows]
    dsimp only
    rw [readCells_eq encoder row hmax resultBytes hnodup 0 _ hfresh, List.nil_append]
    by_cases hfits : resultBytes + jsonLen encoder (rowObject encoder columns row) ≤ maxResultBytes
    · -- the sum is not saturated, and is the one that is compared again
      have hsum : saturatingAdd resultBytes (2 + (columns.length - 1) +
          membersBytes encoder (rowMembers encoder row columns 0)) =
          resultBytes + jsonLen encoder (rowObject encoder columns row) := by
        rw [jsonLen_rowObject] at hfits ⊢
        unfold saturatingAdd
        omega
      have hread : columns = [] ∨ resultBytes + (2 + (columns.length - 1)) +
          membersBytes encoder (rowMembers encoder row columns 0) ≤ maxResultBytes := by
        right
        rw [jsonLen_rowObject] at hfits
        omega
      rw [if_pos hread]
      dsimp only
      rw [hsum, if_neg (Nat.not_lt.mpr hfits), if_neg (by omega)]
      rfl
    · rw [if_pos (Or.inr (Nat.lt_of_not_le hfits))]
      cases columns with
      | nil =>
        -- a row without columns is two braces, and their sum is small
        have hsum : saturatingAdd resultBytes (2 + (([] : List String).length - 1) +
            membersBytes encoder (rowMembers encoder row [] 0)) = resultBytes + 2 :=
          Nat.min_eq_left (hempty rfl)
        have hlength : jsonLen encoder (rowObject encoder [] row) = 2 := rfl
        rw [hlength] at hfits
        rw [if_pos (Or.inl rfl)]
        dsimp only
        rw [hsum, if_pos (Nat.lt_of_not_le hfits)]
      | cons key columns =>
        rw [if_neg]
        rintro (hnil | htotal)
        · cases hnil
        · rw [jsonLen_rowObject] at hfits
          omega

/-- What rows are charged. -/
def rowsBytes (columns : List String) (rows : List (List ValueRef)) : Nat :=
  (rows.map fun row => jsonLen encoder (rowObject encoder columns row)).sum

omit hmax in
theorem rowsBytes_cons (columns : List String) (rows : List (List ValueRef)) :
    rowsBytes encoder columns (row :: rows) =
      jsonLen encoder (rowObject encoder columns row) + rowsBytes encoder columns rows := by
  rw [rowsBytes, List.map_cons, List.sum_cons, rowsBytes]

variable (maxResultBytes) in
/-- The loop returns the first `n` of the rows that are left. -/
structure Returns (columns : List String) (maxRows : Nat) (rows : List (List ValueRef))
    (rowsOut : List Value) (resultBytes n : Nat) (result : List Value × Nat × Bool) : Prop where
  le_length : n ≤ rows.length
  rows_eq : result.1 = rowsOut ++ (rows.take n).map (rowObject encoder columns)
  bytes_eq : result.2.1 = resultBytes + rowsBytes encoder columns (rows.take n)
  truncated_iff : result.2.2 = false ↔ n = rows.length
  bytes_le : 0 < n → result.2.1 ≤ maxResultBytes
  rows_le : 0 < n → rowsOut.length + n ≤ maxRows

omit hmax in
theorem returns_none (columns : List String) (maxRows : Nat) (rows : List (List ValueRef))
    (rowsOut : List Value) (resultBytes : Nat) :
    Returns encoder maxResultBytes columns maxRows (row :: rows) rowsOut resultBytes 0
      (rowsOut, resultBytes, true) := by
  refine ⟨Nat.zero_le _, ?_, rfl, ?_, ?_, ?_⟩
  · rw [List.take_zero, List.map_nil, List.append_nil]
  · exact ⟨fun h => absurd h.symm Bool.false_ne_true, fun h => absurd h (Nat.zero_ne_add_one _)⟩
  · exact fun h => absurd h (Nat.lt_irrefl 0)
  · exact fun h => absurd h (Nat.lt_irrefl 0)

theorem readRows_spec {columns : List String} (hnodup : columns.Nodup) (maxRows : Nat)
    (rows : List (List ValueRef)) (rowsOut : List Value) (resultBytes : Nat)
    (hempty : columns = [] → resultBytes + 2 * (maxRows - rowsOut.length) ≤ usizeMax) :
    ∃ n, Returns encoder maxResultBytes columns maxRows rows rowsOut resultBytes n
      (readRows encoder maxResultBytes columns maxRows rows rowsOut resultBytes) := by
  induction rows generalizing rowsOut resultBytes with
  | nil =>
    refine ⟨0, Nat.le_refl 0, ?_, rfl, ⟨fun _ => rfl, fun _ => rfl⟩, ?_, ?_⟩
    · rw [readRows, List.take_nil, List.map_nil, List.append_nil]
    · exact fun h => absurd h (Nat.lt_irrefl 0)
    · exact fun h => absurd h (Nat.lt_irrefl 0)
  | cons row rows ih =>
    by_cases hrows : maxRows ≤ rowsOut.length
    · rw [readRows, if_pos hrows]
      exact ⟨0, returns_none encoder row columns maxRows rows rowsOut resultBytes⟩
    · have hsmall : columns = [] → resultBytes + 2 ≤ usizeMax := by
        intro hcolumns
        have := hempty hcolumns
        omega
      rw [readRows_cons encoder row hmax hnodup maxRows rows rowsOut hsmall]
      by_cases hbytes : maxResultBytes < resultBytes + jsonLen encoder (rowObject encoder columns row)
      · rw [if_pos (Or.inr hbytes)]
        exact ⟨0, returns_none encoder row columns maxRows rows rowsOut resultBytes⟩
      · rw [if_neg (fun h => h.elim hrows hbytes)]
        have hnext : columns = [] → resultBytes + jsonLen encoder (rowObject encoder columns row) +
            2 * (maxRows - (rowsOut ++ [rowObject encoder columns row]).length) ≤ usizeMax := by
          intro hcolumns
          have hlength : jsonLen encoder (rowObject encoder columns row) = 2 := by
            rw [hcolumns]
            rfl
          have := hempty hcolumns
          rw [List.length_append, List.length_singleton, hlength]
          omega
        obtain ⟨n, h⟩ := ih _ _ hnext
        have hsum := h.bytes_eq
        refine ⟨n + 1, Nat.succ_le_succ h.le_length, ?_, ?_, ?_, ?_, ?_⟩
        · rw [h.rows_eq, List.take_succ_cons, List.map_cons, List.append_assoc]
          rfl
        · rw [hsum, List.take_succ_cons, rowsBytes_cons, Nat.add_assoc]
        · rw [h.truncated_iff, List.length_cons, Nat.add_right_cancel_iff]
        · intro _
          by_cases hn : 0 < n
          · exact h.bytes_le hn
          · have hzero : n = 0 := Nat.eq_zero_of_not_pos hn
            rw [hzero, List.take_zero] at hsum
            have hnil : rowsBytes encoder columns [] = 0 := rfl
            omega
        · intro _
          by_cases hn : 0 < n
          · have := h.rows_le hn
            rw [List.length_append, List.length_singleton] at this
            omega
          · omega

end Rows

end Victauri.Plugin.Database
