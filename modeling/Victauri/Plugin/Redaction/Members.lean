import Mathlib.Data.List.Perm.Subperm
import Victauri.Core.Verification.Positions
import Victauri.Plugin.Redaction

/-!
# No member is lost

However many keys of an object the patterns make equal, every member keeps its place and a key of
its own.
-/

namespace Victauri.Plugin.Redaction

open Victauri.Core.Json
open Victauri.Core.Verification (MapsOnly)

theorem suffixed_ne (newKey : String) (n : Nat) : suffixed newKey n ≠ newKey := by
  intro h
  have hlength := congrArg (fun s => s.toList.length) h
  unfold suffixed at hlength
  simp only [String.toList_append, List.length_append] at hlength
  have hhash : "#".toList.length = 1 := rfl
  omega

/-- The key of a member whose own becomes `newKey`: numbered, if need be. -/
def KeyFor (newKey key : String) (bound : Nat) : Prop :=
  key = newKey ∨ ∃ n, 2 ≤ n ∧ n ≤ bound ∧ key = suffixed newKey n

theorem KeyFor.mono {newKey key : String} {bound bound' : Nat} (h : KeyFor newKey key bound)
    (hle : bound ≤ bound') : KeyFor newKey key bound' := by
  rcases h with heq | ⟨n, htwo, hn, heq⟩
  · exact Or.inl heq
  · exact Or.inr ⟨n, htwo, Nat.le_trans hn hle, heq⟩

namespace Redactor

/-! ## The search for a key -/

abbrev Built.keys (b : Built) : List String := b.newMap.map Prod.fst

/-- What holds before and behind every member: a number that is remembered says that the ones
below it are taken. -/
structure Sound (b : Built) : Prop where
  distinct : DistinctKeys b.newMap
  taken : ∀ newKey n, b.lastSuffix newKey = some n →
    1 ≤ n ∧ ∀ m, 2 ≤ m → m ≤ n → suffixed newKey m ∈ b.keys

theorem sound_empty : Sound .empty := by
  refine ⟨List.nodup_nil, ?_⟩
  intro newKey n h
  cases h

/-- A number whose smaller ones are taken is at most one above how many keys there are. -/
theorem le_of_taken {keys : List String} {newKey : String} {n : Nat} (hkey : newKey ∈ keys)
    (htaken : ∀ m, 2 ≤ m → m < n → suffixed newKey m ∈ keys) : n ≤ keys.length + 1 := by
  have hnodup : (newKey :: (List.range' 2 (n - 2)).map (suffixed newKey)).Nodup := by
    rw [List.nodup_cons]
    constructor
    · rw [List.mem_map]
      rintro ⟨m, -, hm⟩
      exact suffixed_ne newKey m hm
    · exact List.Nodup.map (fun _ _ => suffixed_inj) List.nodup_range'
  have hsubset : newKey :: (List.range' 2 (n - 2)).map (suffixed newKey) ⊆ keys := by
    rw [List.cons_subset]
    refine ⟨hkey, ?_⟩
    intro key hmem
    rw [List.mem_map] at hmem
    obtain ⟨m, hm, rfl⟩ := hmem
    rw [List.mem_range'_1] at hm
    exact htaken m hm.1 (by omega)
  have hlength := (List.subperm_of_subset hnodup hsubset).length_le
  rw [List.length_cons, List.length_map, List.length_range'] at hlength
  omega

theorem keys_append (b : Built) (key : String) (val : Value) :
    (b.newMap ++ [(key, val)]).map Prod.fst = b.keys ++ [key] := List.map_append

theorem subset_append (b : Built) (key : String) (val : Value) {k : String} (h : k ∈ b.keys) :
    k ∈ (b.newMap ++ [(key, val)]).map Prod.fst := by
  rw [keys_append]
  exact List.mem_append_left _ h

/-- The search resumes where the last one for the same text stopped, and finds the first number
above one whose key is not taken. -/
theorem search_spec {b : Built} (h : Sound b) {newKey : String} (hkey : newKey ∈ b.keys) {n : Nat}
    (hn : n = Suffixes.next (suffixes newKey) b.keys ((b.lastSuffix newKey).getD 1)) :
    suffixed newKey n ∉ b.keys ∧ 2 ≤ n ∧ n ≤ b.newMap.length + 1 ∧
      ∀ m, 2 ≤ m → m < n → suffixed newKey m ∈ b.keys := by
  have hstart : 1 ≤ (b.lastSuffix newKey).getD 1 ∧
      ∀ m, 2 ≤ m → m ≤ (b.lastSuffix newKey).getD 1 → suffixed newKey m ∈ b.keys := by
    cases hlast : b.lastSuffix newKey with
    | none => exact ⟨Nat.le_refl 1, fun m htwo hm => absurd (Nat.le_trans htwo hm) (by decide)⟩
    | some last => exact h.taken newKey last hlast
  have hlt := Suffixes.lt_next (suffixes newKey) b.keys ((b.lastSuffix newKey).getD 1)
  rw [← hn] at hlt
  have hbelow : ∀ m, 2 ≤ m → m < n → suffixed newKey m ∈ b.keys := by
    intro m htwo hm
    by_cases hle : m ≤ (b.lastSuffix newKey).getD 1
    · exact hstart.2 m htwo hle
    · rw [hn] at hm
      exact Suffixes.mem_of_lt_next (suffixes newKey) _ (Nat.lt_of_not_le hle) hm
  refine ⟨?_, by omega, ?_, hbelow⟩
  · rw [hn]
    exact Suffixes.next_not_mem (suffixes newKey) _ _
  · have hle := le_of_taken hkey hbelow
    rwa [List.length_map] at hle

/-- Inserting under a key made unique adds a member and overwrites none. -/
theorem insertUnique_sound {b : Built} (h : Sound b) (newKey : String) (val : Value) :
    Sound (b.insertUnique newKey val) ∧
      ∃ key, (b.insertUnique newKey val).newMap = b.newMap ++ [(key, val)] ∧
        KeyFor newKey key (b.newMap.length + 1) := by
  unfold Built.insertUnique
  by_cases hcontains : newKey ∈ b.newMap.map Prod.fst
  · rw [if_pos hcontains]
    generalize hn : Suffixes.next (suffixes newKey) (b.newMap.map Prod.fst)
      ((b.lastSuffix newKey).getD 1) = n
    obtain ⟨hfresh, htwo, hbound, hbelow⟩ := search_spec h hcontains hn.symm
    refine ⟨⟨h.distinct.insertMember _ val, ?_⟩, suffixed newKey n,
      insertMember_of_new hfresh val, Or.inr ⟨n, htwo, hbound, rfl⟩⟩
    intro key m hm
    dsimp only [Built.keys] at hm ⊢
    rw [insertMember_of_new hfresh val]
    by_cases heq : key = newKey
    · subst heq
      rw [Function.update_self, Option.some.injEq] at hm
      subst hm
      refine ⟨by omega, ?_⟩
      intro k hk hle
      rcases Nat.lt_or_eq_of_le hle with hlt | rfl
      · exact subset_append b _ val (hbelow k hk hlt)
      · rw [keys_append]
        exact List.mem_append_right _ (List.mem_singleton.mpr rfl)
    · rw [Function.update_of_ne heq] at hm
      obtain ⟨hone, htaken⟩ := h.taken key m hm
      exact ⟨hone, fun k hk hle => subset_append b _ val (htaken k hk hle)⟩
  · rw [if_neg hcontains]
    refine ⟨⟨h.distinct.insertMember _ val, ?_⟩, newKey, insertMember_of_new hcontains val,
      Or.inl rfl⟩
    intro key m hm
    dsimp only [Built.keys] at hm ⊢
    rw [insertMember_of_new hcontains val]
    obtain ⟨hone, htaken⟩ := h.taken key m hm
    exact ⟨hone, fun k hk hle => subset_append b _ val (htaken k hk hle)⟩

/-! ## The members of an object -/

section Object

variable (r : Redactor) (redactString : String → Option Value) (named : Bool)

/-- The value a member gets, if it gets another one. -/
def newValue (key : String) (val : Value) : Option Value :=
  if r.isSecret named key val then some redacted else r.redactJsonValueWith redactString val

theorem redactMembers_cons (key : String) (val : Value) (members : List (String × Value))
    (changed : Bool) (b : Built) :
    r.redactMembers redactString named ((key, val) :: members) changed b =
      r.redactMembers redactString named members
        (changed || (newValue r redactString named key val).isSome || r.redactRegex key != key)
        (b.insertUnique (r.redactRegex key) ((newValue r redactString named key val).getD val)) := by
  rw [redactMembers]
  rfl

/-- A member of the result beside the one it comes from. -/
def MemberFor (bound : Nat) (m m' : String × Value) : Prop :=
  KeyFor (r.redactRegex m.1) m'.1 bound ∧
    m'.2 = (newValue r redactString named m.1 m.2).getD m.2

theorem redactMembers_spec (members : List (String × Value)) (changed : Bool) {b : Built}
    (h : Sound b) :
    Sound (r.redactMembers redactString named members changed b).2 ∧
      (∃ added, (r.redactMembers redactString named members changed b).2.newMap =
          b.newMap ++ added ∧
        List.Forall₂ (MemberFor r redactString named (b.newMap.length + members.length))
          members added) ∧
      ((r.redactMembers redactString named members changed b).1 = false →
        changed = false ∧ ∀ m ∈ members, newValue r redactString named m.1 m.2 = none ∧
          r.redactRegex m.1 = m.1) := by
  induction members generalizing changed b with
  | nil =>
    rw [redactMembers]
    exact ⟨h, ⟨[], (List.append_nil _).symm, .nil⟩,
      fun hchanged => ⟨hchanged, List.forall_mem_nil _⟩⟩
  | cons m members ih =>
    obtain ⟨key, val⟩ := m
    rw [redactMembers_cons]
    obtain ⟨hsound, newKey, hmap, hkey⟩ := insertUnique_sound h (r.redactRegex key)
      ((newValue r redactString named key val).getD val)
    obtain ⟨hsound', ⟨added, hadded, hpairs⟩, hchanged⟩ := ih
      (changed || (newValue r redactString named key val).isSome || r.redactRegex key != key) hsound
    refine ⟨hsound',
      ⟨(newKey, (newValue r redactString named key val).getD val) :: added, ?_, ?_⟩, ?_⟩
    · rw [hadded, hmap, List.append_assoc]
      rfl
    · rw [hmap, List.length_append, List.length_singleton] at hpairs
      refine .cons ⟨hkey.mono ?_, rfl⟩ ?_
      · rw [List.length_cons]
        omega
      · rw [List.length_cons, Nat.add_comm members.length, ← Nat.add_assoc]
        exact hpairs
    · intro hfalse
      obtain ⟨hall, hmembers⟩ := hchanged hfalse
      rw [Bool.or_eq_false_iff, Bool.or_eq_false_iff] at hall
      refine ⟨hall.1.1, ?_⟩
      rw [List.forall_mem_cons]
      refine ⟨⟨?_, ?_⟩, hmembers⟩
      · exact Option.not_isSome_iff_eq_none.mp (ne_true_of_eq_false hall.1.2)
      · exact bne_eq_false_iff_eq.mp hall.2

/-! ## Values -/

/-- What redacting makes of a value, all the way down: every member of an object is there, in its
place and under its own key. -/
inductive Keeps : Value → Value → Prop
  | object {members members' : List (String × Value)} (hlength : members'.length = members.length)
      (hkeys : DistinctKeys members')
      (hnames : ∀ (i : Nat) (m m' : String × Value), members[i]? = some m → members'[i]? = some m' →
        KeyFor (r.redactRegex m.1) m'.1 members.length)
      (hsecret : ∀ (i : Nat) (m m' : String × Value), members[i]? = some m → members'[i]? = some m' →
        r.isSecret (r.namedSecret members) m.1 m.2 = true → m'.2 = redacted)
      (hkept : ∀ (i : Nat) (m m' : String × Value), members[i]? = some m → members'[i]? = some m' →
        r.isSecret (r.namedSecret members) m.1 m.2 = false → Keeps m.2 m'.2) :
      Keeps (.object members) (.object members')
  | array {items items' : List Value} (hlength : items'.length = items.length)
      (h : ∀ (i : Nat) (v v' : Value), items[i]? = some v → items'[i]? = some v' → Keeps v v') :
      Keeps (.array items) (.array items')
  | string {text} : Keeps (.string text) ((redactString text).getD (.string text))
  | number {n} : Keeps (.number n)
      (if r.redactRegex (r.numberToString n) ≠ r.numberToString n then redacted else .number n)
  | bool {b} : Keeps (.bool b) (.bool b)
  | null : Keeps .null .null

theorem redactItems_eq (items : List Value) :
    r.redactItems redactString items = items.map (r.redactJsonValueWith redactString) := by
  induction items with
  | nil => rw [redactItems]; rfl
  | cons v items ih => rw [redactItems, ih, List.map_cons]

theorem keeps_items {items : List Value}
    (ih : ∀ v ∈ items, Keeps r redactString v ((r.redactJsonValueWith redactString v).getD v)) :
    Keeps r redactString (.array items) (.array
      (items.map fun v => (r.redactJsonValueWith redactString v).getD v)) := by
  refine .array (List.length_map _) ?_
  intro i v v' hv hv'
  rw [List.getElem?_map, hv, Option.map_some, Option.some.injEq] at hv'
  rw [← hv']
  exact ih v (List.mem_of_getElem? hv)

theorem keeps_array {items : List Value}
    (ih : ∀ v ∈ items, Keeps r redactString v ((r.redactJsonValueWith redactString v).getD v)) :
    Keeps r redactString (.array items)
      ((r.redactJsonValueWith redactString (.array items)).getD (.array items)) := by
  have hkeeps := keeps_items r redactString ih
  rw [redactJsonValueWith, redactItems_eq]
  split_ifs with hany
  · have hzip : List.zipWith (fun new old => new.getD old)
        (items.map (r.redactJsonValueWith redactString)) items =
        items.map fun v => (r.redactJsonValueWith redactString v).getD v := by
      rw [List.zipWith_map_left, List.zipWith_self]
    rw [hzip]
    exact hkeeps
  · have hsame : (items.map fun v => (r.redactJsonValueWith redactString v).getD v) = items := by
      rw [List.any_map, List.any_eq_true, not_exists] at hany
      conv_rhs => rw [← List.map_id items]
      apply List.map_congr_left
      intro v hv
      have hnone := Option.not_isSome_iff_eq_none.mp fun hsome => hany v ⟨hv, hsome⟩
      rw [hnone]
      rfl
    rw [hsame] at hkeeps
    exact hkeeps

theorem getElem?_of_forall₂ {α β : Type} {R : α → β → Prop} {xs : List α} {ys : List β}
    (h : List.Forall₂ R xs ys) {i : Nat} {x : α} {y : β} (hx : xs[i]? = some x)
    (hy : ys[i]? = some y) : R x y := by
  obtain ⟨hi, rfl⟩ := List.getElem?_eq_some_iff.mp hx
  obtain ⟨hi', rfl⟩ := List.getElem?_eq_some_iff.mp hy
  exact List.Forall₂.get h hi hi'

/-- A member's value, by whether its key is sensitive. -/
theorem newValue_cases {key : String} {val : Value} :
    (r.isSecret named key val = true ∧ newValue r redactString named key val = some redacted) ∨
      r.isSecret named key val = false ∧
        newValue r redactString named key val = r.redactJsonValueWith redactString val := by
  unfold newValue
  cases hsecret : r.isSecret named key val with
  | true => exact Or.inl ⟨rfl, rfl⟩
  | false => exact Or.inr ⟨rfl, rfl⟩

theorem keeps_members {members members' : List (String × Value)} (hkeys : DistinctKeys members')
    (ih : ∀ m ∈ members,
      Keeps r redactString m.2 ((r.redactJsonValueWith redactString m.2).getD m.2))
    (h : List.Forall₂ (MemberFor r redactString (r.namedSecret members) members.length)
      members members') : Keeps r redactString (.object members) (.object members') := by
  refine .object h.length_eq.symm hkeys ?_ ?_ ?_
  · intro i m m' hm hm'
    exact (getElem?_of_forall₂ h hm hm').1
  · intro i m m' hm hm' hsecret
    rw [(getElem?_of_forall₂ h hm hm').2]
    rcases newValue_cases r redactString (r.namedSecret members) with ⟨-, hval⟩ | ⟨hnot, -⟩
    · rw [hval]
      rfl
    · rw [hnot] at hsecret
      cases hsecret
  · intro i m m' hm hm' hsecret
    rw [(getElem?_of_forall₂ h hm hm').2]
    rcases newValue_cases r redactString (r.namedSecret members) with ⟨hnot, -⟩ | ⟨-, hval⟩
    · rw [hnot] at hsecret
      cases hsecret
    · rw [hval]
      exact ih m (List.mem_of_getElem? hm)

/-- An object becomes an object, member for member. -/
theorem redact_object {members : List (String × Value)} (hkeys : DistinctKeys members) :
    ∃ members', (r.redactJsonValueWith redactString (.object members)).getD (.object members) =
        .object members' ∧ DistinctKeys members' ∧
      List.Forall₂ (MemberFor r redactString (r.namedSecret members) members.length)
        members members' := by
  obtain ⟨hsound, ⟨added, hadded, hpairs⟩, hchanged⟩ :=
    redactMembers_spec r redactString (r.namedSecret members) members false sound_empty
  rw [redactJsonValueWith]
  generalize r.redactMembers redactString (r.namedSecret members) members false .empty = result
    at hsound hadded hchanged
  obtain ⟨changed, b⟩ := result
  have hmap : b.newMap = added := hadded
  rw [Built.empty, List.length_nil, Nat.zero_add] at hpairs
  cases changed with
  | true => exact ⟨b.newMap, rfl, hsound.distinct, hmap ▸ hpairs⟩
  | false =>
    refine ⟨members, rfl, hkeys, ?_⟩
    rw [List.forall₂_same]
    intro m hm
    obtain ⟨hvalue, hkey⟩ := (hchanged rfl).2 m hm
    refine ⟨Or.inl hkey.symm, ?_⟩
    rw [hvalue]
    rfl

theorem keeps_object {members : List (String × Value)} (hkeys : DistinctKeys members)
    (ih : ∀ m ∈ members,
      Keeps r redactString m.2 ((r.redactJsonValueWith redactString m.2).getD m.2)) :
    Keeps r redactString (.object members)
      ((r.redactJsonValueWith redactString (.object members)).getD (.object members)) := by
  obtain ⟨members', hresult, hdistinct, hpairs⟩ := redact_object r redactString hkeys
  rw [hresult]
  exact keeps_members r redactString hdistinct ih hpairs

theorem keeps {value : Value} (h : MapsOnly value) :
    Keeps r redactString value ((r.redactJsonValueWith redactString value).getD value) := by
  induction value using Value.inductOn with
  | null => rw [redactJsonValueWith]; exact .null
  | bool b => rw [redactJsonValueWith]; exact .bool
  | number n =>
    have hnumber := @Keeps.number r redactString n
    rw [redactJsonValueWith]
    split_ifs at hnumber ⊢
    · exact hnumber
    · exact hnumber
  | string s => rw [redactJsonValueWith]; exact .string
  | array items ih =>
    cases h with
    | array hitems => exact keeps_array r redactString fun v hv => ih v hv (hitems v hv)
  | object members ih =>
    cases h with
    | object hkeys hmembers =>
      exact keeps_object r redactString hkeys fun m hm => ih m hm (hmembers m hm)

end Object

/-- However the patterns change the keys, the object has as many members as before, each in its
place under a key of its own, and so have the objects inside it. -/
theorem redactJsonValue_keeps (r : Redactor) (depth : Nat) {members : List (String × Value)}
    (h : MapsOnly (.object members)) :
    ∃ members' : List (String × Value),
      (r.redactJsonValue (.object members) depth).getD (.object members) =
        .object members' ∧
      members'.length = members.length ∧ DistinctKeys members' ∧
      (∀ (i : Nat) key val, members[i]? = some (key, val) → ∃ key',
        KeyFor (r.redactRegex key) key' members.length ∧
        members'[i]? = some (key',
          if r.isSecret (r.namedSecret members) key val then redacted
          else (r.redactJsonValue val depth).getD val)) ∧
      Keeps r (r.redactJsonString (maxNestedJsonDepth - depth)) (.object members)
        (.object members') := by
  have hkeeps := keeps r (r.redactJsonString (maxNestedJsonDepth - depth)) h
  cases h with
  | object hkeys hmembers =>
    obtain ⟨members', hresult, hdistinct, hpairs⟩ :=
      redact_object r (r.redactJsonString (maxNestedJsonDepth - depth)) hkeys
    rw [hresult] at hkeeps
    refine ⟨members', hresult, hpairs.length_eq.symm, hdistinct, ?_, hkeeps⟩
    intro i key val hm
    obtain ⟨hi, -⟩ := List.getElem?_eq_some_iff.mp hm
    have hm' := List.getElem?_eq_getElem (hpairs.length_eq ▸ hi)
    obtain ⟨hname, hvalue⟩ := getElem?_of_forall₂ hpairs hm hm'
    refine ⟨_, hname, hm'.trans (congrArg some (Prod.ext rfl (hvalue.trans ?_)))⟩
    unfold newValue
    dsimp only
    split_ifs
    · rfl
    · rfl

/-- Addresses are replaced. -/
def addresses : Redactor where
  builtinSet text := text.toList.any (· == '@')
  builtinCompiled := [fun text => if text.toList.any (· == '@') then "[REDACTED]" else text]
  customSet := none
  customCompiled := []
  redactTextPairs := id
  toLowercase := id
  fromStr _ := none
  toString _ := ""
  numberToString _ := ""

/-- Two addresses and a key that is the second one's with its number. -/
def contacts : List (String × Value) :=
  [("a@b", .null), ("c@d", .bool true), ("[REDACTED]#2", .bool false)]

theorem mapsOnly_contacts : MapsOnly (.object contacts) := by
  apply MapsOnly.object
  · unfold DistinctKeys
    decide
  · intro m hm
    simp only [contacts, List.mem_cons, List.not_mem_nil, or_false] at hm
    rcases hm with rfl | rfl | rfl
    · exact .null
    · exact .bool
    · exact .bool

theorem redactJsonValue_keeps_contacts :
    ∃ members' : List (String × Value),
      (addresses.redactJsonValue (.object contacts) 0).getD (.object contacts) =
        .object members' ∧
      members'.length = contacts.length ∧ DistinctKeys members' ∧
      (∀ (i : Nat) key val, contacts[i]? = some (key, val) → ∃ key',
        KeyFor (addresses.redactRegex key) key' contacts.length ∧
        members'[i]? = some (key',
          if addresses.isSecret (addresses.namedSecret contacts) key val then redacted
          else (addresses.redactJsonValue val 0).getD val)) ∧
      Keeps addresses (addresses.redactJsonString (maxNestedJsonDepth - 0)) (.object contacts)
        (.object members') :=
  redactJsonValue_keeps addresses 0 mapsOnly_contacts

example : (contacts.map fun m => addresses.redactRegex m.1) =
    ["[REDACTED]", "[REDACTED]", "[REDACTED]#2"] := by decide

end Redactor

end Victauri.Plugin.Redaction
