import Victauri.Core.Json.Text

/-!
# A printer of JSON texts

How JSON strings are quoted, by `JSON.stringify` and by `serde_json` alike, and a printer
of values.  What it prints of the value of a text is a text of that value.
-/

namespace Victauri.Core.Json

-- A quantifier over the characters of a text is decided along the text.
attribute [local instance (1100)] List.decidableBAll

/-! ## Quoting -/

/-- Four lower-case hexadecimal digits. -/
def hexOf (n : Nat) : List Char :=
  [Nat.digitChar (n / 4096 % 16), Nat.digitChar (n / 256 % 16), Nat.digitChar (n / 16 % 16),
    Nat.digitChar (n % 16)]

/-- `UnicodeEscape`. -/
def unicodeEscape (n : Nat) : List Char := '\\' :: 'u' :: hexOf n

/-- The characters that have an escape of two characters. -/
def quoteEscape (c : Char) : Option Char :=
  if c = '\x08' then some 'b'
  else if c = '\t' then some 't'
  else if c = '\n' then some 'n'
  else if c = '\x0c' then some 'f'
  else if c = '\r' then some 'r'
  else if c = '"' then some '"'
  else if c = '\\' then some '\\'
  else none

/-- How `QuoteJSONString` writes a character. -/
def quoteScalar (c : Char) : List Char :=
  match quoteEscape c with
  | some e => ['\\', e]
  | none => if c.toNat < 0x20 then unicodeEscape c.toNat else [c]

theorem hexDigit_digitChar {d : Nat} (h : d < 16) : hexDigit (Nat.digitChar d) = some d := by
  revert d
  decide

theorem hexNumber_hexOf {n : Nat} (h : n < 65536) : hexNumber (hexOf n) = some n := by
  have hmod (m : Nat) : hexDigit (Nat.digitChar (m % 16)) = some (m % 16) :=
    hexDigit_digitChar (Nat.mod_lt m (by decide))
  simp only [hexNumber, hexOf, List.foldlM_cons, List.foldlM_nil, hmod, Option.map_some,
    Option.bind_eq_bind, Option.bind_some, Option.pure_def, Option.some.injEq]
  omega

theorem digitChar_ne {d : Nat} (h : d < 16) {c : Char} (hc : hexDigit c = none) :
    Nat.digitChar d ≠ c := by
  rintro rfl
  rw [hexDigit_digitChar h] at hc
  cases hc

theorem quoteEscape_mem {c e : Char} (h : quoteEscape c = some e) : (e, c) ∈ simpleEscapes := by
  unfold quoteEscape at h
  split_ifs at h <;> (cases h; subst c; decide)

theorem quoteEscape_none {c : Char} (h : quoteEscape c = none) : c ≠ '"' ∧ c ≠ '\\' := by
  constructor <;> (rintro rfl; exact absurd h (by decide))

/-- A quoted character is that character to a reader. -/
theorem StringBody.quoteScalar_append (c : Char) {t s : List Char} (h : StringBody t s) :
    StringBody (quoteScalar c ++ t) (c :: s) := by
  unfold quoteScalar
  cases hescape : quoteEscape c with
  | some e => exact .simple (quoteEscape_mem hescape) h
  | none =>
      obtain ⟨hquote, hslash⟩ := quoteEscape_none hescape
      dsimp only
      split_ifs with hcontrol
      · have hu := hexNumber_hexOf (n := c.toNat) (by omega)
        have hbody := StringBody.unicode hu (by simp [isHighSurrogate]; omega)
          (by simp [isLowSurrogate]; omega) h
        rwa [Char.ofNat_toNat] at hbody
      · exact .plain (Nat.le_of_not_lt hcontrol) hquote hslash h

/-- A string literal of the characters `cs`. -/
def quote (cs : List Char) : List Char := '"' :: (cs.flatMap quoteScalar ++ ['"'])

theorem StringLiteral.quote (s : String) : StringLiteral (quote s.toList) s := by
  have hbody (cs : List Char) : StringBody (cs.flatMap quoteScalar) cs := by
    induction cs with
    | nil => exact .nil
    | cons c cs ih =>
        rw [List.flatMap_cons]
        exact .quoteScalar_append c ih
  have h := StringLiteral.mk (hbody s.toList)
  rwa [String.ofList_toList] at h

/-! ## Printing -/

/-- A way to write numbers as tokens that are read as the same numbers. -/
structure NumberPrinter (number : NumberFormat) where
  write : Number → List Char
  token : ∀ t, number.token t → number.token (write (number.read t))
  read : ∀ t, number.token t → number.read (write (number.read t)) = number.read t

section Print

variable {number : NumberFormat} (printer : NumberPrinter number)

mutual

def print : Value → List Char
  | .null => ['n', 'u', 'l', 'l']
  | .bool true => ['t', 'r', 'u', 'e']
  | .bool false => ['f', 'a', 'l', 's', 'e']
  | .number n => printer.write n
  | .string s => quote s.toList
  | .array items => '[' :: (printItems items ++ [']'])
  | .object members => '\x7b' :: (printMembers members ++ ['\x7d'])

def printItems : List Value → List Char
  | [] => []
  | [v] => print v
  | v :: v' :: vs => print v ++ ',' :: printItems (v' :: vs)

def printMembers : List (String × Value) → List Char
  | [] => []
  | [(k, v)] => quote k.toList ++ ':' :: print v
  | (k, v) :: m :: ms => quote k.toList ++ ':' :: (print v ++ ',' :: printMembers (m :: ms))

end

end Print

/-! ## Objects are made once -/

theorem mem_insertMember {key : String} {value : Value} {object : List (String × Value)}
    {m : String × Value} (h : m ∈ insertMember key value object) :
    m = (key, value) ∨ m ∈ object := by
  induction object with
  | nil => exact .inl (List.mem_singleton.mp h)
  | cons m' object ih =>
      unfold insertMember at h
      split_ifs at h
      · exact (List.mem_cons.mp h).imp_right (List.mem_cons_of_mem _)
      · rcases List.mem_cons.mp h with rfl | h
        · exact .inr List.mem_cons_self
        · exact (ih h).imp_right (List.mem_cons_of_mem _)

theorem insertMember_ne_nil (key : String) (value : Value) (object : List (String × Value)) :
    insertMember key value object ≠ [] := by
  unfold insertMember
  split
  · exact List.cons_ne_nil _ _
  · split_ifs <;> exact List.cons_ne_nil _ _

theorem keys_insertMember (key : String) (value : Value) (object : List (String × Value)) :
    (insertMember key value object).map Prod.fst =
      if key ∈ object.map Prod.fst then object.map Prod.fst
      else object.map Prod.fst ++ [key] := by
  induction object with
  | nil => rfl
  | cons m object ih =>
      obtain ⟨k, v⟩ := m
      by_cases hkey : key = k
      · simp [insertMember, hkey]
      · rw [insertMember, if_neg hkey, List.map_cons, ih]
        simp only [List.map_cons, List.mem_cons, hkey, false_or]
        split_ifs <;> rfl

/-- The keys of an object are different. -/
def DistinctKeys (members : List (String × Value)) : Prop := (members.map Prod.fst).Nodup

theorem DistinctKeys.insertMember {object : List (String × Value)} (h : DistinctKeys object)
    (key : String) (value : Value) : DistinctKeys (insertMember key value object) := by
  unfold DistinctKeys
  rw [keys_insertMember]
  split_ifs with hkey
  · exact h
  · exact List.nodup_append.mpr ⟨h, List.pairwise_singleton _ _, by
      rintro k hk k' hk' rfl
      exact hkey (List.mem_singleton.mp hk' ▸ hk)⟩

/-- A new key goes to the end. -/
theorem insertMember_of_new {key : String} {object : List (String × Value)}
    (h : key ∉ object.map Prod.fst) (value : Value) :
    insertMember key value object = object ++ [(key, value)] := by
  induction object with
  | nil => rfl
  | cons m object ih =>
      rw [List.map_cons, List.mem_cons, not_or] at h
      rw [insertMember, if_neg h.1, ih h.2, List.cons_append]

section Members

variable (members : List (String × Value))

theorem distinctKeys_insertMembers {object : List (String × Value)}
    (h : DistinctKeys object) : DistinctKeys (insertMembers members object) := by
  induction members generalizing object with
  | nil => exact h
  | cons m members ih => exact ih (h.insertMember m.1 m.2)

theorem mem_insertMembers {m : String × Value} {object : List (String × Value)} (h : m ∈ insertMembers members object) :
    m ∈ members ∨ m ∈ object := by
  induction members generalizing object with
  | nil => exact .inr h
  | cons m' members ih =>
      rcases ih h with h | h
      · exact .inl (List.mem_cons_of_mem _ h)
      · rcases mem_insertMember h with rfl | h
        · exact .inl List.mem_cons_self
        · exact .inr h

theorem insertMembers_of_distinct {object : List (String × Value)}
    (h : DistinctKeys (object ++ members)) :
    insertMembers members object = object ++ members := by
  induction members generalizing object with
  | nil => exact (List.append_nil _).symm
  | cons m members ih =>
      have hnew : m.1 ∉ object.map Prod.fst := by
        intro hmem
        rw [DistinctKeys, List.map_append, List.map_cons] at h
        exact (List.nodup_append.mp h).2.2 _ hmem _ List.mem_cons_self rfl
      have happend : object ++ m :: members = object ++ [m] ++ members := by simp
      rw [happend] at h ⊢
      have hstep : insertMembers (m :: members) object =
          insertMembers members (object ++ [m]) := by
        rw [insertMembers, List.foldl_cons, insertMember_of_new hnew]
        rfl
      rw [hstep, ih h]

end Members

theorem distinctKeys_ofMembers (members : List (String × Value)) :
    DistinctKeys (ofMembers members) :=
  distinctKeys_insertMembers members List.nodup_nil

theorem mem_ofMembers {members : List (String × Value)} {m : String × Value}
    (h : m ∈ ofMembers members) : m ∈ members :=
  (mem_insertMembers members h).resolve_right List.not_mem_nil

theorem ofMembers_of_distinct {members : List (String × Value)} (h : DistinctKeys members) :
    ofMembers members = members :=
  insertMembers_of_distinct members h

theorem ofMembers_ne_nil {members : List (String × Value)} (h : members ≠ []) :
    ofMembers members ≠ [] := by
  have hlast : members = members.dropLast ++ [members.getLast h] :=
    (List.dropLast_append_getLast h).symm
  rw [hlast, ofMembers, insertMembers, List.foldl_append, List.foldl_cons, List.foldl_nil]
  exact insertMember_ne_nil _ _ _

/-! ## What is printed is a text of the value -/

section Printed

variable {number : NumberFormat} (printer : NumberPrinter number)

/-- The printed value is a text of it. -/
def Printed (v : Value) : Prop := ∃ d, Text number (print printer v) v d

variable {printer}

theorem Items.nonempty {t : List Char} {vs : List Value} {d : Nat} (h : Items number t vs d) :
    vs ≠ [] := by
  cases h <;> exact List.cons_ne_nil _ _

theorem Members.nonempty {t : List Char} {ms : List (String × Value)} {d : Nat}
    (h : Members number t ms d) : ms ≠ [] := by
  cases h <;> exact List.cons_ne_nil _ _

theorem Items.printed {vs : List Value} (hne : vs ≠ []) (h : ∀ v ∈ vs, Printed printer v) :
    ∃ d, Items number (printItems printer vs) vs d := by
  induction vs with
  | nil => exact absurd rfl hne
  | cons v vs ih =>
      obtain ⟨d, hv⟩ := h v List.mem_cons_self
      cases vs with
      | nil => exact ⟨d, .one hv⟩
      | cons v' vs =>
          obtain ⟨d', hvs⟩ := ih (List.cons_ne_nil _ _) fun w hw => h w (List.mem_cons_of_mem _ hw)
          exact ⟨max d d', .cons hv hvs⟩

theorem Members.printed {ms : List (String × Value)} (hne : ms ≠ [])
    (h : ∀ m ∈ ms, Printed printer m.2) :
    ∃ d, Members number (printMembers printer ms) ms d := by
  induction ms with
  | nil => exact absurd rfl hne
  | cons m ms ih =>
      obtain ⟨k, v⟩ := m
      obtain ⟨d, hv⟩ := h (k, v) List.mem_cons_self
      cases ms with
      | nil => exact ⟨d, .one (.quote k) hv⟩
      | cons m' ms =>
          obtain ⟨d', hms⟩ := ih (List.cons_ne_nil _ _) fun w hw => h w (List.mem_cons_of_mem _ hw)
          exact ⟨max d d', .cons (.quote k) hv hms⟩

variable (printer)

mutual

theorem Text.printed {t : List Char} {v : Value} {d : Nat} (h : Text number t v d) :
    Printed printer v := by
  match h with
  | .null => exact ⟨0, .null⟩
  | .true => exact ⟨0, .true⟩
  | .false => exact ⟨0, .false⟩
  | .number (t := t) h =>
      have htext := Text.number (printer.token t h)
      rw [printer.read t h] at htext
      exact ⟨0, htext⟩
  | .string (s := s) _ => exact ⟨0, .string (.quote s)⟩
  | .emptyArray => exact ⟨1, .emptyArray⟩
  | .emptyObject => exact ⟨1, .emptyObject⟩
  | .array h =>
      obtain ⟨d, hitems⟩ := Items.printed h.nonempty (itemsPrinted h)
      exact ⟨d + 1, .array hitems⟩
  | .object h =>
      obtain ⟨d, hmembers⟩ := Members.printed (ofMembers_ne_nil h.nonempty) fun m hm =>
        membersPrinted h m (mem_ofMembers hm)
      have htext := Text.object hmembers
      rw [ofMembers_of_distinct (distinctKeys_ofMembers _)] at htext
      exact ⟨d + 1, htext⟩

theorem itemsPrinted {t : List Char} {vs : List Value} {d : Nat} (h : Items number t vs d) :
    ∀ v ∈ vs, Printed printer v := by
  match h with
  | .one h => exact List.forall_mem_singleton.mpr h.printed
  | .cons h h' => exact List.forall_mem_cons.mpr ⟨h.printed, itemsPrinted h'⟩

theorem membersPrinted {t : List Char} {ms : List (String × Value)} {d : Nat}
    (h : Members number t ms d) : ∀ m ∈ ms, Printed printer m.2 := by
  match h with
  | .one _ h => exact List.forall_mem_singleton.mpr h.printed
  | .cons _ h h' => exact List.forall_mem_cons.mpr ⟨h.printed, membersPrinted h'⟩

end

end Printed

/-! ## The numbers of one digit -/

/-- A number format small enough to try a text on. -/
def oneDigit : NumberFormat where
  token t := ∃ d : Fin 10, t = [Nat.digitChar d]
  isNumber := by
    rintro t ⟨d, rfl⟩
    refine ⟨[], [Nat.digitChar d], [], [], rfl, .inl rfl, ⟨⟨List.cons_ne_nil _ _, ?_⟩, ?_⟩,
      .inl rfl, .inl rfl⟩
    · revert d
      decide
    · exact fun h => congrArg ([·]) (Option.some.inj h)
  read
    | [c] => .posInt (UInt64.ofNat (c.toNat - '0'.toNat))
    | _ => .posInt 0

def oneDigitPrinter : NumberPrinter oneDigit where
  write
    | .posInt n => [Nat.digitChar n.toNat]
    | _ => ['0']
  token := by
    rintro t ⟨d, rfl⟩
    refine ⟨d, ?_⟩
    revert d
    decide
  read := by
    rintro t ⟨d, rfl⟩
    revert d
    decide

end Victauri.Core.Json
