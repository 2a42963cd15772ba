import Victauri.Plugin.Database.QueryRows.Content

/-!
# What parsing and encoding lose

An escape that is written in another way, and a member whose key is repeated, make the encoding
lighter than the text; nothing makes it heavier.
-/

namespace Victauri.Plugin.Database

open Victauri.Core.Json
open Victauri.Cli.Jsonc (Mark Token Rendered)
open Utf8 (encode encode_cons encode_append)
open Separated

-- A quantifier over the characters of a text is decided along the text.
attribute [local instance (1100)] List.decidableBAll

/-! ## Weights -/

/-- The digits that are written in lower case weigh less in it. -/
def byteWeight (b : UInt8) : Nat :=
  if 'A'.toUInt8.toNat ≤ b.toNat ∧ b.toNat ≤ 'F'.toUInt8.toNat then 3 else 2

def weight (cs : List Char) : Nat := total byteWeight (encode cs)

theorem weight_append (cs ds : List Char) : weight (cs ++ ds) = weight cs + weight ds := by
  rw [weight, encode_append, total_append]
  rfl

theorem weight_cons (c : Char) (cs : List Char) : weight (c :: cs) = weight [c] + weight cs :=
  weight_append [c] cs

theorem weight_ascii {c : Char} (h : c.toNat < 0x80) :
    weight [c] = if 'A' ≤ c ∧ c ≤ 'F' then 3 else 2 := by
  rw [weight, Utf8.encode_singleton h, total_cons, byteWeight, Utf8.toNat_toUInt8 h]
  rfl

theorem two_le_weight (c : Char) : 2 ≤ weight [c] := by
  obtain ⟨b, bs, hbytes⟩ := List.exists_cons_of_ne_nil (Utf8.encodeChar_ne_nil c)
  rw [weight, encode_cons, hbytes, List.cons_append, total_cons, byteWeight]
  split_ifs <;> omega

/-- A character that is written as it is weighs less than an escape. -/
theorem weight_le_eight (c : Char) : weight [c] ≤ 8 := by
  by_cases hascii : c.toNat < 0x80
  · rw [weight_ascii hascii]
    split_ifs <;> decide
  · obtain ⟨b, bs, hbytes, hlength, hhigh⟩ := Utf8.encodeChar_high hascii
    have hsize : Utf8.sizeOf b ≤ 4 := by
      unfold Utf8.sizeOf
      split_ifs <;> decide
    have hlight : ∀ ds : List UInt8, (∀ d ∈ ds, ¬ Utf8.IsAscii d) →
        total byteWeight ds = 2 * ds.length := by
      intro ds hds
      induction ds with
      | nil => rfl
      | cons d ds ih =>
        rw [List.forall_mem_cons] at hds
        have hd : byteWeight d = 2 := by
          have hnot : 0x80 ≤ d.toNat := Nat.le_of_not_lt hds.1
          have hletter : 'F'.toUInt8.toNat = 70 := rfl
          exact if_neg fun h => absurd h.2 (by omega)
        rw [total_cons, hd, ih hds.2, List.length_cons]
        omega
    rw [weight, encode_cons, hbytes, Utf8.encode_nil, List.append_nil, hlight _ hhigh,
      List.length_cons]
    omega

/-- What is written for a text is not heavier than it, and as heavy only if it is the text. -/
def Lighter (written text : List Char) : Prop :=
  weight written ≤ weight text ∧ (weight written = weight text → text = written)

theorem Lighter.refl (text : List Char) : Lighter text text := ⟨Nat.le_refl _, fun _ => rfl⟩

theorem Lighter.of_lt {written text : List Char} (h : weight written < weight text) :
    Lighter written text := ⟨Nat.le_of_lt h, fun heq => absurd heq (Nat.ne_of_lt h)⟩

theorem Lighter.append {written text written' text' : List Char} (h : Lighter written text)
    (h' : Lighter written' text') : Lighter (written ++ written') (text ++ text') := by
  have hle := h.1
  have hle' := h'.1
  unfold Lighter
  rw [weight_append, weight_append]
  refine ⟨Nat.add_le_add hle hle', fun heq => ?_⟩
  rw [h.2 (by omega), h'.2 (by omega)]

/-! ## Escapes -/

theorem digitChar_of_lower : ∀ n < 16, 'a'.toNat ≤ n + 87 →
    Nat.digitChar n = Char.ofNat (n + 87) := by
  decide

theorem digitChar_of_digit : ∀ n < 10, Nat.digitChar n = Char.ofNat (n + 48) := by
  decide

theorem weight_digitChar : ∀ n < 16, weight [Nat.digitChar n] = 2 := by
  decide

theorem hexDigit_lt {c : Char} {d : Nat} (h : hexDigit c = some d) : d < 16 := by
  simp only [hexDigit, Char.le_def, UInt32.le_iff_toNat_le] at h
  split_ifs at h with hdigit hlower hupper
  all_goals
    obtain rfl := Option.some.inj h
    simp only [Char.toNat]
    simp at *
    omega

/-- A digit in upper case is heavier than what is written for it. -/
theorem lighter_hexDigit {c : Char} {d : Nat} (h : hexDigit c = some d) :
    Lighter [Nat.digitChar d] [c] := by
  have hweight := weight_digitChar d (hexDigit_lt h)
  by_cases hupper : 'A' ≤ c ∧ c ≤ 'F'
  · apply Lighter.of_lt
    have hascii : c.toNat < 0x80 := by
      have hle : c.toNat ≤ 'F'.toNat := hupper.2
      exact Nat.lt_of_le_of_lt hle (by decide)
    rw [hweight, weight_ascii hascii, if_pos hupper]
    decide
  · have hsame : Nat.digitChar d = c := by
      unfold hexDigit at h
      rw [if_neg hupper] at h
      split_ifs at h with hdigit hlower
      · obtain rfl := Option.some.inj h
        have hlow : '0'.toNat ≤ c.toNat := hdigit.1
        have hhigh : c.toNat ≤ '9'.toNat := hdigit.2
        simp only [Char.reduceToNat] at hlow hhigh ⊢
        rw [digitChar_of_digit _ (by omega), Nat.sub_add_cancel hlow, Char.ofNat_toNat]
      · obtain rfl := Option.some.inj h
        have hlow : 'a'.toNat ≤ c.toNat := hlower.1
        have hhigh : c.toNat ≤ 'f'.toNat := hlower.2
        simp only [Char.reduceToNat] at hlow hhigh ⊢
        have hcode : c.toNat - 97 + 10 + 87 = c.toNat := by omega
        rw [digitChar_of_lower _ (by omega) (by simp only [Char.reduceToNat]; omega), hcode,
          Char.ofNat_toNat]
    rw [hsame]
    exact .refl _

theorem exists_digits {w x y z : Char} {u : Nat} (h : hexNumber [w, x, y, z] = some u) :
    ∃ a b c d, hexDigit w = some a ∧ hexDigit x = some b ∧ hexDigit y = some c ∧
      hexDigit z = some d ∧ u = ((a * 16 + b) * 16 + c) * 16 + d := by
  unfold hexNumber at h
  simp only [List.foldlM_cons, List.foldlM_nil, Option.bind_eq_bind, Option.pure_def,
    Option.bind_eq_some_iff, Option.map_eq_some_iff, Option.some.injEq] at h
  obtain ⟨_, ⟨a, ha, rfl⟩, _, ⟨b, hb, rfl⟩, _, ⟨c, hc, rfl⟩, _, ⟨d, hd, rfl⟩, hu⟩ := h
  exact ⟨a, b, c, d, ha, hb, hc, hd, by omega⟩

theorem hexNumber_lt {w x y z : Char} {u : Nat} (h : hexNumber [w, x, y, z] = some u) :
    u < 65536 := by
  obtain ⟨a, b, c, d, ha, hb, hc, hd, rfl⟩ := exists_digits h
  have ha' := hexDigit_lt ha
  have hb' := hexDigit_lt hb
  have hc' := hexDigit_lt hc
  have hd' := hexDigit_lt hd
  omega

/-- Hexadecimal digits are as heavy as the four of the number in lower case. -/
theorem lighter_hexOf {w x y z : Char} {u : Nat} (h : hexNumber [w, x, y, z] = some u) :
    Lighter (hexOf u) [w, x, y, z] := by
  obtain ⟨a, b, c, d, ha, hb, hc, hd, hu⟩ := exists_digits h
  have ha' := hexDigit_lt ha
  have hb' := hexDigit_lt hb
  have hc' := hexDigit_lt hc
  have hd' := hexDigit_lt hd
  have hhex : hexOf u = [Nat.digitChar a] ++ ([Nat.digitChar b] ++ ([Nat.digitChar c] ++
      [Nat.digitChar d])) := by
    have h1 : u / 4096 % 16 = a := by omega
    have h2 : u / 256 % 16 = b := by omega
    have h3 : u / 16 % 16 = c := by omega
    have h4 : u % 16 = d := by omega
    rw [hexOf, h1, h2, h3, h4]
    rfl
  rw [hhex]
  exact (lighter_hexDigit ha).append ((lighter_hexDigit hb).append
    ((lighter_hexDigit hc).append (lighter_hexDigit hd)))

theorem weight_of_hexNumber {w x y z : Char} : 8 ≤ weight [w, x, y, z] := by
  have hw := two_le_weight w
  have hx := two_le_weight x
  have hy := two_le_weight y
  have hz := two_le_weight z
  rw [weight_cons, weight_cons x, weight_cons y]
  omega

theorem weight_hexOf (n : Nat) : weight (hexOf n) = 8 := by
  have hdigit (m : Nat) : weight [Nat.digitChar (m % 16)] = 2 :=
    weight_digitChar _ (Nat.mod_lt m (by decide))
  rw [hexOf, weight_cons, weight_cons (Nat.digitChar (n / 256 % 16)),
    weight_cons (Nat.digitChar (n / 16 % 16)), hdigit, hdigit, hdigit, hdigit]

theorem weight_unicode (ds : List Char) : weight ('\\' :: 'u' :: ds) = 4 + weight ds := by
  have hslash : weight ['\\'] = 2 := rfl
  have hu : weight ['u'] = 2 := rfl
  rw [weight_cons, weight_cons 'u', hslash, hu]
  omega

/-- A character is written as a short escape, as itself or as four digits. -/
theorem quoteScalar_cases (c : Char) :
    weight (quoteScalar c) ≤ 8 ∨ c.toNat < 0x20 ∧ quoteScalar c = unicodeEscape c.toNat := by
  unfold quoteScalar
  cases hescape : quoteEscape c with
  | some e =>
    left
    have hslash : weight ['\\'] = 2 := rfl
    have he : e ∈ simpleEscapes.map Prod.fst := List.mem_map_of_mem (quoteEscape_mem hescape)
    have hlight : ∀ d ∈ simpleEscapes.map Prod.fst, weight [d] = 2 := by decide
    change weight ['\\', e] ≤ 8
    rw [weight_cons, hslash, hlight e he]
    decide
  | none =>
    dsimp only
    split_ifs with hcontrol
    · exact .inr ⟨hcontrol, rfl⟩
    · exact .inl (weight_le_eight c)

theorem quoteScalar_simple {e c : Char} (h : (e, c) ∈ simpleEscapes) :
    quoteScalar c = ['\\', e] ∨ weight (quoteScalar c) < weight ['\\', e] := by
  have hall : ∀ m ∈ simpleEscapes, quoteScalar m.2 = ['\\', m.1] ∨
      weight (quoteScalar m.2) < weight ['\\', m.1] := by
    decide
  exact hall (e, c) h

theorem quoteScalar_plain {c : Char} (hcontrol : 0x20 ≤ c.toNat) (hquote : c ≠ '"')
    (hslash : c ≠ '\\') : quoteScalar c = [c] := by
  have hescape : quoteEscape c = none := by
    unfold quoteEscape
    have hne {d : Char} (hd : d.toNat < 0x20) : c ≠ d := by
      rintro rfl
      omega
    rw [if_neg (hne (by decide)), if_neg (hne (by decide)), if_neg (hne (by decide)),
      if_neg (hne (by decide)), if_neg (hne (by decide)), if_neg hquote, if_neg hslash]
  rw [quoteScalar, hescape]
  exact if_neg (Nat.not_lt.mpr hcontrol)

/-- Four digits are kept only for a control character, in lower case. -/
theorem lighter_unicode {w x y z : Char} {u : Nat} (hu : hexNumber [w, x, y, z] = some u)
    (hhigh : isHighSurrogate u = false) (hlow : isLowSurrogate u = false) :
    Lighter (quoteScalar (Char.ofNat u)) ['\\', 'u', w, x, y, z] := by
  have htext : weight ['\\', 'u', w, x, y, z] = 4 + weight [w, x, y, z] := weight_unicode _
  have hdigits := @weight_of_hexNumber w x y z
  rcases quoteScalar_cases (Char.ofNat u) with hlight | ⟨hcontrol, hwritten⟩
  · apply Lighter.of_lt
    omega
  · have hbound : u < 65536 := hexNumber_lt hu
    have hvalid : u.isValidChar := by
      unfold isHighSurrogate at hhigh
      unfold isLowSurrogate at hlow
      simp only [Bool.and_eq_false_iff, decide_eq_false_iff_not] at hhigh hlow
      unfold Nat.isValidChar
      omega
    have hcode : (Char.ofNat u).toNat = u := by
      unfold Char.ofNat
      rw [dif_pos hvalid]
      rfl
    rw [hwritten, hcode]
    exact (Lighter.refl ['\\', 'u']).append (lighter_hexOf hu)

/-- What is written for a string is not heavier than the string as it was written. -/
theorem lighter_body {t s : List Char} (h : StringBody t s) :
    Lighter (s.flatMap quoteScalar) t := by
  induction h with
  | nil => exact .refl []
  | @plain c t s hcontrol hquote hslash _ ih =>
    rw [List.flatMap_cons, quoteScalar_plain hcontrol hquote hslash]
    exact (Lighter.refl [c]).append ih
  | @simple e c t s he _ ih =>
    have hescape : Lighter (quoteScalar c) ['\\', e] := by
      rcases quoteScalar_simple he with hsame | hlight
      · rw [hsame]
        exact .refl _
      · exact .of_lt hlight
    rw [List.flatMap_cons]
    exact hescape.append ih
  | unicode hu hhigh hlow _ ih =>
    rw [List.flatMap_cons]
    exact (lighter_unicode hu hhigh hlow).append ih
  | @pair w x y z w' x' y' z' u u' t s hu hu' hhigh hlow _ ih =>
    have hescape : Lighter (quoteScalar (Char.ofNat (combine u u')))
        (['\\', 'u', w, x, y, z] ++ ['\\', 'u', w', x', y', z']) := by
      apply Lighter.of_lt
      have hfirst : weight ['\\', 'u', w, x, y, z] = 4 + weight [w, x, y, z] := weight_unicode _
      have hsecond : weight ['\\', 'u', w', x', y', z'] = 4 + weight [w', x', y', z'] :=
        weight_unicode _
      have hdigits := @weight_of_hexNumber w x y z
      have hdigits' := @weight_of_hexNumber w' x' y' z'
      rw [weight_append]
      rcases quoteScalar_cases (Char.ofNat (combine u u')) with hlight | ⟨-, hwritten⟩
      · omega
      · rw [hwritten, unicodeEscape, weight_unicode, weight_hexOf]
        omega
    rw [List.flatMap_cons]
    exact hescape.append ih

/-! ## Members -/

section Members

variable {number : NumberFormat} (printer : NumberPrinter number)

def printMember (m : String × Value) : List Char := quote m.1.toList ++ ':' :: print printer m.2

theorem print_array (items : List Value) :
    print printer (.array items) =
      '[' :: ([','].intercalate (items.map (print printer)) ++ [']']) := by
  have hitems : printItems printer items = [','].intercalate (items.map (print printer)) := by
    induction items with
    | nil => rfl
    | cons v vs ih =>
      cases vs with
      | nil => rw [printItems, List.map_singleton, List.intercalate_singleton]
      | cons v' vs =>
        rw [printItems, ih, List.map_cons, List.map_cons, List.map_cons,
          List.intercalate_cons_cons, List.append_assoc]
        rfl
  rw [print, hitems]

theorem print_object (members : List (String × Value)) :
    print printer (.object members) =
      '\x7b' :: ([','].intercalate (members.map (printMember printer)) ++ ['\x7d']) := by
  have hmembers : printMembers printer members =
      [','].intercalate (members.map (printMember printer)) := by
    induction members with
    | nil => rfl
    | cons m ms ih =>
      obtain ⟨key, v⟩ := m
      cases ms with
      | nil => rw [printMembers, List.map_singleton, List.intercalate_singleton, printMember]
      | cons m' ms =>
        have hmember : printMember printer (key, v) = quote key.toList ++ ':' :: print printer v :=
          rfl
        rw [printMembers, ih, List.map_cons, List.map_cons, List.map_cons,
          List.intercalate_cons_cons, hmember, List.append_assoc, List.append_assoc]
        rfl
  rw [print, hmembers]

/-- What a member takes with a comma behind it. -/
def cost (m : String × Value) : Nat := weight (printMember printer m) + 2

variable {printer}

/-- Each key that is inserted again loses the member that it had. -/
theorem cost_insertMember (key : String) (value : Value) (object : List (String × Value)) :
    ((insertMember key value object).map (cost printer)).sum ≤
        (object.map (cost printer)).sum + cost printer (key, value) ∧
      (key ∈ object.map Prod.fst →
        ((insertMember key value object).map (cost printer)).sum <
          (object.map (cost printer)).sum + cost printer (key, value)) := by
  induction object with
  | nil => exact ⟨by simp [insertMember], fun h => absurd h List.not_mem_nil⟩
  | cons m object ih =>
    obtain ⟨k, v⟩ := m
    rw [insertMember]
    have hpos : 0 < cost printer (k, v) := Nat.succ_pos _
    split_ifs with hkey
    · simp only [List.map_cons, List.sum_cons]
      exact ⟨by omega, fun _ => by omega⟩
    · simp only [List.map_cons, List.sum_cons, List.mem_cons, hkey, false_or]
      exact ⟨by have := ih.1; omega, fun h => by have := ih.2 h; omega⟩

theorem cost_insertMembers (members object : List (String × Value))
    (hobject : DistinctKeys object) :
    ((insertMembers members object).map (cost printer)).sum ≤
        (object.map (cost printer)).sum + (members.map (cost printer)).sum ∧
      (((insertMembers members object).map (cost printer)).sum =
          (object.map (cost printer)).sum + (members.map (cost printer)).sum →
        DistinctKeys (object ++ members)) := by
  induction members generalizing object with
  | nil =>
    refine ⟨Nat.le_refl _, fun _ => ?_⟩
    rwa [List.append_nil]
  | cons m members ih =>
    obtain ⟨key, v⟩ := m
    obtain ⟨hle, heq⟩ := ih (insertMember key v object) (hobject.insertMember key v)
    obtain ⟨hstep, hrepeated⟩ := @cost_insertMember number printer key v object
    change ((insertMembers members (insertMember key v object)).map (cost printer)).sum ≤ _ ∧
      (((insertMembers members (insertMember key v object)).map (cost printer)).sum = _ → _)
    simp only [List.map_cons, List.sum_cons]
    refine ⟨by omega, fun hsum => ?_⟩
    have hnew : key ∉ object.map Prod.fst := fun hmem => by
      have hlost := hrepeated hmem
      omega
    have hdistinct := heq (by omega)
    rw [insertMember_of_new hnew] at hdistinct
    rwa [List.append_assoc, List.singleton_append] at hdistinct

theorem cost_ofMembers (members : List (String × Value)) :
    ((ofMembers members).map (cost printer)).sum ≤ (members.map (cost printer)).sum ∧
      (((ofMembers members).map (cost printer)).sum = (members.map (cost printer)).sum →
        DistinctKeys members) := by
  have h := @cost_insertMembers number printer members [] List.nodup_nil
  rwa [List.map_nil, List.sum_nil, Nat.zero_add, List.nil_append] at h

end Members

end Victauri.Plugin.Database
