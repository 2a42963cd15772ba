import Victauri.Core.Json.Text

/-!
# A reader of JSON texts

A recursive-descent reader, against which the grammar is checked: it finds the value and
the depth of every text, so a text has only one of each.  It is also the concrete parser
that results about any parser are tried on.
-/

namespace Victauri.Core.Json

/-! ## Reading -/

/-- Read to the closing quote of a string literal: its value, and what follows it. -/
def readBody : List Char → Option (List Char × List Char)
  | [] => none
  | '"' :: rest => some ([], rest)
  | '\\' :: 'u' :: w :: x :: y :: z :: rest =>
      match hexNumber [w, x, y, z] with
      | none => none
      | some u =>
          if isHighSurrogate u then
            match rest with
            | '\\' :: 'u' :: w' :: x' :: y' :: z' :: rest =>
                match hexNumber [w', x', y', z'] with
                | none => none
                | some u' =>
                    if isLowSurrogate u' then
                      (readBody rest).map fun (s, rest) => (Char.ofNat (combine u u') :: s, rest)
                    else none
            | _ => none
          else if isLowSurrogate u then none
          else (readBody rest).map fun (s, rest) => (Char.ofNat u :: s, rest)
  | '\\' :: e :: rest =>
      match simpleEscapes.lookup e with
      | none => none
      | some c => (readBody rest).map fun (s, rest) => (c :: s, rest)
  | c :: rest =>
      if c.toNat < 0x20 then none
      else (readBody rest).map fun (s, rest) => (c :: s, rest)

def readString : List Char → Option (String × List Char)
  | '"' :: rest => (readBody rest).map fun (s, rest) => (String.ofList s, rest)
  | _ => none

/-- The characters of number tokens. -/
def isNumberChar (c : Char) : Bool :=
  c.isDigit || c == '-' || c == '+' || c == '.' || c == 'e' || c == 'E'

mutual

/-- Read a value: it, its depth, and what follows it. -/
def readValue (number : NumberFormat) :
    Nat → List Char → Option (Value × Nat × List Char)
  | 0, _ => none
  | fuel + 1, cs =>
      match cs with
      | 'n' :: 'u' :: 'l' :: 'l' :: rest => some (.null, 0, rest)
      | 't' :: 'r' :: 'u' :: 'e' :: rest => some (.bool true, 0, rest)
      | 'f' :: 'a' :: 'l' :: 's' :: 'e' :: rest => some (.bool false, 0, rest)
      | '"' :: rest => (readString ('"' :: rest)).map fun (s, rest) => (.string s, 0, rest)
      | '[' :: ']' :: rest => some (.array [], 1, rest)
      | '[' :: rest =>
          match readItems number fuel rest with
          | some (vs, d, ']' :: rest) => some (.array vs, d + 1, rest)
          | _ => none
      | '\x7b' :: '\x7d' :: rest => some (.object [], 1, rest)
      | '\x7b' :: rest =>
          match readMembers number fuel rest with
          | some (ms, d, '\x7d' :: rest) => some (.object (ofMembers ms), d + 1, rest)
          | _ => none
      | cs =>
          some (.number (number.read (cs.takeWhile isNumberChar)), 0, cs.dropWhile isNumberChar)

def readItems (number : NumberFormat) :
    Nat → List Char → Option (List Value × Nat × List Char)
  | 0, _ => none
  | fuel + 1, cs =>
      match readValue number fuel cs with
      | none => none
      | some (v, d, ',' :: rest) =>
          (readItems number fuel rest).map fun (vs, d', rest) => (v :: vs, max d d', rest)
      | some (v, d, rest) => some ([v], d, rest)

def readMembers (number : NumberFormat) :
    Nat → List Char → Option (List (String × Value) × Nat × List Char)
  | 0, _ => none
  | fuel + 1, cs =>
      match readString cs with
      | some (k, ':' :: cs) =>
          match readValue number fuel cs with
          | none => none
          | some (v, d, ',' :: rest) =>
              (readMembers number fuel rest).map fun (ms, d', rest) =>
                ((k, v) :: ms, max d d', rest)
          | some (v, d, rest) => some ([(k, v)], d, rest)
      | _ => none

end

/-- Read a text that nests no deeper than `limit`. -/
def read (number : NumberFormat) (limit : Nat) (cs : List Char) : Option Value :=
  match readValue number (cs.length + 1) cs with
  | some (v, d, []) => if d ≤ limit then some v else none
  | _ => none

/-! ## The reader reads every text -/

theorem readBody_of_body {t s : List Char} (h : StringBody t s) (rest : List Char) :
    readBody (t ++ '"' :: rest) = some (s, rest) := by
  induction h with
  | nil => rfl
  | @plain c t s hcontrol hquote hslash _ ih =>
      rw [List.cons_append, readBody, if_neg (by omega), ih]
      · rfl
      · exact hquote
      · rintro w x y z rest' rfl
        exact absurd rfl hslash
      · rintro e rest' rfl
        exact absurd rfl hslash
  | @simple e c t s he _ ih =>
      have hlookup : simpleEscapes.lookup e = some c ∧ e ≠ 'u' := by
        simp only [simpleEscapes, List.mem_cons, Prod.mk.injEq, List.not_mem_nil, or_false] at he
        rcases he with h | h | h | h | h | h | h | h <;>
          (obtain ⟨rfl, rfl⟩ := h; exact ⟨rfl, by decide⟩)
      rw [List.cons_append, List.cons_append, readBody, hlookup.1]
      · simp only [ih, Option.map_some]
      · rintro w x y z rest' heq
        exact absurd heq hlookup.2
  | @unicode w x y z u t s hu hhigh hlow _ ih =>
      simp only [List.cons_append, readBody, hu, hhigh, hlow, Bool.false_eq_true, if_false, ih,
        Option.map_some]
  | @pair w x y z w' x' y' z' u u' t s hu hu' hhigh hlow _ ih =>
      simp only [List.cons_append, readBody, hu, hhigh, if_true, hu', hlow, ih, Option.map_some]

theorem readString_of_literal {t : List Char} {s : String} (h : StringLiteral t s)
    (rest : List Char) : readString (t ++ rest) = some (s, rest) := by
  cases h with
  | mk hbody =>
      rename_i t s
      have happend : '"' :: (t ++ ['"']) ++ rest = '"' :: (t ++ '"' :: rest) := by simp
      rw [happend, readString, readBody_of_body hbody]
      rfl

/-- What may follow a value: nothing that would continue a number token. -/
def Delimited (rest : List Char) : Prop := ∀ c ∈ rest.head?, isNumberChar c = false

theorem IsDigits.numberChars {ds : List Char} (h : IsDigits ds) :
    ∀ c ∈ ds, isNumberChar c = true := by
  intro c hc
  simp [isNumberChar, h.2 c hc]

theorem IsNumber.numberChars {t : List Char} (h : IsNumber t) :
    ∀ c ∈ t, isNumberChar c = true := by
  obtain ⟨minus, int, frac, exp, rfl, hminus, ⟨hint, -⟩, hfrac, hexp⟩ := h
  intro c hc
  simp only [List.mem_append] at hc
  rcases hc with ((hc | hc) | hc) | hc
  · rcases hminus with rfl | rfl
    · cases hc
    · rw [List.mem_singleton.mp hc]
      rfl
  · exact hint.numberChars c hc
  · rcases hfrac with rfl | ⟨ds, rfl, hds⟩
    · cases hc
    · rcases List.mem_cons.mp hc with rfl | hc
      · rfl
      · exact hds.numberChars c hc
  · rcases hexp with rfl | ⟨e, sign, ds, rfl, he, hsign, hds⟩
    · cases hc
    · rw [List.cons_append, List.mem_cons, List.mem_append] at hc
      rcases hc with rfl | hc | hc
      · rcases he with rfl | rfl <;> rfl
      · rcases hsign with rfl | rfl | rfl
        · cases hc
        · rw [List.mem_singleton.mp hc]
          rfl
        · rw [List.mem_singleton.mp hc]
          rfl
      · exact hds.numberChars c hc

theorem IsNumber.ne_nil {t : List Char} (h : IsNumber t) : t ≠ [] := by
  obtain ⟨minus, int, frac, exp, rfl, -, ⟨hint, -⟩, -, -⟩ := h
  have hne := hint.1
  simp [hne]

/-- A number token does not start like another value. -/
theorem IsNumber.head {t : List Char} (h : IsNumber t) :
    ∃ c t', t = c :: t' ∧ isNumberChar c = true := by
  have hchars := h.numberChars
  obtain ⟨minus, int, frac, exp, rfl, hminus, ⟨hint, -⟩, -, -⟩ := h
  cases int with
  | nil => exact absurd rfl hint.1
  | cons c int =>
      rcases hminus with rfl | rfl
      · exact ⟨c, int ++ frac ++ exp, by simp, hchars c (by simp)⟩
      · exact ⟨'-', c :: int ++ frac ++ exp, by simp, by decide⟩

theorem readNumber {t : List Char} (h : IsNumber t) {rest : List Char} (hrest : Delimited rest) :
    (t ++ rest).takeWhile isNumberChar = t ∧ (t ++ rest).dropWhile isNumberChar = rest := by
  have hstop : rest.takeWhile isNumberChar = [] ∧ rest.dropWhile isNumberChar = rest := by
    cases rest with
    | nil => exact ⟨rfl, rfl⟩
    | cons c rest =>
        have hc : isNumberChar c = false := hrest c rfl
        simp [hc]
  rw [List.takeWhile_append_of_pos h.numberChars, List.dropWhile_append_of_pos h.numberChars,
    hstop.1, hstop.2, List.append_nil]
  exact ⟨rfl, rfl⟩

/-- A text does not start with a closing bracket. -/
theorem Text.head {number : NumberFormat} {t : List Char} {v : Value} {d : Nat}
    (h : Text number t v d) : ∃ c t', t = c :: t' ∧ c ≠ ']' := by
  cases h with
  | number h =>
      obtain ⟨c, t', rfl, hc⟩ := (number.isNumber _ h).head
      refine ⟨c, t', rfl, ?_⟩
      rintro rfl
      cases hc
  | string h =>
      cases h with
      | mk => exact ⟨_, _, rfl, by decide⟩
  | _ => exact ⟨_, _, rfl, by decide⟩

theorem Text.ne_nil {number : NumberFormat} {t : List Char} {v : Value} {d : Nat}
    (h : Text number t v d) : t ≠ [] := by
  obtain ⟨c, t', rfl, -⟩ := h.head
  exact List.cons_ne_nil c t'

theorem Items.head {number : NumberFormat} {t : List Char} {vs : List Value} {d : Nat}
    (h : Items number t vs d) : ∃ c t', t = c :: t' ∧ c ≠ ']' := by
  cases h with
  | one h => exact h.head
  | cons h _ =>
      obtain ⟨c, t', rfl, hc⟩ := h.head
      exact ⟨c, _, rfl, hc⟩

theorem StringLiteral.head {t : List Char} {s : String} (h : StringLiteral t s) :
    ∃ t', t = '"' :: t' := by
  cases h with
  | mk => exact ⟨_, rfl⟩

theorem Members.head {number : NumberFormat} {t : List Char}
    {ms : List (String × Value)} {d : Nat} (h : Members number t ms d) : ∃ t', t = '"' :: t' := by
  cases h with
  | one hk _ =>
      obtain ⟨t', rfl⟩ := hk.head
      exact ⟨_, rfl⟩
  | cons hk _ _ =>
      obtain ⟨t', rfl⟩ := hk.head
      exact ⟨_, rfl⟩

/-- With `fuel`, the reader reads every text, and every run of items or members, that is
short enough for it. -/
structure ReadsWith (number : NumberFormat) (fuel : Nat) : Prop where
  value {t v d} (h : Text number t v d) (rest) (hrest : Delimited rest)
    (hfuel : t.length < fuel) : readValue number fuel (t ++ rest) = some (v, d, rest)
  items {t vs d} (h : Items number t vs d) (rest) (hfuel : t.length + 1 < fuel) :
    readItems number fuel (t ++ ']' :: rest) = some (vs, d, ']' :: rest)
  members {t ms d} (h : Members number t ms d) (rest) (hfuel : t.length + 1 < fuel) :
    readMembers number fuel (t ++ '\x7d' :: rest) = some (ms, d, '\x7d' :: rest)

section Step

variable {number : NumberFormat} {fuel : Nat} (ih : ReadsWith number fuel)

include ih

theorem readValue_succ {t : List Char} {v : Value} {d : Nat} (h : Text number t v d)
    (rest : List Char) (hrest : Delimited rest) (hfuel : t.length < fuel + 1) :
    readValue number (fuel + 1) (t ++ rest) = some (v, d, rest) := by
  cases h with
  | null => rfl
  | true => rfl
  | false => rfl
  | emptyArray => rfl
  | emptyObject => rfl
  | number h =>
      obtain ⟨htake, hdrop⟩ := readNumber (number.isNumber _ h) hrest
      obtain ⟨c, t', rfl, hc⟩ := (number.isNumber _ h).head
      rw [List.cons_append] at htake hdrop ⊢
      have hne (c' : Char) (h' : isNumberChar c' = Bool.false) : c ≠ c' := by
        rintro rfl
        rw [hc] at h'
        cases h'
      rw [readValue, htake, hdrop]
      all_goals (intro rest' heq; exact hne _ (by decide) (List.cons.inj heq).1)
  | string h =>
      have hstring := readString_of_literal h rest
      obtain ⟨t', rfl⟩ := h.head
      rw [List.cons_append] at hstring ⊢
      rw [readValue, hstring]
      rfl
  | @array t vs d h =>
      have hitems := ih.items h rest (by
        simp only [List.length_cons, List.length_append, List.length_nil] at hfuel
        omega)
      obtain ⟨c, t', rfl, hc⟩ := h.head
      have happend : '[' :: (c :: t' ++ [']']) ++ rest = '[' :: (c :: t' ++ ']' :: rest) := by
        simp
      rw [happend]
      rw [List.cons_append] at hitems ⊢
      rw [readValue]
      · simp only [hitems]
      · intro rest' heq
        exact absurd (List.cons.inj heq).1 hc
  | @object t ms d h =>
      have hmembers := ih.members h rest (by
        simp only [List.length_cons, List.length_append, List.length_nil] at hfuel
        omega)
      obtain ⟨t', rfl⟩ := h.head
      have happend : '\x7b' :: ('"' :: t' ++ ['\x7d']) ++ rest =
          '\x7b' :: ('"' :: t' ++ '\x7d' :: rest) := by
        simp
      rw [happend]
      rw [List.cons_append] at hmembers ⊢
      rw [readValue]
      · simp only [hmembers]
      · intro rest' heq
        exact absurd (List.cons.inj heq).1 (by decide)

theorem readItems_succ {t : List Char} {vs : List Value} {d : Nat} (h : Items number t vs d)
    (rest : List Char) (hfuel : t.length + 1 < fuel + 1) :
    readItems number (fuel + 1) (t ++ ']' :: rest) = some (vs, d, ']' :: rest) := by
  cases h with
  | one h =>
      have hvalue := ih.value h (']' :: rest) (by rintro c ⟨⟩; rfl) (by omega)
      rw [readItems, hvalue]
      simp
  | @cons t v d t' vs d' h h' =>
      simp only [List.length_append, List.length_cons] at hfuel
      have hvalue := ih.value h (',' :: (t' ++ ']' :: rest)) (by rintro c ⟨⟩; rfl)
        (by omega)
      have hne := h.ne_nil
      have hitems := ih.items h' rest (by
        have hpos := List.length_pos_iff.mpr hne
        omega)
      rw [List.append_assoc, List.cons_append, readItems, hvalue]
      simp only [hitems, Option.map_some]

theorem readMembers_succ {t : List Char} {ms : List (String × Value)} {d : Nat}
    (h : Members number t ms d) (rest : List Char) (hfuel : t.length + 1 < fuel + 1) :
    readMembers number (fuel + 1) (t ++ '\x7d' :: rest) = some (ms, d, '\x7d' :: rest) := by
  cases h with
  | @one k key t v d hk h =>
      simp only [List.length_append, List.length_cons] at hfuel
      have hvalue := ih.value h ('\x7d' :: rest) (by rintro c ⟨⟩; rfl) (by omega)
      rw [List.append_assoc, List.cons_append, readMembers, readString_of_literal hk]
      simp [hvalue]
  | @cons k key t v d t' ms d' hk h h' =>
      simp only [List.length_append, List.length_cons] at hfuel
      have hvalue := ih.value h (',' :: (t' ++ '\x7d' :: rest)) (by rintro c ⟨⟩; rfl)
        (by omega)
      have hmembers := ih.members h' rest (by omega)
      rw [List.append_assoc, List.cons_append, List.append_assoc, List.cons_append, readMembers,
        readString_of_literal hk]
      simp only [hvalue, hmembers, Option.map_some]

end Step

theorem readsWith (number : NumberFormat) (fuel : Nat) : ReadsWith number fuel := by
  induction fuel with
  | zero => exact ⟨fun _ _ _ h => by omega, fun _ _ h => by omega, fun _ _ h => by omega⟩
  | succ fuel ih => exact ⟨readValue_succ ih, readItems_succ ih, readMembers_succ ih⟩

/-- The reader reads every text that nests no deeper than its limit. -/
theorem read_of_text {number : NumberFormat} {t : List Char} {v : Value} {d : Nat}
    (h : Text number t v d) (limit : Nat) :
    read number limit t = if d ≤ limit then some v else none := by
  have hvalue := (readsWith number _).value h ([]) (by rintro c ⟨⟩) (Nat.lt_succ_self _)
  rw [List.append_nil] at hvalue
  rw [read, hvalue]

/-- A text denotes one value. -/
theorem Text.value_unique {number : NumberFormat} {t : List Char} {v v' : Value} {d d' : Nat}
    (h : Text number t v d) (h' : Text number t v' d') : v = v' := by
  have hread := read_of_text h (max d d')
  rw [read_of_text h' (max d d'), if_pos (Nat.le_max_left _ _), if_pos (Nat.le_max_right _ _)]
    at hread
  exact (Option.some.inj hread).symm

end Victauri.Core.Json
