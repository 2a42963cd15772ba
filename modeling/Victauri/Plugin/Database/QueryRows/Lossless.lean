import Victauri.Plugin.Database.QueryRows.Losses

/-!
# A cell is decoded when nothing is lost

The counts of bytes are those of the text exactly for a document without a repeated key and with
the escapes that are written for its strings; its encoding is then the document reordered.
-/

namespace Victauri.Plugin.Database

open Victauri.Core.Json
open Victauri.Core.Verification (FloatTexts printInteger)
open Victauri.Cli.Jsonc (Mark Token Rendered)
open Utf8 (encode)
open Separated

namespace Document

variable {number : NumberFormat}

/-! ## The text of a document -/

def memberText (m : Literal × Document number) : List Char := m.1.text ++ ':' :: m.2.text

theorem text_bracketed (before behind : Mark) (ts : List Token) :
    (Token.mark before :: (ts ++ [.mark behind])).flatMap Token.text =
      before.char :: (ts.flatMap Token.text ++ [behind.char]) := by
  rw [List.flatMap_cons, List.flatMap_append]
  rfl

theorem text_comma (ts ts' : List Token) :
    (ts ++ Token.mark .comma :: ts').flatMap Token.text =
      ts.flatMap Token.text ++ [','] ++ ts'.flatMap Token.text := by
  rw [List.flatMap_append, List.flatMap_cons, List.append_assoc]
  rfl

theorem text_array (items : List (Document number)) :
    (Document.array items).text = '[' :: ([','].intercalate (items.map text) ++ [']']) := by
  have hitems : (itemTokens items).flatMap Token.text = [','].intercalate (items.map text) := by
    induction items with
    | nil => rfl
    | cons w ws ih =>
      cases ws with
      | nil =>
        rw [itemTokens, List.map_singleton, List.intercalate_singleton]
        rfl
      | cons w' ws =>
        rw [itemTokens, text_comma, ih, List.map_cons, List.map_cons, List.map_cons,
          List.intercalate_cons_cons]
        rfl
  rw [text, tokens, text_bracketed, hitems]
  rfl

theorem text_object (members : List (Literal × Document number)) :
    (Document.object members).text =
      '\x7b' :: ([','].intercalate (members.map memberText) ++ ['\x7d']) := by
  have hmember (k : Literal) (ts : List Token) :
      (Token.string k.body :: .mark .colon :: ts).flatMap Token.text =
        k.text ++ ':' :: ts.flatMap Token.text := by
    rw [List.flatMap_cons, List.flatMap_cons]
    rfl
  have hmembers : (memberTokens members).flatMap Token.text =
      [','].intercalate (members.map memberText) := by
    induction members with
    | nil => rfl
    | cons m ms ih =>
      obtain ⟨k, w⟩ := m
      cases ms with
      | nil =>
        rw [memberTokens, hmember, List.map_singleton, List.intercalate_singleton]
        rfl
      | cons m' ms =>
        rw [memberTokens, hmember, text_comma, ih, List.map_cons, List.map_cons, List.map_cons,
          List.intercalate_cons_cons]
        have htext : memberText (k, w) = k.text ++ ':' :: w.tokens.flatMap Token.text := rfl
        rw [htext]
        simp only [List.append_assoc, List.cons_append]
  rw [text, tokens, text_bracketed, hmembers]
  rfl

/-- A document that is reordered has the same characters. -/
theorem Reordered.text_perm {w w' : Document number} (h : Reordered w w') :
    w.text.Perm w'.text := by
  induction h with
  | refl => exact .refl _
  | trans _ _ ih ih' => exact ih.trans ih'
  | here h =>
    rw [text_object, text_object]
    exact ((intercalate_perm [','] (h.map memberText)).append_right _).cons _
  | @item before w w' behind _ ih =>
    rw [text_array, text_array, List.map_append, List.map_append, List.map_cons, List.map_cons]
    exact ((intercalate_replace [','] _ _ ih).append_right _).cons _
  | @member before key w w' behind _ ih =>
    have hmember : (memberText (key, w)).Perm (memberText (key, w')) :=
      (ih.cons ':').append_left key.text
    rw [text_object, text_object, List.map_append, List.map_append, List.map_cons, List.map_cons]
    exact ((intercalate_replace [','] _ _ hmember).append_right _).cons _

/-! ## What is lost is missing in the weight -/

section Weights

variable (printer : NumberPrinter number) (order : MapOrder)
  (hkept : ∀ t, number.token t → printer.write (number.read t) = t)

theorem weight_bracketed {before behind : Char} (hbefore : weight [before] = 2)
    (hbehind : weight [behind] = 2) (cs : List Char) :
    weight (before :: (cs ++ [behind])) = weight cs + 4 := by
  rw [weight_cons, weight_append, hbefore, hbehind]
  omega

def partsWeight (parts : List (List Char)) : Nat := (parts.map fun part => weight part + 2).sum

theorem weight_intercalate {parts : List (List Char)} (h : parts ≠ []) :
    weight ([','].intercalate parts) + 2 = partsWeight parts := by
  have hweight (cs : List Char) : total (fun c => weight [c]) cs = weight cs := by
    induction cs with
    | nil => rfl
    | cons c cs ih => rw [total_cons, ih, weight_cons c cs]
  have htotal := total_intercalate (fun c => weight [c]) [','] h
  simp only [hweight] at htotal
  exact htotal

/-- Commas do not matter to which list is lighter. -/
theorem weight_intercalate_iff {parts parts' : List (List Char)} (h : parts = [] ↔ parts' = []) :
    (weight ([','].intercalate parts) ≤ weight ([','].intercalate parts') ↔
        partsWeight parts ≤ partsWeight parts') ∧
      (weight ([','].intercalate parts) = weight ([','].intercalate parts') ↔
        partsWeight parts = partsWeight parts') := by
  by_cases hnil : parts = []
  · rw [h.mp hnil, hnil]
    exact ⟨Iff.rfl, Iff.rfl⟩
  · have hwritten := weight_intercalate hnil
    have htext := weight_intercalate fun hnil' => hnil (h.mpr hnil')
    constructor <;> omega

/-- A literal, with what is written for it. -/
theorem weight_literal (s : Literal) :
    weight (quote s.chars) ≤ weight s.text ∧
      (weight (quote s.chars) = weight s.text → s.Canonical) := by
  obtain ⟨hle, heq⟩ := lighter_body s.denotes
  rw [quote, Literal.text, weight_bracketed rfl rfl, weight_bracketed rfl rfl]
  exact ⟨Nat.add_le_add_right hle 4, fun h => heq (Nat.add_right_cancel h)⟩

/-- A document has no repeated key and no escape that is written in another way. -/
def Kept (w : Document number) : Prop := ¬ w.RepeatsKey ∧ ¬ w.Respells

theorem kept_null : (.null : Document number).Kept := by
  constructor <;> rintro ⟨⟩

theorem kept_bool (b : Bool) : (.bool b : Document number).Kept := by
  constructor <;> rintro ⟨⟩

theorem kept_number (t : {t : List Char // number.token t}) : (Document.number t).Kept := by
  constructor <;> rintro ⟨⟩

theorem kept_string {s : Literal} (h : s.Canonical) : (.string s : Document number).Kept := by
  constructor
  · rintro ⟨⟩
  · rintro ⟨hrespelled⟩
    exact hrespelled h

variable {printer order}

theorem weight_member {m : Literal × Document number}
    (h : weight (print printer (m.2.value order)) ≤ weight m.2.text ∧
      (weight (print printer (m.2.value order)) = weight m.2.text → m.2.Kept)) :
    weight (printMember printer (String.ofList m.1.chars, m.2.value order)) ≤
        weight (memberText m) ∧
      (weight (printMember printer (String.ofList m.1.chars, m.2.value order)) =
        weight (memberText m) → m.1.Canonical ∧ m.2.Kept) := by
  obtain ⟨hle, heq⟩ := h
  obtain ⟨hkey, hcanonical⟩ := weight_literal m.1
  rw [printMember, memberText, String.toList_ofList, weight_append, weight_append, weight_cons,
    weight_cons _ m.2.text]
  dsimp only
  exact ⟨by omega, fun hsum => ⟨hcanonical (by omega), heq (by omega)⟩⟩

variable (printer order)

include hkept in
theorem weight_value (w : Document number) :
    weight (print printer (w.value order)) ≤ weight w.text ∧
      (weight (print printer (w.value order)) = weight w.text → w.Kept) := by
  induction w using inductOn with
  | null => exact ⟨Nat.le_refl _, fun _ => kept_null⟩
  | bool b => cases b <;> exact ⟨Nat.le_refl _, fun _ => kept_bool _⟩
  | token t =>
    have hsame : print printer ((Document.number t).value order) = (Document.number t).text := by
      rw [value, print, hkept t.1 t.2]
      exact (List.append_nil _).symm
    rw [hsame]
    exact ⟨Nat.le_refl _, fun _ => kept_number t⟩
  | string s =>
    have htext : (Document.string s : Document number).text = s.text := List.append_nil _
    obtain ⟨hle, heq⟩ := weight_literal s
    rw [value, print, String.toList_ofList, htext]
    exact ⟨hle, fun h => kept_string (heq h)⟩
  | array items ih =>
    have hempty : (items.map (value order)).map (print printer) = [] ↔ items.map text = [] := by
      simp
    obtain ⟨hle, heq⟩ := weight_intercalate_iff hempty
    have hsum := sum_le_and_eq (f := fun w => weight (print printer (w.value order)) + 2)
      (g := fun w => weight w.text + 2) fun w hw => Nat.add_le_add_right (ih w hw).1 2
    rw [value, itemValues_eq, print_array, text_array, weight_bracketed rfl rfl,
      weight_bracketed rfl rfl, Nat.add_le_add_iff_right, Nat.add_right_cancel_iff, hle, heq,
      partsWeight, partsWeight, List.map_map, List.map_map, List.map_map]
    refine ⟨hsum.1, fun h => ?_⟩
    have hitems : ∀ w ∈ items, w.Kept := fun w hw =>
      (ih w hw).2 (Nat.add_right_cancel (hsum.2 h w hw))
    constructor
    · rintro (hrepeats | ⟨hw, hrepeats⟩)
      exact (hitems _ hw).1 hrepeats
    · rintro (_ | _ | ⟨hw, hrespells⟩)
      exact (hitems _ hw).2 hrespells
  | object members ih =>
    have hvalues := memberValues_eq order members
    have hperm := order.perm (ofMembers (memberValues order members))
    have hempty : (order.arrange (ofMembers (memberValues order members))).map
        (printMember printer) = [] ↔ members.map memberText = [] := by
      rw [List.map_eq_nil_iff, List.map_eq_nil_iff]
      constructor
      · intro hnil
        rw [hnil, hvalues] at hperm
        by_contra hne
        exact ofMembers_ne_nil (by simpa using hne) hperm.nil_eq.symm
      · rintro rfl
        exact hperm.eq_nil
    obtain ⟨hle, heq⟩ := weight_intercalate_iff hempty
    have hwritten : partsWeight ((order.arrange (ofMembers (memberValues order members))).map
        (printMember printer)) =
          ((ofMembers (memberValues order members)).map (cost printer)).sum := by
      rw [partsWeight, List.map_map]
      exact (hperm.map (cost printer)).sum_eq
    obtain ⟨hmembers, hdistinct⟩ := @cost_ofMembers number printer (memberValues order members)
    have hsum := sum_le_and_eq
      (f := fun m => cost printer (String.ofList m.1.chars, m.2.value order))
      (g := fun m => weight (memberText m) + 2)
      fun m hm => Nat.add_le_add_right (weight_member (ih m hm)).1 2
    have hcosts : (memberValues order members).map (cost printer) =
        members.map fun m => cost printer (String.ofList m.1.chars, m.2.value order) := by
      rw [hvalues, List.map_map]
      rfl
    rw [hcosts] at hmembers hdistinct
    rw [value, print_object, text_object, weight_bracketed rfl rfl, weight_bracketed rfl rfl,
      Nat.add_le_add_iff_right, Nat.add_right_cancel_iff, hle, heq, hwritten, partsWeight,
      List.map_map]
    refine ⟨hmembers.trans hsum.1, fun h => ?_⟩
    have hsame := Nat.le_antisymm hsum.1 (Nat.le_trans (Nat.le_of_eq h.symm) hmembers)
    have hall : ∀ m ∈ members, m.1.Canonical ∧ m.2.Kept := fun m hm =>
      (weight_member (ih m hm)).2 (Nat.add_right_cancel (hsum.2 hsame m hm))
    constructor
    · rintro (hrepeats | _ | ⟨hm, hrepeats⟩)
      · apply hrepeats
        have hkeys := hdistinct (h.trans hsame.symm)
        rw [DistinctKeys, hvalues, List.map_map] at hkeys
        apply List.Nodup.of_map String.ofList
        rwa [List.map_map]
      · exact (hall _ hm).2.1 hrepeats
    · rintro (_ | ⟨hm, hrespells⟩ | _ | ⟨hm, hrespells⟩)
      · exact hrespells (hall _ hm).1
      · exact (hall _ hm).2.2 hrespells

/-! ## What is kept is reordered -/

/-- The items may be replaced one after another. -/
theorem reordered_items (written : Document number → List Char)
    (before : List (Document number)) {items : List (Document number)}
    (h : ∀ w ∈ items, ∃ w', Reordered w w' ∧ w'.text = written w) :
    ∃ items', Reordered (.array (before ++ items)) (.array (before ++ items')) ∧
      items'.map text = items.map written := by
  induction items generalizing before with
  | nil => exact ⟨[], .refl _, rfl⟩
  | cons w ws ih =>
    rw [List.forall_mem_cons] at h
    obtain ⟨w', hreordered, htext⟩ := h.1
    obtain ⟨ws', hrest, htexts⟩ := ih (before ++ [w']) h.2
    rw [List.append_assoc, List.append_assoc, List.singleton_append, List.singleton_append] at hrest
    refine ⟨w' :: ws', .trans (.item hreordered) hrest, ?_⟩
    rw [List.map_cons, List.map_cons, htext, htexts]

theorem reordered_members (written : Document number → List Char)
    (before : List (Literal × Document number)) {members : List (Literal × Document number)}
    (h : ∀ m ∈ members, ∃ w', Reordered m.2 w' ∧ w'.text = written m.2) :
    ∃ members', Reordered (.object (before ++ members)) (.object (before ++ members')) ∧
      members'.map memberText = members.map fun m => m.1.text ++ ':' :: written m.2 := by
  induction members generalizing before with
  | nil => exact ⟨[], .refl _, rfl⟩
  | cons m ms ih =>
    obtain ⟨key, w⟩ := m
    rw [List.forall_mem_cons] at h
    obtain ⟨w', hreordered, htext⟩ := h.1
    obtain ⟨ms', hrest, htexts⟩ := ih (before ++ [(key, w')]) h.2
    rw [List.append_assoc, List.append_assoc, List.singleton_append, List.singleton_append] at hrest
    refine ⟨(key, w') :: ms', .trans (.member hreordered) hrest, ?_⟩
    rw [List.map_cons, List.map_cons, htexts, memberText, htext]

include hkept in
/-- The encoding of a document that is kept is the document in another order. -/
theorem reordered_of_kept (w : Document number) (h : w.Kept) :
    ∃ w', Reordered w w' ∧ w'.text = print printer (w.value order) := by
  induction w using inductOn with
  | null => exact ⟨_, .refl _, rfl⟩
  | bool b => cases b <;> exact ⟨_, .refl _, rfl⟩
  | token t =>
    refine ⟨_, .refl _, ?_⟩
    rw [value, print, hkept t.1 t.2]
    exact List.append_nil _
  | string s =>
    have hcanonical : s.Canonical := by
      by_contra hrespelled
      exact h.2 (.string hrespelled)
    refine ⟨_, .refl _, ?_⟩
    rw [value, print, String.toList_ofList, quote, ← hcanonical]
    exact List.append_nil _
  | array items ih =>
    have hitems : ∀ w ∈ items,
        ∃ w', Reordered w w' ∧ w'.text = print printer (w.value order) :=
      fun w hw => ih w hw ⟨fun hrepeats => h.1 (.item hw hrepeats),
        fun hrespells => h.2 (.item hw hrespells)⟩
    obtain ⟨items', hreordered, htexts⟩ := reordered_items _ [] hitems
    refine ⟨_, hreordered, ?_⟩
    rw [List.nil_append, text_array, value, itemValues_eq, print_array, List.map_map, htexts]
    rfl
  | object members ih =>
    have hmembers : ∀ m ∈ members,
        ∃ w', Reordered m.2 w' ∧ w'.text = print printer (m.2.value order) :=
      fun m hm => ih m hm ⟨fun hrepeats => h.1 (.member hm hrepeats),
        fun hrespells => h.2 (.member hm hrespells)⟩
    have hkeys : DistinctKeys (memberValues order members) := by
      have hnodup : (members.map fun m => m.1.chars).Nodup := by
        by_contra hrepeats
        exact h.1 (.here hrepeats)
      have hstrings := hnodup.map fun _ _ => String.ofList_injective
      rw [List.map_map] at hstrings
      rw [DistinctKeys, memberValues_eq, List.map_map]
      exact hstrings
    have hperm := order.perm (ofMembers (memberValues order members))
    rw [ofMembers_of_distinct hkeys, memberValues_eq] at hperm
    -- the map's order is one of the members as they are written
    obtain ⟨sorted, harranged, hsorted⟩ :=
      (congrFun (congrFun (List.eq_map_comp_perm fun m : Literal × Document number =>
        (String.ofList m.1.chars, m.2.value order)) _) _).mpr hperm
    obtain ⟨members', hreordered, htexts⟩ :=
      reordered_members (fun w => print printer (w.value order)) []
        fun m hm => hmembers m (hsorted.subset hm)
    refine ⟨_, .trans (.here hsorted.symm) hreordered, ?_⟩
    have hwritten : (sorted.map fun m => m.1.text ++ ':' :: print printer (m.2.value order)) =
        sorted.map fun m => printMember printer (String.ofList m.1.chars, m.2.value order) := by
      apply List.map_congr_left
      intro m hm
      have hcanonical : m.1.Canonical := by
        by_contra hrespelled
        exact h.2 (.key (hsorted.subset hm) hrespelled)
      rw [printMember, String.toList_ofList, quote, ← hcanonical]
      rfl
    rw [List.nil_append, text_object, value, print_object, ofMembers_of_distinct hkeys,
      memberValues_eq, harranged, List.map_map, htexts, hwritten]
    rfl

end Weights

end Document

/-! ## The check -/

/-- The check of a cell holds exactly when the text repeats no key and has the escapes that are
written for its strings: what is encoded is then the text without its white space, up to the order
of members. -/
theorem sameJsonContent_iff (floats : FloatTexts) (order : MapOrder) (w : Document integers)
    {text : List Char} (h : Rendered false w.tokens text) :
    (sameJsonContent (encode text) (encode (print (integerPrinter floats) (w.value order))) =
          true ↔
        ¬ w.RepeatsKey ∧ ¬ w.Respells) ∧
      (sameJsonContent (encode text) (encode (print (integerPrinter floats) (w.value order))) =
          true ↔
        ∃ w', Document.Reordered w w' ∧
          w'.text = print (integerPrinter floats) (w.value order)) := by
  have hkept : ∀ t, integers.token t → (integerPrinter floats).write (integers.read t) = t :=
    fun _ ht => print_read_integers floats ht
  have hsame : sameJsonContent (encode text)
      (encode (print (integerPrinter floats) (w.value order))) = true ↔
        (encode w.text).Perm (encode (print (integerPrinter floats) (w.value order))) := by
    rw [sameJsonContent_iff_perm, countedBytes_rendered h w.denotes.lexes]
    rfl
  have hlost : (encode w.text).Perm (encode (print (integerPrinter floats) (w.value order))) →
      w.Kept := fun hperm =>
    (w.weight_value (integerPrinter floats) order hkept).2 (total_perm byteWeight hperm).symm
  have hreordered : w.Kept → ∃ w', Document.Reordered w w' ∧
      w'.text = print (integerPrinter floats) (w.value order) :=
    w.reordered_of_kept (integerPrinter floats) order hkept
  have hperm : (∃ w', Document.Reordered w w' ∧
      w'.text = print (integerPrinter floats) (w.value order)) →
        (encode w.text).Perm (encode (print (integerPrinter floats) (w.value order))) := by
    rintro ⟨w', hw', htext⟩
    rw [← htext]
    exact hw'.text_perm.flatMap_right _
  rw [hsame]
  exact ⟨⟨hlost, fun hkeeps => hperm (hreordered hkeeps)⟩,
    ⟨fun hsame => hreordered (hlost hsame), hperm⟩⟩

def letterA : Literal := ⟨['a'], ['a'], .plain (by decide) (by decide) (by decide) .nil⟩

def repeatedDocument : Document integers :=
  .object [(letterA, .number ⟨['1'], 1, by decide, by decide, by decide⟩),
    (letterA, .number ⟨['2'], 2, by decide, by decide, by decide⟩)]

theorem rendered_repeatedDocument :
    Rendered false repeatedDocument.tokens "\x7b\"a\": 1,\"a\":2\x7d".toList :=
  .token (g := []) .nil (.token (g := []) .nil (.token (g := []) .nil
    (.token (g := [' ']) (.space (.inl rfl) .nil) (.token (g := []) .nil (.token (g := []) .nil
      (.token (g := []) .nil (.token (g := []) .nil (.token (g := []) .nil (.done .nil)))))))))

theorem sameJsonContent_iff_of_repeated :
    sameJsonContent (encode "\x7b\"a\": 1,\"a\":2\x7d".toList)
      (encode (print (integerPrinter ⟨fun _ => none, fun _ => []⟩)
        (repeatedDocument.value .insertion))) = false := by
  have hrepeats : repeatedDocument.RepeatsKey := .here (by decide)
  have hcheck := (sameJsonContent_iff ⟨fun _ => none, fun _ => []⟩ .insertion repeatedDocument
    rendered_repeatedDocument).1
  exact Bool.eq_false_iff.mpr fun hsame => (hcheck.mp hsame).1 hrepeats

end Victauri.Plugin.Database
