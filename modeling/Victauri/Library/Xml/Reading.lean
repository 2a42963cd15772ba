import Victauri.Library.Xml

/-!
# Reading printed XML

One rule for each construct that a program prints: what the parser makes of it, whatever follows.
Fuel is always enough where it exceeds the length of what is read.
-/

namespace Xml

/-! ## Names -/

/-- A name that a program writes. -/
structure Tag where
  chars : List Char
  start : chars.head?.any isNameStart = true
  all : chars.all isNameChar = true
  deriving DecidableEq

theorem Tag.ne_nil (n : Tag) : n.chars ≠ [] := by
  intro h
  have hstart := n.start
  rw [h] at hstart
  cases hstart

theorem isNameStart_not_isSpace {c : Char} (h : isNameStart c = true) : isSpace c = false := by
  by_contra hspace
  rw [Bool.not_eq_false] at hspace
  simp only [isSpace, Bool.or_eq_true, decide_eq_true_eq] at hspace
  rcases hspace with ((rfl | rfl) | rfl) | rfl
  · exact absurd h (by decide)
  · exact absurd h (by decide)
  · exact absurd h (by decide)
  · exact absurd h (by decide)

theorem takeWhile_append_of_all {p : Char → Bool} {front rest : List Char}
    (hfront : front.all p = true) (hrest : rest.head?.all (fun c => !p c) = true) :
    (front ++ rest).takeWhile p = front ∧ (front ++ rest).dropWhile p = rest := by
  induction front with
  | nil =>
    cases rest with
    | nil => exact ⟨rfl, rfl⟩
    | cons c rest =>
      have hc : p c = false := by simpa using hrest
      simp [hc]
  | cons c front ih =>
    rw [List.all_cons, Bool.and_eq_true] at hfront
    have hih := ih hfront.2
    simp [hfront.1, hih.1, hih.2]

/-- A name ends where no name character follows. -/
theorem name_append (n : Tag) {rest : List Char}
    (hrest : rest.head?.all (fun c => !isNameChar c) = true) :
    name (n.chars ++ rest) = some (n.chars, rest) := by
  have hsplit := takeWhile_append_of_all n.all hrest
  have hstart := n.start
  cases hchars : n.chars with
  | nil => exact absurd hchars n.ne_nil
  | cons c chars =>
    rw [hchars] at hstart hsplit
    rw [List.cons_append] at hsplit ⊢
    have hc : isNameStart c = true := by simpa using hstart
    change (if isNameStart c = true then some (List.takeWhile isNameChar (c :: (chars ++ rest)),
      List.dropWhile isNameChar (c :: (chars ++ rest))) else none) = _
    rw [if_pos hc, hsplit.1, hsplit.2]

theorem literal_append (text rest : List Char) : literal text (text ++ rest) = some rest := by
  unfold literal
  rw [if_pos (List.isPrefixOf_iff_prefix.mpr (List.prefix_append text rest)), List.drop_left]

theorem skipSpace_append {space rest : List Char} (hspace : space.all isSpace = true)
    (hrest : rest.head?.all (fun c => !isSpace c) = true) : skipSpace (space ++ rest) = rest :=
  (takeWhile_append_of_all hspace hrest).2

theorem skipSpace_tag (n : Tag) (rest : List Char) :
    skipSpace (n.chars ++ rest) = n.chars ++ rest := by
  have hstart := n.start
  cases hchars : n.chars with
  | nil => exact absurd hchars n.ne_nil
  | cons c chars =>
    rw [hchars] at hstart
    have hc : isSpace c = false := isNameStart_not_isSpace (by simpa using hstart)
    rw [List.cons_append, skipSpace, List.dropWhile_cons, if_neg (by simp [hc])]

/-! ## Attribute values -/

/-- A piece of an attribute value in double quotes that is read as one character. -/
def Stands (piece : List Char) (c : Char) : Prop :=
  ∀ fuel rest, attChars '"' (fuel + 1) (piece ++ rest) =
    (attChars '"' fuel rest).map fun r => (c :: r.1, r.2)

theorem stands_char {c : Char} (hquote : c ≠ '"') (hlt : c ≠ '<') (hamp : c ≠ '&')
    (hspace : isSpace c = true → c = ' ') : Stands [c] c := by
  intro fuel rest
  have hc : (if isSpace c = true then ' ' else c) = c := by
    by_cases h : isSpace c = true
    · rw [if_pos h, hspace h]
    · rw [if_neg h]
  rw [List.singleton_append, attChars, if_neg hquote, if_neg hlt, if_neg hamp, hc]
  cases h : attChars '"' fuel rest with
  | none => rfl
  | some r => rfl

theorem stands_reference {body : List Char} {c : Char} (hbody : body.all (· ≠ ';') = true)
    (hc : referenced body = some c) : Stands ('&' :: (body ++ [';'])) c := by
  intro fuel rest
  have hsplit := takeWhile_append_of_all hbody
    (show (';' :: rest).head?.all (fun c => !(decide (c ≠ ';'))) = true from rfl)
  have hread : reference (body ++ ';' :: rest) = some (c, rest) := by
    unfold reference
    rw [hsplit.2, hsplit.1, hc]
    rfl
  rw [List.cons_append, List.append_assoc, List.singleton_append, attChars,
    if_neg (by decide), if_neg (by decide), if_pos rfl, hread]
  cases h : attChars '"' fuel rest with
  | none => simp [h]
  | some r => simp [h]

/-- How a program writes attribute values, and what is read back. -/
structure Encoding where
  piece : Char → List Char
  clean : Char → Char
  stands : ∀ c, Stands (piece c) (clean c)

namespace Encoding

variable (e : Encoding)

def encode (value : List Char) : List Char := value.flatMap e.piece

theorem piece_ne_nil (c : Char) : e.piece c ≠ [] := by
  intro h
  have hstands := e.stands c 0 ['"']
  rw [h] at hstands
  cases hstands

theorem length_le_encode (value : List Char) : value.length ≤ (e.encode value).length := by
  unfold encode
  induction value with
  | nil => exact Nat.le_refl 0
  | cons c value ih =>
    have hpiece := List.length_pos_of_ne_nil (e.piece_ne_nil c)
    rw [List.flatMap_cons, List.length_append, List.length_cons]
    omega

theorem attChars_encode (value rest : List Char) (fuel : Nat) (hfuel : value.length < fuel) :
    attChars '"' fuel (e.encode value ++ '"' :: rest) = some (value.map e.clean, rest) := by
  induction value generalizing fuel with
  | nil =>
    obtain ⟨fuel, rfl⟩ := Nat.exists_eq_add_one_of_ne_zero (Nat.ne_of_gt hfuel)
    rfl
  | cons c value ih =>
    obtain ⟨fuel, rfl⟩ := Nat.exists_eq_add_one_of_ne_zero (Nat.ne_of_gt (Nat.zero_lt_of_lt hfuel))
    have hlt : value.length < fuel := Nat.lt_of_succ_lt_succ hfuel
    have hsplit : e.encode (c :: value) ++ '"' :: rest =
        e.piece c ++ (e.encode value ++ '"' :: rest) := by
      rw [encode, List.flatMap_cons, List.append_assoc]
      rfl
    rw [hsplit, e.stands c, ih fuel hlt]
    rfl

theorem attValue_encode (value rest : List Char) :
    attValue ('"' :: (e.encode value ++ '"' :: rest)) = some (value.map e.clean, rest) := by
  unfold attValue
  apply e.attChars_encode
  have hlength := e.length_le_encode value
  rw [List.length_append]
  omega

/-! ## Attributes -/

def printAttribute (a : Tag × List Char) : List Char :=
  ' ' :: (a.1.chars ++ '=' :: '"' :: (e.encode a.2 ++ ['"']))

def print (attrs : List (Tag × List Char)) : List Char := attrs.flatMap e.printAttribute

def read (attrs : List (Tag × List Char)) : List (List Char × List Char) :=
  attrs.map fun a => (a.1.chars, a.2.map e.clean)

/-- No attribute and no name character begins what follows. -/
def Closed (rest : List Char) : Prop :=
  name (skipSpace rest) = none ∧ rest.head?.all (fun c => !isNameChar c) = true

theorem attributes_print (attrs : List (Tag × List Char))
    (hdistinct : (attrs.map fun a => a.1.chars).Nodup) {rest : List Char} (hrest : Closed rest)
    (fuel : Nat) (hfuel : attrs.length < fuel) :
    attributes fuel (e.print attrs ++ rest) = some (e.read attrs, rest) := by
  induction attrs generalizing fuel with
  | nil =>
    obtain ⟨fuel, rfl⟩ := Nat.exists_eq_add_one_of_ne_zero (Nat.ne_of_gt hfuel)
    change attributes (fuel + 1) rest = _
    unfold attributes
    rw [hrest.1]
    rfl
  | cons a attrs ih =>
    obtain ⟨fuel, rfl⟩ := Nat.exists_eq_add_one_of_ne_zero (Nat.ne_of_gt (Nat.zero_lt_of_lt hfuel))
    rw [List.map_cons, List.nodup_cons] at hdistinct
    have hmore := ih hdistinct.2 fuel (Nat.lt_of_succ_lt_succ hfuel)
    have hsplit : e.print (a :: attrs) ++ rest =
        [' '] ++ (a.1.chars ++ '=' :: '"' :: (e.encode a.2 ++ '"' :: (e.print attrs ++ rest))) := by
      simp [print, printAttribute]
    have hskip : skipSpace (e.print (a :: attrs) ++ rest) =
        a.1.chars ++ '=' :: '"' :: (e.encode a.2 ++ '"' :: (e.print attrs ++ rest)) := by
      rw [hsplit]
      exact skipSpace_tag a.1 _
    have hnew : (e.read attrs).any (fun b => decide (b.1 = a.1.chars)) = false := by
      rw [List.any_eq_false]
      intro b hb
      obtain ⟨c, hc, rfl⟩ := List.mem_map.mp hb
      rw [decide_eq_true_eq]
      intro heq
      exact hdistinct.1 (List.mem_map.mpr ⟨c, hc, heq⟩)
    unfold attributes
    rw [hskip, name_append a.1 rfl]
    have hhead : (e.print (a :: attrs) ++ rest).head?.all (fun c => !isSpace c) = false := by
      rw [hsplit]
      rfl
    have hvalue := e.attValue_encode a.2 (e.print attrs ++ rest)
    simp only [hhead, Bool.false_eq_true, if_false]
    change ((attValue ('"' :: (e.encode a.2 ++ '"' :: (e.print attrs ++ rest)))).bind fun value =>
      (attributes fuel value.2).bind fun more =>
        if more.1.any fun b => b.1 = a.1.chars then none
        else some ((a.1.chars, value.1) :: more.1, more.2)) = _
    rw [hvalue]
    change ((attributes fuel (e.print attrs ++ rest)).bind fun more =>
      if more.1.any fun b => b.1 = a.1.chars then none
      else some ((a.1.chars, a.2.map e.clean) :: more.1, more.2)) = _
    rw [hmore]
    change (if (e.read attrs).any (fun b => b.1 = a.1.chars) then none
      else some ((a.1.chars, a.2.map e.clean) :: e.read attrs, rest)) = _
    rw [hnew]
    rfl

/-! ## Elements -/

theorem length_le_print (attrs : List (Tag × List Char)) :
    attrs.length ≤ (e.print attrs).length := by
  unfold print
  induction attrs with
  | nil => exact Nat.le_refl 0
  | cons a attrs ih =>
    rw [List.flatMap_cons, List.length_append, List.length_cons, printAttribute, List.length_cons]
    omega

theorem name_print (n : Tag) (attrs : List (Tag × List Char)) {rest : List Char}
    (hrest : Closed rest) :
    name (n.chars ++ (e.print attrs ++ rest)) = some (n.chars, e.print attrs ++ rest) := by
  apply name_append
  cases attrs with
  | nil => exact hrest.2
  | cons a attrs => rfl

/-- What the parser does behind a printed start tag. -/
theorem element_print (n : Tag) (attrs : List (Tag × List Char))
    (hdistinct : (attrs.map fun a => a.1.chars).Nodup) {rest : List Char} (hrest : Closed rest)
    (fuel : Nat) :
    element (fuel + 1) (n.chars ++ (e.print attrs ++ rest)) =
      match skipSpace rest with
      | '/' :: '>' :: rest => some (.element n.chars (e.read attrs) [], rest)
      | '>' :: rest => do
          let (children, rest) ← content fuel rest
          let rest ← literal ['<', '/'] rest
          let rest ← endTag n.chars rest
          return (.element n.chars (e.read attrs) children, rest)
      | _ => none := by
  have hattrs := e.attributes_print attrs hdistinct hrest ((e.print attrs ++ rest).length + 1) (by
    have hlength := e.length_le_print attrs
    rw [List.length_append]
    omega)
  rw [element, e.name_print n attrs hrest]
  change (attributes ((e.print attrs ++ rest).length + 1) (e.print attrs ++ rest)).bind _ = _
  rw [hattrs]
  rfl

end Encoding

/-- Fuel that exceeds the length reads the whole. -/
def ElementIs (input : List Char) (node : Node) (rest : List Char) : Prop :=
  ∀ fuel, input.length < fuel → element fuel input = some (node, rest)

def ContentIs (input : List Char) (nodes : List Node) (rest : List Char) : Prop :=
  ∀ fuel, input.length < fuel → content fuel input = some (nodes, rest)

namespace Encoding

variable (e : Encoding) (n : Tag) (attrs : List (Tag × List Char))
  (hdistinct : (attrs.map fun a => a.1.chars).Nodup)

include hdistinct

/-- `<n a="b" />`. -/
theorem elementIs_empty (rest : List Char) :
    ElementIs (n.chars ++ (e.print attrs ++ ' ' :: '/' :: '>' :: rest))
      (.element n.chars (e.read attrs) []) rest := by
  intro fuel hfuel
  obtain ⟨fuel, rfl⟩ := Nat.exists_eq_add_one_of_ne_zero (Nat.ne_of_gt (Nat.zero_lt_of_lt hfuel))
  exact e.element_print n attrs hdistinct ⟨rfl, rfl⟩ fuel

/-- `<n a="b">…</n>`. -/
theorem elementIs_children {inner rest : List Char} {children : List Node}
    (h : ContentIs inner children ('<' :: '/' :: (n.chars ++ '>' :: rest))) :
    ElementIs (n.chars ++ (e.print attrs ++ '>' :: inner))
      (.element n.chars (e.read attrs) children) rest := by
  intro fuel hfuel
  obtain ⟨fuel, rfl⟩ := Nat.exists_eq_add_one_of_ne_zero (Nat.ne_of_gt (Nat.zero_lt_of_lt hfuel))
  rw [List.length_append, List.length_append, List.length_cons] at hfuel
  have hinner := h fuel (by omega)
  have hend : endTag n.chars (n.chars ++ '>' :: rest) = some rest := by
    unfold endTag
    rw [name_append n rfl]
    change (if n.chars = n.chars then literal ['>'] ('>' :: rest) else none) = _
    rw [if_pos rfl]
    exact literal_append ['>'] rest
  rw [e.element_print n attrs hdistinct ⟨rfl, rfl⟩ fuel]
  change (do
    let (children, rest) ← content fuel inner
    let rest ← literal ['<', '/'] rest
    let rest ← endTag n.chars rest
    return (Node.element n.chars (e.read attrs) children, rest)) = _
  rw [hinner]
  change (do
    let rest ← literal ['<', '/'] (['<', '/'] ++ (n.chars ++ '>' :: rest))
    let rest ← endTag n.chars rest
    return (Node.element n.chars (e.read attrs) children, rest)) = _
  rw [literal_append]
  change (do
    let rest ← endTag n.chars (n.chars ++ '>' :: rest)
    return (Node.element n.chars (e.read attrs) children, rest)) = _
  rw [hend]
  rfl

end Encoding

/-! ## Content -/

theorem contentIs_end (rest : List Char) :
    ContentIs ('<' :: '/' :: rest) [] ('<' :: '/' :: rest) := by
  intro fuel hfuel
  obtain ⟨fuel, rfl⟩ := Nat.exists_eq_add_one_of_ne_zero (Nat.ne_of_gt (Nat.zero_lt_of_lt hfuel))
  rfl

theorem contentIs_element {input rest rest' : List Char} {node : Node} {nodes : List Node}
    (helement : ElementIs input node rest) (hslash : input.head? ≠ some '/')
    (hlength : rest.length ≤ input.length) (h : ContentIs rest nodes rest') :
    ContentIs ('<' :: input) (node :: nodes) rest' := by
  intro fuel hfuel
  obtain ⟨fuel, rfl⟩ := Nat.exists_eq_add_one_of_ne_zero (Nat.ne_of_gt (Nat.zero_lt_of_lt hfuel))
  rw [List.length_cons] at hfuel
  have hnode := helement fuel (by omega)
  have hnodes := h fuel (by omega)
  have hcontent : content (fuel + 1) ('<' :: input) =
      (element fuel input).bind fun node =>
        (content fuel node.2).bind fun nodes => some (node.1 :: nodes.1, nodes.2) := by
    cases input with
    | nil =>
      rw [content]
      · rfl
      all_goals simp
    | cons c input =>
      have hc : c ≠ '/' := fun heq => hslash (congrArg some heq)
      rw [content]
      · rfl
      · intro rest heq
        exact hc (List.cons.inj heq).1
  rw [hcontent, hnode]
  change ((content fuel rest).bind fun nodes => some (node :: nodes.1, nodes.2)) = _
  rw [hnodes]
  rfl

/-- White space and other text that needs no reference. -/
def IsPlain (text : List Char) : Prop := ∀ c ∈ text, c ≠ '<' ∧ c ≠ '&' ∧ c ≠ ']'

theorem charData_plain {text rest : List Char} (h : IsPlain text) (fuel : Nat)
    (hfuel : text.length < fuel) : charData fuel (text ++ '<' :: rest) = some (text, '<' :: rest) := by
  induction text generalizing fuel with
  | nil =>
    obtain ⟨fuel, rfl⟩ := Nat.exists_eq_add_one_of_ne_zero (Nat.ne_of_gt hfuel)
    rfl
  | cons c text ih =>
    obtain ⟨fuel, rfl⟩ := Nat.exists_eq_add_one_of_ne_zero (Nat.ne_of_gt (Nat.zero_lt_of_lt hfuel))
    obtain ⟨hlt, hamp, hbracket⟩ := h c List.mem_cons_self
    have hrest := ih (fun d hd => h d (List.mem_cons_of_mem c hd)) fuel
      (Nat.lt_of_succ_lt_succ hfuel)
    have hend : [']', ']', '>'].isPrefixOf (c :: (text ++ '<' :: rest)) = false := by
      rw [List.isPrefixOf, beq_eq_false_iff_ne.mpr hbracket.symm, Bool.false_and]
    rw [List.cons_append, charData, if_neg hlt, hend, if_neg Bool.false_ne_true, if_neg hamp, hrest]
    rfl

theorem contentIs_text {text rest rest' : List Char} {nodes : List Node} (hne : text ≠ [])
    (hplain : IsPlain text) (h : ContentIs ('<' :: rest) nodes rest') :
    ContentIs (text ++ '<' :: rest) (.text text :: nodes) rest' := by
  intro fuel hfuel
  obtain ⟨fuel, rfl⟩ := Nat.exists_eq_add_one_of_ne_zero (Nat.ne_of_gt (Nat.zero_lt_of_lt hfuel))
  have htextLength := List.length_pos_of_ne_nil hne
  have hdata := @charData_plain _ rest hplain ((text ++ '<' :: rest).length + 1) (by
    rw [List.length_append]
    omega)
  rw [List.length_append] at hfuel
  have hnodes := h fuel (by omega)
  cases text with
  | nil => exact absurd rfl hne
  | cons c text =>
    have hlt := (hplain c List.mem_cons_self).1
    have hcontent : content (fuel + 1) (c :: text ++ '<' :: rest) =
        (charData ((c :: text ++ '<' :: rest).length + 1) (c :: text ++ '<' :: rest)).bind
          fun text => (content fuel text.2).bind fun nodes =>
            some (.text text.1 :: nodes.1, nodes.2) := by
      rw [List.cons_append, content]
      · rfl
      · intro heq
        cases heq
      · intro rest heq
        exact hlt (List.cons.inj heq).1
      · intro rest heq
        exact hlt (List.cons.inj heq).1
    rw [hcontent, hdata]
    change ((content fuel ('<' :: rest)).bind fun nodes =>
      some (.text (c :: text) :: nodes.1, nodes.2)) = _
    rw [hnodes]
    rfl

end Xml
