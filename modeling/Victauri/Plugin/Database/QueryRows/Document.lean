import Victauri.Cli.Jsonc.Grammar
import Victauri.Core.Json.Printer

/-!
# JSON documents as they are written

A document keeps what its value forgets: the escapes of its strings and the members that are
repeated.  A map keeps its members in the order of insertion or of their keys, so that order is a
parameter.
-/

namespace Victauri.Plugin.Database

open Victauri.Core.Json
open Victauri.Cli.Jsonc (Mark Token Denotes Rendered Gap IsJson)

/-! ## Documents -/

/-- A string as it is written between its quotes. -/
structure Literal where
  body : List Char
  chars : List Char
  denotes : StringBody body chars

/-- Its escapes are those that are written for its characters. -/
def Literal.Canonical (s : Literal) : Prop := s.body = s.chars.flatMap quoteScalar

def Literal.text (s : Literal) : List Char := '"' :: (s.body ++ ['"'])

inductive Document (number : NumberFormat) where
  | null
  | bool (b : Bool)
  | number (token : {t : List Char // number.token t})
  | string (s : Literal)
  | array (items : List (Document number))
  | object (members : List (Literal × Document number))

namespace Document

variable {number : NumberFormat}

@[elab_as_elim]
theorem inductOn {P : Document number → Prop} (w : Document number) (null : P .null)
    (bool : ∀ b, P (.bool b)) (token : ∀ t, P (.number t)) (string : ∀ s, P (.string s))
    (array : ∀ items, (∀ w ∈ items, P w) → P (.array items))
    (object : ∀ members, (∀ m ∈ members, P m.2) → P (.object members)) : P w := by
  refine @Document.rec number P (fun items => ∀ w ∈ items, P w)
    (fun members => ∀ m ∈ members, P m.2) (fun m => P m.2) null bool token string array object
    ?_ ?_ ?_ ?_ ?_ w
  · exact List.forall_mem_nil _
  · exact fun w items hw hitems => List.forall_mem_cons.mpr ⟨hw, hitems⟩
  · exact List.forall_mem_nil _
  · exact fun m members hm hmembers => List.forall_mem_cons.mpr ⟨hm, hmembers⟩
  · exact fun _ w hw => hw

mutual

def tokens : Document number → List Token
  | .null => [.word ['n', 'u', 'l', 'l']]
  | .bool true => [.word ['t', 'r', 'u', 'e']]
  | .bool false => [.word ['f', 'a', 'l', 's', 'e']]
  | .number token => [.word token.1]
  | .string s => [.string s.body]
  | .array items => .mark .beginArray :: (itemTokens items ++ [.mark .endArray])
  | .object members => .mark .beginObject :: (memberTokens members ++ [.mark .endObject])

def itemTokens : List (Document number) → List Token
  | [] => []
  | [w] => w.tokens
  | w :: w' :: ws => w.tokens ++ .mark .comma :: itemTokens (w' :: ws)

def memberTokens : List (Literal × Document number) → List Token
  | [] => []
  | [(k, w)] => .string k.body :: .mark .colon :: w.tokens
  | (k, w) :: m :: ms =>
      .string k.body :: .mark .colon :: (w.tokens ++ .mark .comma :: memberTokens (m :: ms))

end

/-- The document without white space. -/
def text (w : Document number) : List Char := w.tokens.flatMap Token.text

/-- Some object of the document has two members with one key. -/
inductive RepeatsKey : Document number → Prop
  | here {members} (h : ¬ (members.map fun m => m.1.chars).Nodup) : RepeatsKey (.object members)
  | item {items w} (hw : w ∈ items) (h : RepeatsKey w) : RepeatsKey (.array items)
  | member {members m} (hm : m ∈ members) (h : RepeatsKey m.2) : RepeatsKey (.object members)

/-- Some string or key of the document has an escape that is not the one that is written for it. -/
inductive Respells : Document number → Prop
  | string {s} (h : ¬ s.Canonical) : Respells (.string s)
  | key {members m} (hm : m ∈ members) (h : ¬ m.1.Canonical) : Respells (.object members)
  | item {items w} (hw : w ∈ items) (h : Respells w) : Respells (.array items)
  | member {members m} (hm : m ∈ members) (h : Respells m.2) : Respells (.object members)

/-- The members of objects in another order, anywhere in the document. -/
inductive Reordered : Document number → Document number → Prop
  | refl (w) : Reordered w w
  | trans {w w' w''} (h : Reordered w w') (h' : Reordered w' w'') : Reordered w w''
  | here {members members'} (h : members.Perm members') :
      Reordered (.object members) (.object members')
  | item {before w w' behind} (h : Reordered w w') :
      Reordered (.array (before ++ w :: behind)) (.array (before ++ w' :: behind))
  | member {before key w w' behind} (h : Reordered w w') :
      Reordered (.object (before ++ (key, w) :: behind)) (.object (before ++ (key, w') :: behind))

end Document

/-! ## Values -/

/-- The order in which a map keeps its members. -/
structure MapOrder where
  arrange : List (String × Value) → List (String × Value)
  perm : ∀ members, (arrange members).Perm members

/-- `preserve_order` -/
def MapOrder.insertion : MapOrder := ⟨id, fun _ => .refl _⟩

namespace Document

variable {number : NumberFormat}

section Values

variable (order : MapOrder)

mutual

/-- The value that the document is parsed to. -/
def value : Document number → Value
  | .null => .null
  | .bool b => .bool b
  | .number token => .number (number.read token.1)
  | .string s => .string (String.ofList s.chars)
  | .array items => .array (itemValues items)
  | .object members => .object (order.arrange (ofMembers (memberValues members)))

def itemValues : List (Document number) → List Value
  | [] => []
  | w :: ws => value w :: itemValues ws

def memberValues : List (Literal × Document number) → List (String × Value)
  | [] => []
  | (k, w) :: ms => (String.ofList k.chars, value w) :: memberValues ms

end

theorem itemValues_eq (items : List (Document number)) :
    itemValues order items = items.map (value order) := by
  induction items with
  | nil => rfl
  | cons w ws ih => rw [itemValues, ih, List.map_cons]

theorem memberValues_eq (members : List (Literal × Document number)) :
    memberValues order members =
      members.map fun m => (String.ofList m.1.chars, m.2.value order) := by
  induction members with
  | nil => rfl
  | cons m ms ih => rw [memberValues, ih, List.map_cons]

end Values

/-! ## Every JSON text is one of a document -/

theorem denotes (w : Document number) : Denotes number false w.tokens (w.value .insertion) := by
  induction w using inductOn with
  | null => exact .null
  | bool b =>
    cases b with
    | true => exact .true
    | false => exact .false
  | token t => exact .number t.2
  | string s => exact .string s.denotes
  | array items ih =>
    have hitems : Cli.Jsonc.Items number false (itemTokens items) (itemValues .insertion items) := by
      induction items with
      | nil => exact .nil
      | cons w ws ihws =>
        rw [List.forall_mem_cons] at ih
        cases ws with
        | nil => exact .one ih.1
        | cons w' ws => exact .cons ih.1 (ihws ih.2)
    exact .array hitems (.inl rfl)
  | object members ih =>
    have hmembers : Cli.Jsonc.Members number false (memberTokens members)
        (memberValues .insertion members) := by
      induction members with
      | nil => exact .nil
      | cons m ms ihms =>
        rw [List.forall_mem_cons] at ih
        cases ms with
        | nil => exact .one m.1.denotes ih.1
        | cons m' ms => exact .cons m.1.denotes ih.1 (ihms ih.2)
    exact .object hmembers (.inl rfl)

mutual

theorem exists_document {ts : List Token} {v : Value} :
    Denotes number false ts v → ∃ w : Document number, w.tokens = ts ∧ w.value .insertion = v
  | .null => ⟨.null, rfl, rfl⟩
  | .true => ⟨.bool true, rfl, rfl⟩
  | .false => ⟨.bool false, rfl, rfl⟩
  | .number h => ⟨.number ⟨_, h⟩, rfl, rfl⟩
  | .string h => ⟨.string ⟨_, _, h⟩, rfl, rfl⟩
  | .array h hcomma => by
    obtain ⟨items, htokens, hvalues⟩ := exists_items h
    obtain rfl : _ = [] := hcomma.resolve_right fun h => Bool.false_ne_true h.1
    refine ⟨.array items, ?_, ?_⟩
    · rw [tokens, htokens, List.nil_append]
    · rw [value, hvalues]
  | .object h hcomma => by
    obtain ⟨members, htokens, hvalues⟩ := exists_members h
    obtain rfl : _ = [] := hcomma.resolve_right fun h => Bool.false_ne_true h.1
    refine ⟨.object members, ?_, ?_⟩
    · rw [tokens, htokens, List.nil_append]
    · rw [value, hvalues]
      rfl

theorem exists_items {ts : List Token} {vs : List Value} :
    Cli.Jsonc.Items number false ts vs →
      ∃ items : List (Document number), itemTokens items = ts ∧ itemValues .insertion items = vs
  | .nil => ⟨[], rfl, rfl⟩
  | .one h => by
    obtain ⟨w, htokens, hvalue⟩ := exists_document h
    exact ⟨[w], htokens, congrArg ([·]) hvalue⟩
  | .cons h h' => by
    obtain ⟨w, rfl, rfl⟩ := exists_document h
    obtain ⟨items, rfl, hvalues⟩ := exists_items h'
    cases items with
    | nil => cases hvalues
    | cons w' ws => exact ⟨w :: w' :: ws, rfl, congrArg (_ :: ·) hvalues⟩

theorem exists_members {ts : List Token} {ms : List (String × Value)} :
    Cli.Jsonc.Members number false ts ms →
      ∃ members : List (Literal × Document number),
        memberTokens members = ts ∧ memberValues .insertion members = ms
  | .nil => ⟨[], rfl, rfl⟩
  | .one hk h => by
    obtain ⟨w, rfl, rfl⟩ := exists_document h
    exact ⟨[(⟨_, _, hk⟩, w)], rfl, rfl⟩
  | .cons hk h h' => by
    obtain ⟨w, rfl, rfl⟩ := exists_document h
    obtain ⟨members, rfl, hvalues⟩ := exists_members h'
    cases members with
    | nil => cases hvalues
    | cons m ms => exact ⟨(⟨_, _, hk⟩, w) :: m :: ms, rfl, congrArg (_ :: ·) hvalues⟩

end

/-- A JSON text is that of a document with white space. -/
theorem isJson_iff {text : List Char} {v : Value} :
    IsJson number text v ↔
      ∃ w : Document number, Rendered false w.tokens text ∧ w.value .insertion = v := by
  constructor
  · rintro ⟨ts, hdenotes, hrendered⟩
    obtain ⟨w, rfl, hvalue⟩ := exists_document hdenotes
    exact ⟨w, hrendered, hvalue⟩
  · rintro ⟨w, hrendered, rfl⟩
    exact ⟨w.tokens, w.denotes, hrendered⟩

end Document

end Victauri.Plugin.Database
