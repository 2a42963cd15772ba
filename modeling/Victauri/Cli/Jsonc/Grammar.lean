import Mathlib.Data.List.Basic
import Victauri.Core.Json.Text

/-!
# JSON and JSONC texts as tokens

A text is tokens with gaps between them.  In JSON a gap is white space and no comma stands before a
closing bracket; in JSONC a gap may hold comments, and one comma may stand there.
-/

namespace Victauri.Cli.Jsonc

open Victauri.Core.Json

/-! ## Tokens -/

/-- Punctuation. -/
inductive Mark where
  | beginArray
  | endArray
  | beginObject
  | endObject
  | colon
  | comma
  deriving DecidableEq

def Mark.char : Mark → Char
  | .beginArray => '['
  | .endArray => ']'
  | .beginObject => '\x7b'
  | .endObject => '\x7d'
  | .colon => ':'
  | .comma => ','

/-- A string is kept without its quotes; a word is a literal name or a number. -/
inductive Token where
  | mark (m : Mark)
  | string (body : List Char)
  | word (text : List Char)
  deriving DecidableEq

def Token.text : Token → List Char
  | .mark m => [m.char]
  | .string body => '"' :: (body ++ ['"'])
  | .word text => text

def Token.closes (tok : Token) : Bool := tok = .mark .endArray || tok = .mark .endObject

/-- Tokens before which a comma is a trailing one. -/
def closesNext (ts : List Token) : Bool := ts.head?.any Token.closes

/-- The tokens without their trailing commas. -/
def dropTrailing : List Token → List Token
  | [] => []
  | tok :: ts =>
      if tok = .mark .comma ∧ closesNext ts then dropTrailing ts else tok :: dropTrailing ts

/-! ## Values -/

/-- What may stand between the last item and its closing bracket. -/
def Trailing (trailing : Bool) (ts : List Token) : Prop :=
  ts = [] ∨ trailing = true ∧ ts = [.mark .comma]

mutual

/-- `Denotes number trailing ts v`: the tokens are those of a text of the value `v`. -/
inductive Denotes (number : NumberFormat) (trailing : Bool) : List Token → Value → Prop
  | null : Denotes number trailing [.word ['n', 'u', 'l', 'l']] .null
  | true : Denotes number trailing [.word ['t', 'r', 'u', 'e']] (.bool true)
  | false : Denotes number trailing [.word ['f', 'a', 'l', 's', 'e']] (.bool false)
  | number {t} (h : number.token t) : Denotes number trailing [.word t] (.number (number.read t))
  | string {t s} (h : StringBody t s) :
      Denotes number trailing [.string t] (.string (String.ofList s))
  | array {ts vs comma} (h : Items number trailing ts vs) (hcomma : Trailing trailing comma) :
      Denotes number trailing (.mark .beginArray :: (ts ++ (comma ++ [.mark .endArray])))
        (.array vs)
  | object {ts ms comma} (h : Members number trailing ts ms) (hcomma : Trailing trailing comma) :
      Denotes number trailing (.mark .beginObject :: (ts ++ (comma ++ [.mark .endObject])))
        (.object (ofMembers ms))

/-- The items of an array. -/
inductive Items (number : NumberFormat) (trailing : Bool) : List Token → List Value → Prop
  | nil : Items number trailing [] []
  | one {ts v} (h : Denotes number trailing ts v) : Items number trailing ts [v]
  | cons {ts v ts' v' vs} (h : Denotes number trailing ts v)
      (h' : Items number trailing ts' (v' :: vs)) :
      Items number trailing (ts ++ .mark .comma :: ts') (v :: v' :: vs)

/-- The members of an object. -/
inductive Members (number : NumberFormat) (trailing : Bool) :
    List Token → List (String × Value) → Prop
  | nil : Members number trailing [] []
  | one {key k ts v} (hk : StringBody key k) (h : Denotes number trailing ts v) :
      Members number trailing (.string key :: .mark .colon :: ts) [(String.ofList k, v)]
  | cons {key k ts v ts' m ms} (hk : StringBody key k) (h : Denotes number trailing ts v)
      (h' : Members number trailing ts' (m :: ms)) :
      Members number trailing (.string key :: .mark .colon :: (ts ++ .mark .comma :: ts'))
        ((String.ofList k, v) :: m :: ms)

end

/-! ## Gaps -/

def IsSpace (c : Char) : Prop := c = ' ' ∨ c = '\t' ∨ c = '\n' ∨ c = '\r'

/-- A text between tokens.  A line comment runs to the next line feed, a block comment to the first
`*/`. -/
inductive Gap (comments : Bool) : List Char → Prop
  | nil : Gap comments []
  | space {c g} (hc : IsSpace c) (h : Gap comments g) : Gap comments (c :: g)
  | line {body g} (hcomments : comments = true) (hbody : '\n' ∉ body) (h : Gap comments g) :
      Gap comments ('/' :: '/' :: (body ++ '\n' :: g))
  | block {body g} (hcomments : comments = true) (hbody : ¬ ['*', '/'] <:+: body)
      (h : Gap comments g) : Gap comments ('/' :: '*' :: (body ++ '*' :: '/' :: g))

/-- The text of tokens with gaps; a line comment may be the last of it. -/
inductive Rendered (comments : Bool) : List Token → List Char → Prop
  | done {g} (hg : Gap comments g) : Rendered comments [] g
  | line {g body} (hcomments : comments = true) (hg : Gap comments g) (hbody : '\n' ∉ body) :
      Rendered comments [] (g ++ '/' :: '/' :: body)
  | token {tok ts g t} (hg : Gap comments g) (h : Rendered comments ts t) :
      Rendered comments (tok :: ts) (g ++ (tok.text ++ t))

/-- A strict JSON text. -/
def IsJson (number : NumberFormat) (text : List Char) (v : Value) : Prop :=
  ∃ ts, Denotes number false ts v ∧ Rendered false ts text

/-- A JSONC text. -/
def IsJsonc (number : NumberFormat) (text : List Char) (v : Value) : Prop :=
  ∃ ts, Denotes number true ts v ∧ Rendered true ts text

/-! ## Compact texts -/

section

variable {number : NumberFormat}

theorem exists_body {t : List Char} {s : String} (h : StringLiteral t s) :
    ∃ body k, StringBody body k ∧ (Token.string body).text = t ∧ String.ofList k = s := by
  cases h with
  | @mk body k h => exact ⟨body, k, h, rfl, rfl⟩

mutual

/-- The tokens of a compact text. -/
theorem exists_denotes {t : List Char} {v : Value} {d : Nat} :
    Text number t v d → ∃ ts, Denotes number false ts v ∧ ts.flatMap Token.text = t
  | .null => ⟨_, .null, rfl⟩
  | .true => ⟨_, .true, rfl⟩
  | .false => ⟨_, .false, rfl⟩
  | .number h => ⟨_, .number h, List.append_nil _⟩
  | .string h => by
    obtain ⟨body, k, hbody, rfl, rfl⟩ := exists_body h
    exact ⟨_, .string hbody, List.append_nil _⟩
  | .emptyArray => ⟨_, .array .nil (Or.inl rfl), rfl⟩
  | .emptyObject => ⟨_, .object .nil (Or.inl rfl), rfl⟩
  | .array h => by
    obtain ⟨ts, hitems, -, rfl⟩ := exists_items h
    exact ⟨_, .array hitems (Or.inl rfl), by simp [Token.text, Mark.char]⟩
  | .object h => by
    obtain ⟨ts, hmembers, -, rfl⟩ := exists_members h
    exact ⟨_, .object hmembers (Or.inl rfl), by simp [Token.text, Mark.char]⟩

theorem exists_items {t : List Char} {vs : List Value} {d : Nat} :
    Core.Json.Items number t vs d →
      ∃ ts, Items number false ts vs ∧ vs ≠ [] ∧ ts.flatMap Token.text = t
  | .one h => by
    obtain ⟨ts, hvalue, rfl⟩ := exists_denotes h
    exact ⟨ts, .one hvalue, List.cons_ne_nil _ _, rfl⟩
  | @Core.Json.Items.cons _ _ v _ _ vs _ h h' => by
    obtain ⟨ts, hvalue, rfl⟩ := exists_denotes h
    obtain ⟨ts', hitems, hne, rfl⟩ := exists_items h'
    obtain ⟨v', vs, rfl⟩ := List.exists_cons_of_ne_nil hne
    exact ⟨_, .cons hvalue hitems, List.cons_ne_nil _ _, by simp [Token.text, Mark.char]⟩

theorem exists_members {t : List Char} {ms : List (String × Value)} {d : Nat} :
    Core.Json.Members number t ms d →
      ∃ ts, Members number false ts ms ∧ ms ≠ [] ∧ ts.flatMap Token.text = t
  | .one hk h => by
    obtain ⟨key, k, hkey, rfl, rfl⟩ := exists_body hk
    obtain ⟨ts, hvalue, rfl⟩ := exists_denotes h
    exact ⟨_, .one hkey hvalue, List.cons_ne_nil _ _, by simp [Token.text, Mark.char]⟩
  | @Core.Json.Members.cons _ _ _ _ _ _ _ ms _ hk h h' => by
    obtain ⟨key, k, hkey, rfl, rfl⟩ := exists_body hk
    obtain ⟨ts, hvalue, rfl⟩ := exists_denotes h
    obtain ⟨ts', hmembers, hne, rfl⟩ := exists_members h'
    obtain ⟨m', ms, rfl⟩ := List.exists_cons_of_ne_nil hne
    exact ⟨_, .cons hkey hvalue hmembers, List.cons_ne_nil _ _, by simp [Token.text, Mark.char]⟩

end

/-- A compact text is JSON, with empty gaps. -/
theorem isJson_of_text {t : List Char} {v : Value} {d : Nat} (h : Text number t v d) :
    IsJson number t v := by
  obtain ⟨ts, hvalue, rfl⟩ := exists_denotes h
  refine ⟨ts, hvalue, ?_⟩
  clear h hvalue
  induction ts with
  | nil => exact Rendered.done Gap.nil
  | cons tok ts ih =>
    rw [List.flatMap_cons]
    exact Rendered.token Gap.nil ih

end

/-! ## Without trailing commas -/

theorem dropTrailing_cons {tok : Token} {ts : List Token}
    (h : ¬ (tok = .mark .comma ∧ closesNext ts = true)) :
    dropTrailing (tok :: ts) = tok :: dropTrailing ts := by
  rw [dropTrailing, if_neg h]

theorem dropTrailing_cons_of_ne {tok : Token} (htok : tok ≠ .mark .comma) (ts : List Token) :
    dropTrailing (tok :: ts) = tok :: dropTrailing ts :=
  dropTrailing_cons fun h => htok h.1

theorem length_dropTrailing_le (ts : List Token) : (dropTrailing ts).length ≤ ts.length := by
  induction ts with
  | nil => exact Nat.le_refl 0
  | cons tok ts ih =>
    rw [dropTrailing]
    split_ifs
    · exact Nat.le_succ_of_le ih
    · exact Nat.succ_le_succ ih

/-- Tokens whose trailing commas do not depend on what follows them. -/
def Apart (ts : List Token) : Prop :=
  ∀ rest, dropTrailing (ts ++ rest) = dropTrailing ts ++ dropTrailing rest

theorem apart_nil : Apart [] := fun _ => rfl

theorem apart_singleton {tok : Token} (htok : tok ≠ .mark .comma) : Apart [tok] := by
  intro rest
  rw [List.singleton_append, dropTrailing_cons_of_ne htok, dropTrailing_cons_of_ne htok]
  rfl

theorem Apart.append {ts ts' : List Token} (h : Apart ts) (h' : Apart ts') :
    Apart (ts ++ ts') := by
  intro rest
  rw [List.append_assoc, h, h', h, List.append_assoc]

/-- The comma before tokens that do not begin with a closing bracket is kept. -/
theorem apart_comma {ts : List Token} (hne : ts ≠ []) (hopen : closesNext ts = false)
    (h : Apart ts) : Apart (.mark .comma :: ts) := by
  intro rest
  have happend : closesNext (ts ++ rest) = false := by
    obtain ⟨tok, ts, rfl⟩ := List.exists_cons_of_ne_nil hne
    exact hopen
  rw [List.cons_append, dropTrailing_cons (by simp [happend]),
    dropTrailing_cons (by simp [hopen]), h]
  rfl

/-- The comma before a closing bracket is dropped. -/
theorem dropTrailing_close {trailing : Bool} {comma : List Token}
    (hcomma : Trailing trailing comma) {close : Token} (hclose : close.closes = true)
    (rest : List Token) :
    dropTrailing (comma ++ close :: rest) = close :: dropTrailing rest := by
  have hne : close ≠ .mark .comma := by
    rintro rfl
    cases hclose
  rcases hcomma with rfl | ⟨-, rfl⟩
  · rw [List.nil_append, dropTrailing_cons_of_ne hne]
  · rw [List.singleton_append, dropTrailing, if_pos ⟨rfl, hclose⟩, dropTrailing_cons_of_ne hne]

section

variable {trailing : Bool} {first close : Token} {ts comma : List Token}

theorem dropTrailing_container (hfirst : first ≠ .mark .comma) (h : Apart ts)
    (hcomma : Trailing trailing comma) (hclose : close.closes = true) (rest : List Token) :
    dropTrailing (first :: (ts ++ (comma ++ [close])) ++ rest) =
      first :: (dropTrailing ts ++ close :: dropTrailing rest) := by
  rw [List.cons_append, dropTrailing_cons_of_ne hfirst, List.append_assoc, List.append_assoc,
    List.singleton_append, h, dropTrailing_close hcomma hclose]

theorem apart_container (hfirst : first ≠ .mark .comma) (h : Apart ts)
    (hcomma : Trailing trailing comma) (hclose : close.closes = true) :
    Apart (first :: (ts ++ (comma ++ [close]))) := by
  intro rest
  have hself := dropTrailing_container hfirst h hcomma hclose []
  rw [List.append_nil] at hself
  rw [dropTrailing_container hfirst h hcomma hclose, hself, List.cons_append, List.append_assoc]
  rfl

end

/-- What holds of the tokens of a value, or of items or members, between others. -/
structure Settled (trailing : Bool) (ts : List Token) : Prop where
  opens : closesNext ts = false
  apart : Apart ts
  strict : trailing = false → dropTrailing ts = ts

theorem settled_nil (trailing : Bool) : Settled trailing [] :=
  ⟨rfl, apart_nil, fun _ => rfl⟩

theorem settled_singleton (trailing : Bool) {tok : Token} (htok : tok ≠ .mark .comma)
    (hopen : tok.closes = false) : Settled trailing [tok] := by
  refine ⟨hopen, apart_singleton htok, fun _ => ?_⟩
  rw [dropTrailing_cons_of_ne htok]
  rfl

theorem Settled.append {trailing : Bool} {ts ts' : List Token} (hne : ts ≠ [])
    (h : Settled trailing ts) (h' : Settled trailing ts') : Settled trailing (ts ++ ts') := by
  refine ⟨?_, h.apart.append h'.apart, ?_⟩
  · obtain ⟨tok, ts, rfl⟩ := List.exists_cons_of_ne_nil hne
    exact h.opens
  · intro htrailing
    rw [h.apart, h.strict htrailing, h'.strict htrailing]

theorem Settled.comma {trailing : Bool} {ts : List Token} (hne : ts ≠ [])
    (h : Settled trailing ts) : Settled trailing (.mark .comma :: ts) := by
  refine ⟨rfl, apart_comma hne h.opens h.apart, ?_⟩
  intro htrailing
  rw [dropTrailing_cons (by simp [h.opens]), h.strict htrailing]

theorem Settled.container {trailing : Bool} {first close : Token} {ts comma : List Token}
    (hfirst : first ≠ .mark .comma) (hopen : first.closes = false) (h : Settled trailing ts)
    (hcomma : Trailing trailing comma) (hclose : close.closes = true) :
    Settled trailing (first :: (ts ++ (comma ++ [close]))) := by
  refine ⟨hopen, apart_container hfirst h.apart hcomma hclose, ?_⟩
  rintro rfl
  have hself := dropTrailing_container hfirst h.apart hcomma hclose []
  rw [List.append_nil, h.strict rfl] at hself
  rcases hcomma with rfl | ⟨hfalse, -⟩
  · exact hself
  · cases hfalse

/-- A member's name and colon are settled before its value. -/
theorem Settled.name {trailing : Bool} {ts : List Token} (h : Settled trailing ts)
    (key : List Char) : Settled trailing (.string key :: .mark .colon :: ts) := by
  have hname : Settled trailing [.string key] := settled_singleton trailing nofun rfl
  have hcolon : Settled trailing [.mark .colon] := settled_singleton trailing nofun rfl
  exact hname.append (List.cons_ne_nil _ _) (hcolon.append (List.cons_ne_nil _ _) h)

theorem dropTrailing_name (key : List Char) (ts : List Token) :
    dropTrailing (.string key :: .mark .colon :: ts) =
      .string key :: .mark .colon :: dropTrailing ts := by
  rw [@dropTrailing_cons_of_ne (.string key) nofun, @dropTrailing_cons_of_ne (.mark .colon) nofun]

mutual

theorem Denotes.settled {number : NumberFormat} {trailing : Bool} {ts : List Token} {v : Value} :
    Denotes number trailing ts v →
      ts ≠ [] ∧ Settled trailing ts ∧ Denotes number false (dropTrailing ts) v
  | .null => ⟨nofun, settled_singleton trailing nofun rfl, .null⟩
  | .true => ⟨nofun, settled_singleton trailing nofun rfl, .true⟩
  | .false => ⟨nofun, settled_singleton trailing nofun rfl, .false⟩
  | .number h => ⟨nofun, settled_singleton trailing nofun rfl, .number h⟩
  | .string h => ⟨nofun, settled_singleton trailing nofun rfl, .string h⟩
  | @Denotes.array _ _ ts vs comma h hcomma => by
    obtain ⟨-, hsettled, hitems⟩ := h.settled
    refine ⟨nofun, hsettled.container nofun rfl hcomma rfl, ?_⟩
    have hself := @dropTrailing_container trailing (.mark .beginArray) (.mark .endArray) ts comma
      nofun hsettled.apart hcomma rfl []
    rw [List.append_nil] at hself
    rw [hself]
    exact .array hitems (Or.inl rfl)
  | @Denotes.object _ _ ts ms comma h hcomma => by
    obtain ⟨-, hsettled, hmembers⟩ := h.settled
    refine ⟨nofun, hsettled.container nofun rfl hcomma rfl, ?_⟩
    have hself := @dropTrailing_container trailing (.mark .beginObject) (.mark .endObject) ts comma
      nofun hsettled.apart hcomma rfl []
    rw [List.append_nil] at hself
    rw [hself]
    exact .object hmembers (Or.inl rfl)

theorem Items.settled {number : NumberFormat} {trailing : Bool} {ts : List Token}
    {vs : List Value} : Items number trailing ts vs →
      (vs ≠ [] → ts ≠ []) ∧ Settled trailing ts ∧ Items number false (dropTrailing ts) vs
  | .nil => ⟨fun h => absurd rfl h, settled_nil trailing, .nil⟩
  | .one h => by
    obtain ⟨hne, hsettled, hvalue⟩ := h.settled
    exact ⟨fun _ => hne, hsettled, .one hvalue⟩
  | .cons h h' => by
    obtain ⟨hne, hsettled, hvalue⟩ := h.settled
    obtain ⟨hne', hsettled', hitems⟩ := h'.settled
    have hrest := hsettled'.comma (hne' (List.cons_ne_nil _ _))
    refine ⟨fun _ => List.append_ne_nil_of_left_ne_nil hne _, hsettled.append hne hrest, ?_⟩
    rw [hsettled.apart, dropTrailing_cons (by simp [hsettled'.opens])]
    exact .cons hvalue hitems

theorem Members.settled {number : NumberFormat} {trailing : Bool} {ts : List Token}
    {ms : List (String × Value)} : Members number trailing ts ms →
      (ms ≠ [] → ts ≠ []) ∧ Settled trailing ts ∧ Members number false (dropTrailing ts) ms
  | .nil => ⟨fun h => absurd rfl h, settled_nil trailing, .nil⟩
  | @Members.one _ _ key k ts v hk h => by
    obtain ⟨-, hsettled, hvalue⟩ := h.settled
    refine ⟨fun _ => nofun, hsettled.name key, ?_⟩
    rw [dropTrailing_name]
    exact .one hk hvalue
  | @Members.cons _ _ key k ts v ts' m ms hk h h' => by
    obtain ⟨hne, hsettled, hvalue⟩ := h.settled
    obtain ⟨hne', hsettled', hmembers⟩ := h'.settled
    have hrest := hsettled'.comma (hne' (List.cons_ne_nil _ _))
    refine ⟨fun _ => nofun, (hsettled.append hne hrest).name key, ?_⟩
    rw [dropTrailing_name, hsettled.apart, dropTrailing_cons (by simp [hsettled'.opens])]
    exact .cons hk hvalue hmembers

end

end Victauri.Cli.Jsonc
