import Victauri.Plugin.Database.DeepestChain
import Victauri.Plugin.Database.ScanSql

/-!
# What a view selects from

`sql_words`, `view_definition` and `table_mentions` of `database.rs`: the words of a view's
definition, the name it defines, and the names its body may read, which are what
`deepest_view_chain` goes by.
-/

namespace Victauri.Plugin.Database

open Victauri.Library.Sqlite

/-! ## Words -/

/-- A token of a definition, in lower case; one in quotes is a name. -/
structure SqlWord where
  text : String
  quoted : Bool
  deriving DecidableEq

/-- A bare word. -/
def bare (text : String) : SqlWord := ⟨text, false⟩

def lower (cs : List Char) : String := String.ofList (cs.map Char.toLower)

/-- The content of a quoted span and what follows it. -/
def quotedWord (close : Char) (doubled : Bool) : List Char → List Char × List Char
  | [] => ([], [])
  | n :: cs =>
      if n ≠ close then
        let (word, rest) := quotedWord close doubled cs
        (n :: word, rest)
      else
        match cs with
        | m :: ds =>
            if doubled ∧ m = close then
              let (word, rest) := quotedWord close doubled ds
              (n :: word, rest)
            else ([], m :: ds)
        | [] => ([], [])

theorem quotedWord_length (close : Char) (doubled : Bool) (cs : List Char) :
    (quotedWord close doubled cs).2.length ≤ cs.length := by
  fun_induction quotedWord close doubled cs with
  | case1 => exact Nat.le_refl _
  | case2 n cs hn word rest hquoted ih =>
      rw [hquoted] at ih
      exact Nat.le_succ_of_le ih
  | case3 n hn m ds hm word rest hquoted ih =>
      rw [hquoted] at ih
      exact Nat.le_succ_of_le (Nat.le_succ_of_le ih)
  | case4 => exact Nat.le_succ _
  | case5 => exact Nat.le_succ _

/-- The loop of `sql_words` over the cleaned text. -/
def wordsOf : List Char → List SqlWord
  | [] => []
  | c :: cs =>
      if isQuote c then
        ⟨lower (quotedWord (closeOf c) (c != '[') cs).1, true⟩ ::
          wordsOf (quotedWord (closeOf c) (c != '[') cs).2
      else if c = '.' ∨ c = ',' ∨ c = '(' ∨ c = ')' then bare (String.ofList [c]) :: wordsOf cs
      else if isSqliteIdChar c then
        bare (lower (c :: cs.takeWhile isSqliteIdChar)) :: wordsOf (cs.dropWhile isSqliteIdChar)
      else wordsOf cs
termination_by cs => cs.length
decreasing_by
  · exact Nat.lt_succ_of_le (quotedWord_length _ _ _)
  · exact Nat.lt_succ_self _
  · exact Nat.lt_succ_of_le (List.dropWhile_sublist _ |>.length_le)
  · exact Nat.lt_succ_self _

def sqlWords (sql : String) : List SqlWord := wordsOf (scanSql sql).cleaned

/-- The name a schema entry defines a view under, and how many words that takes. -/
def viewDefinition (words : List SqlWord) : Option (String × Nat) :=
  let word (i : Nat) : Option String := words[i]?.map SqlWord.text
  let temporary := if word 1 = some "temp" ∨ word 1 = some "temporary" then 2 else 1
  let named := temporary + 1
  let unlessExists :=
    if word named = some "if" ∧ word (named + 1) = some "not" ∧ word (named + 2) = some "exists" then
      named + 3
    else named
  let unqualified := if word (unlessExists + 1) = some "." then unlessExists + 2 else unlessExists
  if word 0 = some "create" ∧ word temporary = some "view" then
    (word unqualified).map fun name => (name, unqualified + 1)
  else none

/-! ## Mentions -/

/-- What an open parenthesis is in the middle of. -/
inductive Clause where
  | expressions
  | tables
  | joinCondition
  deriving DecidableEq

/-- The arms of the match on a bare word. -/
inductive Role where
  | opens
  | closes
  | dot
  | comma
  | clause
  | tables
  | condition
  | membership
  | name
  deriving DecidableEq

def role (text : String) : Role :=
  if text = "(" then .opens
  else if text = ")" then .closes
  else if text = "." then .dot
  else if text = "," then .comma
  else if ["select", "where", "group", "having", "order", "limit"].contains text then .clause
  else if ["from", "join"].contains text then .tables
  else if ["on", "using"].contains text then .condition
  else if text = "in" then .membership
  else .name

/-- A word that can be a name. -/
def nameAt (body : List SqlWord) (at_ : Nat) : Option String :=
  (body[at_]?.filter fun w => w.quoted || !(["(", ")", ",", "."].contains w.text)).map SqlWord.text

/-- `x IN v` or `x IN main.v`, from what follows the `in`. -/
def membershipMentions (rest : List SqlWord) : List String :=
  match nameAt rest 0 with
  | some name =>
      name :: if rest[1]?.any fun w => !w.quoted && w.text == "." then (nameAt rest 2).toList else []
  | none => []

/-- The arms for a bare word in `clause`: the clauses after it, and what it mentions. -/
def readBare (clause : Clause) (outer : List Clause) (text : String) (rest : List SqlWord) :
    Role → List Clause × List String
  | .opens => ((if clause = .tables then .tables else .expressions) :: clause :: outer, [])
  | .closes => (if outer.isEmpty then clause :: outer else outer, [])
  | .dot => (clause :: outer, [])
  | .comma => ((if clause = .joinCondition then .tables else clause) :: outer, [])
  | .clause => (.expressions :: outer, [])
  | .tables => (.tables :: outer, [])
  -- the arm has a guard: in another clause the word falls through to the last arm
  | .condition =>
      if clause = .tables then (.joinCondition :: outer, [])
      else (clause :: outer, if clause = .tables then [text] else [])
  | .membership => (clause :: outer, membershipMentions rest)
  | .name => (clause :: outer, if clause = .tables then [text] else [])

/-- One round of the loop, with the innermost clause first. -/
def visit (clauses : List Clause) (word : SqlWord) (rest : List SqlWord) :
    List Clause × List String :=
  match clauses with
  | [] => ([], [])
  | clause :: outer =>
      if word.quoted then (clauses, if clause = .tables then [word.text] else [])
      else readBare clause outer word.text rest (role word.text)

def mentionsFrom (clauses : List Clause) : List SqlWord → List String
  | [] => []
  | word :: rest => (visit clauses word rest).2 ++ mentionsFrom (visit clauses word rest).1 rest

def tableMentions (body : List SqlWord) : List String := mentionsFrom [.expressions] body

/-- What `deepest_view_chain` takes a definition for. -/
def viewDef (definition : String) (cost : Nat) : Option ViewDef :=
  (viewDefinition (sqlWords definition)).map fun view =>
    ⟨view.1, tableMentions ((sqlWords definition).drop view.2), cost⟩

/-! ## Runs of words -/

/-- The clauses after some words. -/
def clausesAfter (clauses : List Clause) (words : List SqlWord) : List Clause :=
  words.foldl (fun clauses word => (visit clauses word []).1) clauses

/-- What follows a word does not change the clauses. -/
theorem visit_fst (clauses : List Clause) (word : SqlWord) (rest : List SqlWord) :
    (visit clauses word rest).1 = (visit clauses word []).1 := by
  cases clauses with
  | nil => rfl
  | cons clause outer =>
      rw [visit, visit]
      cases word.quoted with
      | true => rfl
      | false => cases role word.text <;> rfl

theorem mentionsFrom_cons (clauses : List Clause) (word : SqlWord) (rest : List SqlWord) :
    mentionsFrom clauses (word :: rest) =
      (visit clauses word rest).2 ++ mentionsFrom (clausesAfter clauses [word]) rest := by
  rw [mentionsFrom, visit_fst]
  rfl

theorem clausesAfter_append (clauses : List Clause) (words words' : List SqlWord) :
    clausesAfter clauses (words ++ words') = clausesAfter (clausesAfter clauses words) words' :=
  List.foldl_append

theorem mem_mentionsFrom_append {name : String} {clauses : List Clause} {words rest : List SqlWord}
    (h : name ∈ mentionsFrom (clausesAfter clauses words) rest) :
    name ∈ mentionsFrom clauses (words ++ rest) := by
  induction words generalizing clauses with
  | nil => exact h
  | cons word words ih =>
      rw [List.cons_append, mentionsFrom_cons]
      exact List.mem_append_right _ (ih h)

end Victauri.Plugin.Database
