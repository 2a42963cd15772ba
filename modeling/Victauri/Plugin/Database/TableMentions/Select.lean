import Victauri.Plugin.Database.TableMentions

/-!
# SELECT statements

The syntax trees of SQLite's SELECT, their words, and the tables they read.  Every table that a
tree reads in a FROM, a JOIN or an IN is mentioned.
-/

namespace Victauri.Plugin.Database

/-! ## Syntax -/

/-- A name, a literal or an operator's word: in quotes, or no word that opens a clause.  Those words
are reserved, so bare they cannot be names. -/
structure Plain where
  word : SqlWord
  plain : word.quoted = true ∨ role word.text = .name

/-- A table, a view or a table-valued function, perhaps with its schema. -/
structure TableName where
  schema : Option Plain
  name : Plain

inductive Alias where
  | none
  | bare (name : Plain)
  | renamed (name : Plain)

inductive IndexHint where
  | none
  | indexedBy (name : Plain)
  | notIndexed

/-- The words that may stand before JOIN. -/
inductive JoinWord where
  | natural
  | left
  | right
  | full
  | inner
  | cross
  | outer

inductive JoinOp where
  | comma
  | join (words : List JoinWord)

inductive CompoundOp where
  | union
  | unionAll
  | intersect
  | except

inductive Materialized where
  | unsaid
  | yes
  | no

/-- The clauses after FROM, and those inside the parentheses of a call or a window. -/
inductive ClauseWord where
  | filter
  | group
  | having
  | order
  | limit
  | window

mutual

/-- An expression is a sequence of parts: `a.b + f(x)` is `a`, the dot, `b`, `f` and its
parentheses.  What operators are written with leaves no word. -/
inductive Part
  | word (w : Plain)
  | dot
  /-- The end of IS [NOT] DISTINCT FROM. -/
  | distinctFrom
  | parens (inner : Inner)
  /-- IN a table, or a table-valued function, whose parentheses follow. -/
  | inTable (table : TableName)
  | inParens (inner : Inner)

inductive Exprs
  | nil
  | part (p : Part) (rest : Exprs)
  | comma (rest : Exprs)

/-- What parentheses hold in an expression. -/
inductive Inner
  | exprs (es : Exprs) (clauses : Clauses)
  | select (s : Select)

inductive Clauses
  | nil
  | clause (word : ClauseWord) (es : Exprs) (rest : Clauses)

inductive Constraint
  | none
  | on (condition : Exprs)
  | using (columns : List Plain)

/-- One term of a FROM clause. -/
inductive Source
  | table (name : TableName) (as_ : Alias) (hint : IndexHint) (constraint : Constraint)
  | call (name : TableName) (arguments : Exprs) (as_ : Alias) (constraint : Constraint)
  | select (s : Select) (as_ : Alias) (constraint : Constraint)
  | parens (sources : Sources) (as_ : Alias) (constraint : Constraint)

inductive Sources
  | one (source : Source)
  | join (sources : Sources) (op : JoinOp) (source : Source)

inductive Core
  | select (results : Exprs) (clauses : Clauses)
  | selectFrom (results : Exprs) (sources : Sources) (clauses : Clauses)
  | values (rows : Exprs)

inductive Compound
  | one (core : Core)
  | more (compound : Compound) (op : CompoundOp) (core : Core)

inductive Ctes
  | nil
  | cte (name : Plain) (columns : Option (List Plain)) (hint : Materialized) (s : Select)
      (rest : Ctes)

inductive Select
  | plain (compound : Compound) (clauses : Clauses)
  | withCtes (recursive : Bool) (ctes : Ctes) (compound : Compound) (clauses : Clauses)

end

/-! ## Words -/

def Alias.words : Alias → List SqlWord
  | none => []
  | bare name => [name.word]
  | renamed name => [Database.bare "as", name.word]

def IndexHint.words : IndexHint → List SqlWord
  | none => []
  | indexedBy name => [bare "indexed", bare "by", name.word]
  | notIndexed => [bare "not", bare "indexed"]

def TableName.words (table : TableName) : List SqlWord :=
  match table.schema with
  | some schema => [schema.word, bare ".", table.name.word]
  | none => [table.name.word]

def JoinWord.text : JoinWord → String
  | natural => "natural"
  | left => "left"
  | right => "right"
  | full => "full"
  | inner => "inner"
  | cross => "cross"
  | outer => "outer"

def JoinOp.words : JoinOp → List SqlWord
  | comma => [bare ","]
  | join words => words.map (fun word => bare word.text) ++ [bare "join"]

def CompoundOp.words : CompoundOp → List SqlWord
  | union => [bare "union"]
  | unionAll => [bare "union", bare "all"]
  | intersect => [bare "intersect"]
  | except => [bare "except"]

def Materialized.words : Materialized → List SqlWord
  | unsaid => []
  | yes => [bare "materialized"]
  | no => [bare "not", bare "materialized"]

def ClauseWord.words : ClauseWord → List SqlWord
  | filter => [bare "where"]
  | group => [bare "group"]
  | having => [bare "having"]
  | order => [bare "order"]
  | limit => [bare "limit"]
  | window => [bare "window"]

/-- Names between commas. -/
def columnWords : List Plain → List SqlWord
  | [] => []
  | [name] => [name.word]
  | name :: names => name.word :: bare "," :: columnWords names

/-- Words in parentheses. -/
def inParens (words : List SqlWord) : List SqlWord := bare "(" :: (words ++ [bare ")"])

mutual

def Part.words : Part → List SqlWord
  | .word w => [w.word]
  | .dot => [bare "."]
  | .distinctFrom => [bare "distinct", bare "from"]
  | .parens inner => inParens inner.words
  | .inTable table => bare "in" :: table.words
  | .inParens inner => bare "in" :: Database.inParens inner.words

def Exprs.words : Exprs → List SqlWord
  | .nil => []
  | .part p rest => p.words ++ rest.words
  | .comma rest => bare "," :: rest.words

def Inner.words : Inner → List SqlWord
  | .exprs es clauses => es.words ++ clauses.words
  | .select s => s.words

def Clauses.words : Clauses → List SqlWord
  | .nil => []
  | .clause word es rest => word.words ++ (es.words ++ rest.words)

def Constraint.words : Constraint → List SqlWord
  | .none => []
  | .on condition => bare "on" :: condition.words
  | .using columns => bare "using" :: inParens (columnWords columns)

def Source.words : Source → List SqlWord
  | .table name as_ hint constraint => name.words ++ (as_.words ++ (hint.words ++ constraint.words))
  | .call name arguments as_ constraint =>
      name.words ++ (inParens arguments.words ++ (as_.words ++ constraint.words))
  | .select s as_ constraint => inParens s.words ++ (as_.words ++ constraint.words)
  | .parens sources as_ constraint => inParens sources.words ++ (as_.words ++ constraint.words)

def Sources.words : Sources → List SqlWord
  | .one source => source.words
  | .join sources op source => sources.words ++ (op.words ++ source.words)

def Core.words : Core → List SqlWord
  | .select results clauses => bare "select" :: (results.words ++ clauses.words)
  | .selectFrom results sources clauses =>
      bare "select" :: (results.words ++ (bare "from" :: (sources.words ++ clauses.words)))
  | .values rows => bare "values" :: rows.words

def Compound.words : Compound → List SqlWord
  | .one core => core.words
  | .more compound op core => compound.words ++ (op.words ++ core.words)

def Ctes.words : Ctes → List SqlWord
  | .nil => []
  | .cte name columns hint s rest =>
      name.word :: ((columns.elim [] fun columns => inParens (columnWords columns)) ++
        (bare "as" :: (hint.words ++ (inParens s.words ++
          match rest with
          | .nil => []
          | .cte .. => bare "," :: rest.words))))

def Select.words : Select → List SqlWord
  | .plain compound clauses => compound.words ++ clauses.words
  | .withCtes recursive ctes compound clauses =>
      bare "with" :: ((if recursive then [bare "recursive"] else []) ++
        (ctes.words ++ (compound.words ++ clauses.words)))

end

/-! ## Reads -/

mutual

/-- The tables an expression reads: those that an IN names, and those of its subqueries. -/
def Part.reads : Part → List String
  | .word _ => []
  | .dot => []
  | .distinctFrom => []
  | .parens inner => inner.reads
  | .inTable table => [table.name.word.text]
  | .inParens inner => inner.reads

def Exprs.reads : Exprs → List String
  | .nil => []
  | .part p rest => p.reads ++ rest.reads
  | .comma rest => rest.reads

def Inner.reads : Inner → List String
  | .exprs es clauses => es.reads ++ clauses.reads
  | .select s => s.reads

def Clauses.reads : Clauses → List String
  | .nil => []
  | .clause _ es rest => es.reads ++ rest.reads

def Constraint.reads : Constraint → List String
  | .none => []
  | .on condition => condition.reads
  | .using _ => []

/-- The tables a term of a FROM clause reads. -/
def Source.reads : Source → List String
  | .table name _ _ constraint => name.name.word.text :: constraint.reads
  | .call name arguments _ constraint =>
      name.name.word.text :: (arguments.reads ++ constraint.reads)
  | .select s _ constraint => s.reads ++ constraint.reads
  | .parens sources _ constraint => sources.reads ++ constraint.reads

def Sources.reads : Sources → List String
  | .one source => source.reads
  | .join sources _ source => sources.reads ++ source.reads

def Core.reads : Core → List String
  | .select results clauses => results.reads ++ clauses.reads
  | .selectFrom results sources clauses => results.reads ++ (sources.reads ++ clauses.reads)
  | .values rows => rows.reads

def Compound.reads : Compound → List String
  | .one core => core.reads
  | .more compound _ core => compound.reads ++ core.reads

def Ctes.reads : Ctes → List String
  | .nil => []
  | .cte _ _ _ s rest => s.reads ++ rest.reads

def Select.reads : Select → List String
  | .plain compound clauses => compound.reads ++ clauses.reads
  | .withCtes _ ctes compound clauses => ctes.reads ++ (compound.reads ++ clauses.reads)

end

/-! ## What a run of words mentions -/

/-- From a clause in `P` the words lead to one in `Q`, on the same open parentheses, and mention
`reads`, whatever follows. -/
def Covers (P Q : Clause → Prop) (words : List SqlWord) (reads : List String) : Prop :=
  ∀ clause, P clause → ∀ outer,
    (∃ clause', Q clause' ∧ clausesAfter (clause :: outer) words = clause' :: outer) ∧
      ∀ rest, ∀ name ∈ reads, name ∈ mentionsFrom (clause :: outer) (words ++ rest)

def Any (_ : Clause) : Prop := True

def InTables (clause : Clause) : Prop := clause = .tables

/-- After a term of a FROM clause, and perhaps its join condition. -/
def AfterTable (clause : Clause) : Prop := clause = .tables ∨ clause = .joinCondition

section Covers

variable {P Q R : Clause → Prop} {words words' : List SqlWord} {reads reads' : List String}

theorem Covers.append (h : Covers P Q words reads) (h' : Covers Q R words' reads') :
    Covers P R (words ++ words') (reads ++ reads') := by
  intro clause hP outer
  obtain ⟨⟨clause', hQ, hafter⟩, hreads⟩ := h clause hP outer
  obtain ⟨⟨clause'', hR, hafter'⟩, hreads'⟩ := h' clause' hQ outer
  refine ⟨⟨clause'', hR, ?_⟩, ?_⟩
  · rw [clausesAfter_append, hafter, hafter']
  · intro rest name hname
    rw [List.append_assoc]
    rcases List.mem_append.mp hname with hname | hname
    · exact hreads _ name hname
    · refine mem_mentionsFrom_append ?_
      rw [hafter]
      exact hreads' rest name hname

theorem Covers.mono (h : Covers P Q words reads) (hP : ∀ clause, R clause → P clause) :
    Covers R Q words reads :=
  fun clause hR outer => h clause (hP clause hR) outer

theorem Covers.weaken (h : Covers P Q words reads) (hQ : ∀ clause, Q clause → R clause) :
    Covers P R words reads := by
  intro clause hP outer
  obtain ⟨⟨clause', hclause', hafter⟩, hreads⟩ := h clause hP outer
  exact ⟨⟨clause', hQ clause' hclause', hafter⟩, hreads⟩

theorem Covers.nil (P : Clause → Prop) : Covers P P [] [] :=
  fun clause hP _ => ⟨⟨clause, hP, rfl⟩, fun _ _ hname => absurd hname List.not_mem_nil⟩

/-- A word that changes the innermost clause at most. -/
theorem Covers.single {word : SqlWord} (next : Clause → Clause)
    (hvisit : ∀ clause outer, P clause →
      (visit (clause :: outer) word []).1 = next clause :: outer)
    (hnext : ∀ clause, P clause → Q (next clause)) : Covers P Q [word] [] :=
  fun clause hP outer =>
    ⟨⟨next clause, hnext clause hP, hvisit clause outer hP⟩,
      fun _ _ hname => absurd hname List.not_mem_nil⟩

theorem Covers.cons {word : SqlWord} (h : Covers P Q [word] []) (h' : Covers Q R words' reads') :
    Covers P R (word :: words') reads' :=
  h.append h'

end Covers

/-! ## Single words -/

theorem visit_plain (w : Plain) (clause : Clause) (outer : List Clause) (rest : List SqlWord) :
    visit (clause :: outer) w.word rest =
      (clause :: outer, if clause = .tables then [w.word.text] else []) := by
  rw [visit]
  cases hquoted : w.word.quoted with
  | true => rfl
  | false =>
      have hrole : role w.word.text = .name := by
        rcases w.plain with hplain | hplain
        · rw [hquoted] at hplain
          exact absurd hplain Bool.false_ne_true
        · exact hplain
      rw [hrole]
      rfl

theorem visit_bare {text : String} {r : Role} (h : role text = r) (clause : Clause)
    (outer : List Clause) (rest : List SqlWord) :
    visit (clause :: outer) (bare text) rest = readBare clause outer text rest r := by
  rw [← h]
  rfl

theorem Covers.plain (w : Plain) (P : Clause → Prop) : Covers P P [w.word] [] := by
  refine .single id (fun clause outer _ => ?_) fun _ hP => hP
  rw [visit_plain]
  rfl

/-- A name in a FROM clause. -/
theorem Covers.table (w : Plain) : Covers InTables InTables [w.word] [w.word.text] := by
  rintro _ rfl outer
  refine ⟨⟨.tables, rfl, ?_⟩, fun rest name hname => ?_⟩
  · rw [clausesAfter, List.foldl_cons, visit_plain]
    rfl
  · rw [List.singleton_append, mentionsFrom_cons, visit_plain]
    exact List.mem_append_left _ hname

section Bare

variable {text : String} {P : Clause → Prop}

theorem Covers.name (h : role text = .name) (P : Clause → Prop) : Covers P P [bare text] [] := by
  refine .single id (fun clause outer _ => ?_) fun _ hP => hP
  rw [visit_bare h]
  rfl

theorem Covers.dot (P : Clause → Prop) : Covers P P [bare "."] [] := by
  refine .single id (fun clause outer _ => ?_) fun _ hP => hP
  rw [visit_bare (r := .dot) (by decide)]
  rfl

theorem Covers.comma (hP : P .tables) : Covers P P [bare ","] [] := by
  refine .single (fun clause => if clause = .joinCondition then .tables else clause)
    (fun clause outer _ => ?_) fun clause hclause => ?_
  · rw [visit_bare (r := .comma) (by decide)]
    rfl
  · split_ifs
    · exact hP
    · exact hclause

theorem Covers.commaJoin : Covers AfterTable InTables [bare ","] [] := by
  refine .single (fun clause => if clause = .joinCondition then .tables else clause)
    (fun clause outer _ => ?_) fun clause hclause => ?_
  · rw [visit_bare (r := .comma) (by decide)]
    rfl
  · rcases hclause with rfl | rfl <;> rfl

theorem Covers.clauseWord (h : role text = .clause) :
    Covers Any (· = .expressions) [bare text] [] := by
  refine .single (fun _ => .expressions) (fun clause outer _ => ?_) fun _ _ => rfl
  rw [visit_bare h]
  rfl

theorem Covers.tablesWord (h : role text = .tables) : Covers Any InTables [bare text] [] := by
  refine .single (fun _ => .tables) (fun clause outer _ => ?_) fun _ _ => rfl
  rw [visit_bare h]
  rfl

theorem Covers.condition (h : role text = .condition) :
    Covers InTables AfterTable [bare text] [] := by
  refine .single (fun _ => .joinCondition) (fun clause outer hclause => ?_)
    fun _ _ => .inr rfl
  rw [visit_bare h, show clause = .tables from hclause]
  rfl

end Bare

/-- Parentheses leave the clause around them as it was. -/
theorem Covers.parens {P Q R : Clause → Prop} {words : List SqlWord} {reads : List String}
    (h : Covers Q R words reads)
    (hopen : ∀ clause, P clause → Q (if clause = .tables then .tables else .expressions)) :
    Covers P P (inParens words) reads := by
  intro clause hP outer
  obtain ⟨⟨clause', -, hafter⟩, hreads⟩ := h _ (hopen clause hP) (clause :: outer)
  have hopens : role "(" = .opens := by decide
  have hcloses : role ")" = .closes := by decide
  have hopened (rest : List SqlWord) : visit (clause :: outer) (bare "(") rest =
      ((if clause = .tables then .tables else .expressions) :: clause :: outer, []) :=
    visit_bare hopens clause outer rest
  have hclosed := visit_bare hcloses clause' (clause :: outer) []
  refine ⟨⟨clause, hP, ?_⟩, fun rest name hname => ?_⟩
  · rw [inParens, clausesAfter, List.foldl_cons, hopened]
    change clausesAfter _ (words ++ [bare ")"]) = _
    rw [clausesAfter_append, hafter, clausesAfter, List.foldl_cons, hclosed]
    rfl
  · rw [inParens, List.cons_append, mentionsFrom_cons, List.append_assoc, clausesAfter,
      List.foldl_cons, hopened]
    exact List.mem_append_right _ (hreads _ name hname)

theorem Covers.parens_any {P Q : Clause → Prop} {words : List SqlWord} {reads : List String}
    (h : Covers Any Q words reads) : Covers P P (inParens words) reads :=
  h.parens fun _ _ => trivial

theorem nameAt_plain (w : Plain) {body : List SqlWord} {i : Nat} (h : body[i]? = some w.word) :
    nameAt body i = some w.word.text := by
  rw [nameAt, h, Option.filter_some, if_pos]
  · rfl
  · rw [Bool.or_eq_true]
    rcases w.plain with hplain | hplain
    · exact .inl hplain
    · right
      rw [Bool.not_eq_true', List.contains_eq_mem, decide_eq_false_iff_not]
      intro hmem
      have hroles : ∀ text ∈ ["(", ")", ",", "."], role text ≠ .name := by decide
      exact hroles _ hmem hplain

theorem Covers.membership (P : Clause → Prop) : Covers P P [bare "in"] [] := by
  refine .single id (fun clause outer _ => ?_) fun _ hP => hP
  rw [visit_bare (r := .membership) (by decide)]
  rfl

/-- The table after an IN. -/
theorem Covers.inTable (table : TableName) (P : Clause → Prop) :
    Covers P P (bare "in" :: table.words) [table.name.word.text] := by
  intro clause hP outer
  have hmembership : role "in" = .membership := by decide
  have hin (rest : List SqlWord) : visit (clause :: outer) (bare "in") rest =
      (clause :: outer, membershipMentions rest) := visit_bare hmembership clause outer rest
  obtain ⟨schema, name⟩ := table
  cases schema with
  | none =>
      have hclauses : Covers P P [bare "in", name.word] [] :=
        .cons (.membership P) (.plain name P)
      refine ⟨(hclauses clause hP outer).1, fun rest n hn => ?_⟩
      rw [TableName.words, List.cons_append, mentionsFrom_cons, hin]
      refine List.mem_append_left _ ?_
      dsimp only
      rw [membershipMentions, nameAt_plain name rfl, List.mem_singleton.mp hn]
      exact List.mem_cons_self
  | some schema =>
      have hclauses : Covers P P [bare "in", schema.word, bare ".", name.word] [] :=
        .cons (.membership P) (.cons (.plain schema P) (.cons (.dot P) (.plain name P)))
      refine ⟨(hclauses clause hP outer).1, fun rest n hn => ?_⟩
      rw [TableName.words, List.cons_append, mentionsFrom_cons, hin]
      refine List.mem_append_left _ ?_
      dsimp only
      rw [membershipMentions, nameAt_plain schema rfl, nameAt_plain name rfl,
        List.mem_singleton.mp hn]
      exact List.mem_cons_of_mem _ List.mem_cons_self

/-- A table of a FROM clause. -/
theorem Covers.tableName (table : TableName) :
    Covers InTables InTables table.words [table.name.word.text] := by
  obtain ⟨schema, name⟩ := table
  cases schema with
  | none => exact .table name
  | some schema => exact .cons (.plain schema _) (.cons (.dot _) (.table name))

/-! ## The other words of a tree -/

theorem Covers.alias (as_ : Alias) (P : Clause → Prop) : Covers P P as_.words [] := by
  cases as_ with
  | none => exact .nil P
  | bare name => exact .plain name P
  | renamed name => exact .cons (.name (by decide) P) (.plain name P)

theorem Covers.hint (hint : IndexHint) (P : Clause → Prop) : Covers P P hint.words [] := by
  cases hint with
  | none => exact .nil P
  | indexedBy name =>
      exact .cons (.name (by decide) P) (.cons (.name (by decide) P) (.plain name P))
  | notIndexed => exact .cons (.name (by decide) P) (.name (by decide) P)

theorem Covers.joinWords (words : List JoinWord) (P : Clause → Prop) :
    Covers P P (words.map fun word => bare word.text) [] := by
  induction words with
  | nil => exact .nil P
  | cons word words ih =>
      have hname : role word.text = .name := by cases word <;> decide
      exact .cons (.name hname P) ih

theorem Covers.joinOp (op : JoinOp) : Covers AfterTable InTables op.words [] := by
  cases op with
  | comma => exact .commaJoin
  | join words =>
      have hjoin : Covers AfterTable InTables [bare "join"] [] :=
        (Covers.tablesWord (by decide)).mono fun _ _ => trivial
      exact (Covers.joinWords words _).append hjoin

theorem Covers.compoundOp (op : CompoundOp) (P : Clause → Prop) : Covers P P op.words [] := by
  cases op with
  | union => exact .name (by decide) P
  | unionAll => exact .cons (.name (by decide) P) (.name (by decide) P)
  | intersect => exact .name (by decide) P
  | except => exact .name (by decide) P

theorem Covers.materialized (hint : Materialized) (P : Clause → Prop) :
    Covers P P hint.words [] := by
  cases hint with
  | unsaid => exact .nil P
  | yes => exact .name (by decide) P
  | no => exact .cons (.name (by decide) P) (.name (by decide) P)

theorem Covers.clauseWords (word : ClauseWord) : Covers Any Any word.words [] := by
  cases word with
  | window => exact .name (by decide) Any
  | filter | group | having | order | limit =>
      exact (Covers.clauseWord (by decide)).weaken fun _ _ => trivial

theorem Covers.columns (columns : List Plain) : Covers Any Any (columnWords columns) [] := by
  fun_induction columnWords columns with
  | case1 => exact .nil Any
  | case2 name => exact .plain name Any
  | case3 name names hnames ih => exact .cons (.plain name Any) (.cons (.comma trivial) ih)

/-! ## Trees -/

theorem Any.of (P : Clause → Prop) : ∀ clause, P clause → Any clause := fun _ _ => trivial

theorem InTables.after : ∀ clause, InTables clause → AfterTable clause := fun _ => .inl

mutual

theorem Part.covers : ∀ (p : Part) {P : Clause → Prop}, P .tables → Covers P P p.words p.reads
  | .word w, P, _ => .plain w P
  | .dot, P, _ => .dot P
  | .distinctFrom, P, hP =>
      .cons (.name (by decide) P)
        (((Covers.tablesWord (by decide)).mono (Any.of P)).weaken fun _ h => h ▸ hP)
  | .parens inner, P, _ => (inner.covers).parens_any
  | .inTable table, P, _ => .inTable table P
  | .inParens inner, P, _ => .cons (.membership P) inner.covers.parens_any

theorem Exprs.covers : ∀ (es : Exprs) {P : Clause → Prop}, P .tables → Covers P P es.words es.reads
  | .nil, P, _ => .nil P
  | .part p rest, _, hP => (p.covers hP).append (rest.covers hP)
  | .comma rest, _, hP => .cons (.comma hP) (rest.covers hP)

theorem Inner.covers : ∀ inner : Inner, Covers Any Any inner.words inner.reads
  | .exprs es clauses => (es.covers trivial).append clauses.covers
  | .select s => s.covers

theorem Clauses.covers : ∀ clauses : Clauses, Covers Any Any clauses.words clauses.reads
  | .nil => .nil Any
  | .clause word es rest =>
      (Covers.clauseWords word).append ((es.covers trivial).append rest.covers)

theorem Constraint.covers : ∀ constraint : Constraint,
    Covers InTables AfterTable constraint.words constraint.reads
  | .none => (Covers.nil InTables).weaken InTables.after
  | .on condition => .cons (.condition (by decide)) (condition.covers (.inl rfl))
  | .using columns => .cons (.condition (by decide)) (Covers.columns columns).parens_any

theorem Source.covers : ∀ source : Source, Covers InTables AfterTable source.words source.reads
  | .table name as_ hint constraint =>
      (Covers.tableName name).append
        ((Covers.alias as_ _).append ((Covers.hint hint _).append constraint.covers))
  | .call name arguments as_ constraint =>
      (Covers.tableName name).append
        ((arguments.covers (P := Any) trivial).parens_any.append
          ((Covers.alias as_ _).append constraint.covers))
  | .select s as_ constraint =>
      s.covers.parens_any.append ((Covers.alias as_ _).append constraint.covers)
  | .parens sources as_ constraint =>
      (sources.covers.parens (P := InTables) fun _ h => if_pos h).append
        ((Covers.alias as_ _).append constraint.covers)

theorem Sources.covers : ∀ sources : Sources,
    Covers InTables AfterTable sources.words sources.reads
  | .one source => source.covers
  | .join sources op source =>
      sources.covers.append ((Covers.joinOp op).append source.covers)

theorem Core.covers : ∀ core : Core, Covers Any Any core.words core.reads
  | .select results clauses =>
      .cons ((Covers.clauseWord (by decide)).weaken (Any.of _))
        ((results.covers trivial).append clauses.covers)
  | .selectFrom results sources clauses =>
      .cons ((Covers.clauseWord (by decide)).weaken (Any.of _))
        ((results.covers trivial).append
          (.cons (.tablesWord (by decide))
            (sources.covers.append (clauses.covers.mono (Any.of _)))))
  | .values rows => .cons (.name (by decide) Any) (rows.covers trivial)

theorem Compound.covers : ∀ compound : Compound, Covers Any Any compound.words compound.reads
  | .one core => core.covers
  | .more compound op core =>
      compound.covers.append ((Covers.compoundOp op Any).append core.covers)

theorem Ctes.covers : ∀ ctes : Ctes, Covers Any Any ctes.words ctes.reads
  | .nil => .nil Any
  | .cte name columns hint s rest => by
      have hcolumns : Covers Any Any
          (columns.elim [] fun columns => inParens (columnWords columns)) [] := by
        cases columns with
        | none => exact .nil Any
        | some columns => exact (Covers.columns columns).parens_any
      have hrest : Covers Any Any
          (match rest with
            | .nil => []
            | .cte .. => bare "," :: rest.words) rest.reads := by
        cases rest with
        | nil => exact .nil Any
        | cte name' columns' hint' s' rest' =>
            exact .cons (.comma trivial) (Ctes.covers (.cte name' columns' hint' s' rest'))
      exact .cons (.plain name Any) (hcolumns.append
        (.cons (.name (by decide) Any) ((Covers.materialized hint Any).append
          (s.covers.parens_any.append hrest))))

theorem Select.covers : ∀ s : Select, Covers Any Any s.words s.reads
  | .plain compound clauses => compound.covers.append clauses.covers
  | .withCtes recursive ctes compound clauses => by
      have hrecursive : Covers Any Any (if recursive then [bare "recursive"] else []) [] := by
        cases recursive with
        | false => exact .nil Any
        | true => exact .name (by decide) Any
      exact .cons (.name (by decide) Any)
        (hrecursive.append (ctes.covers.append (compound.covers.append clauses.covers)))

end

/-- Every table a SELECT reads is mentioned. -/
theorem tableMentions_reads (s : Select) : s.reads ⊆ tableMentions s.words := by
  intro name hname
  have hmem := (s.covers .expressions trivial []).2 [] name hname
  rwa [List.append_nil] at hmem

/-- `SELECT x FROM main.v, ("W" AS w JOIN u) WHERE x IN main.t`. -/
example :
    let name (text : String) (h : role text = .name) : Plain := ⟨bare text, .inr h⟩
    let main := name "main" (by decide)
    let x := name "x" (by decide)
    let inner : Sources :=
      .join
        (.one (.table ⟨none, ⟨⟨"w", true⟩, .inl rfl⟩⟩ (.renamed (name "w" (by decide))) .none .none))
        (.join []) (.table ⟨none, name "u" (by decide)⟩ .none .none .none)
    let s : Select :=
      .plain (.one (.selectFrom (.part (.word x) .nil)
        (.join (.one (.table ⟨some main, name "v" (by decide)⟩ .none .none .none)) .comma
          (.parens inner .none .none))
        (.clause .filter
          (.part (.word x) (.part (.inTable ⟨some main, name "t" (by decide)⟩) .nil)) .nil))) .nil
    sqlWords "SELECT x FROM main.v, (\"W\" AS w JOIN u) WHERE x IN main.t" = s.words ∧
      s.reads = ["v", "w", "u", "t"] := by
  decide +kernel

/-! ## Views -/

/-- A view is taken for one that mentions every table its SELECT reads. -/
theorem viewDef_reads {definition : String} {name : Plain} {columns : Option (List Plain)}
    {s : Select}
    (h : sqlWords definition = bare "create" :: bare "view" :: name.word ::
      ((columns.elim [] fun columns => inParens (columnWords columns)) ++ bare "as" :: s.words))
    (cost : Nat) :
    ∃ v, viewDef definition cost = some v ∧ v.name = name.word.text ∧ s.reads ⊆ v.mentions := by
  have hcolumns : Covers Any Any
      (columns.elim [] fun columns => inParens (columnWords columns)) [] := by
    cases columns with
    | none => exact .nil Any
    | some columns => exact (Covers.columns columns).parens_any
  have has : Covers Any Any [bare "as"] [] := .name (by decide) Any
  have hbody := hcolumns.append (has.cons s.covers)
  have hdefinition : viewDefinition (sqlWords definition) = some (name.word.text, 3) := by
    rw [h, viewDefinition]
    cases columns with
    | none =>
        have hnot : ¬("as" = "not") := by decide
        have hdot : ¬("as" = ".") := by decide
        simp [bare, hnot, hdot]
    | some columns =>
        simp [bare, inParens]
  refine ⟨_, by rw [viewDef, hdefinition, Option.map_some], rfl, ?_⟩
  intro table htable
  have hmem := (hbody .expressions trivial []).2 [] table htable
  rw [List.append_nil] at hmem
  rw [h]
  exact hmem

end Victauri.Plugin.Database
