import Victauri.Library.SqliteTokens

/-!
# Reading SQL without a parser

`scan_sql` of `database.rs`, one pass over a text that knows quotes and comments, and the
checks of `validate_query` that go by what it leaves.  The scanner works on characters with their
places.  `str::to_lowercase` and `char::is_alphanumeric` are parameters.
-/

namespace Victauri.Plugin.Database

open Victauri.Library.Sqlite

/-! ## Characters -/

def isSqliteIdChar (c : Char) : Bool :=
  ('a' ≤ c && c ≤ 'z') || ('A' ≤ c && c ≤ 'Z') || ('0' ≤ c && c ≤ '9') || c == '_' || c == '$' ||
    0x80 ≤ c.toNat

def isSqliteSpace (c : Char) : Bool :=
  c == ' ' || c == '\t' || c == '\n' || c == '\x0b' || c == '\x0c' || c == '\r'

/-- `char::is_whitespace`: Unicode's `White_Space`. -/
def isWhitespace (c : Char) : Bool :=
  (0x09 ≤ c.toNat && c.toNat ≤ 0x0d) || c.toNat == 0x20 || c.toNat == 0x85 || c.toNat == 0xa0 ||
    c.toNat == 0x1680 || (0x2000 ≤ c.toNat && c.toNat ≤ 0x200a) || c.toNat == 0x2028 ||
    c.toNat == 0x2029 || c.toNat == 0x202f || c.toNat == 0x205f || c.toNat == 0x3000

def trimStart (cs : List Char) : List Char := cs.dropWhile isWhitespace

def trim (cs : List Char) : List Char := (trimStart (trimStart cs).reverse).reverse

/-- `str::split`: the pieces between separators. -/
def pieces (separator : Char → Bool) : List Char → List (List Char)
  | [] => [[]]
  | c :: cs =>
      if separator c then [] :: pieces separator cs
      else
        match pieces separator cs with
        | piece :: rest => (c :: piece) :: rest
        | [] => [[c]]

/-! ## The scanner -/

/-- What a character becomes. -/
inductive Written where
  /-- In both texts. -/
  | kept (p : Placed)
  /-- In the cleaned text; a low line in the masked one. -/
  | hidden (p : Placed)
  /-- A space in its place, in both. -/
  | space
  /-- The end of a line comment. -/
  | newline

def Written.cleaned : Written → Char
  | kept p => p.char
  | hidden p => p.char
  | space => ' '
  | newline => '\n'

def Written.masked : Written → Char
  | kept p => p.char
  | hidden _ => '_'
  | space => ' '
  | newline => '\n'

/-- Whether what follows a sigil gives it a name, after any number of `::`. -/
def parameterNameFollows : List Placed → Bool
  | [] => false
  | p :: ps =>
      if isSqliteIdChar p.char then true
      else if p.char ≠ ':' then false
      else
        match ps with
        | q :: qs => if q.char = ':' then parameterNameFollows qs else false
        | [] => false

/-- The loop over a parameter's name; its characters are kept. -/
def scanName : List Placed → List Placed × List Placed
  | [] => ([], [])
  | n :: ps =>
      if isSqliteIdChar n.char then
        let (name, rest) := scanName ps
        (n :: name, rest)
      else if n.char = ':' then
        match ps with
        | m :: qs =>
            if m.char = ':' then
              let (name, rest) := scanName qs
              (n :: m :: name, rest)
            else ([], n :: m :: qs)
        | [] => ([], [n])
      else ([], n :: ps)

/-- The loop over a parameter's suffix. -/
def scanSuffix : List Placed → List Written × List Placed
  | [] => ([], [])
  | n :: ps =>
      if isSqliteSpace n.char then ([], n :: ps)
      else if n.char = ')' then ([.kept n], ps)
      else
        let (written, rest) := scanSuffix ps
        ((if n.char = '(' then .kept n else .hidden n) :: written, rest)

/-- The loop over a line comment. -/
def scanLine : List Placed → List Placed
  | [] => []
  | n :: ps => if n.char = '\n' then ps else scanLine ps

/-- The loop over a block comment. -/
def scanBlock (prev : Char) : List Placed → List Placed
  | [] => []
  | n :: ps => if prev = '*' ∧ n.char = '/' then ps else scanBlock n.char ps

/-- The loop over a quoted span. -/
def scanQuoted (close : Char) (doubledEscape : Bool) : List Placed → List Written × List Placed
  | [] => ([], [])
  | n :: ps =>
      if n.char = close then
        match ps with
        | m :: qs =>
            if doubledEscape ∧ m.char = close then
              let (written, rest) := scanQuoted close doubledEscape qs
              (.hidden n :: .hidden m :: written, rest)
            else ([.kept n], m :: qs)
        | [] => ([.kept n], [])
      else
        let (written, rest) := scanQuoted close doubledEscape ps
        (.hidden n :: written, rest)

def isSigil (c : Char) : Bool := c == '$' || c == ':' || c == '@' || c == '#'

def isQuote (c : Char) : Bool := c == '\'' || c == '"' || c == '`' || c == '['

/-- The closing mark of a quoted span. -/
def closeOf (c : Char) : Char := if c = '[' then ']' else c

theorem scanName_length (ps : List Placed) : (scanName ps).2.length ≤ ps.length := by
  fun_induction scanName ps with
  | case1 => exact Nat.le_refl _
  | case2 n ps hn name rest hname ih =>
      rw [hname] at ih
      exact Nat.le_succ_of_le ih
  | case3 n hn hcolon m qs hm name rest hname ih =>
      rw [hname] at ih
      exact Nat.le_succ_of_le (Nat.le_succ_of_le ih)
  | case4 => exact Nat.le_refl _
  | case5 => exact Nat.le_refl _
  | case6 => exact Nat.le_refl _

theorem scanSuffix_length (ps : List Placed) : (scanSuffix ps).2.length ≤ ps.length := by
  fun_induction scanSuffix ps with
  | case1 => exact Nat.le_refl _
  | case2 => exact Nat.le_refl _
  | case3 => exact Nat.le_succ _
  | case4 n ps hspace hclose written rest hsuffix ih =>
      rw [hsuffix] at ih
      exact Nat.le_succ_of_le ih

theorem scanLine_length (ps : List Placed) : (scanLine ps).length ≤ ps.length := by
  fun_induction scanLine ps with
  | case1 => exact Nat.le_refl _
  | case2 => exact Nat.le_succ _
  | case3 n ps hn ih => exact Nat.le_succ_of_le ih

theorem scanBlock_length (prev : Char) (ps : List Placed) :
    (scanBlock prev ps).length ≤ ps.length := by
  fun_induction scanBlock prev ps with
  | case1 => exact Nat.le_refl _
  | case2 => exact Nat.le_succ _
  | case3 prev n ps hn ih => exact Nat.le_succ_of_le ih

theorem scanQuoted_length (close : Char) (doubledEscape : Bool) (ps : List Placed) :
    (scanQuoted close doubledEscape ps).2.length ≤ ps.length := by
  fun_induction scanQuoted close doubledEscape ps with
  | case1 => exact Nat.le_refl _
  | case2 n hn m qs hm written rest hquoted ih =>
      rw [hquoted] at ih
      exact Nat.le_succ_of_le (Nat.le_succ_of_le ih)
  | case3 => exact Nat.le_succ _
  | case4 => exact Nat.le_succ _
  | case5 n ps hn written rest hquoted ih =>
      rw [hquoted] at ih
      exact Nat.le_succ_of_le ih

/-- The loop of `scan_sql`; `afterWord` says that the character before belongs to a bare name or
number. -/
def scan (afterWord : Bool) : List Placed → List Written
  | [] => []
  | c :: ps =>
      if c.char = '\ufeff' ∧ afterWord = false then .space :: scan false ps
      else if isSigil c.char ∧ ¬(c.char = '$' ∧ afterWord = true) ∧ parameterNameFollows ps then
        .kept c :: ((scanName ps).1.map .kept ++
          -- a Tcl-style suffix belongs to the parameter
          if next (scanName ps).2 '(' then
            (scanSuffix (scanName ps).2).1 ++ scan false (scanSuffix (scanName ps).2).2
          else scan false (scanName ps).2)
      else if c.char = '-' ∧ next ps '-' then
        .space :: .newline :: scan false (scanLine ps)
      else if c.char = '/' ∧ next ps '*' then
        .space :: scan false (scanBlock '\x00' ps.tail)
      else if isQuote c.char then
        .kept c :: ((scanQuoted (closeOf c.char) (c.char != '[') ps).1 ++
          scan false (scanQuoted (closeOf c.char) (c.char != '[') ps).2)
      else .kept c :: scan (isSqliteIdChar c.char) ps
termination_by ps => ps.length
decreasing_by
  · exact Nat.lt_succ_self _
  · exact Nat.lt_succ_of_le (Nat.le_trans (scanSuffix_length _) (scanName_length _))
  · exact Nat.lt_succ_of_le (scanName_length _)
  · exact Nat.lt_succ_of_le (scanLine_length _)
  · refine Nat.lt_succ_of_le (Nat.le_trans (scanBlock_length _ _) ?_)
    rw [List.length_tail]
    exact Nat.sub_le _ _
  · exact Nat.lt_succ_of_le (scanQuoted_length _ _ _)
  · exact Nat.lt_succ_self _

/-- The characters of a text with their places. -/
def place (sql : String) : List Placed := sql.toList.zipIdx.map fun c => ⟨c.1, c.2⟩

structure SqlScan where
  cleaned : List Char
  masked : List Char

def scanSql (sql : String) : SqlScan :=
  let written := scan false (place sql)
  { cleaned := written.map Written.cleaned, masked := written.map Written.masked }

/-! ## The checks of a query -/

def stripSqlComments (sql : String) : List Char := (scanSql sql).cleaned

/-- Number of non-empty statements. -/
def statementCount (sql : String) : Nat :=
  ((pieces (· == ';') (scanSql sql).masked).filter fun piece => !(trim piece).isEmpty).length

/-- `MAX_SQL_NESTING`. -/
def maxSqlNesting : Nat := 256

/-- `MAX_SQL_SELECTS`. -/
def maxSqlSelects : Nat := 2000

/-- `MAX_QUERY_SQL_BYTES`. -/
def maxQuerySqlBytes : Nat := 1000000

/-- Deepest parenthesis nesting, and the number of SELECTs. -/
def sqlNesting (sql : String) : Nat × Nat :=
  let masked := (scanSql sql).masked.map Char.toLower
  let depths := masked.foldl (fun (d : Nat × Nat) c =>
    if c = '(' then (d.1 + 1, max d.2 (d.1 + 1))
    else if c = ')' then (d.1 - 1, d.2)
    else d) (0, 0)
  let words := pieces (fun c => !isSqliteIdChar c) masked
  (depths.2, (words.filter (· == ['s', 'e', 'l', 'e', 'c', 't'])).length)

/-- Rust's Unicode tables: a text in lower case, where an ASCII character at the start is its own,
and the alphanumeric characters. -/
structure Unicode where
  toLowercase : List Char → List Char
  isAlphanumeric : Char → Bool
  toLowercase_nil : toLowercase [] = []
  toLowercase_head : ∀ c cs, c.toNat < 0x80 → (toLowercase (c :: cs)).head? = some c.toLower

section Checks

variable (unicode : Unicode)

def readOnlyPrefixes : List (List Char) :=
  ["select", "pragma", "explain", "with"].map String.toList

/-- The beginning of a statement, in lower case. -/
def statementStart (cs : List Char) : List Char := unicode.toLowercase (trimStart cs)

def isReadOnly (sql : String) : Bool :=
  let trimmed := statementStart unicode (stripSqlComments sql)
  if trimmed.isEmpty then false else readOnlyPrefixes.any fun start => start.isPrefixOf trimmed

def isPragmaWrite (sql : String) : Bool :=
  let trimmed := trimStart (scanSql sql).masked
  "pragma".toList.isPrefixOf (unicode.toLowercase trimmed) && trimmed.contains '='

/-- `SAFE_PRAGMAS`. -/
def safePragmas : List String :=
  ["table_info", "table_xinfo", "table_list", "index_list", "index_info", "index_xinfo",
    "foreign_key_list", "foreign_key_check", "collation_list", "database_list", "compile_options",
    "function_list", "module_list", "pragma_list", "journal_mode", "journal_size_limit",
    "page_count", "page_size", "max_page_count", "schema_version", "user_version",
    "application_id", "data_version", "freelist_count", "cache_size", "encoding", "auto_vacuum",
    "busy_timeout", "wal_autocheckpoint", "legacy_file_format", "locking_mode", "secure_delete",
    "synchronous", "temp_store", "mmap_size", "cache_spill", "cell_size_check",
    "integrity_check", "quick_check", "stats"]

def isNameChar (c : Char) : Bool := unicode.isAlphanumeric c || c == '_'

/-- What follows an optional `schema.` qualifier. -/
def afterSchema (rest : List Char) : List Char :=
  let schema := rest.takeWhile (· != '.')
  match rest.dropWhile (· != '.') with
  | _ :: tail =>
      if !schema.isEmpty && schema.all (isNameChar unicode) then tail else rest
  | [] => rest

/-- The name of a PRAGMA. -/
def pragmaName (sql : String) : Option (List Char) :=
  let lower := statementStart unicode (stripSqlComments sql)
  if "pragma".toList.isPrefixOf lower then
    let stripped := trimStart (lower.drop 6)
    let normalized := stripped.filter fun c => !(c == '"' || c == '`' || c == '[' || c == ']')
    let name := (trimStart (afterSchema unicode (trimStart normalized))).takeWhile
      (isNameChar unicode)
    if name.isEmpty then none else some name
  else none

def isDisallowedPragma (sql : String) : Bool :=
  if "pragma".toList.isPrefixOf (statementStart unicode (stripSqlComments sql)) then
    match pragmaName unicode sql with
    | some name => !(safePragmas.map String.toList).contains name
    | none => true
  else false

/-- The checks before any database is opened. -/
def validateQuery (sql : String) : Except String Unit :=
  if maxQuerySqlBytes < sql.utf8ByteSize then
    .error ("query exceeds maximum length (" ++ toString maxQuerySqlBytes ++ " bytes)")
  else if !isReadOnly unicode sql then
    .error "only SELECT, PRAGMA, EXPLAIN, and WITH queries are allowed (read-only access)"
  else if isPragmaWrite unicode sql then
    .error "PRAGMA writes (PRAGMA name = value) are not allowed (read-only access)"
  else if isDisallowedPragma unicode sql then
    .error ("only read-only introspection PRAGMAs are allowed (e.g. table_info, " ++
      "integrity_check, page_count); side-effecting PRAGMAs such as " ++
      "wal_checkpoint/optimize/incremental_vacuum are blocked")
  else if maxSqlNesting < (sqlNesting sql).1 then
    .error ("query nests " ++ toString (sqlNesting sql).1 ++ " levels deep (the limit is " ++
      toString maxSqlNesting ++ ")")
  else if maxSqlSelects < (sqlNesting sql).2 then
    .error ("query nests " ++ toString (sqlNesting sql).2 ++ " SELECTs (the limit is " ++
      toString maxSqlSelects ++ ")")
  else if 1 < statementCount sql then
    .error "stacked queries (multiple statements separated by ;) are not allowed"
  else .ok ()

end Checks

end Victauri.Plugin.Database
