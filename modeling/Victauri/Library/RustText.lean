import Mathlib.Data.List.Basic

/-!
# Rust text without surprises

A scanner for Rust text in which every quote opens an ordinary string: it refuses apostrophes, block
and doc comments, and literals with a prefix or a suffix.  What it accepts is code, string literals
and line comments just as it says.
-/

namespace RustText

/-! ## String literals -/

def hexDigit (c : Char) : Option Nat :=
  if '0' ≤ c ∧ c ≤ '9' then some (c.toNat - '0'.toNat)
  else if 'a' ≤ c ∧ c ≤ 'f' then some (c.toNat - 'a'.toNat + 10)
  else if 'A' ≤ c ∧ c ≤ 'F' then some (c.toNat - 'A'.toNat + 10)
  else none

/-- The number of a `\u` escape, behind its opening brace and so many digits. -/
def readDigits : (digits number : Nat) → List Char → Option (Nat × List Char)
  | _, _, [] => none
  | digits, number, c :: rest =>
      if c = '\x7d' then if digits = 0 then none else some (number, rest)
      else if c = '_' then if digits = 0 then none else readDigits digits number rest
      else
        match hexDigit c with
        | some d => if digits < 6 then readDigits (digits + 1) (number * 16 + d) rest else none
        | none => none

def isContinued (c : Char) : Bool := c = ' ' || c = '\t' || c = '\n' || c = '\r'

/-- What an escape stands for, behind its backslash. -/
def readEscape : List Char → Option (List Char × List Char)
  | 'n' :: rest => some (['\n'], rest)
  | 'r' :: rest => some (['\r'], rest)
  | 't' :: rest => some (['\t'], rest)
  | '0' :: rest => some (['\x00'], rest)
  | '\\' :: rest => some (['\\'], rest)
  | '"' :: rest => some (['"'], rest)
  | '\'' :: rest => some (['\''], rest)
  | '\n' :: rest => some ([], rest.dropWhile isContinued)
  | 'x' :: high :: low :: rest =>
      match hexDigit high, hexDigit low with
      | some h, some l => if h < 8 then some ([Char.ofNat (h * 16 + l)], rest) else none
      | _, _ => none
  | 'u' :: '\x7b' :: rest =>
      match readDigits 0 0 rest with
      | some (number, rest) =>
          if number.isValidChar then some ([Char.ofNat number], rest) else none
      | none => none
  | _ => none

theorem length_readDigits {digits number : Nat} {cs : List Char} {out : Nat × List Char}
    (h : readDigits digits number cs = some out) : out.2.length ≤ cs.length := by
  induction cs generalizing digits number with
  | nil => cases h
  | cons c rest ih =>
    rw [readDigits] at h
    by_cases hclose : c = '\x7d'
    · rw [if_pos hclose] at h
      split_ifs at h
      rw [← Option.some.inj h]
      exact Nat.le_succ _
    rw [if_neg hclose] at h
    by_cases hunderscore : c = '_'
    · rw [if_pos hunderscore] at h
      split_ifs at h
      exact Nat.le_succ_of_le (ih h)
    rw [if_neg hunderscore] at h
    cases hd : hexDigit c with
    | none =>
      rw [hd] at h
      cases h
    | some d =>
      rw [hd] at h
      dsimp only at h
      split_ifs at h
      exact Nat.le_succ_of_le (ih h)

theorem length_readEscape {cs : List Char} {out : List Char × List Char}
    (h : readEscape cs = some out) : out.2.length ≤ cs.length := by
  unfold readEscape at h
  split at h
  case h_8 rest =>
    rw [← Option.some.inj h]
    exact Nat.le_succ_of_le (List.dropWhile_sublist _).length_le
  case h_9 high low rest =>
    split at h
    · split_ifs at h
      rw [← Option.some.inj h]
      simp only [List.length_cons]
      omega
    · cases h
  case h_10 rest =>
    split at h
    · next number rest' hdigits =>
      split_ifs at h
      rw [← Option.some.inj h]
      exact Nat.le_succ_of_le (Nat.le_succ_of_le (length_readDigits hdigits))
    · cases h
  case h_11 => cases h
  all_goals
    rw [← Option.some.inj h]
    exact Nat.le_succ _

/-- The value of a string literal, behind its opening quote. -/
def readLiteral : List Char → Option (List Char × List Char)
  | [] => none
  | c :: rest =>
      if c = '"' then some ([], rest)
      else if c = '\\' then
        match _h : readEscape rest with
        | some (value, rest) => (readLiteral rest).map fun out => (value ++ out.1, out.2)
        | none => none
      else if c = '\r' then none
      else (readLiteral rest).map fun out => (c :: out.1, out.2)
termination_by cs => cs.length
decreasing_by
  · exact Nat.lt_succ_of_le (length_readEscape _h)
  · simp only [List.length_cons, Nat.lt_add_one]

theorem readLiteral_quote (rest : List Char) : readLiteral ('"' :: rest) = some ([], rest) := by
  rw [readLiteral, if_pos rfl]

theorem readLiteral_escape {cs value rest : List Char} (h : readEscape cs = some (value, rest)) :
    readLiteral ('\\' :: cs) = (readLiteral rest).map fun out => (value ++ out.1, out.2) := by
  rw [readLiteral, if_neg (by decide), if_pos rfl]
  split
  next value' rest' h' =>
    obtain ⟨rfl, rfl⟩ := Prod.mk.inj (Option.some.inj (h.symm.trans h'))
    rfl
  next hnone => cases h.symm.trans hnone

theorem readLiteral_plain {c : Char} (hquote : c ≠ '"') (hslash : c ≠ '\\') (hreturn : c ≠ '\r')
    (rest : List Char) :
    readLiteral (c :: rest) = (readLiteral rest).map fun out => (c :: out.1, out.2) := by
  rw [readLiteral, if_neg hquote, if_neg hslash, if_neg hreturn]

theorem length_readLiteral {cs : List Char} {out : List Char × List Char}
    (h : readLiteral cs = some out) : out.2.length < cs.length := by
  induction hn : cs.length using Nat.strongRecOn generalizing cs out with
  | ind n ih =>
    cases cs with
    | nil =>
      rw [readLiteral] at h
      cases h
    | cons c rest =>
      rw [List.length_cons] at hn
      rw [readLiteral] at h
      split_ifs at h with hquote hslash
      · rw [← Option.some.inj h]
        exact hn ▸ Nat.lt_succ_self _
      · split at h
        next value rest' hescape =>
          have hle := length_readEscape hescape
          dsimp only at hle
          obtain ⟨out', hout', rfl⟩ := Option.map_eq_some_iff.mp h
          have hlt := ih rest'.length (by omega) hout' rfl
          dsimp only
          omega
        next => cases h
      · obtain ⟨out', hout', rfl⟩ := Option.map_eq_some_iff.mp h
        have hlt := ih rest.length (by omega) hout' rfl
        dsimp only
        omega

/-! ## Scanning -/

/-- A character of code, a string literal with its value, or a line comment behind its `//`. -/
inductive Item where
  | code (c : Char)
  | literal (value : List Char)
  | comment (text : List Char)
  deriving DecidableEq

def isWordChar (c : Char) : Bool := c.isAlphanum || c = '_' || 0x80 ≤ c.toNat

/-- A quote behind this would belong to a literal with a prefix. -/
def isPrefix (c : Char) : Bool := isWordChar c || c = '#'

/-- A doc comment is no comment. -/
def isDoc (text : List Char) : Bool := text.head? = some '/' || text.head? = some '!'

/-- The items of a text, behind a character of code. -/
def scan (before : Option Char) (cs : List Char) : Option (List Item) :=
  match cs with
  | [] => some []
  | c :: rest =>
      if c = '"' then
        if before.any isPrefix then none
        else
          match _h : readLiteral rest with
          | some (value, rest) => (scan (some '"') rest).map (.literal value :: ·)
          | none => none
      else if c = '\'' then none
      else if c = '/' ∧ rest.head? = some '/' then
        let text := rest.tail.takeWhile (· ≠ '\n')
        if isDoc text then none
        else (scan none (rest.tail.dropWhile (· ≠ '\n'))).map (.comment text :: ·)
      else if c = '/' ∧ rest.head? = some '*' then none
      else if before = some '"' ∧ isWordChar c then none
      else (scan (some c) rest).map (.code c :: ·)
termination_by cs.length
decreasing_by
  · exact Nat.lt_succ_of_lt (length_readLiteral _h)
  · have htail : rest.tail.length ≤ rest.length := by
      rw [List.length_tail]
      exact Nat.sub_le _ _
    exact Nat.lt_succ_of_le (Nat.le_trans (List.dropWhile_sublist _).length_le htail)
  · exact Nat.lt_succ_self _

/-! ## Tokens -/

/-- A token outside comments: a word (an identifier, a keyword or a number), a character of
punctuation, or a string literal. -/
inductive Token where
  | word (chars : List Char)
  | punct (c : Char)
  | literal
  deriving DecidableEq

def isSpace (c : Char) : Bool :=
  c ∈ ['\t', '\n', '\x0b', '\x0c', '\r', ' ', '\u0085', '\u200e', '\u200f', '\u2028', '\u2029']

def endWord (word : List Char) : List Token := if word = [] then [] else [.word word]

/-- The tokens of items, in a word that has begun. -/
def tokensFrom (word : List Char) : List Item → List Token
  | [] => endWord word
  | .code c :: rest =>
      if isSpace c then endWord word ++ tokensFrom [] rest
      else if isWordChar c then tokensFrom (word ++ [c]) rest
      else endWord word ++ .punct c :: tokensFrom [] rest
  | .literal _ :: rest => endWord word ++ .literal :: tokensFrom [] rest
  | .comment _ :: rest => endWord word ++ tokensFrom [] rest

/-- The tokens outside comments, without what the literals say. -/
def tokens (items : List Item) : List Token := tokensFrom [] items

/-- The values of the string literals. -/
def literals (items : List Item) : List (List Char) :=
  items.filterMap fun item => match item with
    | .literal value => some value
    | _ => none

def comments (items : List Item) : List (List Char) :=
  items.filterMap fun item => match item with
    | .comment text => some text
    | _ => none

/-! ## Writing -/

/-- The text of an item, with `write` for the inside of literals. -/
def Item.text (write : List Char → List Char) : Item → List Char
  | .code c => [c]
  | .literal value => '"' :: (write value ++ ['"'])
  | .comment text => '/' :: '/' :: text

def textOf (write : List Char → List Char) (items : List Item) : List Char :=
  items.flatMap (Item.text write)

/-- Nothing, or the end of the line. -/
def endsLine : List Item → Bool
  | [] => true
  | .code c :: _ => c == '\n'
  | _ => false

/-- Items that are read back from their text, but for what comments say. -/
def placed (before : Option Char) : List Item → Bool
  | [] => true
  | .code c :: rest =>
      c != '"' && c != '\'' && c != '/' && !(isWordChar c && before == some '"') &&
        placed (some c) rest
  | .literal _ :: rest => !before.any isPrefix && placed (some '"') rest
  | .comment _ :: rest => endsLine rest && placed none rest

/-- A comment that ends with its line. -/
def IsLine (text : List Char) : Prop := '\n' ∉ text ∧ isDoc text = false

/-- What the scanner reads back. -/
def Writes (write : List Char → List Char) : Prop :=
  ∀ value rest, readLiteral (write value ++ '"' :: rest) = some (value, rest)

theorem textOf_cons (write : List Char → List Char) (item : Item) (items : List Item) :
    textOf write (item :: items) = item.text write ++ textOf write items :=
  List.flatMap_cons

theorem textOf_append (write : List Char → List Char) (items items' : List Item) :
    textOf write (items ++ items') = textOf write items ++ textOf write items' :=
  List.flatMap_append

theorem textOf_code (write : List Char → List Char) (text : List Char) :
    textOf write (text.map .code) = text := by
  induction text with
  | nil => rfl
  | cons c text ih =>
    rw [List.map_cons, textOf_cons, ih]
    rfl

theorem scan_literal {write : List Char → List Char} (hwrite : Writes write)
    {before : Option Char} (hbefore : before.any isPrefix = false) (value rest : List Char) :
    scan before ('"' :: (write value ++ '"' :: rest)) =
      (scan (some '"') rest).map (.literal value :: ·) := by
  rw [scan, if_pos rfl, if_neg (by rw [hbefore]; decide)]
  split
  next value' rest' h =>
    obtain ⟨rfl, rfl⟩ := Prod.mk.inj (Option.some.inj ((hwrite value rest).symm.trans h))
    rfl
  next hnone => cases (hwrite value rest).symm.trans hnone

theorem scan_comment {text : List Char} (htext : IsLine text) (before : Option Char)
    {rest : List Char} (hrest : ∀ c, rest.head? = some c → c = '\n') :
    scan before ('/' :: '/' :: (text ++ rest)) = (scan none rest).map (.comment text :: ·) := by
  have hline : ∀ c ∈ text, decide (c ≠ '\n') = true := by
    intro c hc
    rw [decide_eq_true_eq]
    rintro rfl
    exact htext.1 hc
  have htake : (text ++ rest).takeWhile (· ≠ '\n') = text := by
    rw [List.takeWhile_append_of_pos hline]
    cases rest with
    | nil => exact List.append_nil text
    | cons c rest =>
      rw [hrest c rfl, List.takeWhile_cons_of_neg (by decide), List.append_nil]
  have hdrop : (text ++ rest).dropWhile (· ≠ '\n') = rest := by
    rw [List.dropWhile_append_of_pos hline]
    cases rest with
    | nil => rfl
    | cons c rest => rw [hrest c rfl, List.dropWhile_cons_of_neg (by decide)]
  rw [scan, if_neg (by decide), if_neg (by decide), if_pos ⟨rfl, rfl⟩]
  dsimp only
  rw [List.tail_cons, htake, hdrop, if_neg (by rw [htext.2]; decide)]

theorem scan_code {before : Option Char} {c : Char} (hquote : c ≠ '"') (happ : c ≠ '\'')
    (hslash : c ≠ '/') (hsuffix : ¬ (before = some '"' ∧ isWordChar c = true))
    (rest : List Char) : scan before (c :: rest) = (scan (some c) rest).map (.code c :: ·) := by
  rw [scan, if_neg hquote, if_neg happ, if_neg fun h => hslash h.1, if_neg fun h => hslash h.1,
    if_neg hsuffix]

/-- The scanner reads the items back. -/
theorem scan_textOf {write : List Char → List Char} (hwrite : Writes write)
    {before : Option Char} {items : List Item} (hplaced : placed before items = true)
    (hlines : ∀ text ∈ comments items, IsLine text) :
    scan before (textOf write items) = some items := by
  induction items generalizing before with
  | nil =>
    rw [show textOf write [] = [] from rfl, scan]
  | cons item items ih =>
    rw [textOf_cons]
    cases item with
    | code c =>
      simp only [placed, Bool.and_eq_true, bne_iff_ne, Bool.not_eq_true', Bool.and_eq_false_iff,
        beq_eq_false_iff_ne] at hplaced
      obtain ⟨⟨⟨⟨hquote, happ⟩, hslash⟩, hsuffix⟩, hrest⟩ := hplaced
      have hnot : ¬ (before = some '"' ∧ isWordChar c = true) := by
        rintro ⟨hbefore, hword⟩
        rcases hsuffix with h | h
        · rw [hword] at h
          cases h
        · exact h hbefore
      rw [Item.text, List.singleton_append, scan_code hquote happ hslash hnot, ih hrest hlines]
      rfl
    | literal value =>
      simp only [placed, Bool.and_eq_true, Bool.not_eq_true'] at hplaced
      obtain ⟨hbefore, hrest⟩ := hplaced
      rw [Item.text, List.cons_append, List.append_assoc, List.singleton_append,
        scan_literal hwrite hbefore, ih hrest hlines]
      rfl
    | comment text =>
      simp only [placed, Bool.and_eq_true] at hplaced
      obtain ⟨hnext, hrest⟩ := hplaced
      have htext : IsLine text := hlines text List.mem_cons_self
      have hhead : ∀ c, (textOf write items).head? = some c → c = '\n' := by
        intro c hc
        cases items with
        | nil => cases hc
        | cons item items =>
          cases item with
          | code d =>
            have hd : d = c := Option.some.inj hc
            rw [← hd]
            exact beq_iff_eq.mp hnext
          | literal value => cases hnext
          | comment text => cases hnext
      rw [Item.text, List.cons_append, List.cons_append, scan_comment htext before hhead,
        ih hrest fun text' h => hlines text' (List.mem_cons_of_mem _ h)]
      rfl

/-! ## Items without what they say -/

def Item.erase : Item → Item
  | .code c => .code c
  | .literal _ => .literal []
  | .comment _ => .comment []

theorem tokensFrom_erase (word : List Char) (items : List Item) :
    tokensFrom word (items.map Item.erase) = tokensFrom word items := by
  induction items generalizing word with
  | nil => rfl
  | cons item items ih =>
    cases item with
    | code c =>
      rw [List.map_cons, Item.erase, tokensFrom, tokensFrom, ih, ih]
    | literal value =>
      rw [List.map_cons, Item.erase, tokensFrom, tokensFrom, ih]
    | comment text =>
      rw [List.map_cons, Item.erase, tokensFrom, tokensFrom, ih]

/-- No token goes on over the end of a line. -/
theorem tokensFrom_line (word : List Char) (line items : List Item) :
    tokensFrom word (line ++ .code '\n' :: items) =
      tokensFrom word (line ++ [.code '\n']) ++ tokens items := by
  have hspace : isSpace '\n' = true := by decide
  induction line generalizing word with
  | nil =>
    rw [List.nil_append, List.nil_append, tokensFrom, tokensFrom, if_pos hspace, if_pos hspace,
      show tokensFrom [] [] = [] from rfl, List.append_nil]
    rfl
  | cons item line ih =>
    cases item with
    | code c =>
      rw [List.cons_append, List.cons_append, tokensFrom, tokensFrom]
      split_ifs
      · rw [ih, List.append_assoc]
      · exact ih _
      · rw [ih, List.append_assoc, List.cons_append]
    | literal value =>
      rw [List.cons_append, List.cons_append, tokensFrom, tokensFrom, ih, List.append_assoc,
        List.cons_append]
    | comment text =>
      rw [List.cons_append, List.cons_append, tokensFrom, tokensFrom, ih, List.append_assoc]

theorem placed_line {before : Option Char} {line items : List Item}
    (hline : placed before (line ++ [.code '\n']) = true)
    (hitems : placed (some '\n') items = true) :
    placed before (line ++ .code '\n' :: items) = true := by
  induction line generalizing before with
  | nil =>
    simp only [List.nil_append, placed, Bool.and_eq_true] at hline ⊢
    exact ⟨hline.1, hitems⟩
  | cons item line ih =>
    cases item with
    | code c =>
      simp only [List.cons_append, placed, Bool.and_eq_true] at hline ⊢
      exact ⟨hline.1, ih hline.2⟩
    | literal value =>
      simp only [List.cons_append, placed, Bool.and_eq_true] at hline ⊢
      exact ⟨hline.1, ih hline.2⟩
    | comment text =>
      cases line with
      | nil =>
        simp only [List.cons_append, List.nil_append, placed, Bool.and_eq_true] at hline ⊢
        exact ⟨rfl, hline.2.1, hitems⟩
      | cons item line =>
        rw [List.cons_append, placed, Bool.and_eq_true] at hline ⊢
        refine ⟨?_, ih hline.2⟩
        cases item with
        | code c => exact hline.1
        | literal value => exact hline.1
        | comment text => exact hline.1

/-! ## Whole lines -/

def EndsLine (items : List Item) : Prop := items = [] ∨ items.getLast? = some (.code '\n')

theorem EndsLine.append {items items' : List Item} (h : EndsLine items) (h' : EndsLine items') :
    EndsLine (items ++ items') := by
  rcases h' with rfl | h'
  · rw [List.append_nil]
    exact h
  · right
    rw [List.getLast?_append, h']
    rfl

theorem tokens_append {items : List Item} (h : EndsLine items) (items' : List Item) :
    tokens (items ++ items') = tokens items ++ tokens items' := by
  rcases h with rfl | h
  · rfl
  · obtain ⟨line, rfl⟩ := List.getLast?_eq_some_iff.mp h
    rw [List.append_assoc]
    exact tokensFrom_line [] line items'

/-- Items of whole lines, at the begin of a line, whose text is `text`. -/
structure Lines (write : List Char → List Char) (text : List Char) (items : List Item) : Prop where
  text_eq : textOf write items = text
  placed : placed (some '\n') items = true
  ends : EndsLine items
  isLine : ∀ comment ∈ comments items, IsLine comment

theorem Lines.nil (write : List Char → List Char) : Lines write [] [] where
  text_eq := rfl
  placed := rfl
  ends := Or.inl rfl
  isLine := fun _ h => absurd h List.not_mem_nil

theorem comments_append (items items' : List Item) :
    comments (items ++ items') = comments items ++ comments items' := List.filterMap_append

theorem literals_append (items items' : List Item) :
    literals (items ++ items') = literals items ++ literals items' := List.filterMap_append

theorem comments_code (text : List Char) : comments (text.map .code) = [] := by
  rw [comments, List.filterMap_map]
  exact List.filterMap_eq_nil_iff.mpr fun _ _ => rfl

theorem literals_code (text : List Char) : literals (text.map .code) = [] := by
  rw [literals, List.filterMap_map]
  exact List.filterMap_eq_nil_iff.mpr fun _ _ => rfl

theorem comments_literal (value : List Char) (items : List Item) :
    comments (.literal value :: items) = comments items := rfl

theorem literals_literal (value : List Char) (items : List Item) :
    literals (.literal value :: items) = value :: literals items := rfl

theorem comments_comment (text : List Char) (items : List Item) :
    comments (.comment text :: items) = text :: comments items := rfl

theorem literals_comment (text : List Char) (items : List Item) :
    literals (.comment text :: items) = literals items := rfl

theorem Lines.append {write : List Char → List Char} {text text' : List Char}
    {items items' : List Item} (h : Lines write text items) (h' : Lines write text' items') :
    Lines write (text ++ text') (items ++ items') where
  text_eq := by rw [textOf_append, h.text_eq, h'.text_eq]
  placed := by
    rcases h.ends with rfl | hends
    · exact h'.placed
    · obtain ⟨line, rfl⟩ := List.getLast?_eq_some_iff.mp hends
      rw [List.append_assoc]
      exact placed_line h.placed h'.placed
  ends := h.ends.append h'.ends
  isLine := by
    intro comment hcomment
    rw [comments_append, List.mem_append] at hcomment
    rcases hcomment with hcomment | hcomment
    · exact h.isLine comment hcomment
    · exact h'.isLine comment hcomment

theorem placed_none {items : List Item} (h : placed (some '\n') items = true) :
    placed none items = true := by
  cases items with
  | nil => rfl
  | cons item items =>
    cases item with
    | code c =>
      simp only [placed, Bool.and_eq_true, Bool.not_eq_true', Bool.and_eq_false_iff] at h ⊢
      exact ⟨⟨h.1.1, Or.inr rfl⟩, h.2⟩
    | literal value => exact h
    | comment text => exact h

theorem Lines.scan {write : List Char → List Char} (hwrite : Writes write) {text : List Char}
    {items : List Item} (h : Lines write text items) : scan none text = some items := by
  rw [← h.text_eq]
  exact scan_textOf hwrite (placed_none h.placed) h.isLine

end RustText
