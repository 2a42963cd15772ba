import Victauri.Core.Codegen

/-!
# The name of the generated test

Whatever text the test is to be called, what is written behind `fn` can stand there.
-/

namespace Victauri.Core.Codegen

def isIdentifierStart (c : Char) : Bool := c.isAlpha || c = '_'

def isIdentifierPart (c : Char) : Bool := c.isAlphanum || c = '_'

/-- The strict and the reserved keywords of Rust, which no function can be called. -/
def keywords : List String :=
  ["as", "async", "await", "break", "const", "continue", "crate", "dyn", "else", "enum", "extern",
    "false", "fn", "for", "if", "impl", "in", "let", "loop", "match", "mod", "move", "mut", "pub",
    "ref", "return", "self", "Self", "static", "struct", "super", "trait", "true", "type",
    "unsafe", "use", "where", "while",
    "abstract", "become", "box", "do", "final", "gen", "macro", "override", "priv", "try",
    "typeof", "unsized", "virtual", "yield"]

/-- An identifier of ASCII characters that a function can be called. -/
structure IsFunctionName (name : List Char) : Prop where
  start : ∃ c rest, name = c :: rest ∧ isIdentifierStart c = true
  part : ∀ c ∈ name, isIdentifierPart c = true
  not_underscore : name ≠ ['_']
  not_keyword : name ∉ keywords.map String.toList

theorem isIdentifierPart_of_start {c : Char} (h : isIdentifierStart c = true) :
    isIdentifierPart c = true := by
  rw [isIdentifierStart, Bool.or_eq_true] at h
  rw [isIdentifierPart, Bool.or_eq_true, Char.isAlphanum]
  exact h.imp_left fun halpha => by rw [halpha, Bool.true_or]

/-! ## The replaced characters -/

/-- What is written for a character behind the first. -/
theorem identifierChars_succ (index : Nat) (c : Char) (rest : List Char) :
    identifierChars (index + 1) (c :: rest) =
      (if isIdentifierPart c then c else '_') :: identifierChars (index + 2) rest := by
  rw [identifierChars]
  by_cases hpart : isIdentifierPart c = true
  · rw [if_pos hpart]
    simp only [isIdentifierPart] at hpart
    simp [hpart]
  · rw [if_neg hpart]
    simp only [isIdentifierPart] at hpart
    simp [hpart]

theorem identifierChars_part (s : List Char) (index : Nat) :
    ∀ c ∈ identifierChars (index + 1) s, isIdentifierPart c = true := by
  induction s generalizing index with
  | nil => exact List.forall_mem_nil _
  | cons first rest ih =>
    rw [identifierChars_succ, List.forall_mem_cons]
    refine ⟨?_, ih (index + 1)⟩
    split_ifs with hpart
    · exact hpart
    · rfl

/-- What is written for the first character begins like an identifier, also for a digit. -/
theorem identifierChars_zero (first : Char) (rest : List Char) :
    ∃ c more, identifierChars 0 (first :: rest) = c :: more ∧ isIdentifierStart c = true ∧
      ∀ d ∈ more, isIdentifierPart d = true := by
  have hrest := identifierChars_part rest 0
  rw [identifierChars]
  by_cases hstart : isIdentifierStart first = true
  · refine ⟨first, identifierChars 1 rest, ?_, hstart, hrest⟩
    simp only [isIdentifierStart] at hstart
    simp [hstart]
  · simp only [isIdentifierStart] at hstart
    by_cases hdigit : first.isDigit = true
    · refine ⟨'_', '_' :: identifierChars 1 rest, by simp [hstart, hdigit], rfl, ?_⟩
      exact List.forall_mem_cons.mpr ⟨rfl, hrest⟩
    · exact ⟨'_', identifierChars 1 rest, by simp [hstart, hdigit], rfl, hrest⟩

/-! ## The name -/

theorem mem_rustKeywords {word : String} (h : word ∈ keywords) : word ∈ rustKeywords := by
  revert word
  decide

/-- No keyword begins like the prefix that keywords get. -/
theorem recorded_not_keyword (name : List Char) :
    "recorded_".toList ++ name ∉ keywords.map String.toList := by
  have hprefix : ∀ word ∈ keywords, ¬ "recorded_".toList <+: word.toList := by decide
  rw [List.mem_map]
  rintro ⟨word, hword, hname⟩
  exact hprefix word hword ⟨name, hname.symm⟩

theorem sanitizeRustIdentifier_isFunctionName (s : List Char) :
    IsFunctionName (sanitizeRustIdentifier s) := by
  have hflow : IsFunctionName "recorded_flow".toList := by
    refine ⟨⟨'r', "ecorded_flow".toList, rfl, rfl⟩, ?_, by decide, recorded_not_keyword _⟩
    exact List.all_eq_true.mp (by decide)
  rw [sanitizeRustIdentifier]
  cases s with
  | nil => exact hflow
  | cons first rest =>
    obtain ⟨c, more, hwritten, hstart, hmore⟩ := identifierChars_zero first rest
    rw [hwritten]
    have hpart : ∀ d ∈ c :: more, isIdentifierPart d = true :=
      List.forall_mem_cons.mpr ⟨isIdentifierPart_of_start hstart, hmore⟩
    by_cases halone : c :: more = [] ∨ c :: more = ['_']
    · rw [if_pos halone]
      exact hflow
    rw [if_neg halone]
    by_cases hkeyword : c :: more ∈ rustKeywords.map String.toList
    · rw [if_pos hkeyword]
      refine ⟨⟨'r', "ecorded_".toList ++ c :: more, rfl, rfl⟩, ?_, ?_, recorded_not_keyword _⟩
      · refine List.forall_mem_append.mpr ⟨?_, hpart⟩
        exact List.all_eq_true.mp (by decide)
      · exact fun h => absurd (congrArg List.length h) (by simp)
    · rw [if_neg hkeyword]
      refine ⟨⟨c, more, rfl, hstart⟩, hpart, fun h => halone (.inr h), fun hmem => hkeyword ?_⟩
      obtain ⟨word, hword, hname⟩ := List.mem_map.mp hmem
      exact List.mem_map.mpr ⟨word, mem_rustKeywords hword, hname⟩

end Victauri.Core.Codegen
