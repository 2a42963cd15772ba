import Mathlib.Data.List.TakeWhile
import Victauri.Plugin.Database.ScanSql
import Victauri.Test.Discovery

/-!
# Untrusted text for a terminal

`terminal.rs` of `victauri-test`: what a text becomes before it is printed on one line, or as a block
of lines none of which a CI runner takes for a command.
-/

namespace Victauri.Test.Terminal

open Victauri.Plugin.Database (isWhitespace trimStart)
open Victauri.Test.Discovery

-- A quantifier over the characters of a text is decided along the text.
attribute [local instance (1100)] List.decidableBAll

/-! ## The texts -/

/-- `push_escaped`. -/
def escaped (c : Char) : List Char := ['\\', 'u', '\x7b'] ++ Nat.toDigits 16 c.toNat ++ ['\x7d']

/-- `text.replace("\r\n", "\n")`. -/
def replaceCrLf : List Char → List Char
  | '\r' :: '\n' :: text => '\n' :: replaceCrLf text
  | c :: text => c :: replaceCrLf text
  | [] => []

/-- How `multi_line` writes a character. -/
def blockChar (c : Char) : List Char :=
  if c = '\n' ∨ c = '\t' then [c]
  else if c = '\r' then ['\\', 'r']
  else if isControl c || isBidiControl c then escaped c
  else [c]

def multiLine (text : List Char) : List Char := (replaceCrLf text).flatMap blockChar

/-- The line is taken for a command behind its indentation. -/
def isCommand (line : List Char) : Bool :=
  [':', ':'].isPrefixOf (trimStart line) || ['#', '#', '['].isPrefixOf (trimStart line)

/-- A line with the first character of its command escaped. -/
def defuse (line : List Char) : List Char :=
  if isCommand line then
    let body := trimStart line
    line.take (line.length - body.length) ++ escaped (body.headD ':') ++ body.tail
  else line

def untrustedMultiLine (text : List Char) : List Char :=
  ['\n'].intercalate (((multiLine text).splitOn '\n').map defuse)

/-! ## Escapes -/

/-- Neither a control character nor one that turns the direction. -/
def IsNeutral (c : Char) : Prop := isControl c = false ∧ isBidiControl c = false

theorem isNeutral_of_ascii {c : Char} (hlow : 0x20 ≤ c.toNat) (hhigh : c.toNat < 0x7f) :
    IsNeutral c := by
  constructor
  · simp only [isControl, Bool.or_eq_false_iff, Bool.and_eq_false_iff, decide_eq_false_iff_not]
    omega
  · simp only [isBidiControl, Bool.or_eq_false_iff, Bool.and_eq_false_iff,
      decide_eq_false_iff_not]
    omega

theorem mem_toDigits {n : Nat} {c : Char} (h : c ∈ Nat.toDigits 16 n) :
    ∃ d < 16, c = Nat.digitChar d := by
  induction n using Nat.strongRecOn with
  | ind n ih =>
    rw [Nat.toDigits_eq_if (by decide)] at h
    split_ifs at h with hsmall
    · exact ⟨n, hsmall, List.mem_singleton.mp h⟩
    · rcases List.mem_append.mp h with hmem | hmem
      · exact ih (n / 16) (by omega) hmem
      · exact ⟨n % 16, Nat.mod_lt n (by decide), List.mem_singleton.mp hmem⟩

/-- The characters of an escape are visible ones of ASCII. -/
theorem mem_escaped {c d : Char} (h : d ∈ escaped c) : 0x20 ≤ d.toNat ∧ d.toNat < 0x7f := by
  rw [escaped, List.mem_append, List.mem_append] at h
  rcases h with (hmem | hmem) | hmem
  · revert d
    decide
  · obtain ⟨digit, hdigit, rfl⟩ := mem_toDigits hmem
    clear hmem
    revert digit
    decide
  · obtain rfl := List.mem_singleton.mp hmem
    decide

/-! ## One line -/

theorem isNeutral_escapeChar {c d : Char} (h : d ∈ escapeChar c) : IsNeutral d := by
  rw [escapeChar] at h
  split_ifs at h with hlf hcr htab hescape
  · rcases List.mem_pair.mp h with rfl | rfl
    · exact isNeutral_of_ascii (by decide) (by decide)
    · exact isNeutral_of_ascii (by decide) (by decide)
  · rcases List.mem_pair.mp h with rfl | rfl
    · exact isNeutral_of_ascii (by decide) (by decide)
    · exact isNeutral_of_ascii (by decide) (by decide)
  · rcases List.mem_pair.mp h with rfl | rfl
    · exact isNeutral_of_ascii (by decide) (by decide)
    · exact isNeutral_of_ascii (by decide) (by decide)
  · obtain ⟨hlow, hhigh⟩ := mem_escaped h
    exact isNeutral_of_ascii hlow hhigh
  · obtain rfl := List.mem_singleton.mp h
    rw [Bool.or_eq_true, not_or, Bool.not_eq_true, Bool.not_eq_true] at hescape
    exact hescape

theorem escapeChar_of_neutral {c : Char} (h : IsNeutral c) : escapeChar c = [c] := by
  have hne {d : Char} (hd : isControl d = true) : c ≠ d := by
    rintro rfl
    rw [h.1] at hd
    cases hd
  rw [escapeChar, if_neg (hne (by decide)), if_neg (hne (by decide)), if_neg (hne (by decide)),
    h.1, h.2]
  rfl

theorem flatMap_of_forall {f : Char → List Char} {text : List Char} (h : ∀ c ∈ text, f c = [c]) :
    text.flatMap f = text := by
  induction text with
  | nil => rfl
  | cons c text ih =>
    obtain ⟨hc, htext⟩ := List.forall_mem_cons.mp h
    rw [List.flatMap_cons, hc, ih htext]
    rfl

/-- What `single_line` is for. -/
structure SafeLine (text : String) : Prop where
  neutral : ∀ c ∈ (singleLine text).toList, IsNeutral c
  unbroken : '\n' ∉ (singleLine text).toList ∧ '\r' ∉ (singleLine text).toList
  unchanged : (∀ c ∈ text.toList, IsNeutral c) → singleLine text = text

theorem singleLine_safe (text : String) : SafeLine text := by
  have hneutral : ∀ c ∈ (singleLine text).toList, IsNeutral c := by
    intro c hc
    rw [singleLine, String.toList_ofList] at hc
    obtain ⟨d, -, hcd⟩ := List.mem_flatMap.mp hc
    exact isNeutral_escapeChar hcd
  refine ⟨hneutral, ⟨?_, ?_⟩, ?_⟩
  · intro hmem
    exact absurd (hneutral _ hmem).1 (by decide)
  · intro hmem
    exact absurd (hneutral _ hmem).1 (by decide)
  · intro htext
    rw [singleLine, flatMap_of_forall fun c hc => escapeChar_of_neutral (htext c hc),
      String.ofList_toList]

/-! ## A block of lines -/

/-- A character that a block may have. -/
def IsBlockNeutral (c : Char) : Prop :=
  (isControl c = true → c = '\n' ∨ c = '\t') ∧ isBidiControl c = false

theorem IsNeutral.block {c : Char} (h : IsNeutral c) : IsBlockNeutral c := by
  refine ⟨fun hcontrol => ?_, h.2⟩
  rw [h.1] at hcontrol
  cases hcontrol

theorem isBlockNeutral_escaped {c d : Char} (h : d ∈ escaped c) : IsBlockNeutral d :=
  (isNeutral_of_ascii (mem_escaped h).1 (mem_escaped h).2).block

theorem isBlockNeutral_blockChar {c d : Char} (h : d ∈ blockChar c) : IsBlockNeutral d := by
  rw [blockChar] at h
  split_ifs at h with hbreak hcr hescape
  · obtain rfl := List.mem_singleton.mp h
    refine ⟨fun _ => hbreak, ?_⟩
    rcases hbreak with rfl | rfl
    · decide
    · decide
  · rcases List.mem_pair.mp h with rfl | rfl
    · exact (isNeutral_of_ascii (by decide) (by decide)).block
    · exact (isNeutral_of_ascii (by decide) (by decide)).block
  · exact isBlockNeutral_escaped h
  · obtain rfl := List.mem_singleton.mp h
    rw [Bool.or_eq_true, not_or, Bool.not_eq_true, Bool.not_eq_true] at hescape
    exact IsNeutral.block hescape

theorem blockChar_of_neutral {c : Char} (h : IsBlockNeutral c) : blockChar c = [c] := by
  rw [blockChar]
  split_ifs with hbreak hcr hescape
  · rfl
  · subst hcr
    exact absurd (h.1 (by decide)) (by decide)
  · rw [h.2, Bool.or_false] at hescape
    exact absurd (h.1 hescape) hbreak
  · rfl

theorem replaceCrLf_of_not_mem {text : List Char} (h : '\r' ∉ text) : replaceCrLf text = text := by
  induction text with
  | nil => rfl
  | cons c text ih =>
    rw [List.mem_cons, not_or] at h
    rw [replaceCrLf, ih h.2]
    rintro rest rfl
    exact absurd rfl h.1

/-- A line of a text has no line feed, and only characters of the text. -/
theorem mem_splitOn {text line : List Char} (h : line ∈ text.splitOn '\n') :
    '\n' ∉ line ∧ ∀ c ∈ line, c ∈ text := by
  induction text generalizing line with
  | nil =>
    obtain rfl := List.mem_singleton.mp h
    exact ⟨List.not_mem_nil, fun _ hc => absurd hc List.not_mem_nil⟩
  | cons d text ih =>
    rw [List.splitOn_cons_eq_if_modifyHead] at h
    split_ifs at h with hbreak
    · rcases List.mem_cons.mp h with rfl | hrest
      · exact ⟨List.not_mem_nil, fun _ hc => absurd hc List.not_mem_nil⟩
      · obtain ⟨hline, hchars⟩ := ih hrest
        exact ⟨hline, fun c hc => List.mem_cons_of_mem _ (hchars c hc)⟩
    · obtain ⟨first, rest, hlines⟩ := List.exists_cons_of_ne_nil (List.splitOn_ne_nil '\n' text)
      rw [hlines, List.modifyHead_cons] at h
      rw [hlines] at ih
      rcases List.mem_cons.mp h with rfl | hrest
      · obtain ⟨hline, hchars⟩ := ih List.mem_cons_self
        refine ⟨?_, ?_⟩
        · rw [List.mem_cons, not_or]
          refine ⟨?_, hline⟩
          rintro rfl
          exact hbreak (beq_self_eq_true _)
        · intro c hc
          rcases List.mem_cons.mp hc with rfl | hc
          · exact List.mem_cons_self
          · exact List.mem_cons_of_mem _ (hchars c hc)
      · obtain ⟨hline, hchars⟩ := ih (List.mem_cons_of_mem _ hrest)
        exact ⟨hline, fun c hc => List.mem_cons_of_mem _ (hchars c hc)⟩

theorem mem_intercalate {lines : List (List Char)} {c : Char}
    (h : c ∈ ['\n'].intercalate lines) : c = '\n' ∨ ∃ line ∈ lines, c ∈ line := by
  induction lines with
  | nil => cases h
  | cons line lines ih =>
    by_cases hlast : lines = []
    · subst hlast
      rw [List.intercalate_singleton] at h
      exact .inr ⟨line, List.mem_cons_self, h⟩
    · rw [List.intercalate_cons_of_ne_nil hlast, List.mem_append, List.mem_append] at h
      rcases h with (hline | hbreak) | hrest
      · exact .inr ⟨line, List.mem_cons_self, hline⟩
      · exact .inl (List.mem_singleton.mp hbreak)
      · obtain hbreak | ⟨other, hother, hmem⟩ := ih hrest
        · exact .inl hbreak
        · exact .inr ⟨other, List.mem_cons_of_mem _ hother, hmem⟩

/-- The indentation is what `trim_start` takes away. -/
theorem take_trimStart (line : List Char) :
    line.take (line.length - (trimStart line).length) = line.takeWhile isWhitespace := by
  have hsplit : line.takeWhile isWhitespace ++ trimStart line = line :=
    List.takeWhile_append_dropWhile
  have hlength := congrArg List.length hsplit
  rw [List.length_append] at hlength
  rw [← hlength, Nat.add_sub_cancel]
  calc line.take (line.takeWhile isWhitespace).length
      = (line.takeWhile isWhitespace ++ trimStart line).take
          (line.takeWhile isWhitespace).length := by rw [hsplit]
    _ = line.takeWhile isWhitespace := List.take_left' rfl

theorem isWhitespace_takeWhile (line : List Char) :
    ∀ c ∈ line.takeWhile isWhitespace, isWhitespace c = true :=
  fun _ hc => List.mem_takeWhile_imp hc

/-- A defused line is its indentation, a backslash and more, or the line itself. -/
theorem defuse_cases (line : List Char) :
    isCommand line = true ∧ defuse line = line.takeWhile isWhitespace ++
        (escaped ((trimStart line).headD ':') ++ (trimStart line).tail) ∨
      isCommand line = false ∧ defuse line = line := by
  rw [defuse]
  split_ifs with hcommand
  · left
    refine ⟨hcommand, ?_⟩
    dsimp only
    rw [take_trimStart, List.append_assoc]
  · exact .inr ⟨Bool.not_eq_true _ ▸ hcommand, rfl⟩

theorem isCommand_defuse (line : List Char) : isCommand (defuse line) = false := by
  obtain ⟨-, hline⟩ | ⟨hcommand, hline⟩ := defuse_cases line
  · rw [hline, isCommand, trimStart, List.dropWhile_append_of_pos (isWhitespace_takeWhile line)]
    rfl
  · rw [hline]
    exact hcommand

/-- Defusing brings in visible characters of ASCII only. -/
theorem mem_defuse {line : List Char} {c : Char} (h : c ∈ defuse line) :
    c ∈ line ∨ 0x20 ≤ c.toNat ∧ c.toNat < 0x7f := by
  obtain ⟨-, hline⟩ | ⟨-, hline⟩ := defuse_cases line
  · rw [hline, List.mem_append, List.mem_append] at h
    rcases h with hindent | hescape | hbody
    · exact .inl ((List.takeWhile_sublist _).mem hindent)
    · exact .inr (mem_escaped hescape)
    · exact .inl ((List.dropWhile_sublist _).mem (List.mem_of_mem_tail hbody))
  · rw [hline] at h
    exact .inl h

/-- The lines of what is printed. -/
theorem lines_untrustedMultiLine (text : List Char) :
    (untrustedMultiLine text).splitOn '\n' = ((multiLine text).splitOn '\n').map defuse := by
  apply List.splitOn_intercalate
  · intro line hline
    obtain ⟨source, hsource, rfl⟩ := List.mem_map.mp hline
    intro hmem
    rcases mem_defuse hmem with hbreak | hascii
    · exact (mem_splitOn hsource).1 hbreak
    · exact absurd hascii (by decide)
  · rw [ne_eq, List.map_eq_nil_iff]
    exact List.splitOn_ne_nil _ _

/-- What `untrusted_multi_line` is for. -/
structure SafeBlock (text : List Char) : Prop where
  neutral : ∀ c ∈ untrustedMultiLine text, IsBlockNeutral c
  inert : ∀ line ∈ (untrustedMultiLine text).splitOn '\n', isCommand line = false
  unchanged : (∀ c ∈ text, IsBlockNeutral c) →
    (∀ line ∈ text.splitOn '\n', isCommand line = false) → untrustedMultiLine text = text

theorem isBlockNeutral_multiLine {text : List Char} {c : Char} (h : c ∈ multiLine text) :
    IsBlockNeutral c := by
  obtain ⟨d, -, hcd⟩ := List.mem_flatMap.mp h
  exact isBlockNeutral_blockChar hcd

theorem multiLine_of_neutral {text : List Char} (h : ∀ c ∈ text, IsBlockNeutral c) :
    multiLine text = text := by
  have hcr : '\r' ∉ text := fun hmem => absurd ((h _ hmem).1 (by decide)) (by decide)
  rw [multiLine, replaceCrLf_of_not_mem hcr,
    flatMap_of_forall fun c hc => blockChar_of_neutral (h c hc)]

theorem untrustedMultiLine_safe (text : List Char) : SafeBlock text where
  neutral := by
    intro c hc
    rcases mem_intercalate hc with rfl | ⟨line, hline, hcline⟩
    · exact ⟨fun _ => .inl rfl, by decide⟩
    · obtain ⟨source, hsource, rfl⟩ := List.mem_map.mp hline
      rcases mem_defuse hcline with hmem | ⟨hlow, hhigh⟩
      · exact isBlockNeutral_multiLine ((mem_splitOn hsource).2 c hmem)
      · exact (isNeutral_of_ascii hlow hhigh).block
  inert := by
    intro line hline
    rw [lines_untrustedMultiLine] at hline
    obtain ⟨source, -, rfl⟩ := List.mem_map.mp hline
    exact isCommand_defuse source
  unchanged := by
    intro hneutral hinert
    have hsame : (text.splitOn '\n').map defuse = text.splitOn '\n' := by
      rw [List.map_congr_left (g := id), List.map_id]
      intro line hline
      obtain ⟨hcommand, -⟩ | ⟨-, hline'⟩ := defuse_cases line
      · rw [hinert line hline] at hcommand
        cases hcommand
      · exact hline'
    rw [untrustedMultiLine, multiLine_of_neutral hneutral, hsame, List.intercalate_splitOn]

end Victauri.Test.Terminal
