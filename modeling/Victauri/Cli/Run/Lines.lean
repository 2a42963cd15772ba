import Mathlib.Data.List.Basic
import Victauri.Cli.Run

/-!
# The lines of a capture

What `Capture::feed` records, stated of a stream's bytes alone: its lines, each cut every
`MAX_LINE_BYTES` bytes.
-/

namespace Victauri.Cli.Run

/-! ## Cutting -/

section Cuts

variable {max : Nat}

/-- The full pieces at the front of a line, and what is left. -/
def cuts (max : Nat) (bs : Bytes) : List Bytes × Bytes :=
  if 0 < max ∧ max ≤ bs.length then
    let (full, rest) := cuts max (bs.drop max)
    (bs.take max :: full, rest)
  else ([], bs)
termination_by bs.length
decreasing_by
  simp only [List.length_drop]
  omega

theorem cuts_short {bs : Bytes} (h : bs.length < max) : cuts max bs = ([], bs) := by
  unfold cuts
  rw [if_neg (by omega)]

theorem cuts_nil (hmax : 0 < max) : cuts max [] = ([], []) :=
  cuts_short (by simpa using hmax)

theorem cuts_long {bs : Bytes} (hmax : 0 < max) (h : max ≤ bs.length) :
    cuts max bs = (bs.take max :: (cuts max (bs.drop max)).1, (cuts max (bs.drop max)).2) := by
  rw [cuts, if_pos ⟨hmax, h⟩]

/-- Induction on the full pieces of a line. -/
theorem cutInduction {motive : Bytes → Prop} (hmax : 0 < max)
    (short : ∀ bs, bs.length < max → motive bs)
    (long : ∀ bs, max ≤ bs.length → motive (bs.drop max) → motive bs) (bs : Bytes) :
    motive bs := by
  induction h : bs.length using Nat.strongRecOn generalizing bs with
  | _ n ih =>
      by_cases hlong : max ≤ bs.length
      · apply long bs hlong
        apply ih (bs.drop max).length ?_ _ rfl
        rw [List.length_drop]
        omega
      · exact short bs (by omega)

theorem cuts_append (hmax : 0 < max) (as bs : Bytes) :
    cuts max (as ++ bs) =
      ((cuts max as).1 ++ (cuts max ((cuts max as).2 ++ bs)).1,
        (cuts max ((cuts max as).2 ++ bs)).2) := by
  induction as using cutInduction hmax with
  | short as h => rw [cuts_short h, List.nil_append]
  | long as h ih =>
      rw [cuts_long hmax h, cuts_long hmax (by rw [List.length_append]; omega),
        List.take_append_of_le_length h, List.drop_append_of_le_length h, ih]
      rfl

theorem cuts_flatten (hmax : 0 < max) (bs : Bytes) :
    (cuts max bs).1.flatten ++ (cuts max bs).2 = bs := by
  induction bs using cutInduction hmax with
  | short bs h => rw [cuts_short h]; rfl
  | long bs h ih =>
      rw [cuts_long hmax h, List.flatten_cons, List.append_assoc, ih, List.take_append_drop]

theorem cuts_rest_length (hmax : 0 < max) (bs : Bytes) :
    (cuts max bs).2.length = bs.length % max := by
  induction bs using cutInduction hmax with
  | short bs h => rw [cuts_short h, Nat.mod_eq_of_lt h]
  | long bs h ih => rw [cuts_long hmax h, ih, List.length_drop, ← Nat.mod_eq_sub_mod h]

theorem cuts_rest_lt (hmax : 0 < max) (bs : Bytes) : (cuts max bs).2.length < max := by
  rw [cuts_rest_length hmax]
  exact Nat.mod_lt _ hmax

theorem cuts_rest_mem {bs : Bytes} (hmax : 0 < max) {b : UInt8} (h : b ∈ (cuts max bs).2) :
    b ∈ bs := by
  rw [← cuts_flatten hmax bs]
  exact List.mem_append_right _ h

/-- The pieces of a line: a line that the cuts use up has no empty one at its end. -/
def pieces (max : Nat) (line : Bytes) : List Bytes :=
  let (full, rest) := cuts max line
  if rest = [] ∧ full ≠ [] then full else full ++ [rest]

theorem pieces_flatten (hmax : 0 < max) (line : Bytes) : (pieces max line).flatten = line := by
  unfold pieces
  have h := cuts_flatten hmax line
  dsimp only
  split_ifs with hrest
  · rw [hrest.1, List.append_nil] at h
    exact h
  · simpa using h

/-- `while line.len() > MAX_LINE_BYTES` and the line that is left. -/
theorem pieces_short {line : Bytes} (h : line.length ≤ max) (hmax : 0 < max) :
    pieces max line = [line] := by
  unfold pieces
  by_cases hlt : line.length < max
  · simp [cuts_short hlt]
  · have hlength : line.length = max := by omega
    have hdrop : line.drop max = [] := List.drop_of_length_le (by omega)
    rw [cuts_long hmax (by omega), hdrop, cuts_short (by simpa using hmax)]
    simp [List.take_of_length_le h]

theorem pieces_nil (hmax : 0 < max) : pieces max [] = [[]] :=
  pieces_short (Nat.zero_le max) hmax

theorem pieces_long {line : Bytes} (h : max < line.length) (hmax : 0 < max) :
    pieces max line = line.take max :: pieces max (line.drop max) := by
  have hne : line.drop max ≠ [] := by
    apply List.ne_nil_of_length_pos
    rw [List.length_drop]
    omega
  unfold pieces
  rw [cuts_long hmax (Nat.le_of_lt h)]
  dsimp only
  by_cases hrest : (cuts max (line.drop max)).2 = []
  · have hfull : (cuts max (line.drop max)).1 ≠ [] := by
      intro hfull
      have := cuts_flatten hmax (line.drop max)
      rw [hfull, hrest] at this
      exact hne this.symm
    rw [if_pos ⟨hrest, List.cons_ne_nil _ _⟩, if_pos ⟨hrest, hfull⟩]
  · rw [if_neg fun h => hrest h.1, if_neg fun h => hrest h.1, List.cons_append]

/-- A line that the cuts use up: one more piece would be empty. -/
def Exact (max : Nat) (line : Bytes) : Prop := line ≠ [] ∧ max ∣ line.length

instance (max : Nat) (line : Bytes) : Decidable (Exact max line) :=
  inferInstanceAs (Decidable (_ ∧ _))

theorem cuts_full {line : Bytes} (hmax : 0 < max) (h : line.length = max) :
    cuts max line = ([line], []) := by
  rw [cuts_long hmax (Nat.le_of_eq h.symm), List.take_of_length_le (Nat.le_of_eq h),
    List.drop_of_length_le (Nat.le_of_eq h), cuts_nil hmax]

theorem pieces_of_not_exact (hmax : 0 < max) {line : Bytes} (h : ¬ Exact max line) :
    pieces max line = (cuts max line).1 ++ [(cuts max line).2] := by
  unfold pieces
  dsimp only
  rw [if_neg]
  rintro ⟨hrest, hfull⟩
  apply h
  constructor
  · rintro rfl
    exact hfull (by rw [cuts_nil hmax])
  · apply Nat.dvd_of_mod_eq_zero
    rw [← cuts_rest_length hmax, hrest, List.length_nil]

/-- The rest of a line whose front was cut off before. -/
theorem pieces_append (hmax : 0 < max) {seen more : Bytes} (h : ¬ Exact max (seen ++ more)) :
    pieces max (seen ++ more) =
      (cuts max seen).1 ++ pieces max ((cuts max seen).2 ++ more) := by
  have hrest : ¬ Exact max ((cuts max seen).2 ++ more) ∨ (cuts max seen).2 ++ more = [] := by
    by_cases hnil : (cuts max seen).2 ++ more = []
    · exact Or.inr hnil
    · refine Or.inl fun hexact => h ⟨?_, ?_⟩
      · intro hseen
        rw [List.append_eq_nil_iff] at hseen
        rw [hseen.1, hseen.2, cuts_nil hmax] at hnil
        exact hnil rfl
      · have hdvd := Nat.mod_eq_zero_of_dvd hexact.2
        apply Nat.dvd_of_mod_eq_zero
        rw [List.length_append, cuts_rest_length hmax, Nat.mod_add_mod] at hdvd
        rw [List.length_append]
        exact hdvd
  rw [pieces_of_not_exact hmax h, cuts_append hmax]
  rcases hrest with hrest | hnil
  · rw [pieces_of_not_exact hmax hrest, List.append_assoc]
  · simp [hnil, pieces_nil hmax, cuts_nil hmax]

/-- A line that no newline ended, after its full pieces were taken off. -/
theorem pieces_flush (hmax : 0 < max) (line : Bytes) :
    (if line = [] then [] else pieces max line) =
      (cuts max line).1 ++ if (cuts max line).2 = [] then [] else [(cuts max line).2] := by
  by_cases hnil : line = []
  · rw [hnil, cuts_nil hmax]
    rfl
  · rw [if_neg hnil]
    unfold pieces
    dsimp only
    by_cases hrest : (cuts max line).2 = []
    · have hfull : (cuts max line).1 ≠ [] := by
        intro hfull
        have := cuts_flatten hmax line
        rw [hfull, hrest] at this
        exact hnil this.symm
      rw [if_pos ⟨hrest, hfull⟩, if_pos hrest, List.append_nil]
    · rw [if_neg fun h => hrest h.1, if_neg hrest]

end Cuts

/-! ## Splitting -/

/-- The lines that a newline ends, without it, and what comes after the last. -/
def splitLines : Bytes → List Bytes × Bytes
  | [] => ([], [])
  | b :: bs =>
      let (lines, rest) := splitLines bs
      if b = newline then ([] :: lines, rest)
      else
        match lines with
        | line :: lines => ((b :: line) :: lines, rest)
        | [] => ([], b :: rest)

theorem splitLines_open {bs : Bytes} (h : newline ∉ bs) : splitLines bs = ([], bs) := by
  induction bs with
  | nil => rfl
  | cons b bs ih =>
      rw [List.mem_cons, not_or] at h
      rw [splitLines, ih h.2]
      simp only [if_neg (Ne.symm h.1)]

theorem splitLines_line {line : Bytes} (h : newline ∉ line) (more : Bytes) :
    splitLines (line ++ newline :: more) = (line :: (splitLines more).1, (splitLines more).2) := by
  induction line with
  | nil => simp [splitLines]
  | cons b line ih =>
      rw [List.mem_cons, not_or] at h
      rw [List.cons_append, splitLines, ih h.2]
      simp only [if_neg (Ne.symm h.1)]

/-- Induction on the lines of a stream. -/
theorem lineInduction {motive : Bytes → Prop} (unfinished : ∀ bs, newline ∉ bs → motive bs)
    (line : ∀ line more, newline ∉ line → motive more → motive (line ++ newline :: more))
    (bs : Bytes) : motive bs := by
  induction h : bs.length using Nat.strongRecOn generalizing bs with
  | _ n ih =>
      by_cases hmem : newline ∈ bs
      · obtain ⟨front, more, rfl, hfront⟩ := List.eq_append_cons_of_mem hmem
        apply line front more hfront
        apply ih more.length ?_ more rfl
        rw [List.length_append, List.length_cons] at h
        omega
      · exact unfinished bs hmem

theorem splitLines_rest (bs : Bytes) : newline ∉ (splitLines bs).2 := by
  induction bs using lineInduction with
  | unfinished bs h => rwa [splitLines_open h]
  | line line more h ih => rwa [splitLines_line h]

theorem splitLines_append (as bs : Bytes) :
    splitLines (as ++ bs) =
      ((splitLines as).1 ++ (splitLines ((splitLines as).2 ++ bs)).1,
        (splitLines ((splitLines as).2 ++ bs)).2) := by
  induction as using lineInduction with
  | unfinished as h => rw [splitLines_open h, List.nil_append]
  | line line more h ih =>
      rw [List.append_assoc, List.cons_append, splitLines_line h, ih, splitLines_line h]
      rfl

theorem splitLines_join (bs : Bytes) :
    ((splitLines bs).1.flatMap fun line => line ++ [newline]) ++ (splitLines bs).2 = bs := by
  induction bs using lineInduction with
  | unfinished bs h => rw [splitLines_open h]; rfl
  | line line more h ih =>
      rw [splitLines_line h, List.flatMap_cons, List.append_assoc, ih, List.append_assoc]
      rfl

theorem decode_lines (bs : Bytes) :
    ((splitLines bs).1.flatMap fun line => Utf8.decode line ++ ['\n']) ++
      Utf8.decode (splitLines bs).2 = Utf8.decode bs := by
  induction bs using lineInduction with
  | unfinished bs h => rw [splitLines_open h]; rfl
  | line line more h ih =>
      rw [splitLines_line h, List.flatMap_cons, List.append_assoc, ih,
        Utf8.decode_ascii (by decide), List.append_assoc]
      rfl

/-! ## Decoding pieces -/

/-- No cut of the line falls inside a character. -/
def CleanCuts (max : Nat) (line : Bytes) : Prop :=
  ∀ k, k * max < line.length → Utf8.Between (line.take (k * max))

theorem CleanCuts.drop {max : Nat} {line : Bytes} (h : CleanCuts max line)
    (hlong : max < line.length) : CleanCuts max (line.drop max) := by
  intro k hk
  rw [List.length_drop] at hk
  have hnext : (k + 1) * max < line.length := by
    rw [Nat.add_mul]
    omega
  have hfirst : Utf8.Between (line.take max) := by
    simpa using h 1 (by omega)
  have hboth := h (k + 1) hnext
  rw [Nat.add_mul, Nat.one_mul, Nat.add_comm, List.take_add] at hboth
  unfold Utf8.Between at hboth hfirst ⊢
  rwa [Utf8.stateAfter_append, hfirst] at hboth

theorem decode_pieces {max : Nat} (hmax : 0 < max) (line : Bytes) (h : CleanCuts max line) :
    (pieces max line).flatMap Utf8.decode = Utf8.decode line := by
  induction hn : line.length using Nat.strongRecOn generalizing line with
  | _ n ih =>
      by_cases hlong : max < line.length
      · have hfirst : Utf8.Between (line.take max) := by
          simpa using h 1 (by omega)
        rw [pieces_long hlong hmax, List.flatMap_cons,
          ih (line.drop max).length (by rw [List.length_drop]; omega) _ (h.drop hlong) rfl,
          ← Utf8.decode_append hfirst, List.take_append_drop]
      · rw [pieces_short (by omega) hmax]
        simp

end Victauri.Cli.Run
