import Victauri.Plugin.BackendLogs.ConsoleCapture

/-!
# The records of a capture

A read takes whole records, and goes on where they end.  What it delivers and what is left for the
next one are together what there was, also when the file has grown.
-/

namespace Victauri.Plugin.BackendLogs

/-! ## Whole records -/

/-- Nothing, or the last byte is a line break. -/
def Whole (bs : Bytes) : Prop := bs = [] ∨ bs.getLast? = some newline

theorem Whole.of_cons {b : UInt8} {bs : Bytes} (h : Whole (b :: bs)) : Whole bs := by
  cases bs with
  | nil => exact .inl rfl
  | cons c bs =>
      rcases h with h | h
      · exact absurd h (List.cons_ne_nil _ _)
      · rw [List.getLast?_cons_cons] at h
        exact .inr h

theorem Whole.newline_mem {bs : Bytes} (h : Whole bs) (hne : bs ≠ []) : newline ∈ bs := by
  rcases h with h | h
  · exact absurd h hne
  · exact List.mem_of_getLast? h

/-- Up to the last line break, and what follows it. -/
theorem exists_whole (bs : Bytes) : ∃ whole rest, bs = whole ++ rest ∧ Whole whole ∧
    newline ∉ rest := by
  induction bs with
  | nil => exact ⟨[], [], rfl, .inl rfl, List.not_mem_nil⟩
  | cons b bs ih =>
      obtain ⟨whole, rest, rfl, hwhole, hrest⟩ := ih
      by_cases hempty : whole = []
      · subst hempty
        by_cases hb : b = newline
        · exact ⟨[b], rest, rfl, .inr (by rw [hb]; rfl), hrest⟩
        · refine ⟨[], b :: rest, rfl, .inl rfl, fun hmem => ?_⟩
          rcases List.mem_cons.mp hmem with heq | hmem
          · exact hb heq.symm
          · exact hrest hmem
      · refine ⟨b :: whole, rest, rfl, .inr ?_, hrest⟩
        obtain ⟨c, more, rfl⟩ := List.exists_cons_of_ne_nil hempty
        rw [List.getLast?_cons_cons]
        exact hwhole.resolve_left hempty

theorem splitInclusive_ne_nil {bs : Bytes} (h : bs ≠ []) : splitInclusive bs ≠ [] := by
  cases bs with
  | nil => exact absurd rfl h
  | cons b bs =>
      rw [splitInclusive]
      split_ifs
      · exact List.cons_ne_nil _ _
      · cases splitInclusive bs with
        | nil => exact List.cons_ne_nil _ _
        | cons chunk rest => exact List.cons_ne_nil _ _

theorem splitInclusive_flatten (bs : Bytes) : (splitInclusive bs).flatten = bs := by
  induction bs with
  | nil => rfl
  | cons b bs ih =>
      rw [splitInclusive]
      split_ifs
      · rw [List.flatten_cons, ih, List.singleton_append]
      · cases hsplit : splitInclusive bs with
        | nil =>
            rw [hsplit] at ih
            rw [← ih]
            rfl
        | cons chunk rest =>
            rw [hsplit, List.flatten_cons] at ih
            dsimp only
            rw [List.flatten_cons, List.cons_append, ih]

theorem splitInclusive_append {whole : Bytes} (h : Whole whole) (rest : Bytes) :
    splitInclusive (whole ++ rest) = splitInclusive whole ++ splitInclusive rest := by
  induction whole with
  | nil => rfl
  | cons b whole ih =>
      have hrest := ih h.of_cons
      rw [List.cons_append, splitInclusive, splitInclusive, hrest]
      split_ifs with hb
      · rw [List.cons_append]
      · have hne : whole ≠ [] := by
          rintro rfl
          rcases h with h | h
          · exact absurd h (List.cons_ne_nil _ _)
          · exact hb (Option.some.inj h)
        obtain ⟨chunk, more, hsplit⟩ := List.exists_cons_of_ne_nil (splitInclusive_ne_nil hne)
        rw [hsplit]
        rfl

theorem splitInclusive_whole {whole : Bytes} (h : Whole whole) :
    ∀ chunk ∈ splitInclusive whole, chunk.getLast? = some newline := by
  induction whole with
  | nil => exact fun chunk hchunk => absurd hchunk List.not_mem_nil
  | cons b whole ih =>
      have hrest := ih h.of_cons
      rw [splitInclusive]
      split_ifs with hb
      · refine List.forall_mem_cons.mpr ⟨?_, hrest⟩
        rw [hb]
        rfl
      · have hne : whole ≠ [] := by
          rintro rfl
          rcases h with h | h
          · exact absurd h (List.cons_ne_nil _ _)
          · exact hb (Option.some.inj h)
        obtain ⟨chunk, more, hsplit⟩ := List.exists_cons_of_ne_nil (splitInclusive_ne_nil hne)
        rw [hsplit, List.forall_mem_cons] at hrest
        rw [hsplit]
        refine List.forall_mem_cons.mpr ⟨?_, hrest.2⟩
        cases chunk with
        | nil => exact absurd hrest.1 (by decide)
        | cons c chunk =>
            rw [List.getLast?_cons_cons]
            exact hrest.1

theorem splitInclusive_unfinished {bs : Bytes} (h : newline ∉ bs) (hne : bs ≠ []) :
    splitInclusive bs = [bs] := by
  induction bs with
  | nil => exact absurd rfl hne
  | cons b bs ih =>
      rw [List.mem_cons, not_or] at h
      rw [splitInclusive, if_neg (fun hb => h.1 hb.symm)]
      cases bs with
      | nil => rfl
      | cons c bs => rw [ih h.2 (List.cons_ne_nil _ _)]

/-! ## Lines -/

section Parse

variable {α : Type} (parse : Bytes → Option α)

/-- The lines of the whole records from `offset` on. -/
def linesFrom (offset : Nat) (bs : Bytes) : List (Nat × α) :=
  (readChunks parse false offset (splitInclusive bs)).1

theorem readChunks_unfinished (first : Bool) (offset : Nat) {bs : Bytes} (h : newline ∉ bs) :
    readChunks parse first offset (splitInclusive bs) = ([], 0) := by
  by_cases hne : bs = []
  · rw [hne]
    rfl
  · rw [splitInclusive_unfinished h hne, readChunks, if_pos]
    exact fun hlast => h (List.mem_of_getLast? hlast)

theorem linesFrom_unfinished (offset : Nat) {bs : Bytes} (h : newline ∉ bs) :
    linesFrom parse offset bs = [] := by
  rw [linesFrom, readChunks_unfinished parse false offset h]

theorem readChunks_append {chunks : List Bytes}
    (h : ∀ chunk ∈ chunks, chunk.getLast? = some newline) (offset : Nat) (rest : List Bytes) :
    readChunks parse false offset (chunks ++ rest) =
      ((readChunks parse false offset chunks).1 ++
          (readChunks parse false (offset + chunks.flatten.length) rest).1,
        chunks.flatten.length +
          (readChunks parse false (offset + chunks.flatten.length) rest).2) := by
  induction chunks generalizing offset with
  | nil =>
      rw [List.nil_append, List.flatten_nil, List.length_nil, Nat.add_zero, Nat.zero_add]
      rfl
  | cons chunk chunks ih =>
      rw [List.forall_mem_cons] at h
      have hlast : ¬chunk.getLast? ≠ some newline := not_not.mpr h.1
      rw [List.cons_append, readChunks, if_neg hlast, ih h.2, readChunks, if_neg hlast,
        List.flatten_cons, List.length_append, Nat.add_assoc, Nat.add_assoc]
      dsimp only
      rw [List.append_assoc]

theorem linesFrom_append {whole : Bytes} (h : Whole whole) (offset : Nat) (rest : Bytes) :
    linesFrom parse offset (whole ++ rest) =
      linesFrom parse offset whole ++ linesFrom parse (offset + whole.length) rest := by
  rw [linesFrom, splitInclusive_append h, readChunks_append parse (splitInclusive_whole h),
    splitInclusive_flatten]
  rfl

/-- The loop over whole records and the start of one. -/
theorem readChunks_whole {whole rest : Bytes} (h : Whole whole) (hrest : newline ∉ rest)
    (offset : Nat) : readChunks parse false offset (splitInclusive (whole ++ rest)) =
      (linesFrom parse offset whole, whole.length) := by
  rw [splitInclusive_append h, readChunks_append parse (splitInclusive_whole h),
    splitInclusive_flatten, readChunks_unfinished parse false _ hrest, List.append_nil, Nat.add_zero]
  rfl

/-! ## One read of a file -/

/-- No record is longer than a read's window; the records of `victauri run` are capped far below
it. -/
def Capped (file : Bytes) : Prop :=
  ∀ start, start + consoleReadWindow ≤ file.length →
    newline ∈ (file.drop start).take consoleReadWindow

/-- What a read from `offset` takes: whole records, to where it says to read on. -/
structure Takes (file : Bytes) (offset : Nat) (read : List (Nat × α) × Nat × Bool)
    (taken : Bytes) : Prop where
  lines : read.1 = linesFrom parse offset taken
  next : read.2.1 = offset + taken.length
  whole : Whole taken
  split : file.drop offset = taken ++ file.drop (offset + taken.length)
  more : read.2.2 = true → taken ≠ []
  rest : Capped file → read.2.2 = false → newline ∉ file.drop (offset + taken.length)
  stuck : Capped file → taken = [] → newline ∉ file.drop offset

theorem readOpenCapture_some {file : Bytes} {offset : Nat} (h : offset ≤ file.length)
    (tailBytes window : Nat) : readOpenCapture parse file (some offset) tailBytes window =
      readWindow parse file false offset window := by
  have hstart : (if file.length < offset then 0 else offset) = offset :=
    if_neg (Nat.not_lt.mpr h)
  simp only [readOpenCapture, Option.getD_some, Option.isNone_some, Bool.false_and, hstart]

theorem readOpenCapture_takes {file : Bytes} {offset : Nat} (h : offset ≤ file.length)
    (tailBytes : Nat) :
    ∃ taken, Takes parse file offset
      (readOpenCapture parse file (some offset) tailBytes consoleReadWindow) taken := by
  obtain ⟨taken, rest, hbuf, hwhole, hrest⟩ :=
    exists_whole ((file.drop offset).take consoleReadWindow)
  have hread : readOpenCapture parse file (some offset) tailBytes consoleReadWindow =
      (linesFrom parse offset taken, offset + taken.length,
        decide (offset + ((file.drop offset).take consoleReadWindow).length < file.length) &&
          decide (0 < taken.length)) := by
    rw [readOpenCapture_some parse h, readWindow, hbuf, readChunks_whole parse hwhole hrest]
  have hfile : file.drop offset = taken ++ file.drop (offset + taken.length) := by
    have hsplit := List.take_append_drop consoleReadWindow (file.drop offset)
    rw [hbuf, List.append_assoc] at hsplit
    have hdrop : file.drop (offset + taken.length) =
        rest ++ (file.drop offset).drop consoleReadWindow := by
      rw [← List.drop_drop, ← hsplit, List.drop_left, hsplit]
    rw [hdrop, hsplit]
  -- a window without a line break holds the rest of the file
  have hall : Capped file → newline ∉ (file.drop offset).take consoleReadWindow →
      newline ∉ file.drop offset := by
    intro hcapped hnone
    by_cases hfits : offset + consoleReadWindow ≤ file.length
    · exact absurd (hcapped offset hfits) hnone
    · rwa [List.take_of_length_le (by rw [List.length_drop]; omega)] at hnone
  have hstuck : Capped file → taken = [] → newline ∉ file.drop offset := by
    intro hcapped hempty
    refine hall hcapped ?_
    rw [hbuf, hempty, List.nil_append]
    exact hrest
  refine ⟨taken, ?_⟩
  rw [hread]
  exact {
    lines := rfl
    next := rfl
    whole := hwhole
    split := hfile
    more := by
      intro hmore
      rw [Bool.and_eq_true, decide_eq_true_eq, decide_eq_true_eq] at hmore
      exact List.ne_nil_of_length_pos hmore.2
    rest := by
      intro hcapped hmore
      rw [Bool.and_eq_false_iff, decide_eq_false_iff_not, decide_eq_false_iff_not] at hmore
      rcases hmore with hend | hnone
      · -- the window reaches the end of the file
        have htake : (file.drop offset).take consoleReadWindow = file.drop offset := by
          refine List.take_of_length_le ?_
          rw [List.length_take, List.length_drop] at hend
          rw [List.length_drop]
          omega
        rw [htake, hfile, List.append_cancel_left_eq] at hbuf
        rw [hbuf]
        exact hrest
      · have hempty : taken = [] := List.length_eq_zero_iff.mp (Nat.eq_zero_of_not_pos hnone)
        rw [hempty, List.length_nil, Nat.add_zero]
        exact hstuck hcapped hempty
    stuck := hstuck }

/-- The lines of a file that has grown since: those the read took, and those from where it stopped. -/
theorem Takes.linesFrom_append {file : Bytes} {offset : Nat} {read : List (Nat × α) × Nat × Bool}
    {taken : Bytes} (h : Takes parse file offset read taken) (more : Bytes) :
    linesFrom parse offset (file.drop offset ++ more) =
      read.1 ++ linesFrom parse read.2.1 (file.drop read.2.1 ++ more) := by
  rw [h.lines, h.next, h.split, List.append_assoc, BackendLogs.linesFrom_append parse h.whole]

/-! ## The first read -/

/-- Where the first read begins: in a long file, after the first line break of its tail. -/
def tailStart (tailBytes : Nat) (file : Bytes) : Nat :=
  let start := file.length - tailBytes
  if start = 0 then 0
  else
    match splitInclusive (file.drop start) with
    | chunk :: _ => if chunk.getLast? = some newline then start + chunk.length else start
    | [] => start

theorem splitInclusive_eq_cons {bs chunk : Bytes} {rest : List Bytes}
    (h : splitInclusive bs = chunk :: rest) (hlast : chunk.getLast? = some newline) :
    ∃ after, bs = chunk ++ after ∧ rest = splitInclusive after := by
  induction bs generalizing chunk with
  | nil => exact absurd h (List.cons_ne_nil _ _).symm
  | cons b bs ih =>
      rw [splitInclusive] at h
      split_ifs at h with hb
      · obtain ⟨rfl, rfl⟩ := List.cons.inj h
        exact ⟨bs, rfl, rfl⟩
      · cases hsplit : splitInclusive bs with
        | nil =>
            rw [hsplit] at h
            obtain ⟨rfl, -⟩ := List.cons.inj h
            exact absurd (Option.some.inj hlast) hb
        | cons chunk' rest' =>
            rw [hsplit] at h
            obtain ⟨rfl, rfl⟩ := List.cons.inj h
            have hlast' : chunk'.getLast? = some newline := by
              cases chunk' with
              | nil => exact absurd (Option.some.inj hlast) hb
              | cons c chunk' =>
                  rw [List.getLast?_cons_cons] at hlast
                  exact hlast
            obtain ⟨after, rfl, hrest⟩ := ih hsplit hlast'
            exact ⟨after, rfl, hrest⟩

theorem tailStart_le (tailBytes : Nat) (file : Bytes) : tailStart tailBytes file ≤ file.length := by
  rw [tailStart]
  split_ifs with hshort
  · exact Nat.zero_le _
  · have hflatten := splitInclusive_flatten (file.drop (file.length - tailBytes))
    split
    next chunk rest hsplit =>
      rw [hsplit, List.flatten_cons] at hflatten
      have hlength := congrArg List.length hflatten
      rw [List.length_append, List.length_drop] at hlength
      split_ifs
      · omega
      · exact Nat.sub_le _ _
    next => exact Nat.sub_le _ _

theorem tailStart_pos {tailBytes : Nat} {file : Bytes} (h : 0 < tailStart tailBytes file) :
    tailBytes < file.length := by
  by_contra hshort
  rw [tailStart, if_pos (Nat.sub_eq_zero_of_le (Nat.not_lt.mp hshort))] at h
  exact Nat.lt_irrefl 0 h

theorem head_le_stdoutTail : cursorTagHeadBytes ≤ stdoutTailBytes := by decide

theorem stdoutTail_le_window : stdoutTailBytes ≤ consoleReadWindow := by decide

/-- A read that is to skip a first record takes those after it. -/
theorem readWindow_first {file : Bytes} {start window : Nat} (hle : start ≤ file.length)
    (hfits : file.length ≤ start + window) :
    ∃ taken, Takes parse file
      (match splitInclusive (file.drop start) with
        | chunk :: _ => if chunk.getLast? = some newline then start + chunk.length else start
        | [] => start)
      (readWindow parse file true start window) taken := by
  have hall : (file.drop start).take window = file.drop start := by
    refine List.take_of_length_le ?_
    rw [List.length_drop]
    omega
  have hend : ¬start + (file.drop start).length < file.length := by
    rw [List.length_drop]
    omega
  -- nothing is taken where the first record is not complete
  have hnothing (h : newline ∉ file.drop start) :
      Takes parse file start ([], start + 0, false && decide (0 < 0)) [] := {
    lines := rfl
    next := rfl
    whole := .inl rfl
    split := rfl
    more := fun hmore => absurd hmore Bool.false_ne_true
    rest := fun _ _ => h
    stuck := fun _ _ => h }
  rw [readWindow, hall, decide_eq_false hend]
  cases hsplit : splitInclusive (file.drop start) with
  | nil =>
      have hempty := splitInclusive_flatten (file.drop start)
      rw [hsplit] at hempty
      refine ⟨[], hnothing ?_⟩
      rw [← hempty]
      exact List.not_mem_nil
  | cons chunk rest =>
      dsimp only
      by_cases hlast : chunk.getLast? = some newline
      · obtain ⟨after, hafter, rfl⟩ := splitInclusive_eq_cons hsplit hlast
        obtain ⟨taken, partial_, rfl, hwhole, hrest⟩ := exists_whole after
        have hdrop : file.drop (start + chunk.length) = taken ++ partial_ := by
          rw [← List.drop_drop, hafter, List.drop_left]
        have hdrop' : file.drop (start + chunk.length + taken.length) = partial_ := by
          rw [← List.drop_drop, hdrop, List.drop_left]
        rw [if_pos hlast, readChunks, if_neg (not_not.mpr hlast),
          readChunks_whole parse hwhole hrest]
        refine ⟨taken, ?_⟩
        exact {
          lines := rfl
          next := (Nat.add_assoc _ _ _).symm
          whole := hwhole
          split := by rw [hdrop', hdrop]
          more := fun hmore => absurd hmore Bool.false_ne_true
          rest := fun _ _ => by rwa [hdrop']
          stuck := fun _ hempty => by
            rw [hdrop, hempty]
            exact hrest }
      · rw [if_neg hlast, readChunks, if_pos hlast]
        refine ⟨[], hnothing fun hmem => hlast ?_⟩
        obtain ⟨whole, after, hfile, hwhole, hafter⟩ := exists_whole (file.drop start)
        have hne : whole ≠ [] := by
          rintro rfl
          rw [hfile] at hmem
          exact hafter hmem
        obtain ⟨first, more, hfirst⟩ := List.exists_cons_of_ne_nil (splitInclusive_ne_nil hne)
        rw [hfile, splitInclusive_append hwhole, hfirst, List.cons_append] at hsplit
        rw [← (List.cons.inj hsplit).1]
        refine splitInclusive_whole hwhole first ?_
        rw [hfirst]
        exact List.mem_cons_self

theorem readOpenCapture_tail {tailBytes : Nat} (hwindow : tailBytes ≤ consoleReadWindow)
    (file : Bytes) :
    ∃ taken, Takes parse file (tailStart tailBytes file)
      (readOpenCapture parse file none tailBytes consoleReadWindow) taken := by
  have hread : readOpenCapture parse file none tailBytes consoleReadWindow =
      readWindow parse file (decide (0 < file.length - tailBytes)) (file.length - tailBytes)
        consoleReadWindow := by
    have hstart : (if file.length < file.length - tailBytes then 0
        else file.length - tailBytes) = file.length - tailBytes :=
      if_neg (Nat.not_lt.mpr (Nat.sub_le _ _))
    simp only [readOpenCapture, Option.getD_none, Option.isNone_none, Bool.true_and, hstart]
  rw [hread, tailStart]
  by_cases hshort : file.length - tailBytes = 0
  · have hwhole : ∃ taken, Takes parse file 0 (readWindow parse file false 0 consoleReadWindow)
        taken := by
      rw [← readOpenCapture_some parse (Nat.zero_le _) tailBytes]
      exact readOpenCapture_takes parse (Nat.zero_le _) _
    rw [if_pos hshort, hshort]
    exact hwhole
  · rw [if_neg hshort, decide_eq_true (Nat.pos_of_ne_zero hshort)]
    exact readWindow_first parse (Nat.sub_le _ _) (by omega)

variable {parse}

theorem Takes.next_le {file : Bytes} {offset : Nat} {read : List (Nat × α) × Nat × Bool}
    {taken : Bytes} (h : Takes parse file offset read taken) (hoffset : offset ≤ file.length) :
    read.2.1 ≤ file.length := by
  have hlength := congrArg List.length h.split
  rw [List.length_append, List.length_drop, List.length_drop] at hlength
  rw [h.next]
  omega

theorem Takes.next_lt {file : Bytes} {offset : Nat} {read : List (Nat × α) × Nat × Bool}
    {taken : Bytes} (h : Takes parse file offset read taken) (hmore : read.2.2 = true) :
    offset < read.2.1 := by
  rw [h.next]
  exact Nat.lt_add_of_pos_right (List.length_pos_of_ne_nil (h.more hmore))

end Parse

/-! ## Tags -/

theorem firstRecord_append {file first : Bytes} (h : firstRecord file = some first)
    (more : Bytes) : firstRecord (file ++ more) = some first := by
  rw [firstRecord] at h ⊢
  rw [List.take_append]
  cases hfind : (file.take cursorTagHeadBytes).findIdx? (· == newline) with
  | some stop =>
      rw [hfind] at h
      have hstop : stop ≤ (file.take cursorTagHeadBytes).length :=
        Nat.le_of_lt (List.findIdx?_eq_some_iff_findIdx_eq.mp hfind).1
      rw [List.findIdx?_append, hfind, Option.some_or]
      dsimp only at h ⊢
      rw [List.take_append_of_le_length hstop]
      exact h
  | none =>
      rw [hfind] at h
      dsimp only at h
      split_ifs at h with hlength
      have hnone : cursorTagHeadBytes - file.length = 0 := by
        rw [List.length_take] at hlength
        omega
      rw [hnone, List.take_zero, List.append_nil, hfind]
      dsimp only
      rw [if_pos hlength]
      exact h

theorem fileTag_append {file : Bytes} {tag : Nat} (h : fileTag file = some tag) (more : Bytes) :
    fileTag (file ++ more) = some tag := by
  rw [fileTag, Option.map_eq_some_iff] at h ⊢
  obtain ⟨first, hfirst, htag⟩ := h
  exact ⟨first, firstRecord_append hfirst more, htag⟩

theorem fileTag_pos {file : Bytes} {tag : Nat} (h : fileTag file = some tag) : 0 < tag := by
  rw [fileTag, Option.map_eq_some_iff] at h
  obtain ⟨first, -, rfl⟩ := h
  exact Nat.lt_of_lt_of_le Nat.zero_lt_one (Nat.le_max_right _ _)

/-- A file has a tag once its first record is complete. -/
theorem fileTag_of_newline {file : Bytes} (h : newline ∈ file) : ∃ tag, fileTag file = some tag := by
  rw [fileTag, firstRecord]
  dsimp only
  cases hfind : (file.take cursorTagHeadBytes).findIdx? (· == newline) with
  | some stop => exact ⟨_, rfl⟩
  | none =>
      rw [List.findIdx?_eq_none_iff] at hfind
      have hlength : (file.take cursorTagHeadBytes).length = cursorTagHeadBytes := by
        rw [List.length_take]
        refine Nat.min_eq_left (Nat.le_of_not_lt fun hlt => ?_)
        rw [List.take_of_length_le (Nat.le_of_lt hlt)] at hfind
        exact absurd (hfind newline h) (by decide)
      dsimp only
      rw [if_pos hlength]
      exact ⟨_, rfl⟩

/-- So does one that is as long as the head. -/
theorem fileTag_of_length {file : Bytes} (h : cursorTagHeadBytes ≤ file.length) :
    ∃ tag, fileTag file = some tag := by
  rw [fileTag, firstRecord]
  dsimp only
  cases (file.take cursorTagHeadBytes).findIdx? (· == newline) with
  | some stop => exact ⟨_, rfl⟩
  | none =>
      dsimp only
      rw [if_pos (by rw [List.length_take]; exact Nat.min_eq_left h)]
      exact ⟨_, rfl⟩

/-! ## Cursors -/

theorem cursor_decode (tag : Nat) {offset : Nat} (h : offset < 1 <<< cursorOffsetBits) :
    (tag <<< cursorOffsetBits ||| offset) >>> cursorOffsetBits = tag ∧
      (tag <<< cursorOffsetBits ||| offset) &&& (1 <<< cursorOffsetBits - 1) = offset := by
  rw [Nat.one_shiftLeft] at h ⊢
  rw [← Nat.shiftLeft_add_eq_or_of_lt h, Nat.shiftRight_eq_div_pow, Nat.and_two_pow_sub_one_eq_mod,
    Nat.shiftLeft_eq]
  constructor
  · rw [Nat.mul_comm, Nat.mul_add_div (Nat.two_pow_pos _), Nat.div_eq_of_lt h, Nat.add_zero]
  · rw [Nat.mul_comm, Nat.mul_add_mod, Nat.mod_eq_of_lt h]

/-- A cursor for a place in a file that has a tag. -/
theorem cursor_tagged {α : Type} {r : ConsoleRead α} {tag : Nat} (htag : r.tag = some tag)
    (hpos : 0 < r.next) (hlt : r.next < 1 <<< cursorOffsetBits) :
    r.cursor r.next = tag <<< cursorOffsetBits ||| r.next := by
  rw [ConsoleRead.cursor, htag]
  exact if_pos ⟨hpos, hlt⟩

theorem cursor_zero {α : Type} {r : ConsoleRead α} (h : r.next = 0) : r.cursor r.next = 0 := by
  rw [ConsoleRead.cursor, h]
  cases r.tag with
  | none => rfl
  | some tag => exact if_neg fun hand => Nat.lt_irrefl 0 hand.1

/-! ## Which file a read goes to -/

section Reads

variable {α : Type} (parse : Bytes → Option α) {tag offset : Nat} {current : Bytes}
  (tailBytes window : Nat)

theorem readConsoleCursor_zero (current : Bytes) (rotated : Option Bytes) :
    readConsoleCursor parse (some current) rotated (some 0) tailBytes window =
      some (finish current (readOpenCapture parse current (some 0) tailBytes window) false) :=
  rfl

/-- The file the cursor is for is the current one. -/
theorem readConsoleCursor_current (hoffset : offset < 1 <<< cursorOffsetBits)
    (htag : fileTag current = some tag) (rotated : Option Bytes) :
    readConsoleCursor parse (some current) rotated
        (some (tag <<< cursorOffsetBits ||| offset)) tailBytes window =
      some (finish current (readOpenCapture parse current (some offset) tailBytes window)
        false) := by
  have hpos : ¬tag = 0 := Nat.ne_of_gt (fileTag_pos htag)
  obtain ⟨hshift, hmask⟩ := cursor_decode tag hoffset
  simp only [readConsoleCursor, hshift, hmask, locate, hpos, if_false, Option.bind_some, htag,
    if_true, Bool.false_eq_true, false_and, Option.map_some]

/-- It is the one kept. -/
theorem readConsoleCursor_kept {old : Bytes} (hoffset : offset < 1 <<< cursorOffsetBits)
    (htag : fileTag old = some tag) (hcurrent : fileTag current ≠ some tag) :
    readConsoleCursor parse (some current) (some old)
        (some (tag <<< cursorOffsetBits ||| offset)) tailBytes window =
      let read := readOpenCapture parse old (some offset) 0 window
      if read.2.1 ≠ offset then some (finish old (read.1, read.2.1, true) false)
      else if fileTag current = none then some (finish old (read.1, read.2.1, false) false)
      else some (finish current (readOpenCapture parse current (some 0) tailBytes window)
        false) := by
  have hpos : ¬tag = 0 := Nat.ne_of_gt (fileTag_pos htag)
  obtain ⟨hshift, hmask⟩ := cursor_decode tag hoffset
  simp only [readConsoleCursor, hshift, hmask, locate, hpos, if_false, Option.bind_some, htag,
    hcurrent, decide_true, Bool.not_true, Option.map_some]

/-- It is gone. -/
theorem readConsoleCursor_gone {rotated : Option Bytes} (hoffset : offset < 1 <<< cursorOffsetBits)
    (hpos : 0 < tag) (hcurrent : fileTag current ≠ some tag)
    (hrotated : rotated.bind fileTag ≠ some tag) :
    readConsoleCursor parse (some current) rotated
        (some (tag <<< cursorOffsetBits ||| offset)) tailBytes window =
      if fileTag current = none then
        some { lines := [], next := offset, more := false, lost := false, tag := some tag }
      else some (finish current (readOpenCapture parse current (some 0) tailBytes window)
        true) := by
  have hne : ¬tag = 0 := Nat.ne_of_gt hpos
  obtain ⟨hshift, hmask⟩ := cursor_decode tag hoffset
  simp only [readConsoleCursor, hshift, hmask, locate, hne, if_false, Option.bind_some,
    hcurrent, hrotated, decide_false, Bool.not_false, true_and, if_true, Option.map_some]

end Reads

end Victauri.Plugin.BackendLogs
