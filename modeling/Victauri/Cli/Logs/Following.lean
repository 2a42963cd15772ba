import Mathlib.Logic.Function.Iterate
import Victauri.Library.Run
import Victauri.Cli.Logs.Reads
import Victauri.Cli.Run

/-!
# What a follower of a capture returns

The invariant of the writer and the follower over all interleavings of their file operations: what
the polls returned comes from between where the first read ended and where the follower is, and
since the last loss a poll told of it is all there is.
-/

namespace Victauri.Cli.Logs

open Library Plugin.BackendLogs

namespace System

variable {α : Type} {parse : Bytes → Option α} {limit : Nat} {s t : System α}

/-! ## What was returned -/

/-- The lines of all polls. -/
def returned (results : List (List α × Bool)) : List α := results.flatMap Prod.fst

variable (parse) in
/-- What the polls returned, with the follower at `place`. -/
structure Accounts (older : List Bytes) (current : Bytes) (start : Nat × Nat)
    (results : List (List α × Bool)) (place : Nat × Nat) : Prop where
  start_le : start.1 ≤ older.length
  place_le : place.1 ≤ older.length
  once : ∃ before, Between parse older current start before place ∧
    (returned results).Sublist (before.map Prod.snd)
  /-- Since a poll that told of a loss, or since the start. -/
  exact : ∃ base earlier later since, base.1 ≤ older.length ∧ results = earlier ++ later ∧
    Between parse older current base since place ∧ returned later = since.map Prod.snd ∧
    (base = start ∧ earlier = [] ∨ ∃ lines rest, later = (lines, true) :: rest)

section Accounts

variable {older : List Bytes} {current : Bytes} {start place place' : Nat × Nat}
  {results : List (List α × Bool)} {lines : List (Nat × α)}

theorem returned_append (results more : List (List α × Bool)) :
    returned (results ++ more) = returned results ++ returned more :=
  List.flatMap_append

theorem Accounts.empty (h : start.1 ≤ older.length) :
    Accounts parse older current start [] start := {
  start_le := h
  place_le := h
  once := ⟨[], .refl _ _ _, List.Sublist.refl _⟩
  exact := ⟨start, [], [], [], h, rfl, .refl _ _ _, rfl, .inl ⟨rfl, rfl⟩⟩ }

theorem Accounts.append (h : Accounts parse older current start results place) (bytes : Bytes) :
    Accounts parse older (current ++ bytes) start results place := by
  obtain ⟨before, hbefore, honce⟩ := h.once
  obtain ⟨base, earlier, later, since, hbase, hresults, hsince, hlater, hfrom⟩ := h.exact
  exact {
    start_le := h.start_le
    place_le := h.place_le
    once := ⟨before, hbefore.append bytes, honce⟩
    exact := ⟨base, earlier, later, since, hbase, hresults, hsince.append bytes, hlater, hfrom⟩ }

theorem Accounts.create (h : Accounts parse older current start results place) :
    Accounts parse (older ++ [current]) [] start results place := by
  obtain ⟨before, hbefore, honce⟩ := h.once
  obtain ⟨base, earlier, later, since, hbase, hresults, hsince, hlater, hfrom⟩ := h.exact
  have hlength : older.length ≤ (older ++ [current]).length := by simp
  exact {
    start_le := Nat.le_trans h.start_le hlength
    place_le := Nat.le_trans h.place_le hlength
    once := ⟨before, hbefore.create h.start_le h.place_le, honce⟩
    exact := ⟨base, earlier, later, since, Nat.le_trans hbase hlength, hresults,
      hsince.create hbase h.place_le, hlater, hfrom⟩ }

/-- A poll that returns what comes next. -/
theorem Accounts.read (h : Accounts parse older current start results place)
    (hlines : Between parse older current place lines place') (hplace : place'.1 ≤ older.length) :
    Accounts parse older current start (results ++ [(lines.map Prod.snd, false)]) place' := by
  obtain ⟨before, hbefore, honce⟩ := h.once
  obtain ⟨base, earlier, later, since, hbase, hresults, hsince, hlater, hfrom⟩ := h.exact
  have hreturned : returned [(lines.map Prod.snd, false)] = lines.map Prod.snd :=
    List.flatMap_singleton _ _
  constructor
  · exact h.start_le
  · exact hplace
  · refine ⟨before ++ lines, hbefore.trans hlines, ?_⟩
    rw [returned_append, hreturned, List.map_append]
    exact honce.append (List.Sublist.refl _)
  · refine ⟨base, earlier, later ++ [(lines.map Prod.snd, false)], since ++ lines, hbase, ?_,
      hsince.trans hlines, ?_, ?_⟩
    · rw [hresults, List.append_assoc]
    · rw [returned_append, hreturned, hlater, List.map_append]
    · rcases hfrom with hstart | ⟨first, rest, hlost⟩
      · exact .inl hstart
      · refine .inr ⟨first, rest ++ [(lines.map Prod.snd, false)], ?_⟩
        rw [hlost]
        rfl

theorem Accounts.move (h : Accounts parse older current start results place)
    (hnothing : Between parse older current place [] place') (hplace : place'.1 ≤ older.length) :
    Accounts parse older current start results place' := by
  obtain ⟨before, hbefore, honce⟩ := h.once
  obtain ⟨base, earlier, later, since, hbase, hresults, hsince, hlater, hfrom⟩ := h.exact
  constructor
  · exact h.start_le
  · exact hplace
  · refine ⟨before, ?_, honce⟩
    rw [← List.append_nil before]
    exact hbefore.trans hnothing
  · refine ⟨base, earlier, later, since, hbase, hresults, ?_, hlater, hfrom⟩
    rw [← List.append_nil since]
    exact hsince.trans hnothing

/-- A poll that tells of a loss and returns a later file's first records. -/
theorem Accounts.lose (h : Accounts parse older current start results place) {file : Nat}
    (hlt : place.1 < file) (hfile : file ≤ older.length)
    (hlines : Between parse older current (file, 0) lines place') (hplace : place'.1 ≤ older.length) :
    Accounts parse older current start (results ++ [(lines.map Prod.snd, true)]) place' := by
  obtain ⟨before, hbefore, honce⟩ := h.once
  obtain ⟨skipped, hskipped⟩ : ∃ skipped, Between parse older current place skipped (file, 0) :=
    Between.skip hlt hfile
  have hreturned : returned [(lines.map Prod.snd, true)] = lines.map Prod.snd :=
    List.flatMap_singleton _ _
  constructor
  · exact h.start_le
  · exact hplace
  · refine ⟨before ++ skipped ++ lines, (hbefore.trans hskipped).trans hlines, ?_⟩
    rw [returned_append, hreturned, List.map_append, List.map_append]
    exact (honce.trans (List.sublist_append_left _ _)).append (List.Sublist.refl _)
  · exact ⟨(file, 0), results, [(lines.map Prod.snd, true)], lines, hfile, rfl, hlines, hreturned,
      .inr ⟨lines.map Prod.snd, [], rfl⟩⟩

end Accounts

/-! ## The writer -/

/-- One whole line that a read can hold. -/
def IsRecord (rec : Bytes) : Prop := rec.getLast? = some newline ∧ rec.length ≤ maxRead

/-- The record that waits for a rotation. -/
def pending : Writer → Option Bytes
  | .idle => none
  | .unlinked rec | .renamed rec | .opened rec => some rec

/-- What holds of the files whatever the follower does. -/
structure Files (s : System α) : Prop where
  record : ∀ rec, pending s.writer = some rec → IsRecord rec
  rotated : ∀ old, s.rotated = some old → old ≤ s.older.length ∧ s.older.length ≤ old + 1
  renamed : ∀ rec, s.writer = .renamed rec → s.rotated = some s.older.length
  whole : Whole s.current
  capped : ∀ file ∈ s.files, Capped file

theorem whole_append (bs : Bytes) {rec : Bytes} (hrec : rec.getLast? = some newline) :
    Whole (bs ++ rec) := by
  right
  rw [List.getLast?_append, hrec]
  rfl

theorem capped_nil : Capped [] := by
  intro start hfits
  have hpos : 0 < maxRead := by decide
  rw [List.length_nil] at hfits
  omega

/-- A record more, no longer than one read. -/
theorem capped_append {bs rec : Bytes} (h : Capped bs) (hwhole : Whole bs)
    (hrec : IsRecord rec) : Capped (bs ++ rec) := by
  obtain ⟨hrec, hlength⟩ := hrec
  intro start hfits
  have hpos : 0 < maxRead := by decide
  rw [List.length_append] at hfits
  by_cases hbefore : start + maxRead ≤ bs.length
  · rw [List.drop_append_of_le_length (by omega), List.take_append_of_le_length (by
      rw [List.length_drop]
      omega)]
    exact h start hbefore
  · -- the last byte of the window, or the last of what was there before
    by_cases hend : start + maxRead = bs.length + rec.length
    · rw [List.take_of_length_le (by
        rw [List.length_drop, List.length_append]
        omega)]
      apply List.mem_of_getLast?
      rw [List.getLast?_drop, if_neg (by rw [List.length_append]; omega), List.getLast?_append, hrec]
      rfl
    · have hstart : start < bs.length := by omega
      have hlast : bs.getLast? = some newline := by
        rcases hwhole with rfl | hlast
        · exact absurd hstart (Nat.not_lt_zero start)
        · exact hlast
      rw [List.drop_append_of_le_length (Nat.le_of_lt hstart), List.take_append,
        List.mem_append]
      left
      rw [List.take_of_length_le (by rw [List.length_drop]; omega)]
      apply List.mem_of_getLast?
      rw [List.getLast?_drop, if_neg (Nat.not_le.mpr hstart), hlast]

variable (limit) in
/-- What is assumed of a step: a record is one whole line that a read can hold, and where a poll
looks at another file than the one it follows, their heads tell them apart. -/
def Admits (s : System α) : Event → Prop
  | .write rec => IsRecord rec
  | .writer => True
  | .poll =>
      match s.poll with
      | .head file => file ≠ s.file →
          sameCapture s.cursor.head (captureHead (s.content file)) = false
      | .oldHead _ _ old => old ≠ s.file →
          sameCapture s.cursor.head (captureHead (s.content old)) = false
      | _ => True

variable (parse limit) in
def Step (s : System α) (e : Event) (t : System α) : Prop :=
  s.Admits e ∧ t = s.next parse limit e

theorem content_eq {file : Nat} (h : file ≤ s.older.length) :
    s.files[file]? = some (s.content file) := by
  have hlt : file < s.files.length := by
    unfold files
    rw [List.length_append, List.length_singleton]
    omega
  unfold content
  rw [List.getElem?_eq_getElem hlt]
  rfl

theorem content_older {file : Nat} (h : file < s.older.length) : s.content file = s.older[file] := by
  unfold content files
  rw [List.getElem?_append_left h, List.getElem?_eq_getElem h]
  rfl

theorem Files.content_capped (h : s.Files) {file : Nat} (hfile : file ≤ s.older.length) :
    Capped (s.content file) :=
  h.capped _ (List.mem_of_getElem? (content_eq hfile))

variable (parse) in
/-- A step of the writer leaves the follower where it is, and only adds to the files. -/
structure Grows (s t : System α) : Prop where
  poll : t.poll = s.poll
  cursor : t.cursor = s.cursor
  file : t.file = s.file
  start : t.start = s.start
  results : t.results = s.results
  older : s.older.length ≤ t.older.length
  content : ∀ file, file ≤ s.older.length → s.content file <+: t.content file
  complete : ∀ file, file < s.older.length → t.content file = s.content file
  accounts : ∀ place, Accounts parse s.older s.current s.start s.results place →
    Accounts parse t.older t.current s.start s.results place

variable (parse) in
theorem grows_append (s : System α) (rec : Bytes) : Grows parse s (s.append rec) := by
  have hcontent : ∀ file, file ≤ s.older.length → s.content file <+: (s.append rec).content file ∧
      (file < s.older.length → (s.append rec).content file = s.content file) := by
    intro file hfile
    obtain ⟨extra, hgrown, hcomplete⟩ := getElem?_grown (content_eq hfile) rec
    have hextra : (s.append rec).content file = s.content file ++ extra := by
      change ((s.older ++ [s.current ++ rec])[file]?).getD [] = _
      rw [hgrown]
      rfl
    constructor
    · exact ⟨extra, hextra.symm⟩
    · intro hlt
      rw [hextra, hcomplete hlt, List.append_nil]
  exact {
    poll := rfl
    cursor := rfl
    file := rfl
    start := rfl
    results := rfl
    older := Nat.le_refl _
    content := fun file hfile => (hcontent file hfile).1
    complete := fun file hfile => (hcontent file (Nat.le_of_lt hfile)).2 hfile
    accounts := fun _ h => h.append rec }

/-- A step that only changes what names what. -/
theorem Grows.of_names (hpoll : t.poll = s.poll) (hcursor : t.cursor = s.cursor)
    (hfile : t.file = s.file) (hstart : t.start = s.start) (hresults : t.results = s.results)
    (holder : t.older = s.older) (hcurrent : t.current = s.current) :
    Grows parse s t := by
  have hcontent : ∀ file, t.content file = s.content file := by
    intro file
    change ((t.older ++ [t.current])[file]?).getD [] = ((s.older ++ [s.current])[file]?).getD []
    rw [holder, hcurrent]
  exact {
    poll := hpoll
    cursor := hcursor
    file := hfile
    start := hstart
    results := hresults
    older := Nat.le_of_eq (congrArg List.length holder.symm)
    content := fun file _ => hcontent file ▸ List.prefix_refl _
    complete := fun file _ => hcontent file
    accounts := fun _ h => by rwa [holder, hcurrent] }

theorem Files.append (h : s.Files) {rec : Bytes} (hrec : IsRecord rec) : (s.append rec).Files := {
  record := h.record
  rotated := h.rotated
  renamed := h.renamed
  whole := whole_append s.current hrec.1
  capped := by
    intro file hfile
    change file ∈ s.older ++ [s.current ++ rec] at hfile
    rw [List.mem_append, List.mem_singleton] at hfile
    rcases hfile with hold | rfl
    · exact h.capped file (List.mem_append_left _ hold)
    · exact capped_append (h.capped _ (List.mem_append_right _ (List.mem_singleton_self _)))
        h.whole hrec }

variable (parse limit) in
theorem Files.write (h : s.Files) {rec : Bytes} (hrec : IsRecord rec) :
    (s.write limit rec).Files ∧ Grows parse s (s.write limit rec) := by
  unfold System.write
  split_ifs
  · exact ⟨h.append hrec, grows_append parse s rec⟩
  · refine ⟨?_, .of_names rfl rfl rfl rfl rfl rfl rfl⟩
    exact {
      record := fun rec' hpending => by
        cases hpending
        exact hrec
      rotated := fun _ hold => absurd hold.symm (Option.some_ne_none _)
      renamed := fun _ hrenamed => Writer.noConfusion hrenamed
      whole := h.whole
      capped := h.capped }

/-- The new file of a rotation. -/
theorem Files.opened (h : s.Files) {rec : Bytes} (hwriter : s.writer = .renamed rec) :
    (s.writerNext).Files ∧ Grows parse s s.writerNext := by
  have hnext : s.writerNext = { s with
      older := s.older ++ [s.current], current := [], named := true, written := 0,
      writer := .opened rec } := by
    unfold writerNext
    rw [hwriter]
  rw [hnext]
  have hlength : (s.older ++ [s.current]).length = s.older.length + 1 := by simp
  have hcontent : ∀ file, file ≤ s.older.length →
      ((s.older ++ [s.current] ++ [[]])[file]?).getD [] = s.content file := by
    intro file hfile
    unfold content files
    rw [List.getElem?_append_left (by omega)]
  constructor
  · exact {
      record := fun rec' hpending => by
        cases hpending
        exact h.record rec (by rw [hwriter]; rfl)
      rotated := fun old hold => by
        have hrotated := h.renamed rec hwriter
        rw [show s.rotated = some old from hold] at hrotated
        cases hrotated
        dsimp only
        omega
      renamed := fun _ hrenamed => Writer.noConfusion hrenamed
      whole := .inl rfl
      capped := by
        intro file hfile
        change file ∈ s.older ++ [s.current] ++ [[]] at hfile
        rw [List.mem_append, List.mem_singleton] at hfile
        rcases hfile with hold | rfl
        · exact h.capped file hold
        · exact capped_nil }
  · exact {
      poll := rfl
      cursor := rfl
      file := rfl
      start := rfl
      results := rfl
      older := by
        dsimp only
        omega
      content := fun file hfile => by
        have hsame : ((s.older ++ [s.current] ++ [[]])[file]?).getD [] = s.content file :=
          hcontent file hfile
        exact hsame ▸ List.prefix_refl _
      complete := fun file hfile => hcontent file (Nat.le_of_lt hfile)
      accounts := fun _ haccounts => haccounts.create }

variable (parse) in
theorem Files.writerNext (h : s.Files) :
    s.writerNext.Files ∧ Grows parse s s.writerNext := by
  cases hwriter : s.writer with
  | idle =>
      have hnext : s.writerNext = s := by
        unfold System.writerNext
        rw [hwriter]
      rw [hnext]
      exact ⟨h, .of_names rfl rfl rfl rfl rfl rfl rfl⟩
  | unlinked rec =>
      have hnext : s.writerNext = { s with
          rotated := some s.older.length, named := false, writer := .renamed rec } := by
        unfold System.writerNext
        rw [hwriter]
      rw [hnext]
      refine ⟨?_, .of_names rfl rfl rfl rfl rfl rfl rfl⟩
      exact {
        record := fun rec' hpending => by
          cases hpending
          exact h.record rec (by rw [hwriter]; rfl)
        rotated := fun old hold => by
          cases hold
          exact ⟨Nat.le_refl _, Nat.le_succ _⟩
        renamed := fun _ _ => rfl
        whole := h.whole
        capped := h.capped }
  | renamed rec => exact h.opened hwriter
  | opened rec =>
      have hnext : s.writerNext = { s.append rec with writer := .idle } := by
        unfold System.writerNext
        rw [hwriter]
      rw [hnext]
      have happend := h.append (h.record rec (by rw [hwriter]; rfl))
      constructor
      · exact {
          record := fun _ hpending => absurd hpending.symm (Option.some_ne_none _)
          rotated := happend.rotated
          renamed := fun _ hrenamed => Writer.noConfusion hrenamed
          whole := happend.whole
          capped := happend.capped }
      · have hgrows := grows_append parse s rec
        exact {
          poll := hgrows.poll
          cursor := hgrows.cursor
          file := hgrows.file
          start := hgrows.start
          results := hgrows.results
          older := hgrows.older
          content := hgrows.content
          complete := hgrows.complete
          accounts := hgrows.accounts }

/-! ## The follower -/

/-- A head that was read from this file. -/
def IsHead (s : System α) (head : Bytes) (file : Nat) : Prop :=
  head <+: s.content file ∧ head.length ≤ captureHeadBytes

/-- The cursor is in its file. -/
structure Cursored (s : System α) : Prop where
  head : s.IsHead s.cursor.head s.file
  file_le : s.file ≤ s.older.length
  offset_le : s.cursor.offset ≤ (s.content s.file).length

variable (parse) in
/-- The polls are accounted for up to a place. -/
def AccountsTo (s : System α) (place : Nat × Nat) : Prop :=
  Accounts parse s.older s.current s.start s.results place

variable (parse) in
/-- The follower is where its cursor says. -/
structure Stands (s : System α) : Prop where
  accounts : s.AccountsTo parse (s.file, s.cursor.offset)
  cursored : s.Cursored

variable (parse) in
/-- What holds before each operation of the follower. -/
def Follows (s : System α) : Prop :=
  match s.poll with
  | .attach => s.results = []
  | .attachHead file => s.results = [] ∧ file ≤ s.older.length
  | .attachLength file head => s.results = [] ∧ file ≤ s.older.length ∧ s.IsHead head file
  | .attachBytes file head len =>
      s.results = [] ∧ file ≤ s.older.length ∧ s.IsHead head file ∧
        len ≤ (s.content file).length
  | .idle => s.Stands parse
  | .head file => s.Stands parse ∧ s.file ≤ file ∧ file ≤ s.older.length
  | .old file head =>
      s.Stands parse ∧ s.file < file ∧ file ≤ s.older.length ∧ s.IsHead head file
  | .oldHead file head old =>
      s.Stands parse ∧ s.file < file ∧ file ≤ s.older.length ∧ s.IsHead head file ∧
        old ≤ s.older.length ∧ file ≤ old + 1
  | .oldLength file head old =>
      s.Stands parse ∧ old = s.file ∧ file = s.file + 1 ∧ file ≤ s.older.length ∧
        s.IsHead head file
  | .oldBytes file head old len =>
      s.Stands parse ∧ old = s.file ∧ file = s.file + 1 ∧ file ≤ s.older.length ∧
        s.IsHead head file ∧ s.cursor.offset ≤ len
  | .length file false => s.Stands parse ∧ s.file = file
  | .bytes file false len => s.Stands parse ∧ s.file = file ∧ s.cursor.offset ≤ len
  -- the loss is not told yet
  | .length file true =>
      s.Cursored ∧ s.file = file ∧ s.cursor.offset = 0 ∧
        ∃ place : Nat × Nat, s.AccountsTo parse place ∧ place.1 < file
  | .bytes file true _ =>
      s.Cursored ∧ s.file = file ∧ s.cursor.offset = 0 ∧
        ∃ place : Nat × Nat, s.AccountsTo parse place ∧ place.1 < file

theorem captureHead_isHead (s : System α) (file : Nat) :
    s.IsHead (captureHead (s.content file)) file := by
  constructor
  · exact List.take_prefix _ _
  · unfold captureHead
    rw [List.length_take]
    exact Nat.min_le_left _ _

/-! ### The writer goes on -/

theorem IsHead.grows (h : Grows parse s t) {head : Bytes} {file : Nat}
    (hfile : file ≤ s.older.length) (hhead : s.IsHead head file) : t.IsHead head file :=
  ⟨hhead.1.trans (h.content file hfile), hhead.2⟩

theorem AccountsTo.grows (h : Grows parse s t) {place : Nat × Nat}
    (haccounts : s.AccountsTo parse place) : t.AccountsTo parse place := by
  unfold AccountsTo at haccounts ⊢
  rw [h.start, h.results]
  exact h.accounts place haccounts

theorem Cursored.grows (h : Grows parse s t) (hcursored : s.Cursored) : t.Cursored := by
  constructor
  · rw [h.cursor, h.file]
    exact hcursored.head.grows h hcursored.file_le
  · rw [h.file]
    exact Nat.le_trans hcursored.file_le h.older
  · rw [h.cursor, h.file]
    exact Nat.le_trans hcursored.offset_le (h.content _ hcursored.file_le).length_le

theorem Stands.grows (h : Grows parse s t) (hstands : s.Stands parse) : t.Stands parse := by
  constructor
  · rw [h.file, h.cursor]
    exact hstands.accounts.grows h
  · exact hstands.cursored.grows h

theorem Follows.grows (h : Grows parse s t) (hfollows : s.Follows parse) : t.Follows parse := by
  have holder := h.older
  unfold Follows at hfollows ⊢
  rw [h.poll, h.file, h.cursor, h.results]
  split at hfollows
  · exact hfollows
  · exact ⟨hfollows.1, Nat.le_trans hfollows.2 holder⟩
  · obtain ⟨hresults, hfile, hhead⟩ := hfollows
    exact ⟨hresults, Nat.le_trans hfile holder, hhead.grows h hfile⟩
  · obtain ⟨hresults, hfile, hhead, hlen⟩ := hfollows
    exact ⟨hresults, Nat.le_trans hfile holder, hhead.grows h hfile,
      Nat.le_trans hlen (h.content _ hfile).length_le⟩
  · exact hfollows.grows h
  · exact ⟨hfollows.1.grows h, hfollows.2.1, Nat.le_trans hfollows.2.2 holder⟩
  · obtain ⟨hstands, hlt, hfile, hhead⟩ := hfollows
    exact ⟨hstands.grows h, hlt, Nat.le_trans hfile holder, hhead.grows h hfile⟩
  · obtain ⟨hstands, hlt, hfile, hhead, hold, hnext⟩ := hfollows
    exact ⟨hstands.grows h, hlt, Nat.le_trans hfile holder, hhead.grows h hfile,
      Nat.le_trans hold holder, hnext⟩
  · obtain ⟨hstands, hold, hnext, hfile, hhead⟩ := hfollows
    exact ⟨hstands.grows h, hold, hnext, Nat.le_trans hfile holder, hhead.grows h hfile⟩
  · obtain ⟨hstands, hold, hnext, hfile, hhead, hlen⟩ := hfollows
    exact ⟨hstands.grows h, hold, hnext, Nat.le_trans hfile holder, hhead.grows h hfile, hlen⟩
  · exact ⟨hfollows.1.grows h, hfollows.2⟩
  · exact ⟨hfollows.1.grows h, hfollows.2⟩
  · obtain ⟨hcursored, hfile, hoffset, place, haccounts, hlt⟩ := hfollows
    exact ⟨hcursored.grows h, hfile, hoffset, place, haccounts.grows h, hlt⟩
  · obtain ⟨hcursored, hfile, hoffset, place, haccounts, hlt⟩ := hfollows
    exact ⟨hcursored.grows h, hfile, hoffset, place, haccounts.grows h, hlt⟩


/-! ### A poll goes on -/

variable (parse) in
/-- One read at the cursor. -/
theorem Cursored.reads (h : s.Cursored) {len : Nat} (hlen : s.cursor.offset ≤ len) :
    ∃ lines next, readOpenCapture parse len (s.content s.file) (some s.cursor.offset) =
        (lines.map Prod.snd, next) ∧
      Between parse s.older s.current (s.file, s.cursor.offset) lines (s.file, next) ∧
      next ≤ (s.content s.file).length ∧
      (Capped (s.content s.file) → next = s.cursor.offset →
        newline ∉ (s.content s.file).drop s.cursor.offset) := by
  obtain ⟨taken, rest, hdrop, hwhole, hread, hstuck⟩ :=
    readOpenCapture_some parse (s.content s.file) hlen
  refine ⟨_, _, hread, .read (content_eq h.file_le) h.offset_le hdrop hwhole, ?_, ?_⟩
  · have hlength := congrArg List.length hdrop
    rw [List.length_drop, List.length_append] at hlength
    have := h.offset_le
    omega
  · intro hcapped hnext
    apply hstuck hcapped
    apply List.length_eq_zero_iff.mp
    omega

/-- Only the next operation is another. -/
theorem Stands.goes (h : s.Stands parse) (poll : Poll) :
    ({ s with poll := poll } : System α).Stands parse := {
  accounts := h.accounts
  cursored := ⟨h.cursored.head, h.cursored.file_le, h.cursored.offset_le⟩ }

theorem Stands.waits (h : s.Stands parse) : (s.answer [] false).Stands parse := {
  accounts := Accounts.read h.accounts (.refl _ _ _) h.accounts.place_le
  cursored := ⟨h.cursored.head, h.cursored.file_le, h.cursored.offset_le⟩ }

/-- A read that is the poll's answer. -/
theorem Stands.answers (h : s.Stands parse) {lines : List (Nat × α)} {next : Nat}
    (hlines : Between parse s.older s.current (s.file, s.cursor.offset) lines (s.file, next))
    (hnext : next ≤ (s.content s.file).length) :
    ({ s with cursor := { s.cursor with offset := next } }.answer (lines.map Prod.snd)
      false).Stands parse := {
  accounts := Accounts.read h.accounts hlines h.accounts.place_le
  cursored := ⟨h.cursored.head, h.cursored.file_le, hnext⟩ }

theorem Stands.settle_lost (h : s.Stands parse) {file : Nat} {head : Bytes} (hlt : s.file < file)
    (hfile : file ≤ s.older.length) (hhead : s.IsHead head file) :
    (s.settle file head true).Follows parse := by
  unfold settle
  split_ifs
  · exact h.waits
  · exact ⟨⟨hhead, hfile, Nat.zero_le _⟩, rfl, rfl, _, h.accounts, hlt⟩

theorem Stands.settle_drained (h : s.Stands parse) {file : Nat} {head : Bytes}
    (hfile : file ≤ s.older.length) (hhead : s.IsHead head file)
    (hnothing : Between parse s.older s.current (s.file, s.cursor.offset) [] (file, 0)) :
    (s.settle file head false).Follows parse := by
  unfold settle
  split_ifs
  · exact h.waits
  · exact ⟨⟨Accounts.move h.accounts hnothing hfile, ⟨hhead, hfile, Nat.zero_le _⟩⟩, rfl⟩

/-- Under the capture's name: the file that is followed, or a newer one. -/
theorem Stands.head (h : s.Stands parse) {file : Nat} (hpoll : s.poll = .head file)
    (hle : s.file ≤ file) (hfile : file ≤ s.older.length) (hadmits : s.Admits .poll) :
    (s.pollNext parse).Follows parse := by
  have hcursored := h.cursored
  unfold Admits at hadmits
  rw [hpoll] at hadmits
  unfold pollNext
  rw [hpoll]
  dsimp only
  by_cases hown : file = s.file
  · subst hown
    rw [if_pos (sameCapture_own hcursored.head.1 hcursored.head.2)]
    refine ⟨⟨h.accounts, ⟨?_, hcursored.file_le, hcursored.offset_le⟩⟩, rfl⟩
    change s.IsHead (if _ then _ else _) s.file
    split_ifs
    · exact captureHead_isHead s s.file
    · exact hcursored.head
  · rw [hadmits hown, if_neg Bool.false_ne_true]
    exact ⟨h.goes _, Nat.lt_of_le_of_ne hle (Ne.symm hown), hfile, captureHead_isHead s file⟩

/-- Under the rotated file's name: the file that is followed, or another. -/
theorem Stands.oldHead (h : s.Stands parse) {file old : Nat} {head : Bytes}
    (hpoll : s.poll = .oldHead file head old) (hlt : s.file < file)
    (hfile : file ≤ s.older.length) (hhead : s.IsHead head file) (hnext : file ≤ old + 1)
    (hadmits : s.Admits .poll) : (s.pollNext parse).Follows parse := by
  have hcursored := h.cursored
  unfold Admits at hadmits
  rw [hpoll] at hadmits
  unfold pollNext
  rw [hpoll]
  dsimp only
  by_cases hown : old = s.file
  · subst hown
    rw [if_pos (sameCapture_own hcursored.head.1 hcursored.head.2)]
    exact ⟨h.goes _, rfl, Nat.le_antisymm hnext hlt, hfile, hhead⟩
  · rw [hadmits hown, if_neg Bool.false_ne_true]
    exact h.settle_lost hlt hfile hhead

/-- What is left of a rotated file. -/
theorem Stands.oldBytes (h : s.Stands parse) (hfiles : s.Files) {file old len : Nat} {head : Bytes}
    (hpoll : s.poll = .oldBytes file head old len) (hold : old = s.file)
    (hnext : file = s.file + 1) (hfile : file ≤ s.older.length) (hhead : s.IsHead head file)
    (hlen : s.cursor.offset ≤ len) : (s.pollNext parse).Follows parse := by
  obtain ⟨lines, next, hread, hlines, hle, hstuck⟩ := h.cursored.reads parse hlen
  unfold pollNext
  rw [hpoll]
  dsimp only
  rw [hold, hread]
  dsimp only
  split_ifs with hadvanced
  · exact h.answers hlines hle
  · rw [not_not] at hadvanced
    apply h.settle_drained hfile hhead
    rw [hnext]
    have hlt : s.file < s.older.length := by omega
    have hnone := hstuck (hfiles.content_capped h.cursored.file_le) hadvanced
    rw [content_older hlt] at hnone
    exact .finished hlt hnone

/-- The read of the current file. -/
theorem Follows.bytes (h : s.Follows parse) {file len : Nat} {lost : Bool}
    (hpoll : s.poll = .bytes file lost len) : (s.pollNext parse).Follows parse := by
  unfold Follows at h
  rw [hpoll] at h
  cases lost with
  | false =>
      obtain ⟨hstands, hfile, hlen⟩ := h
      obtain ⟨lines, next, hread, hlines, hle, -⟩ :=
        hstands.cursored.reads parse hlen
      unfold pollNext
      rw [hpoll]
      dsimp only
      rw [← hfile, hread]
      exact hstands.answers hlines hle
  | true =>
      obtain ⟨hcursored, hfile, hoffset, place, haccounts, hlt⟩ := h
      obtain ⟨lines, next, hread, hlines, hle, -⟩ :=
        hcursored.reads parse (show s.cursor.offset ≤ len by omega)
      unfold pollNext
      rw [hpoll]
      dsimp only
      rw [← hfile, hread]
      rw [hoffset] at hlines
      exact {
        accounts := Accounts.lose haccounts (hfile ▸ hlt) hcursored.file_le hlines
          hcursored.file_le
        cursored := ⟨hcursored.head, hcursored.file_le, hle⟩ }

theorem Follows.pollNext (h : s.Follows parse) (hfiles : s.Files) (hadmits : s.Admits .poll) :
    (s.pollNext parse).Follows parse := by
  have hall := h
  unfold Follows at h
  cases hpoll : s.poll with
  | attach =>
      rw [hpoll] at h
      unfold System.pollNext
      rw [hpoll]
      dsimp only
      split_ifs
      · exact ⟨h, Nat.le_refl _⟩
      · exact hall
  | attachHead file =>
      rw [hpoll] at h
      unfold System.pollNext
      rw [hpoll]
      exact ⟨h.1, h.2, captureHead_isHead s file⟩
  | attachLength file head =>
      rw [hpoll] at h
      unfold System.pollNext
      rw [hpoll]
      exact ⟨h.1, h.2.1, h.2.2, Nat.le_refl _⟩
  | attachBytes file head len =>
      rw [hpoll] at h
      obtain ⟨hresults, hfile, hhead, hlen⟩ := h
      unfold System.pollNext
      rw [hpoll]
      refine ⟨?_, hhead, hfile, readOpenCapture_none hlen⟩
      change Accounts parse _ _ _ s.results _
      rw [hresults]
      exact .empty hfile
  | idle =>
      rw [hpoll] at h
      have hstands : s.Stands parse := h
      unfold System.pollNext
      rw [hpoll]
      dsimp only
      split_ifs
      · exact ⟨hstands.goes _, hstands.cursored.file_le, Nat.le_refl _⟩
      · exact hstands.waits
  | head file =>
      rw [hpoll] at h
      exact h.1.head hpoll h.2.1 h.2.2 hadmits
  | old file head =>
      rw [hpoll] at h
      obtain ⟨hstands, hlt, hfile, hhead⟩ := h
      unfold System.pollNext
      rw [hpoll]
      dsimp only
      cases hrotated : s.rotated with
      | none => exact hstands.settle_lost hlt hfile hhead
      | some old =>
          obtain ⟨hold, hnext⟩ := hfiles.rotated old hrotated
          have hgoes := hstands.goes (.oldHead file head old)
          rw [hrotated] at hgoes
          exact ⟨hgoes, hlt, hfile, hhead, hold, Nat.le_trans hfile hnext⟩
  | oldHead file head old =>
      rw [hpoll] at h
      obtain ⟨hstands, hlt, hfile, hhead, -, hnext⟩ := h
      exact hstands.oldHead hpoll hlt hfile hhead hnext hadmits
  | oldLength file head old =>
      rw [hpoll] at h
      obtain ⟨hstands, hold, hnext, hfile, hhead⟩ := h
      unfold System.pollNext
      rw [hpoll]
      refine ⟨hstands.goes _, hold, hnext, hfile, hhead, ?_⟩
      rw [hold]
      exact hstands.cursored.offset_le
  | oldBytes file head old len =>
      rw [hpoll] at h
      obtain ⟨hstands, hold, hnext, hfile, hhead, hlen⟩ := h
      exact hstands.oldBytes hfiles hpoll hold hnext hfile hhead hlen
  | length file lost =>
      rw [hpoll] at h
      unfold System.pollNext
      rw [hpoll]
      cases lost with
      | false =>
          obtain ⟨hstands, hfile⟩ := h
          refine ⟨hstands.goes _, hfile, ?_⟩
          rw [← hfile]
          exact hstands.cursored.offset_le
      | true =>
          obtain ⟨hcursored, hrest⟩ := h
          exact ⟨⟨hcursored.head, hcursored.file_le, hcursored.offset_le⟩, hrest⟩
  | bytes file lost len => exact hall.bytes hpoll

theorem Files.pollNext (h : s.Files) : (s.pollNext parse).Files := by
  have hsame : ∀ t : System α, t.older = s.older → t.current = s.current →
      t.rotated = s.rotated → t.writer = s.writer → t.Files := by
    intro t holder hcurrent hrotated hwriter
    constructor
    · rw [hwriter]
      exact h.record
    · rw [hrotated, holder]
      exact h.rotated
    · rw [hwriter, hrotated, holder]
      exact h.renamed
    · rw [hcurrent]
      exact h.whole
    · unfold files
      rw [holder, hcurrent]
      exact h.capped
  unfold System.pollNext settle answer
  dsimp only
  split <;> (try split_ifs) <;> (try split) <;> exact hsame _ rfl rfl rfl rfl

theorem Follows.step {e : Event} (h : s.Files ∧ s.Follows parse)
    (hstep : Step parse limit s e t) : t.Files ∧ t.Follows parse := by
  obtain ⟨hadmits, rfl⟩ := hstep
  obtain ⟨hfiles, hfollows⟩ := h
  cases e with
  | write rec =>
      unfold next
      dsimp only
      split_ifs
      · obtain ⟨hnext, hgrows⟩ := hfiles.write parse limit hadmits
        exact ⟨hnext, hfollows.grows hgrows⟩
      · exact ⟨hfiles, hfollows⟩
  | writer =>
      obtain ⟨hnext, hgrows⟩ := hfiles.writerNext parse
      exact ⟨hnext, hfollows.grows hgrows⟩
  | poll => exact ⟨hfiles.pollNext, hfollows.pollNext hfiles hadmits⟩

/-! ## A poll of its own -/

variable (parse) in
/-- Some number of operations of the follower lead there. -/
def Ends (s : System α) (goal : System α → Prop) : Prop :=
  ∃ steps, goal ((pollNext parse)^[steps] s)

theorem Ends.here {goal : System α → Prop} (h : goal s) : s.Ends parse goal := ⟨0, h⟩

theorem Ends.next {goal : System α → Prop} (h : (s.pollNext parse).Ends parse goal) :
    s.Ends parse goal := by
  obtain ⟨steps, hgoal⟩ := h
  refine ⟨steps + 1, ?_⟩
  rwa [Function.iterate_succ_apply]

variable (parse) in
/-- A poll ended: it told of a loss, or went on, or had nothing to go on to. -/
structure Polled (s t : System α) : Prop where
  idle : t.poll = .idle
  answered : ∃ lines lost, t.results = s.results ++ [(lines, lost)] ∧
    (lost = false → t.file = s.file → t.cursor.offset = s.cursor.offset →
      toCome parse s.files s.file s.cursor.offset = [] ∨ s.current = [])

@[simp] theorem content_poll (s : System α) (poll : Poll) (file : Nat) :
    ({ s with poll := poll } : System α).content file = s.content file :=
  rfl

theorem content_current (s : System α) : s.content s.older.length = s.current := by
  change ((s.older ++ [s.current])[s.older.length]?).getD [] = s.current
  simp

theorem current_of_head (h : captureHead (s.content s.older.length) = []) : s.current = [] := by
  rw [content_current, captureHead, List.take_eq_nil_iff] at h
  exact h.resolve_left (by decide)

/-- After what was followed is done with. -/
theorem ends_settle {u : System α} (hresults : u.results = s.results) {file : Nat} {head : Bytes} {lost : Bool}
    (hhead : head = [] → s.current = []) (hgone : lost = false → file ≠ s.file) :
    (u.settle file head lost).Ends parse (s.Polled parse) := by
  unfold settle
  split_ifs with hempty
  · apply Ends.here
    refine ⟨rfl, [], false, ?_, fun _ _ _ => .inr (hhead hempty)⟩
    change u.results ++ _ = _
    rw [hresults]
  · apply Ends.next
    apply Ends.next
    apply Ends.here
    refine ⟨rfl, (readOpenCapture parse (u.content file).length (u.content file) (some 0)).1, lost,
      ?_, fun hlost hfile _ => absurd hfile (hgone hlost)⟩
    change u.results ++ _ = _
    rw [hresults]
    rfl

/-- A poll that finds the file it follows under the capture's name. -/
theorem Stands.polls_current (h : s.Stands parse) (hfiles : s.Files)
    (hfile : s.file = s.older.length) :
    ({ s with poll := .head s.older.length } : System α).Ends parse (s.Polled parse) := by
  obtain ⟨lines, next, hread, hlines, -, hstuck⟩ :=
    h.cursored.reads parse h.cursored.offset_le
  have hsame := sameCapture_own h.cursored.head.1 h.cursored.head.2
  rw [hfile] at hsame
  apply Ends.next
  unfold System.pollNext
  dsimp only
  rw [content_poll, if_pos hsame]
  apply Ends.next
  apply Ends.next
  apply Ends.here
  refine ⟨rfl, lines.map Prod.snd, false, ?_, fun _ _ hoffset => .inl ?_⟩
  · change s.results ++ [((readOpenCapture parse (s.content s.older.length).length
      (s.content s.older.length) (some s.cursor.offset)).1, false)] = _
    rw [← hfile, hread]
  · change (readOpenCapture parse (s.content s.older.length).length
      (s.content s.older.length) (some s.cursor.offset)).2 = s.cursor.offset at hoffset
    rw [← hfile, hread] at hoffset
    have hnone := hstuck (hfiles.content_capped h.cursored.file_le) hoffset
    rw [hfile, content_current] at hnone
    unfold files
    rw [hfile, toCome_last, linesFrom_unfinished parse _ hnone]

/-- A poll that finds a newer file there. -/
theorem polls_newer (hfile : s.file < s.older.length)
    (hother : ∀ file ≤ s.older.length, file ≠ s.file →
      sameCapture s.cursor.head (captureHead (s.content file)) = false)
    (hfiles : s.Files) :
    ({ s with poll := .head s.older.length } : System α).Ends parse (s.Polled parse) := by
  have hne : s.older.length ≠ s.file := (Nat.ne_of_lt hfile).symm
  have hsettle (poll : Poll) (lost : Bool) :
      (({ s with poll := poll } : System α).settle s.older.length
        (captureHead (s.content s.older.length)) lost).Ends parse (s.Polled parse) :=
    ends_settle rfl current_of_head fun _ => hne
  apply Ends.next
  unfold System.pollNext
  dsimp only
  rw [content_poll, hother _ (Nat.le_refl _) hne, if_neg Bool.false_ne_true]
  apply Ends.next
  unfold System.pollNext
  dsimp only
  split
  · exact hsettle _ true
  · rename_i old hrotated
    apply Ends.next
    unfold System.pollNext
    dsimp only
    split_ifs with hsame
    · have hown : old = s.file := by
        by_contra hold
        change sameCapture s.cursor.head (captureHead (s.content old)) = true at hsame
        rw [hother old (hfiles.rotated old hrotated).1 hold] at hsame
        exact Bool.false_ne_true hsame
      subst hown
      apply Ends.next
      apply Ends.next
      unfold System.pollNext
      dsimp only
      split_ifs with hadvanced
      · apply Ends.here
        exact ⟨rfl, _, false, rfl, fun _ _ hoffset => absurd hoffset hadvanced⟩
      · exact hsettle _ false
    · exact hsettle _ true

end System

/-! ## Results -/

variable {α : Type}

/-- What the polls returned, between two polls. -/
structure Followed (parse : Bytes → Option α) (s : System α) : Prop where
  /-- Each record at most once, and in order. -/
  once : ∃ before, toCome parse s.files s.start.1 s.start.2 =
      before ++ toCome parse s.files s.file s.cursor.offset ∧
    (System.returned s.results).Sublist (before.map Prod.snd)
  /-- All of them since the start, or since a poll that told of a loss. -/
  exact : ∃ base earlier later since, s.results = earlier ++ later ∧
    toCome parse s.files base.1 base.2 =
      since ++ toCome parse s.files s.file s.cursor.offset ∧
    System.returned later = since.map Prod.snd ∧
    (base = s.start ∧ earlier = [] ∨ ∃ lines rest, later = (lines, true) :: rest)
  /-- The next poll goes on, where the writer does nothing meanwhile. -/
  progress : s.named = true → (∀ file ≤ s.older.length, file ≠ s.file →
      sameCapture s.cursor.head (captureHead (s.content file)) = false) →
    s.Ends parse (s.Polled parse)

theorem capture_polls_followed {parse : Bytes → Option α} {limit : Nat} {older : List Bytes}
    {current : Bytes} {events : List System.Event} {s : System α} (hwhole : Whole current)
    (hcapped : ∀ file ∈ older ++ [current], Capped file)
    (h : Run (System.Step parse limit) (System.create older current) events s)
    (hidle : s.poll = .idle) : Followed parse s := by
  have hstart : (System.create older current : System α).Files ∧
      (System.create older current : System α).Follows parse := by
    refine ⟨?_, rfl⟩
    exact {
      record := fun _ hpending => absurd hpending.symm (Option.some_ne_none _)
      rotated := fun old hold => by
        change (if older = [] then none else some (older.length - 1)) = some old at hold
        change old ≤ older.length ∧ older.length ≤ old + 1
        split_ifs at hold
        cases hold
        omega
      renamed := fun _ hrenamed => Writer.noConfusion hrenamed
      whole := hwhole
      capped := hcapped }
  obtain ⟨hfiles, hfollows⟩ := h.invariant (fun _ _ _ hinv hstep => System.Follows.step hinv hstep) hstart
  unfold System.Follows at hfollows
  rw [hidle] at hfollows
  have hstands : s.Stands parse := hfollows
  constructor
  · obtain ⟨before, hbefore, honce⟩ := hstands.accounts.once
    exact ⟨before, hbefore.now, honce⟩
  · obtain ⟨base, earlier, later, since, -, hresults, hsince, hlater, hfrom⟩ :=
      hstands.accounts.exact
    exact ⟨base, earlier, later, since, hresults, hsince.now, hlater, hfrom⟩
  · intro hnamed hother
    have hnext : s.pollNext parse = { s with poll := .head s.older.length } := by
      unfold System.pollNext
      rw [hidle]
      exact if_pos hnamed
    apply System.Ends.next
    rw [hnext]
    rcases Nat.lt_or_eq_of_le hstands.cursored.file_le with hlt | heq
    · exact System.polls_newer hlt hother hfiles
    · exact hstands.polls_current hfiles heq

/-- A record, the first read, and a record after a rotation. -/
theorem capture_polls_followed_rotated :
    Followed some ([.write [97, 10], .poll, .poll, .poll, .poll, .write [98, 10], .writer, .writer,
      .writer, .poll, .poll, .poll, .poll, .poll, .poll, .poll, .poll].foldl
        (System.next some 3) (System.create [] [])) := by
  have hrun : Run (System.Step some 3) (System.create [] [])
      [.write [97, 10], .poll, .poll, .poll, .poll, .write [98, 10], .writer, .writer,
        .writer, .poll, .poll, .poll, .poll, .poll, .poll, .poll, .poll]
      ([.write [97, 10], .poll, .poll, .poll, .poll, .write [98, 10], .writer, .writer,
        .writer, .poll, .poll, .poll, .poll, .poll, .poll, .poll, .poll].foldl
          (System.next some 3) (System.create [] [])) := by
    refine .cons ⟨⟨rfl, by decide⟩, rfl⟩ (.cons ⟨trivial, rfl⟩ (.cons ⟨trivial, rfl⟩
      (.cons ⟨trivial, rfl⟩ (.cons ⟨trivial, rfl⟩ (.cons ⟨⟨rfl, by decide⟩, rfl⟩
      (.cons ⟨trivial, rfl⟩ (.cons ⟨trivial, rfl⟩ (.cons ⟨trivial, rfl⟩ (.cons ⟨trivial, rfl⟩
      (.cons ⟨fun _ => ?_, rfl⟩ (.cons ⟨trivial, rfl⟩ (.cons ⟨fun hother => ?_, rfl⟩
      (.cons ⟨trivial, rfl⟩ (.cons ⟨trivial, rfl⟩ (.cons ⟨trivial, rfl⟩ (.cons ⟨trivial, rfl⟩
      (.nil _)))))))))))))))))
    · rfl
    · exact absurd rfl hother
  exact capture_polls_followed (.inl rfl) (fun file hfile => by
    obtain rfl := List.mem_singleton.mp hfile
    exact System.capped_nil) hrun rfl


section Failure

/-- A record with `n` letters, stamped with one digit, as it is serialized: the text comes first. -/
def record (n : Nat) (stamp : UInt8) : Bytes :=
  [123, 34, 108, 34, 58, 34] ++ List.replicate n 97 ++
    [34, 44, 34, 115, 34, 58, 34, 111, 117, 116, 34, 44, 34, 116, 34, 58, stamp, 125] ++ [newline]

theorem linesFrom_record {body : Bytes} (h : newline ∉ body) (offset : Nat) :
    linesFrom some offset (body ++ [newline]) = [(offset, body ++ [newline])] := by
  have hsplit : splitInclusive (body ++ [newline]) = [body ++ [newline]] := by
    induction body with
    | nil => rfl
    | cons b body ih =>
        rw [List.mem_cons, not_or] at h
        rw [List.cons_append, splitInclusive, if_neg (Ne.symm h.1), ih h.2]
  rw [linesFrom, hsplit, readChunks, if_neg (by simp)]
  rfl

theorem write_many {α : Type} {parse : Bytes → Option α} {limit : Nat} {s : System α} {rec : Bytes}
    (n : Nat) (hidle : s.writer = .idle) (hfits : s.written + n * rec.length ≤ limit) :
    (List.replicate n (System.Event.write rec)).foldl (System.next parse limit) s =
      { s with
        current := s.current ++ (List.replicate n rec).flatten
        written := s.written + n * rec.length } := by
  induction n generalizing s with
  | zero => simp
  | succ n ih =>
      have hone : s.written + rec.length ≤ limit := by
        rw [Nat.add_mul] at hfits
        omega
      have hnext : s.next parse limit (.write rec) = s.append rec := by
        change (if s.writer = .idle then s.write limit rec else s) = _
        rw [if_pos hidle]
        exact if_pos hone
      have hrest : (s.append rec).written + n * rec.length ≤ limit := by
        change s.written + rec.length + n * rec.length ≤ limit
        rw [Nat.add_mul] at hfits
        omega
      rw [List.replicate_succ, List.foldl_cons, hnext, ih (s := s.append rec) hidle hrest,
        List.replicate_succ, List.flatten_cons, ← List.append_assoc, Nat.add_mul, Nat.one_mul,
        Nat.add_comm (n * rec.length), ← Nat.add_assoc]
      rfl

theorem record_length (n : Nat) (stamp : UInt8) : (record n stamp).length = n + 25 := by
  simp [record]

/-- A follower attaches to an empty capture, and the capture is full before it polls. -/
def attachedEarly (rec next : Bytes) : List System.Event :=
  List.replicate 4 .poll ++ List.replicate 1024 (.write rec) ++
    [.write next, .writer, .writer, .writer] ++ List.replicate 4 .poll

theorem attach_empty (limit : Nat) :
    (List.replicate 4 System.Event.poll).foldl (System.next some limit)
      (System.create [] [] : System Bytes) =
        { (System.create [] [] : System Bytes) with poll := .idle } := by
  have hopen : (System.create [] [] : System Bytes).pollNext some =
      { (System.create [] [] : System Bytes) with poll := .attachHead 0 } := rfl
  have hhead : ({ (System.create [] [] : System Bytes) with
      poll := .attachHead 0 } : System Bytes).pollNext some =
      { (System.create [] [] : System Bytes) with poll := .attachLength 0 [] } := rfl
  have hlength : ({ (System.create [] [] : System Bytes) with
      poll := .attachLength 0 [] } : System Bytes).pollNext some =
      { (System.create [] [] : System Bytes) with poll := .attachBytes 0 [] 0 } := rfl
  have hread : readOpenCapture (some : Bytes → Option Bytes) 0 [] none = ([], 0) := by
    decide
  have hbytes : ({ (System.create [] [] : System Bytes) with
      poll := .attachBytes 0 [] 0 } : System Bytes).pollNext some =
      { (System.create [] [] : System Bytes) with poll := .idle } := by
    unfold System.pollNext
    dsimp only
    rw [show (System.content { (System.create [] [] : System Bytes) with
      poll := .attachBytes 0 [] 0 } 0 : Bytes) = [] from rfl, hread]
    rfl
  simp only [List.replicate, List.foldl_cons, List.foldl_nil, System.next]
  rw [hopen, hhead, hlength, hbytes]

/-- The capture after the rotation. -/
def rotated (big : Bytes) (poll : Poll) (cursor : CaptureCursor)
    (results : List (List Bytes × Bool)) : System Bytes :=
  { older := [big]
    current := record 1 50
    named := true
    rotated := some 0
    written := 26
    writer := .idle
    poll := poll
    cursor := cursor
    file := 0
    start := (0, 0)
    results := results }

theorem rotate_full (limit : Nat) (big : Bytes) :
    ([.write (record 1 50), .writer, .writer, .writer] : List System.Event).foldl
      (System.next some limit)
        { (System.create [] [] : System Bytes) with
          poll := .idle, current := big, written := limit } =
      rotated big .idle { offset := 0, head := [] } [] := by
  have hwrite : System.next some limit
      { (System.create [] [] : System Bytes) with
        poll := .idle, current := big, written := limit } (.write (record 1 50)) =
      { (System.create [] [] : System Bytes) with
        poll := .idle
        current := big
        written := limit
        writer := .unlinked (record 1 50) } := by
    change (if limit + 26 ≤ limit then _ else _) = _
    rw [if_neg (by omega)]
    rfl
  rw [List.foldl_cons, hwrite]
  rfl

theorem poll_rotated {limit : Nat} (big : Bytes) :
    (List.replicate 4 System.Event.poll).foldl (System.next some limit)
      (rotated big .idle { offset := 0, head := [] } []) =
      rotated big .idle { offset := 26, head := record 1 50 } [([record 1 50], false)] := by
  have hcontent (poll : Poll) (cursor : CaptureCursor) :
      (rotated big poll cursor []).content 1 = record 1 50 := rfl
  have hsame : captureHead (record 1 50) = record 1 50 := by decide
  have hopen : (rotated big .idle { offset := 0, head := [] } []).pollNext some =
      rotated big (.head 1) { offset := 0, head := [] } [] := rfl
  have hhead : (rotated big (.head 1) { offset := 0, head := [] } []).pollNext some =
      rotated big (.length 1 false) { offset := 0, head := record 1 50 } [] := by
    have hpoll : (rotated big (.head 1) { offset := 0, head := [] } []).poll = .head 1 := rfl
    unfold System.pollNext
    rw [hpoll]
    dsimp only
    rw [hcontent, hsame]
    rfl
  have hlength : (rotated big (.length 1 false) { offset := 0, head := record 1 50 } []).pollNext
      some = rotated big (.bytes 1 false 26) { offset := 0, head := record 1 50 } [] := rfl
  have hread : readOpenCapture (some : Bytes → Option Bytes) 26 (record 1 50) (some 0) =
      ([record 1 50], 26) := by decide
  have hbytes : (rotated big (.bytes 1 false 26) { offset := 0, head := record 1 50 } []).pollNext
      some = rotated big .idle { offset := 26, head := record 1 50 } [([record 1 50], false)] := by
    have hpoll : (rotated big (.bytes 1 false 26) { offset := 0, head := record 1 50 } []).poll =
        .bytes 1 false 26 := rfl
    have hoffset : (rotated big (.bytes 1 false 26) { offset := 0, head := record 1 50 }
        []).cursor.offset = 0 := rfl
    unfold System.pollNext
    rw [hpoll]
    dsimp only
    rw [hcontent, hoffset, hread]
    rfl
  simp only [List.replicate, List.foldl_cons, List.foldl_nil, System.next]
  rw [hopen, hhead, hlength, hbytes]

theorem attachedEarly_run {limit : Nat} {rec : Bytes} (hfull : 1024 * rec.length = limit) :
    (attachedEarly rec (record 1 50)).foldl (System.next some limit) (System.create [] []) =
      rotated (List.replicate 1024 rec).flatten .idle { offset := 26, head := record 1 50 }
        [([record 1 50], false)] := by
  have hwritten : ([] : Bytes).length + 1024 * rec.length = limit := by
    rw [List.length_nil, Nat.zero_add, hfull]
  unfold attachedEarly
  rw [List.foldl_append, List.foldl_append, List.foldl_append, attach_empty,
    write_many 1024 rfl (Nat.le_of_eq hwritten)]
  dsimp only [System.create]
  rw [hwritten, List.nil_append]
  have hrotate := rotate_full limit (List.replicate 1024 rec).flatten
  dsimp only [System.create] at hrotate
  rw [hrotate, poll_rotated]

/-- The poll takes the new file for the one it follows, and tells of no loss. -/
theorem capture_polls_followed_fails :
    let s : System Bytes := (attachedEarly (record 65511 49) (record 1 50)).foldl
      (System.next some Run.maxCaptureBytes) (System.create [] [])
    s.poll = .idle ∧ s.start = (0, 0) ∧ s.results = [([record 1 50], false)] ∧
      s.cursor = { offset := (record 1 50).length, head := record 1 50 } ∧
      s.current = record 1 50 ∧ (0, record 65511 49) ∈ toCome some s.files 0 0 ∧
      record 65511 49 ≠ record 1 50 := by
  have hfull : 1024 * (record 65511 49).length = Run.maxCaptureBytes := by
    rw [record_length]
    rfl
  have hne : record 65511 49 ≠ record 1 50 := by
    intro h
    have hlength := congrArg List.length h
    rw [record_length, record_length] at hlength
    exact absurd hlength (by decide)
  dsimp only
  rw [attachedEarly_run hfull]
  refine ⟨rfl, rfl, rfl, rfl, rfl, ?_, hne⟩
  have hfirst : (rotated (List.replicate 1024 (record 65511 49)).flatten .idle
      { offset := 26, head := record 1 50 } [([record 1 50], false)]).files[0]? =
        some (List.replicate 1024 (record 65511 49)).flatten := rfl
  rw [toCome_of_getElem? hfirst, List.drop_zero]
  apply List.mem_append_left
  rw [List.replicate_succ, List.flatten_cons]
  have hbody : newline ∉ ([123, 34, 108, 34, 58, 34] ++ List.replicate 65511 97 ++
      [34, 44, 34, 115, 34, 58, 34, 111, 117, 116, 34, 44, 34, 116, 34, 58, 49, 125] : Bytes) := by
    simp only [List.mem_append, List.mem_replicate, not_or]
    exact ⟨⟨by decide, fun h => absurd h.2 (by decide)⟩, by decide⟩
  have hwhole : Whole (record 65511 49) := by
    right
    unfold record
    rw [List.getLast?_append]
    rfl
  rw [linesFrom_append some hwhole, List.mem_append]
  left
  have hlines : linesFrom some 0 (record 65511 49) = [(0, record 65511 49)] :=
    linesFrom_record hbody 0
  rw [hlines]
  exact List.mem_singleton_self _

end Failure

end Victauri.Cli.Logs
