import Victauri.Library.Run
import Victauri.Plugin.BackendLogs.ConsoleCapture.Records

/-!
# Following a capture

A writer appends to the current file and rotates it, and a reader reads on from the cursor of its
last read.  What it was given since it began, or since it was last told of a loss, and what is to
come for it are together the records there are from there on.
-/

namespace Victauri.Plugin.BackendLogs

open Victauri.Library

/-! ## Files, one after another -/

section Files

variable {α : Type} (parse : Bytes → Option α)

/-- The lines from a place in one file on, to the end of the last. -/
def toCome (files : List Bytes) (file offset : Nat) : List (Nat × α) :=
  match files.drop file with
  | [] => []
  | first :: rest => linesFrom parse offset (first.drop offset) ++ rest.flatMap (linesFrom parse 0)

variable {parse}

theorem toCome_last (older : List Bytes) (last : Bytes) (offset : Nat) :
    toCome parse (older ++ [last]) older.length offset =
      linesFrom parse offset (last.drop offset) := by
  rw [toCome, List.drop_left]
  exact List.append_nil _

theorem toCome_of_getElem? {files : List Bytes} {file : Nat} {content : Bytes}
    (h : files[file]? = some content) (offset : Nat) :
    toCome parse files file offset =
      linesFrom parse offset (content.drop offset) ++ toCome parse files (file + 1) 0 := by
  obtain ⟨hlt, hget⟩ := List.getElem?_eq_some_iff.mp h
  rw [toCome, List.drop_eq_getElem_cons hlt, hget, toCome]
  dsimp only
  cases files.drop (file + 1) with
  | nil => rfl
  | cons first rest => rfl

theorem toCome_append {files : List Bytes} {file : Nat} (h : file < files.length) (offset : Nat)
    (last : Bytes) : toCome parse (files ++ [last]) file offset =
      toCome parse files file offset ++ linesFrom parse 0 last := by
  rw [toCome, toCome, List.drop_append_of_le_length (Nat.le_of_lt h)]
  cases hdrop : files.drop file with
  | nil => exact absurd (List.drop_eq_nil_iff.mp hdrop) (Nat.not_le.mpr h)
  | cons first rest =>
      rw [List.cons_append]
      dsimp only
      rw [List.flatMap_append, List.flatMap_singleton, List.append_assoc]

end Files

/-! ## A reader and a writer -/

/-- All the files there have been, the newest last and then the current one; the cursor of the last
read; and what the reader was given, with where that began. -/
structure Follower (α : Type) where
  older : List Bytes
  current : Bytes
  since : Option Nat
  base : Nat × Nat
  delivered : List (Nat × α)

inductive CaptureEvent where
  | append (bytes : Bytes)
  | rotate
  | read

namespace Follower

variable {α : Type} (parse : Bytes → Option α)

def start (since : Option Nat) : Follower α :=
  { older := [], current := [], since := since, base := (0, 0), delivered := [] }

def files (s : Follower α) : List Bytes := s.older ++ [s.current]

/-- What reading on now gives. -/
def nextRead (s : Follower α) : Option (ConsoleRead α) :=
  readConsoleCursor parse (some s.current) s.older.getLast? s.since stdoutTailBytes
    consoleReadWindow

/-- What is delivered begins anew with the first read, and where a loss is told. -/
def afterRead (s : Follower α) (r : ConsoleRead α) : Follower α :=
  { s with
    since := some (r.cursor r.next)
    base :=
      if s.since = none then (s.older.length, tailStart stdoutTailBytes s.current)
      else if r.lost then (s.older.length, 0)
      else s.base
    delivered := if r.lost then r.lines else s.delivered ++ r.lines }

def next (s : Follower α) : CaptureEvent → Follower α
  | .append bytes => { s with current := s.current ++ bytes }
  | .rotate => { s with older := s.older ++ [s.current], current := [] }
  | .read => (s.nextRead parse).elim s s.afterRead

/-- No two files have the same tag. -/
def Distinct (files : List Bytes) : Prop :=
  files.Pairwise fun file file' => fileTag file = none ∨ fileTag file ≠ fileTag file'

/-- What is assumed of a run.  The last condition leaves out the rotation of a file with a record
right after a read that found none in it: its cursor is the bare 0. -/
def Admits (s : Follower α) : CaptureEvent → Prop
  | .append _ => True
  | .read => Distinct s.files ∧
      ∀ file ∈ s.files, file.length < 1 <<< cursorOffsetBits ∧ Capped file
  | .rotate => s.since = some 0 → newline ∉ s.current

def Step (s : Follower α) (e : CaptureEvent) (t : Follower α) : Prop :=
  s.Admits e ∧ t = s.next parse e

/-! ## What a read gives -/

/-- What a read gives a reader that is in `file` at `offset`: the records that come next, where the
file is one of the two that are left, and a loss where it is not, once there is a record to read on
from. -/
structure Answer (s : Follower α) (file offset : Nat) (r : ConsoleRead α) : Prop where
  kept : s.older.length ≤ file + 1 → r.lost = false ∧ ∃ file' offset',
    toCome parse s.files file offset = r.lines ++ toCome parse s.files file' offset' ∧
      (r.more = false → toCome parse s.files file' offset' = []) ∧
      (r.more = true → file < file' ∨ file = file' ∧ offset < offset')
  waits : file + 1 < s.older.length → fileTag s.current = none →
    r.lost = false ∧ r.lines = [] ∧ some (r.cursor r.next) = s.since
  gone : file + 1 < s.older.length → fileTag s.current ≠ none →
    r.lost = true ∧ ∃ offset', toCome parse s.files s.older.length 0 =
      r.lines ++ toCome parse s.files s.older.length offset'

/-! ## The invariant -/

/-- The reader is in `file` at `offset`. -/
structure At (s : Follower α) (file offset : Nat) : Prop where
  /-- Also when the current file has grown. -/
  stream : ∀ more,
    toCome parse (s.older ++ [s.current ++ more]) s.base.1 s.base.2 =
      s.delivered ++ toCome parse (s.older ++ [s.current ++ more]) file offset
  base : s.base.1 ≤ s.older.length
  place : ∃ content, s.files[file]? = some content ∧ offset ≤ content.length ∧
    (s.since = some 0 ∧ offset = 0 ∧ file = s.older.length ∨
      ∃ tag, fileTag content = some tag ∧ 0 < offset ∧ offset < 1 <<< cursorOffsetBits ∧
        s.since = some (tag <<< cursorOffsetBits ||| offset))

/-- Nothing was read yet, or the reader is somewhere. -/
def Follows (s : Follower α) : Prop :=
  s.since = none ∧ s.delivered = [] ∨ ∃ file offset, s.At parse file offset

variable {parse} {s : Follower α} {file offset : Nat}

theorem At.file_le (h : s.At parse file offset) : file ≤ s.older.length := by
  obtain ⟨content, hcontent, -⟩ := h.place
  have hlt := (List.getElem?_eq_some_iff.mp hcontent).1
  rw [files, List.length_append, List.length_singleton] at hlt
  omega

theorem At.stream_now (h : s.At parse file offset) :
    toCome parse s.files s.base.1 s.base.2 = s.delivered ++ toCome parse s.files file offset := by
  have hnow := h.stream []
  rw [List.append_nil] at hnow
  exact hnow

/-! ## The writer's steps -/

theorem At.append (h : s.At parse file offset) (bytes : Bytes) :
    (s.next parse (.append bytes)).At parse file offset where
  stream more := by
    have hgrown := h.stream (bytes ++ more)
    rw [← List.append_assoc] at hgrown
    exact hgrown
  base := h.base
  place := by
    obtain ⟨content, hcontent, hoffset, hcursor⟩ := h.place
    by_cases hlast : file = s.older.length
    · subst hlast
      rw [files, List.getElem?_concat_length] at hcontent
      obtain rfl := Option.some.inj hcontent
      refine ⟨s.current ++ bytes, List.getElem?_concat_length, ?_, ?_⟩
      · rw [List.length_append]
        omega
      · rcases hcursor with hbare | ⟨tag, htag, hcursor⟩
        · exact .inl hbare
        · exact .inr ⟨tag, fileTag_append htag bytes, hcursor⟩
    · have hlt : file < s.older.length := Nat.lt_of_le_of_ne h.file_le hlast
      refine ⟨content, ?_, hoffset, hcursor⟩
      rw [files, List.getElem?_append_left hlt] at hcontent
      exact (List.getElem?_append_left hlt).trans hcontent

theorem At.rotate (h : s.At parse file offset) (hadmits : s.Admits .rotate) :
    ∃ file' offset', (s.next parse .rotate).At parse file' offset' := by
  have hlength : (s.older ++ [s.current]).length = s.older.length + 1 := by
    rw [List.length_append, List.length_singleton]
  have hbase : s.base.1 < (s.older ++ [s.current]).length := by
    rw [hlength]
    exact Nat.lt_succ_of_le h.base
  have hfile : file < (s.older ++ [s.current]).length := by
    rw [hlength]
    exact Nat.lt_succ_of_le h.file_le
  have hstream (more : Bytes) : toCome parse (s.older ++ [s.current] ++ [[] ++ more]) s.base.1
      s.base.2 = s.delivered ++
        toCome parse (s.older ++ [s.current] ++ [[] ++ more]) file offset := by
    have hnow := h.stream_now
    rw [files] at hnow
    rw [toCome_append hbase, toCome_append hfile, hnow, List.append_assoc]
  obtain ⟨content, hcontent, hoffset, hcursor⟩ := h.place
  rcases hcursor with ⟨hsince, rfl, rfl⟩ | hcursor
  · -- nothing was read of the file, and it has no record
    refine ⟨s.older.length + 1, 0, ⟨fun more => ?_, Nat.le_of_lt hbase, [], ?_, Nat.le_refl 0, ?_⟩⟩
    · have hnone := linesFrom_unfinished parse 0 (hadmits hsince)
      have hget : (s.older ++ [s.current] ++ [[] ++ more])[s.older.length]? = some s.current := by
        rw [List.getElem?_append_left hfile, List.getElem?_concat_length]
      have hskip : toCome parse (s.older ++ [s.current] ++ [[] ++ more]) s.older.length 0 = _ :=
        toCome_of_getElem? hget 0
      rw [List.drop_zero, hnone] at hskip
      have hall := hstream more
      rw [hskip] at hall
      exact hall
    · rw [← hlength]
      exact List.getElem?_concat_length
    · exact .inl ⟨hsince, rfl, hlength.symm⟩
  · refine ⟨file, offset, ⟨hstream, Nat.le_of_lt hbase, content, ?_, hoffset, .inr hcursor⟩⟩
    exact (List.getElem?_append_left hfile).trans hcontent

/-! ## Reads -/

/-- A read of the current file, from a place the reader is at. -/
theorem At.readCurrent {read : List (Nat × α) × Nat × Bool} {taken : Bytes} {lost : Bool}
    {base : Nat × Nat} {delivered : List (Nat × α)}
    (hstream : ∀ more,
      toCome parse (s.older ++ [s.current ++ more]) base.1 base.2 =
        delivered ++ linesFrom parse offset ((s.current ++ more).drop offset))
    (hbase : base.1 ≤ s.older.length) (hoffset : offset ≤ s.current.length)
    (htag : 0 < offset → ∃ tag, fileTag s.current = some tag)
    (hsize : s.current.length < 1 <<< cursorOffsetBits)
    (htakes : Takes parse s.current offset read taken) :
    ({ s with
        since := some ((finish s.current read lost).cursor read.2.1)
        base := base
        delivered := delivered ++ read.1 } : Follower α).At parse s.older.length read.2.1 := by
  have hnext := htakes.next_le hoffset
  refine ⟨fun more => ?_, hbase, s.current, List.getElem?_concat_length, hnext, ?_⟩
  · change toCome parse (s.older ++ [s.current ++ more]) base.1 base.2 =
      delivered ++ read.1 ++ toCome parse (s.older ++ [s.current ++ more]) s.older.length read.2.1
    rw [hstream, toCome_last, List.drop_append_of_le_length hoffset, htakes.linesFrom_append parse,
      List.drop_append_of_le_length hnext, List.append_assoc]
  · by_cases hzero : read.2.1 = 0
    · exact .inl ⟨congrArg some (cursor_zero hzero), hzero, rfl⟩
    · right
      have hpos : 0 < read.2.1 := Nat.pos_of_ne_zero hzero
      have htagged : ∃ tag, fileTag s.current = some tag := by
        by_cases hempty : taken = []
        · refine htag ?_
          rw [htakes.next, hempty, List.length_nil, Nat.add_zero] at hpos
          exact hpos
        · refine fileTag_of_newline (List.mem_of_mem_drop (i := offset) ?_)
          rw [htakes.split]
          exact List.mem_append_left _ (htakes.whole.newline_mem hempty)
      obtain ⟨tag, htag⟩ := htagged
      refine ⟨tag, htag, hpos, Nat.lt_of_le_of_lt hnext hsize, congrArg some ?_⟩
      exact cursor_tagged (r := finish s.current read lost) htag hpos
        (Nat.lt_of_le_of_lt hnext hsize)

/-- Without a loss the base stays, and the lines are added. -/
theorem afterRead_of_kept {r : ConsoleRead α} (hsince : s.since ≠ none) (hlost : r.lost = false) :
    s.afterRead r = { s with
      since := some (r.cursor r.next), base := s.base, delivered := s.delivered ++ r.lines } := by
  rw [afterRead, if_neg hsince, hlost]
  rfl

theorem afterRead_of_lost {r : ConsoleRead α} (hsince : s.since ≠ none) (hlost : r.lost = true) :
    s.afterRead r = { s with
      since := some (r.cursor r.next), base := (s.older.length, 0), delivered := r.lines } := by
  rw [afterRead, if_neg hsince, hlost]
  rfl

theorem afterRead_of_first {r : ConsoleRead α} (hsince : s.since = none)
    (hdelivered : s.delivered = []) (hlost : r.lost = false) :
    s.afterRead r = { s with
      since := some (r.cursor r.next)
      base := (s.older.length, tailStart stdoutTailBytes s.current)
      delivered := [] ++ r.lines } := by
  rw [afterRead, if_pos hsince, hlost, hdelivered]
  rfl

theorem getElem?_files_last (s : Follower α) : s.files[s.older.length]? = some s.current :=
  List.getElem?_concat_length

theorem Answer.of_near {r : ConsoleRead α} (hnear : s.older.length ≤ file + 1)
    (hlost : r.lost = false) {file' offset' : Nat}
    (hlines : toCome parse s.files file offset = r.lines ++ toCome parse s.files file' offset')
    (hdone : r.more = false → toCome parse s.files file' offset' = [])
    (hmore : r.more = true → file < file' ∨ file = file' ∧ offset < offset') :
    s.Answer parse file offset r where
  kept _ := ⟨hlost, file', offset', hlines, hdone, hmore⟩
  waits hfar := absurd hfar (Nat.not_lt.mpr hnear)
  gone hfar := absurd hfar (Nat.not_lt.mpr hnear)

/-- What a read of the current file leaves to come. -/
theorem toCome_takes {read : List (Nat × α) × Nat × Bool} {taken : Bytes}
    (htakes : Takes parse s.current offset read taken) :
    toCome parse s.files s.older.length offset =
      read.1 ++ toCome parse s.files s.older.length read.2.1 := by
  have hlines := htakes.linesFrom_append parse []
  rw [List.append_nil, List.append_nil] at hlines
  rw [files, toCome_last, toCome_last, hlines]

theorem toCome_rest {read : List (Nat × α) × Nat × Bool} {taken : Bytes}
    (htakes : Takes parse s.current offset read taken) (hcapped : Capped s.current)
    (hmore : read.2.2 = false) : toCome parse s.files s.older.length read.2.1 = [] := by
  rw [files, toCome_last, htakes.next]
  exact linesFrom_unfinished parse _ (htakes.rest hcapped hmore)

/-- The reader is in the current file. -/
theorem At.read_current (h : s.At parse s.older.length offset) (hsince : s.since ≠ none)
    (hadmits : s.Admits .read)
    (hread : s.nextRead parse = some (finish s.current
      (readOpenCapture parse s.current (some offset) stdoutTailBytes consoleReadWindow) false)) :
    ∃ r, s.nextRead parse = some r ∧ s.Answer parse s.older.length offset r ∧
      ∃ file' offset', (s.afterRead r).At parse file' offset' := by
  obtain ⟨content, hcontent, hoffset, hcursor⟩ := h.place
  rw [getElem?_files_last] at hcontent
  obtain rfl := Option.some.inj hcontent
  obtain ⟨hsize, hcapped⟩ := hadmits.2 s.current (List.mem_append_right _ List.mem_cons_self)
  obtain ⟨taken, htakes⟩ := readOpenCapture_takes parse hoffset stdoutTailBytes
  have htag : 0 < offset → ∃ tag, fileTag s.current = some tag := by
    intro hpos
    rcases hcursor with ⟨-, hzero, -⟩ | ⟨tag, htag, -⟩
    · exact absurd hzero (Nat.ne_of_gt hpos)
    · exact ⟨tag, htag⟩
  have hstream (more : Bytes) : toCome parse (s.older ++ [s.current ++ more]) s.base.1 s.base.2 =
      s.delivered ++ linesFrom parse offset ((s.current ++ more).drop offset) := by
    rw [h.stream more, toCome_last]
  refine ⟨_, hread, .of_near (Nat.le_succ _) rfl (toCome_takes htakes)
    (toCome_rest htakes hcapped) (fun hmore => .inr ⟨rfl, htakes.next_lt hmore⟩), s.older.length,
    (readOpenCapture parse s.current (some offset) stdoutTailBytes consoleReadWindow).2.1, ?_⟩
  rw [afterRead_of_kept hsince rfl]
  exact At.readCurrent hstream h.base hoffset htag hsize htakes

/-- Of two files, the later one does not have the earlier one's tag. -/
theorem Distinct.ne {files : List Bytes} (h : Distinct files) {i j tag : Nat} {a b : Bytes}
    (hi : files[i]? = some a) (hj : files[j]? = some b) (hlt : i < j)
    (htag : fileTag a = some tag) : fileTag b ≠ some tag := by
  obtain ⟨hi', rfl⟩ := List.getElem?_eq_some_iff.mp hi
  obtain ⟨hj', rfl⟩ := List.getElem?_eq_some_iff.mp hj
  rcases List.pairwise_iff_getElem.mp h i j hi' hj' hlt with hnone | hne
  · rw [hnone] at htag
    exact absurd htag (Option.some_ne_none tag).symm
  · rw [← htag]
    exact hne.symm

/-- A file without a tag has no record. -/
theorem linesFrom_untagged {file : Bytes} (h : fileTag file = none) :
    linesFrom parse 0 file = [] := by
  apply linesFrom_unfinished
  intro hmem
  obtain ⟨tag, htag⟩ := fileTag_of_newline hmem
  rw [h] at htag
  exact absurd htag (Option.some_ne_none tag).symm

/-- The reader is in the file kept. -/
theorem At.read_kept (h : s.At parse file offset) (hfile : file + 1 = s.older.length)
    (hadmits : s.Admits .read) :
    ∃ r, s.nextRead parse = some r ∧ s.Answer parse file offset r ∧
      ∃ file' offset', (s.afterRead r).At parse file' offset' := by
  obtain ⟨old, hold, hoffset, hcursor⟩ := h.place
  have hlt : file < s.older.length := by omega
  have hnear : s.older.length ≤ file + 1 := Nat.le_of_eq hfile.symm
  have hlast : s.older.getLast? = some old := by
    rw [files, List.getElem?_append_left hlt] at hold
    rw [List.getLast?_eq_getElem?, ← hfile]
    exact hold
  rcases hcursor with ⟨-, -, hcurrent⟩ | ⟨tag, htag, hpos, hsize, hsince⟩
  · omega
  have hsome : s.since ≠ none := by
    rw [hsince]
    exact Option.some_ne_none _
  have hcurrent : fileTag s.current ≠ some tag :=
    hadmits.1.ne hold s.getElem?_files_last hlt htag
  obtain ⟨hlength, hcapped⟩ := hadmits.2 old (List.mem_of_getElem? hold)
  obtain ⟨hlength', hcapped'⟩ := hadmits.2 s.current (List.mem_append_right _ List.mem_cons_self)
  obtain ⟨taken, htakes⟩ := readOpenCapture_takes parse hoffset 0
  have hread := readConsoleCursor_kept parse stdoutTailBytes consoleReadWindow hsize htag hcurrent
  generalize readOpenCapture parse old (some offset) 0 consoleReadWindow = out at htakes hread
  have hrest (more : Bytes) : toCome parse (s.older ++ [s.current ++ more]) (file + 1) 0 =
      linesFrom parse 0 (s.current ++ more) := by
    rw [hfile, toCome_last, List.drop_zero]
  have hget (more : Bytes) : (s.older ++ [s.current ++ more])[file]? = some old := by
    rw [List.getElem?_append_left hlt]
    rw [files, List.getElem?_append_left hlt] at hold
    exact hold
  -- what is to come after this read, also when the current file has grown
  have hstream (more : Bytes) : toCome parse (s.older ++ [s.current ++ more]) file offset =
      out.1 ++ toCome parse (s.older ++ [s.current ++ more]) file out.2.1 := by
    have hlines := htakes.linesFrom_append parse []
    rw [List.append_nil, List.append_nil] at hlines
    rw [toCome_of_getElem? (hget more), toCome_of_getElem? (hget more), hlines, List.append_assoc]
  have hstream_now : toCome parse s.files file offset =
      out.1 ++ toCome parse s.files file out.2.1 := by
    have hnow := hstream []
    rw [List.append_nil] at hnow
    exact hnow
  by_cases hdrained : out.2.1 = offset
  · have htaken : taken = [] := by
      have hnext := htakes.next
      rw [hdrained] at hnext
      exact List.length_eq_zero_iff.mp (by omega)
    have hnone : linesFrom parse offset (old.drop offset) = [] :=
      linesFrom_unfinished parse offset (htakes.stuck hcapped htaken)
    have hskip (more : Bytes) : toCome parse (s.older ++ [s.current ++ more]) file offset =
        linesFrom parse 0 (s.current ++ more) := by
      rw [toCome_of_getElem? (hget more), hnone, hrest, List.nil_append]
    by_cases hwait : fileTag s.current = none
    · -- it waits at the end of the file kept
      have hlines : out.1 = [] := by
        rw [htakes.lines, htaken]
        rfl
      have hdone : toCome parse s.files file offset = [] := by
        have hnow := hskip []
        rw [List.append_nil, linesFrom_untagged hwait] at hnow
        exact hnow
      have hcursor : (finish old (out.1, out.2.1, false) false).cursor out.2.1 =
          tag <<< cursorOffsetBits ||| offset := by
        rw [hdrained]
        exact cursor_tagged (r := finish old (out.1, offset, false) false) htag hpos hsize
      refine ⟨finish old (out.1, out.2.1, false) false, ?_,
        .of_near hnear rfl ?_ (fun _ => hdone) (fun hmore => absurd hmore Bool.false_ne_true),
        file, offset, ?_⟩
      · rw [nextRead, hlast, hsince, hread]
        dsimp only
        rw [if_neg (not_not.mpr hdrained), if_pos hwait]
      · change _ = out.1 ++ _
        rw [hlines]
        rfl
      · rw [afterRead_of_kept hsome rfl]
        refine ⟨fun more => ?_, h.base, old, hold, hoffset, .inr ⟨tag, htag, hpos, hsize, ?_⟩⟩
        · change _ = (s.delivered ++ out.1) ++ _
          rw [hlines, List.append_nil]
          exact h.stream more
        · exact congrArg some hcursor
    · -- it goes on to the current file
      obtain ⟨taken', htakes'⟩ :=
        readOpenCapture_takes parse (Nat.zero_le s.current.length) stdoutTailBytes
      have hfrom (more : Bytes) : toCome parse (s.older ++ [s.current ++ more]) s.base.1 s.base.2 =
          s.delivered ++ linesFrom parse 0 ((s.current ++ more).drop 0) := by
        rw [h.stream more, hskip, List.drop_zero]
      have hmoved : toCome parse s.files file offset = toCome parse s.files s.older.length 0 := by
        have hnow := hskip []
        rw [List.append_nil] at hnow
        rw [files, toCome_last]
        exact hnow
      refine ⟨finish s.current (readOpenCapture parse s.current (some 0) stdoutTailBytes
        consoleReadWindow) false, ?_, .of_near hnear rfl (hmoved.trans (toCome_takes htakes'))
          (toCome_rest htakes' hcapped') (fun _ => .inl hlt), s.older.length,
        (readOpenCapture parse s.current (some 0) stdoutTailBytes consoleReadWindow).2.1, ?_⟩
      · rw [nextRead, hlast, hsince, hread]
        dsimp only
        rw [if_neg (not_not.mpr hdrained), if_neg hwait]
      · rw [afterRead_of_kept hsome rfl]
        exact At.readCurrent hfrom h.base (Nat.zero_le _)
          (fun hpos => absurd hpos (Nat.lt_irrefl 0)) hlength' htakes'
  · have hnext := htakes.next_le hoffset
    have hgrows : offset < out.2.1 := by
      have hnext' := htakes.next
      omega
    have hpos' := Nat.lt_trans hpos hgrows
    refine ⟨finish old (out.1, out.2.1, true) false, ?_,
      .of_near hnear rfl hstream_now (fun hmore => absurd hmore.symm Bool.false_ne_true)
        (fun _ => .inr ⟨rfl, hgrows⟩), file, out.2.1, ?_⟩
    · rw [nextRead, hlast, hsince, hread]
      dsimp only
      rw [if_pos hdrained]
    · rw [afterRead_of_kept hsome rfl]
      refine ⟨fun more => ?_, h.base, old, hold, hnext, .inr ⟨tag, htag, hpos', ?_, ?_⟩⟩
      · change toCome parse (s.older ++ [s.current ++ more]) s.base.1 s.base.2 =
          s.delivered ++ out.1 ++ toCome parse (s.older ++ [s.current ++ more]) file _
        rw [h.stream more, hstream, List.append_assoc]
      · exact Nat.lt_of_le_of_lt hnext hlength
      · exact congrArg some (cursor_tagged (r := finish old (out.1, out.2.1, true) false) htag
          hpos' (Nat.lt_of_le_of_lt hnext hlength))

/-- The reader's file is gone. -/
theorem At.read_gone (h : s.At parse file offset) (hfile : file + 1 < s.older.length)
    (hadmits : s.Admits .read) :
    ∃ r, s.nextRead parse = some r ∧ s.Answer parse file offset r ∧
      ∃ file' offset', (s.afterRead r).At parse file' offset' := by
  obtain ⟨old, hold, hoffset, hcursor⟩ := h.place
  have hlt : file < s.older.length := by omega
  rcases hcursor with ⟨-, -, hcurrent⟩ | ⟨tag, htag, hpos, hsize, hsince⟩
  · omega
  have hsome : s.since ≠ none := by
    rw [hsince]
    exact Option.some_ne_none _
  have hcurrent : fileTag s.current ≠ some tag :=
    hadmits.1.ne hold s.getElem?_files_last hlt htag
  have hrotated : s.older.getLast?.bind fileTag ≠ some tag := by
    rw [List.getLast?_eq_getElem?]
    intro hbind
    obtain ⟨kept, hkept, hkepttag⟩ := Option.bind_eq_some_iff.mp hbind
    have hget : s.files[s.older.length - 1]? = some kept := by
      rw [files, List.getElem?_append_left (by omega)]
      exact hkept
    exact hadmits.1.ne hold hget (by omega) htag hkepttag
  obtain ⟨hlength, hcapped⟩ := hadmits.2 s.current (List.mem_append_right _ List.mem_cons_self)
  have hread := readConsoleCursor_gone parse stdoutTailBytes consoleReadWindow hsize
    (fileTag_pos htag) hcurrent hrotated
  by_cases hwait : fileTag s.current = none
  · rw [if_pos hwait] at hread
    have hcursor : ConsoleRead.cursor
        (ConsoleRead.mk ([] : List (Nat × α)) offset false false (some tag)) offset =
          tag <<< cursorOffsetBits ||| offset :=
      cursor_tagged (r := ConsoleRead.mk [] offset false false (some tag)) rfl hpos hsize
    refine ⟨ConsoleRead.mk [] offset false false (some tag), ?_, ⟨fun hnear => ?_, fun _ _ => ?_,
      fun _ hhas => absurd hwait hhas⟩, file, offset, ?_⟩
    · rw [nextRead, hsince, hread]
    · omega
    · refine ⟨rfl, rfl, ?_⟩
      rw [hsince]
      exact congrArg some hcursor
    · rw [afterRead_of_kept hsome rfl]
      refine ⟨fun more => ?_, h.base, old, hold, hoffset, .inr ⟨tag, htag, hpos, hsize, ?_⟩⟩
      · change _ = (s.delivered ++ []) ++ _
        rw [List.append_nil]
        exact h.stream more
      · exact congrArg some hcursor
  · rw [if_neg hwait] at hread
    obtain ⟨taken, htakes⟩ :=
      readOpenCapture_takes parse (Nat.zero_le s.current.length) stdoutTailBytes
    have hfrom (more : Bytes) : toCome parse (s.older ++ [s.current ++ more]) s.older.length 0 =
        [] ++ linesFrom parse 0 ((s.current ++ more).drop 0) := by
      rw [toCome_last, List.nil_append]
    refine ⟨finish s.current (readOpenCapture parse s.current (some 0) stdoutTailBytes
      consoleReadWindow) true, ?_, ⟨fun hnear => ?_, fun _ hnone => absurd hnone hwait,
        fun _ _ => ⟨rfl, _, toCome_takes htakes⟩⟩, s.older.length,
      (readOpenCapture parse s.current (some 0) stdoutTailBytes consoleReadWindow).2.1, ?_⟩
    · rw [nextRead, hsince, hread]
    · omega
    · rw [afterRead_of_lost hsome rfl]
      have hself : ((s.older.length, 0) : Nat × Nat).1 ≤ s.older.length := Nat.le_refl _
      exact At.readCurrent hfrom hself (Nat.zero_le _)
        (fun hpos => absurd hpos (Nat.lt_irrefl 0)) hlength htakes

/-- A read from the place the reader is at. -/
theorem At.read (h : s.At parse file offset) (hadmits : s.Admits .read) :
    ∃ r, s.nextRead parse = some r ∧ s.Answer parse file offset r ∧
      ∃ file' offset', (s.afterRead r).At parse file' offset' := by
  rcases Nat.lt_trichotomy (file + 1) s.older.length with hfar | hkept | hnear
  · exact h.read_gone hfar hadmits
  · exact h.read_kept hkept hadmits
  · have hfile := h.file_le
    obtain rfl : file = s.older.length := by omega
    obtain ⟨content, hcontent, -, hcursor⟩ := h.place
    rw [getElem?_files_last] at hcontent
    obtain rfl := Option.some.inj hcontent
    rcases hcursor with ⟨hsince, rfl, -⟩ | ⟨tag, htag, hpos, hsize, hsince⟩
    · apply h.read_current _ hadmits
      · rw [nextRead, hsince, readConsoleCursor_zero]
      · rw [hsince]
        exact Option.some_ne_none _
    · apply h.read_current _ hadmits
      · rw [nextRead, hsince, readConsoleCursor_current parse _ _ hsize htag]
      · rw [hsince]
        exact Option.some_ne_none _

theorem At.of_first {read : List (Nat × α) × Nat × Bool} {taken : Bytes} {tail : Nat}
    (htail : tail ≤ s.current.length) (htag : 0 < tail → ∃ tag, fileTag s.current = some tag)
    (hsize : s.current.length < 1 <<< cursorOffsetBits)
    (htakes : Takes parse s.current tail read taken) :
    ({ s with
        since := some ((finish s.current read false).cursor (finish s.current read false).next)
        base := (s.older.length, tail)
        delivered := [] ++ (finish s.current read false).lines } : Follower α).At parse
      s.older.length read.2.1 := by
  have hfrom (more : Bytes) : toCome parse (s.older ++ [s.current ++ more]) s.older.length tail =
      [] ++ linesFrom parse tail ((s.current ++ more).drop tail) := by
    rw [toCome_last, List.nil_append]
  have hself : ((s.older.length, tail) : Nat × Nat).1 ≤ s.older.length := Nat.le_refl _
  exact At.readCurrent hfrom hself htail htag hsize htakes

/-- The first read, of the end of the current file. -/
theorem read_first (hsince : s.since = none) (hdelivered : s.delivered = [])
    (hadmits : s.Admits .read) : ∃ r, s.nextRead parse = some r ∧
      ∃ file' offset', (s.afterRead r).At parse file' offset' := by
  obtain ⟨hlength, -⟩ := hadmits.2 s.current (List.mem_append_right _ List.mem_cons_self)
  obtain ⟨taken, htakes⟩ := readOpenCapture_tail parse stdoutTail_le_window s.current
  have htag (hpos : 0 < tailStart stdoutTailBytes s.current) :
      ∃ tag, fileTag s.current = some tag :=
    fileTag_of_length (Nat.le_trans head_le_stdoutTail (Nat.le_of_lt (tailStart_pos hpos)))
  have hread : s.nextRead parse = some (finish s.current
      (readOpenCapture parse s.current none stdoutTailBytes consoleReadWindow) false) := by
    rw [nextRead, hsince]
    rfl
  have hat := At.of_first (tailStart_le stdoutTailBytes s.current) htag hlength htakes
  rw [← afterRead_of_first hsince hdelivered rfl] at hat
  exact ⟨_, hread, _, _, hat⟩

/-! ## Runs -/

theorem Follows.step {t : Follower α} {e : CaptureEvent} (h : s.Follows parse)
    (hstep : Step parse s e t) : t.Follows parse := by
  obtain ⟨hadmits, rfl⟩ := hstep
  cases e with
  | append bytes =>
      rcases h with hfirst | ⟨file, offset, hat⟩
      · exact .inl hfirst
      · exact .inr ⟨file, offset, hat.append bytes⟩
  | rotate =>
      rcases h with hfirst | ⟨file, offset, hat⟩
      · exact .inl hfirst
      · exact .inr (hat.rotate hadmits)
  | read =>
      have hread : ∃ r, s.nextRead parse = some r ∧
          ∃ file' offset', (s.afterRead r).At parse file' offset' := by
        rcases h with ⟨hsince, hdelivered⟩ | ⟨file, offset, hat⟩
        · exact read_first hsince hdelivered hadmits
        · obtain ⟨r, hr, -, hafter⟩ := hat.read hadmits
          exact ⟨r, hr, hafter⟩
      obtain ⟨r, hr, hafter⟩ := hread
      right
      rw [next, hr]
      exact hafter

theorem Follows.start {since : Option Nat} (h : since = none ∨ since = some 0) :
    (start since : Follower α).Follows parse := by
  rcases h with rfl | rfl
  · exact .inl ⟨rfl, rfl⟩
  · exact .inr ⟨0, 0, fun more => rfl, Nat.le_refl 0, [], rfl, Nat.le_refl 0, .inl ⟨rfl, rfl, rfl⟩⟩

theorem Follows.run {events : List CaptureEvent} {t : Follower α}
    (h : Run (Step parse) s events t) (hs : s.Follows parse) : t.Follows parse :=
  h.invariant (fun _ _ _ hinv hstep => Follows.step hinv hstep) hs

theorem capped_of_short {file : Bytes} (h : file.length < consoleReadWindow) : Capped file := by
  intro start hwindow
  omega

end Follower

/-- What a reader was given since it began, or since it was last told of a loss, is what there was
from there on, once and in order, up to where it is; and a read gives it what comes next, or tells
it of a loss. -/
theorem capture_followed {α : Type} {parse : Bytes → Option α} {since : Option Nat}
    {events : List CaptureEvent} {s : Follower α} (hsince : since = none ∨ since = some 0)
    (h : Run (Follower.Step parse) (Follower.start since) events s) :
    s.since = none ∧ s.delivered = [] ∨
      ∃ file offset,
        toCome parse s.files s.base.1 s.base.2 = s.delivered ++ toCome parse s.files file offset ∧
          (s.Admits .read → ∃ r, s.nextRead parse = some r ∧ s.Answer parse file offset r) := by
  rcases Follower.Follows.run h (.start hsince) with hfirst | ⟨file, offset, hat⟩
  · exact .inl hfirst
  · right
    refine ⟨file, offset, hat.stream_now, fun hadmits => ?_⟩
    obtain ⟨r, hread, hanswer, -⟩ := hat.read hadmits
    exact ⟨r, hread, hanswer⟩

/-- A record, a read, another record and a rotation. -/
theorem capture_followed_rotated :
    let s : Follower Bytes := [.append [97, 10], .read, .append [98, 10], .rotate].foldl
      (Follower.next some) (Follower.start (some 0))
    s.since = none ∧ s.delivered = [] ∨
      ∃ file offset,
        toCome some s.files s.base.1 s.base.2 = s.delivered ++ toCome some s.files file offset ∧
          (s.Admits .read → ∃ r, s.nextRead some = some r ∧ s.Answer some file offset r) := by
  have hrun : Run (Follower.Step some) (Follower.start (some 0))
      [.append [97, 10], .read, .append [98, 10], .rotate]
      ([.append [97, 10], .read, .append [98, 10], .rotate].foldl (Follower.next some)
        (Follower.start (some 0))) := by
    refine .cons ⟨trivial, rfl⟩ (.cons ⟨⟨?_, ?_⟩, rfl⟩
      (.cons ⟨trivial, rfl⟩ (.cons ⟨fun hbare => ?_, rfl⟩ (.nil _))))
    · exact List.pairwise_singleton _ _
    · intro file hfile
      obtain rfl := List.mem_singleton.mp hfile
      exact ⟨by decide, Follower.capped_of_short (by decide)⟩
    · exact absurd hbare (by decide)
  exact capture_followed (.inr rfl) hrun

/-- Two files with different heads but one first record, and a rotation right after a read that found
no record: the reader is told of no loss (what it was given begins at the start) and misses one. -/
theorem capture_followed_fails :
    let distinctHeads (files : List Bytes) : Prop := files.Pairwise fun file file' =>
      file.take cursorTagHeadBytes ≠ file'.take cursorTagHeadBytes
    let s : Follower Bytes := [.append [97, 10], .read, .append [98, 10], .rotate,
      .append [97, 10, 99, 10], .read].foldl (Follower.next some) (Follower.start (some 0))
    let t : Follower Bytes := [.read, .append [97, 10], .rotate, .append [98, 10], .read].foldl
      (Follower.next some) (Follower.start (some 0))
    (distinctHeads s.files ∧ s.base = (0, 0) ∧ s.delivered = [(0, [97, 10]), (2, [99, 10])] ∧
      toCome some s.files 0 0 = [(0, [97, 10]), (2, [98, 10]), (0, [97, 10]), (2, [99, 10])]) ∧
    (distinctHeads t.files ∧ t.base = (0, 0) ∧ t.delivered = [(0, [98, 10])] ∧
      toCome some t.files 0 0 = [(0, [97, 10]), (0, [98, 10])]) := by
  decide

end Victauri.Plugin.BackendLogs
