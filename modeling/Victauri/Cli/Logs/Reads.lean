import Victauri.Cli.Logs
import Victauri.Plugin.BackendLogs.ConsoleCapture.Following

/-!
# The records between two places

A place is a file, by its number, and an offset in it.  What lies between two places stays what it
is while the writer goes on.
-/

namespace Victauri.Cli.Logs

open Plugin.BackendLogs

/-! ## Places -/

section Places

variable {α : Type} (parse : Bytes → Option α)

/-- The lines from one place to another, also when the last file has grown. -/
def Between (older : List Bytes) (current : Bytes) (p : Nat × Nat) (lines : List (Nat × α))
    (q : Nat × Nat) : Prop :=
  ∀ more, toCome parse (older ++ [current ++ more]) p.1 p.2 =
    lines ++ toCome parse (older ++ [current ++ more]) q.1 q.2

variable {parse} {older : List Bytes} {current : Bytes} {p q r : Nat × Nat}
  {lines more : List (Nat × α)}

theorem Between.refl (older : List Bytes) (current : Bytes) (p : Nat × Nat) :
    Between parse older current p [] p :=
  fun _ => rfl

theorem Between.trans (h : Between parse older current p lines q)
    (h' : Between parse older current q more r) :
    Between parse older current p (lines ++ more) r := by
  intro bytes
  rw [h bytes, h' bytes, List.append_assoc]

theorem Between.now (h : Between parse older current p lines q) :
    toCome parse (older ++ [current]) p.1 p.2 =
      lines ++ toCome parse (older ++ [current]) q.1 q.2 := by
  have := h []
  rwa [List.append_nil] at this

theorem Between.append (h : Between parse older current p lines q) (bytes : Bytes) :
    Between parse older (current ++ bytes) p lines q := by
  intro more
  rw [List.append_assoc]
  exact h (bytes ++ more)

theorem Between.create (h : Between parse older current p lines q) (hp : p.1 ≤ older.length)
    (hq : q.1 ≤ older.length) : Between parse (older ++ [current]) [] p lines q := by
  intro bytes
  have hlength : (older ++ [current]).length = older.length + 1 := by simp
  have hfrom (r : Nat × Nat) (hr : r.1 ≤ older.length) :
      toCome parse ((older ++ [current]) ++ [bytes]) r.1 r.2 =
        toCome parse (older ++ [current]) r.1 r.2 ++ linesFrom parse 0 bytes :=
    toCome_append (by omega) r.2 bytes
  rw [List.nil_append, hfrom p hp, hfrom q hq, h.now, List.append_assoc]

/-- A file of the capture, when the last has grown. -/
theorem getElem?_grown {file : Nat} {content : Bytes}
    (h : (older ++ [current])[file]? = some content) (bytes : Bytes) :
    ∃ extra, (older ++ [current ++ bytes])[file]? = some (content ++ extra) ∧
      (file < older.length → extra = []) := by
  by_cases hfile : file < older.length
  · refine ⟨[], ?_, fun _ => rfl⟩
    rw [List.getElem?_append_left hfile] at h ⊢
    rw [h, List.append_nil]
  · rw [List.getElem?_append_right (Nat.le_of_not_lt hfile)] at h ⊢
    have hzero : file - older.length = 0 := by
      have := (List.getElem?_eq_some_iff.mp h).1
      rw [List.length_singleton] at this
      omega
    rw [hzero] at h ⊢
    cases h
    exact ⟨bytes, rfl, fun hlt => absurd hlt hfile⟩

/-- Whole records that a read took. -/
theorem Between.read {file offset : Nat} {content taken rest : Bytes}
    (hfile : (older ++ [current])[file]? = some content) (hoffset : offset ≤ content.length)
    (hdrop : content.drop offset = taken ++ rest) (hwhole : Whole taken) :
    Between parse older current (file, offset) (linesFrom parse offset taken)
      (file, offset + taken.length) := by
  intro bytes
  obtain ⟨extra, hgrown, -⟩ := getElem?_grown hfile bytes
  have hlength := congrArg List.length hdrop
  rw [List.length_drop, List.length_append] at hlength
  have hfirst : (content ++ extra).drop offset = taken ++ (rest ++ extra) := by
    rw [List.drop_append_of_le_length hoffset, hdrop, List.append_assoc]
  have hsecond : (content ++ extra).drop (offset + taken.length) = rest ++ extra := by
    rw [← List.drop_drop, hfirst, List.drop_left]
  dsimp only
  rw [toCome_of_getElem? hgrown, toCome_of_getElem? hgrown, hfirst, hsecond,
    linesFrom_append parse hwhole, List.append_assoc]

/-- The rest of a file that grows no more. -/
theorem Between.rest {file : Nat} (hfile : file < older.length) (offset : Nat) :
    Between parse older current (file, offset) (linesFrom parse offset (older[file].drop offset))
      (file + 1, 0) := by
  intro bytes
  have hcontent : (older ++ [current ++ bytes])[file]? = some older[file] := by
    rw [List.getElem?_append_left hfile, List.getElem?_eq_getElem hfile]
  exact toCome_of_getElem? hcontent offset

theorem Between.finished {file offset : Nat} (hfile : file < older.length)
    (h : newline ∉ older[file].drop offset) :
    Between parse older current (file, offset) [] (file + 1, 0) := by
  have hrest : Between parse older current (file, offset)
      (linesFrom parse offset (older[file].drop offset)) (file + 1, 0) := Between.rest hfile offset
  rwa [linesFrom_unfinished parse offset h] at hrest

/-- From anywhere to the start of a later file. -/
theorem Between.skip {file : Nat} (hp : p.1 < file) (hfile : file ≤ older.length) :
    ∃ lines, Between parse older current p lines (file, 0) := by
  obtain ⟨first, offset⟩ := p
  induction hd : file - first generalizing first offset with
  | zero => omega
  | succ d ih =>
      dsimp only at hp
      have hlt : first < older.length := by omega
      have hrest : Between parse older current (first, offset)
          (linesFrom parse offset (older[first].drop offset)) (first + 1, 0) :=
        Between.rest hlt offset
      by_cases hlast : first + 1 = file
      · rw [hlast] at hrest
        exact ⟨_, hrest⟩
      · obtain ⟨lines, hlines⟩ := ih (first + 1) 0 (by dsimp only; omega) (by omega)
        exact ⟨_, hrest.trans hlines⟩

end Places

/-! ## One read -/

/-- No record is longer than one read. -/
def Capped (file : Bytes) : Prop :=
  ∀ start, start + maxRead ≤ file.length → newline ∈ (file.drop start).take maxRead

section Reads

variable {α : Type} {parse : Bytes → Option α} {file : Bytes} {len offset : Nat}

variable (parse file) in
theorem readOpenCapture_some (hoffset : offset ≤ len) :
    ∃ taken rest, file.drop offset = taken ++ rest ∧ Whole taken ∧
      readOpenCapture parse len file (some offset) =
        ((linesFrom parse offset taken).map Prod.snd, offset + taken.length) ∧
      (Capped file → taken = [] → newline ∉ file.drop offset) := by
  obtain ⟨taken, rest, hbuf, hwhole, hrest⟩ := exists_whole ((file.drop offset).take maxRead)
  refine ⟨taken, rest ++ (file.drop offset).drop maxRead, ?_, hwhole, ?_, ?_⟩
  · rw [← List.append_assoc, ← hbuf, List.take_append_drop]
  · have hstart : (if len < offset then 0 else offset) = offset :=
      if_neg (Nat.not_lt.mpr hoffset)
    simp only [readOpenCapture, Option.isNone_some, Bool.false_and, Option.getD_some, hstart]
    rw [if_neg Bool.false_ne_true]
    dsimp only
    rw [List.drop_zero, hbuf, Nat.add_zero, readChunks_whole parse hwhole hrest]
  · intro hcapped hempty
    rw [hempty, List.nil_append] at hbuf
    by_cases hfits : offset + maxRead ≤ file.length
    · rw [← hbuf] at hrest
      exact absurd (hcapped offset hfits) hrest
    · rw [List.take_of_length_le (by rw [List.length_drop]; omega)] at hbuf
      rwa [hbuf]

variable (parse) in
theorem readChunks_consumed (first : Bool) (offset : Nat) (chunks : List Bytes) :
    (readChunks parse first offset chunks).2 ≤ chunks.flatten.length := by
  induction chunks generalizing first offset with
  | nil => exact Nat.le_refl 0
  | cons chunk chunks ih =>
      rw [readChunks]
      by_cases hlast : chunk.getLast? ≠ some newline
      · rw [if_pos hlast]
        exact Nat.zero_le _
      · rw [if_neg hlast, List.flatten_cons, List.length_append]
        exact Nat.add_le_add_left (ih false (offset + chunk.length)) _

theorem readOpenCapture_none (hlen : len ≤ file.length) :
    (readOpenCapture parse len file none).2 ≤ file.length := by
  unfold readOpenCapture
  obtain ⟨window, hwindow⟩ : ∃ window, window = maxRead := ⟨_, rfl⟩
  rw [← hwindow]
  have hstart : (if len < len - window then 0 else len - window) = len - window :=
    if_neg (Nat.not_lt.mpr (Nat.sub_le _ _))
  have hbuf : (len - window) + ((file.drop (len - window)).take window).length ≤
      file.length := by
    rw [List.length_take, List.length_drop]
    omega
  simp only [Option.getD_none, hstart]
  split
  · exact hbuf
  · rename_i skipped hskipped
    have hle : skipped ≤ ((file.drop (len - window)).take window).length := by
      split_ifs at hskipped
      · rw [Option.map_eq_some_iff] at hskipped
        obtain ⟨stop, hstop, rfl⟩ := hskipped
        exact (List.findIdx?_eq_some_iff_findIdx_eq.mp hstop).1
      · cases hskipped
        exact Nat.zero_le _
    have hconsumed := readChunks_consumed parse false (len - window + skipped)
      (splitInclusive (((file.drop (len - window)).take window).drop skipped))
    rw [splitInclusive_flatten, List.length_drop] at hconsumed
    dsimp only
    omega

theorem sameCapture_own {seen : Bytes} (h : seen <+: file) (hlength : seen.length ≤ captureHeadBytes) :
    sameCapture seen (captureHead file) = true := by
  unfold sameCapture
  split_ifs with hnil
  · rfl
  · obtain ⟨rest, rfl⟩ := h
    have hle : seen.length ≤ (captureHead (seen ++ rest)).length := by
      unfold captureHead
      rw [List.length_take, List.length_append]
      omega
    dsimp only
    rw [Nat.min_eq_left hle, Bool.and_eq_true, decide_eq_true_eq, decide_eq_true_eq]
    refine ⟨List.length_pos_of_ne_nil hnil, ?_⟩
    unfold captureHead
    rw [List.take_take, Nat.min_eq_left hlength, List.take_left, List.take_length]

end Reads

end Victauri.Cli.Logs
