import Victauri.Cli.Run.Lines

/-!
# What a capture records

Chunks of the two streams arrive in any order.  `Assembly` says what one stream's bytes amount to,
whatever its chunks; the capture keeps only the part of an unfinished line that makes no full
record.
-/

namespace Victauri.Cli.Run

theorem maxLineBytes_pos : 0 < maxLineBytes := by decide

/-! ## Recording -/

namespace Capture

variable {disk : Disk}

theorem record_setPending (c : Capture) (s : Stream) (line : Text) (pending : Stream → Bytes) :
    ({ c with pending := pending } : Capture).record disk s line =
      { c.record disk s line with pending := pending } := by
  unfold record pushErr writeRecord
  dsimp only
  split_ifs <;> rfl

theorem record_pending (c : Capture) (s : Stream) (line : Text) :
    (c.record disk s line).pending = c.pending := by
  unfold record pushErr writeRecord
  dsimp only
  split_ifs <;> rfl

variable (disk) in
/-- Pieces recorded one after the other. -/
def recordAll (c : Capture) (ps : List (Stream × Bytes)) : Capture :=
  ps.foldl (fun c p => c.record disk p.1 (Utf8.decode p.2)) c

theorem recordAll_append (c : Capture) (ps qs : List (Stream × Bytes)) :
    c.recordAll disk (ps ++ qs) = (c.recordAll disk ps).recordAll disk qs :=
  List.foldl_append

theorem recordAll_setPending (c : Capture) (ps : List (Stream × Bytes))
    (pending : Stream → Bytes) :
    ({ c with pending := pending } : Capture).recordAll disk ps =
      { c.recordAll disk ps with pending := pending } := by
  induction ps generalizing c with
  | nil => rfl
  | cons p ps ih =>
      change (({ c with pending := pending } : Capture).record disk p.1 _).recordAll disk ps = _
      rw [record_setPending, ih]
      rfl

theorem recordAll_pending (c : Capture) (ps : List (Stream × Bytes)) :
    (c.recordAll disk ps).pending = c.pending := by
  induction ps generalizing c with
  | nil => rfl
  | cons p ps ih =>
      change ((c.record disk p.1 _).recordAll disk ps).pending = _
      rw [ih, record_pending]

theorem recordLine_eq (c : Capture) (s : Stream) (line : Bytes) :
    recordLine disk c s line =
      c.recordAll disk ((pieces maxLineBytes line).map (Prod.mk s)) := by
  induction h : line.length using Nat.strongRecOn generalizing c line with
  | _ n ih =>
      unfold recordLine
      have hmax := maxLineBytes_pos
      by_cases hlong : maxLineBytes < line.length
      · rw [if_pos hlong, ih (line.drop maxLineBytes).length ?_ _ _ rfl, pieces_long hlong hmax]
        · rfl
        · rw [List.length_drop]
          omega
      · rw [if_neg hlong, pieces_short (by omega) hmax]
        rfl

theorem recordPending_eq (c : Capture) (s : Stream) (line : Bytes) :
    recordPending disk c s line =
      (c.recordAll disk ((cuts maxLineBytes line).1.map (Prod.mk s))).setPending s
        (cuts maxLineBytes line).2 := by
  induction line using cutInduction maxLineBytes_pos generalizing c with
  | short line h =>
      unfold recordPending
      rw [if_neg (by omega), cuts_short h]
      rfl
  | long line h ih =>
      unfold recordPending
      rw [if_pos h, ih, cuts_long maxLineBytes_pos h]
      rfl

theorem setPending_self (c : Capture) (s : Stream) (bytes : Bytes) :
    (c.setPending s bytes).pending s = bytes := by
  simp [setPending]

theorem setPending_recordAll (c : Capture) (ps : List (Stream × Bytes)) (s : Stream)
    (bytes : Bytes) :
    (c.setPending s bytes).recordAll disk ps = (c.recordAll disk ps).setPending s bytes := by
  unfold setPending
  rw [recordAll_setPending, recordAll_pending]

theorem setPending_setPending (c : Capture) (s : Stream) (bytes more : Bytes) :
    (c.setPending s bytes).setPending s more = c.setPending s more := by
  unfold setPending
  simp

theorem findIdx?_newline_open {bs : Bytes} (h : newline ∉ bs) :
    bs.findIdx? (· == newline) = none := by
  rw [List.findIdx?_eq_none_iff]
  intro b hb
  rw [beq_eq_false_iff_ne]
  rintro rfl
  exact h hb

theorem findIdx?_newline {line : Bytes} (h : newline ∉ line) (more : Bytes) :
    (line ++ newline :: more).findIdx? (· == newline) = some line.length := by
  rw [List.findIdx?_append, findIdx?_newline_open h]
  simp [List.findIdx?_cons]

/-- What one call records, and what it leaves pending. -/
theorem feed_eq (c : Capture) (s : Stream) (bytes : Bytes) (h : newline ∉ c.pending s) :
    feed disk c s bytes =
      (c.recordAll disk
        (((splitLines (c.pending s ++ bytes)).1.flatMap (pieces maxLineBytes) ++
          (cuts maxLineBytes (splitLines (c.pending s ++ bytes)).2).1).map (Prod.mk s))).setPending
        s (cuts maxLineBytes (splitLines (c.pending s ++ bytes)).2).2 := by
  induction bytes using lineInduction generalizing c with
  | unfinished bytes hbytes =>
      have hopen : newline ∉ c.pending s ++ bytes := by
        rw [List.mem_append, not_or]
        exact ⟨h, hbytes⟩
      unfold feed
      split
      · rename_i hstop
        rw [findIdx?_newline_open hbytes] at hstop
        exact absurd hstop.symm (Option.some_ne_none _)
      · rw [recordPending_eq, splitLines_open hopen]
        rfl
  | line line more hline ih =>
      have hopen : newline ∉ c.pending s ++ line := by
        rw [List.mem_append, not_or]
        exact ⟨h, hline⟩
      unfold feed
      split
      · rename_i stop hstop
        rw [findIdx?_newline hline] at hstop
        cases hstop
        have hdrop : (line ++ newline :: more).drop (line.length + 1) = more := by
          rw [← List.drop_drop, List.drop_left]
          rfl
        dsimp only
        rw [List.take_left, hdrop, recordLine_eq, ih _ (by
            rw [recordAll_pending, setPending_self]
            exact List.not_mem_nil),
          recordAll_pending, setPending_self, List.nil_append, ← List.append_assoc,
          splitLines_line hopen, setPending_recordAll, setPending_recordAll,
          setPending_setPending, ← recordAll_append, ← List.map_append, List.flatMap_cons,
          List.append_assoc]
      · rename_i hstop
        rw [findIdx?_newline hline] at hstop
        exact absurd hstop (Option.some_ne_none _)

theorem flushPartial_eq (c : Capture) (s : Stream) :
    flushPartial disk c s =
      (c.recordAll disk
        ((if c.pending s = [] then [] else [c.pending s]).map (Prod.mk s))).setPending s [] := by
  unfold flushPartial
  dsimp only
  split_ifs
  · rfl
  · exact setPending_recordAll c [(s, c.pending s)] s []

end Capture


/-! ## Assembling -/

inductive Event where
  | feed (s : Stream) (bytes : Bytes)
  | flush (s : Stream)

def Event.stream : Event → Stream
  | .feed s _ => s
  | .flush s => s

/-- `feed` or `flush_partial`. -/
def Capture.next (disk : Disk) (c : Capture) : Event → Capture
  | .feed s bytes => c.feed disk s bytes
  | .flush s => c.flushPartial disk s

/-- What one stream's bytes amount to: its lines that ended, the pieces of what ended, and the
unfinished line in full. -/
structure Assembly where
  ended : List Bytes
  pieces : List Bytes
  line : Bytes

namespace Assembly

def empty : Assembly := { ended := [], pieces := [], line := [] }

def feed (a : Assembly) (bytes : Bytes) : Assembly :=
  let (lines, rest) := splitLines (a.line ++ bytes)
  { ended := a.ended ++ lines
    pieces := a.pieces ++ lines.flatMap (Run.pieces maxLineBytes)
    line := rest }

def flush (a : Assembly) : Assembly :=
  { a with
    pieces := a.pieces ++ (if a.line = [] then [] else Run.pieces maxLineBytes a.line)
    line := [] }

/-- An event of another stream changes nothing. -/
def next (s : Stream) (a : Assembly) (e : Event) : Assembly :=
  if e.stream = s then
    match e with
    | .feed _ bytes => a.feed bytes
    | .flush _ => a.flush
  else a

/-- No line that ended is one the cuts use up. -/
def Regular (a : Assembly) : Prop := ∀ line ∈ a.ended, ¬ Exact maxLineBytes line

theorem regular_of_feed {a : Assembly} {bytes : Bytes} (h : (a.feed bytes).Regular) :
    a.Regular ∧ ∀ line ∈ (splitLines (a.line ++ bytes)).1, ¬ Exact maxLineBytes line := by
  constructor
  · intro line hline
    exact h line (List.mem_append_left _ hline)
  · intro line hline
    exact h line (List.mem_append_right _ hline)

end Assembly

/-- Going on with what is left of an unfinished line is going on with all of it. -/
theorem splitLines_resume {line : Bytes} (hline : newline ∉ line) (bytes : Bytes) :
    (cuts maxLineBytes (splitLines ((cuts maxLineBytes line).2 ++ bytes)).2).2 =
      (cuts maxLineBytes (splitLines (line ++ bytes)).2).2 ∧
    ((∀ l ∈ (splitLines (line ++ bytes)).1, ¬ Exact maxLineBytes l) →
      (cuts maxLineBytes line).1 ++
        ((splitLines ((cuts maxLineBytes line).2 ++ bytes)).1.flatMap (pieces maxLineBytes) ++
          (cuts maxLineBytes (splitLines ((cuts maxLineBytes line).2 ++ bytes)).2).1) =
      (splitLines (line ++ bytes)).1.flatMap (pieces maxLineBytes) ++
        (cuts maxLineBytes (splitLines (line ++ bytes)).2).1) := by
  have hmax := maxLineBytes_pos
  have hrest : newline ∉ (cuts maxLineBytes line).2 := fun h => hline (cuts_rest_mem hmax h)
  by_cases hmem : newline ∈ bytes
  · obtain ⟨front, more, rfl, hfront⟩ := List.eq_append_cons_of_mem hmem
    have hwhole : newline ∉ line ++ front := by
      rw [List.mem_append, not_or]
      exact ⟨hline, hfront⟩
    have hpart : newline ∉ (cuts maxLineBytes line).2 ++ front := by
      rw [List.mem_append, not_or]
      exact ⟨hrest, hfront⟩
    rw [← List.append_assoc, ← List.append_assoc, splitLines_line hwhole, splitLines_line hpart]
    refine ⟨rfl, fun hexact => ?_⟩
    dsimp only
    rw [List.flatMap_cons, List.flatMap_cons,
      pieces_append hmax (hexact _ List.mem_cons_self)]
    simp only [List.append_assoc]
  · have hwhole : newline ∉ line ++ bytes := by
      rw [List.mem_append, not_or]
      exact ⟨hline, hmem⟩
    have hpart : newline ∉ (cuts maxLineBytes line).2 ++ bytes := by
      rw [List.mem_append, not_or]
      exact ⟨hrest, hmem⟩
    rw [splitLines_open hwhole, splitLines_open hpart, cuts_append hmax line bytes]
    exact ⟨rfl, fun _ => rfl⟩

/-! ## Runs -/

/-- One stream's pieces. -/
def ofStream (s : Stream) (ps : List (Stream × Bytes)) : List Bytes :=
  (ps.filter fun p => p.1 = s).map Prod.snd

theorem ofStream_append (s : Stream) (ps qs : List (Stream × Bytes)) :
    ofStream s (ps ++ qs) = ofStream s ps ++ ofStream s qs := by
  simp [ofStream]

theorem ofStream_map (s t : Stream) (ps : List Bytes) :
    ofStream s (ps.map (Prod.mk t)) = if t = s then ps else [] := by
  by_cases h : t = s <;> simp [ofStream, List.filter_map, Function.comp_def, h]

/-- The capture has recorded `ps`, which are the pieces of what its streams amount to. -/
structure Assembles (disk : Disk) (base c : Capture) (assembly : Stream → Assembly)
    (ps : List (Stream × Bytes)) : Prop where
  capture : c = { base.recordAll disk ps with
    pending := fun s => (cuts maxLineBytes (assembly s).line).2 }
  unfinished : ∀ s, newline ∉ (assembly s).line
  recorded : ∀ s, (assembly s).Regular →
    ofStream s ps = (assembly s).pieces ++ (cuts maxLineBytes (assembly s).line).1

section Step

variable {disk : Disk} {base c : Capture} {assembly : Stream → Assembly}
  {ps : List (Stream × Bytes)}

theorem Assembles.pending (h : Assembles disk base c assembly ps) (s : Stream) :
    c.pending s = (cuts maxLineBytes (assembly s).line).2 := by
  rw [h.capture]

/-- One stream goes on: its pieces and what it leaves pending. -/
theorem Assembles.extend (h : Assembles disk base c assembly ps) {t : Stream} {a : Assembly}
    {more : List Bytes} {left : Bytes} (hleft : left = (cuts maxLineBytes a.line).2)
    (hopen : newline ∉ a.line)
    (hrecorded : a.Regular →
      (assembly t).Regular ∧
        (assembly t).pieces ++ (cuts maxLineBytes (assembly t).line).1 ++ more =
          a.pieces ++ (cuts maxLineBytes a.line).1) :
    Assembles disk base
      ((c.recordAll disk (more.map (Prod.mk t))).setPending t left)
      (Function.update assembly t a) (ps ++ more.map (Prod.mk t)) := by
  subst hleft
  constructor
  · rw [h.capture, Capture.recordAll_setPending, Capture.recordAll_append]
    unfold Capture.setPending
    simp only [Capture.mk.injEq, true_and, and_true]
    funext s
    by_cases hs : s = t
    · subst hs
      simp
    · simp [Function.update_of_ne hs]
  · intro s
    by_cases hs : s = t
    · subst hs
      simpa using hopen
    · simpa [Function.update_of_ne hs] using h.unfinished s
  · intro s
    rw [ofStream_append, ofStream_map]
    by_cases hs : s = t
    · subst hs
      intro hregular
      rw [Function.update_self] at hregular ⊢
      obtain ⟨hbefore, hmore⟩ := hrecorded hregular
      rw [h.recorded s hbefore, if_pos rfl, hmore]
    · rw [Function.update_of_ne hs, if_neg (Ne.symm hs), List.append_nil]
      exact h.recorded s

theorem next_eq_update (e : Event) :
    (fun s => (assembly s).next s e) =
      Function.update assembly e.stream ((assembly e.stream).next e.stream e) := by
  funext s
  by_cases hs : s = e.stream
  · subst hs
    rw [Function.update_self]
  · rw [Function.update_of_ne hs]
    unfold Assembly.next
    rw [if_neg (Ne.symm hs)]

theorem Assembles.next (h : Assembles disk base c assembly ps) (e : Event) :
    ∃ more, Assembles disk base (c.next disk e) (fun s => (assembly s).next s e) (ps ++ more) := by
  have hmax := maxLineBytes_pos
  rw [next_eq_update]
  cases e with
  | feed t bytes =>
      have hline := h.unfinished t
      have hpending : newline ∉ c.pending t := by
        rw [h.pending t]
        exact fun hmem => hline (cuts_rest_mem hmax hmem)
      obtain ⟨hleft, hpieces⟩ := splitLines_resume hline bytes
      apply Exists.intro
      change Assembles disk base (c.feed disk t bytes) _ _
      rw [Capture.feed_eq c t bytes hpending, h.pending t, hleft]
      have hnext : (assembly t).next t (.feed t bytes) = (assembly t).feed bytes := if_pos rfl
      change Assembles disk base _ (Function.update assembly t ((assembly t).next t _)) _
      rw [hnext]
      apply h.extend (a := (assembly t).feed bytes) rfl
      · exact splitLines_rest _
      · intro hregular
        obtain ⟨hbefore, hlines⟩ := Assembly.regular_of_feed hregular
        refine ⟨hbefore, ?_⟩
        rw [List.append_assoc, hpieces hlines]
        exact (List.append_assoc _ _ _).symm
  | flush t =>
      apply Exists.intro
      change Assembles disk base (c.flushPartial disk t) _ _
      rw [Capture.flushPartial_eq, h.pending t]
      have hnext : (assembly t).next t (.flush t) = (assembly t).flush := if_pos rfl
      change Assembles disk base _ (Function.update assembly t ((assembly t).next t _)) _
      rw [hnext]
      apply h.extend (a := (assembly t).flush)
      · change [] = (cuts maxLineBytes []).2
        rw [cuts_nil hmax]
      · exact List.not_mem_nil
      · intro hregular
        refine ⟨hregular, ?_⟩
        change _ = (assembly t).pieces ++ _ ++ (cuts maxLineBytes []).1
        rw [cuts_nil hmax, pieces_flush hmax, List.append_nil, List.append_assoc]

theorem assembles_run (events : List Event) (h : Assembles disk base c assembly ps) :
    ∃ more, Assembles disk base (events.foldl (Capture.next disk) c)
      (fun s => events.foldl (Assembly.next s) (assembly s)) (ps ++ more) := by
  induction events generalizing c assembly ps with
  | nil => exact ⟨[], by simpa using h⟩
  | cons e events ih =>
      obtain ⟨more, hnext⟩ := h.next e
      obtain ⟨rest, hrun⟩ := ih hnext
      refine ⟨more ++ rest, ?_⟩
      rw [← List.append_assoc]
      exact hrun

end Step


/-! ## What is recorded -/

/-- The texts of one stream's records. -/
def texts (s : Stream) (records : List Record) : List Text :=
  records.filterMap fun
    | .line t l => if t = s then some l else none
    | .exit .. => none

theorem texts_append (s : Stream) (rs more : List Record) :
    texts s (rs ++ more) = texts s rs ++ texts s more :=
  List.filterMap_append

/-- The text a piece is stored as. -/
def storedText (piece : Bytes) : Text := Capture.text (Utf8.decode piece)

theorem texts_map (s : Stream) (ps : List (Stream × Bytes)) :
    texts s (ps.map fun p => .line p.1 (storedText p.2)) = (ofStream s ps).map storedText := by
  induction ps with
  | nil => rfl
  | cons p ps ih =>
      by_cases h : p.1 = s
      · simpa [texts, ofStream, h] using ih
      · simpa [texts, ofStream, h] using ih

section Records

variable {disk : Disk}

theorem Capture.record_of_stopped {c : Capture} (h : c.stopped = true) (s : Stream)
    (line : Text) : c.record disk s line = c := by
  unfold record
  rw [if_pos h]

variable (disk) in
theorem Capture.record_cases {c : Capture} (h : c.stopped = false) (s : Stream) (line : Text) :
    ((c.record disk s line).stopped = false ∧
        (c.record disk s line).records = c.records ++ [.line s (text line)]) ∨
      ((c.record disk s line).stopped = true ∧
        (c.record disk s line).records = c.records ++ [stoppedNote]) := by
  unfold record
  rw [if_neg (by simp [h])]
  have hstopped : (c.pushErr s (text line)).stopped = false := by
    unfold pushErr
    split_ifs <;> exact h
  have hrecords : (c.pushErr s (text line)).records = c.records := by
    unfold pushErr
    split_ifs <;> rfl
  unfold writeRecord
  dsimp only
  split_ifs with _ _ hwas
  · exact Or.inl ⟨hstopped, by rw [hrecords]⟩
  · exact Or.inl ⟨hstopped, by rw [hrecords]⟩
  · rw [hstopped] at hwas
    exact absurd hwas Bool.false_ne_true
  · exact Or.inr ⟨rfl, by rw [hrecords]⟩

theorem Capture.recordAll_of_stopped {c : Capture} (h : c.stopped = true)
    (ps : List (Stream × Bytes)) : c.recordAll disk ps = c := by
  induction ps with
  | nil => rfl
  | cons p ps ih =>
      change (c.record disk p.1 _).recordAll disk ps = c
      rw [record_of_stopped h, ih]

variable (disk) in
/-- Everything is recorded, or all up to the moment the capture stopped. -/
theorem Capture.recordAll_records {c : Capture} (h : c.stopped = false)
    (ps : List (Stream × Bytes)) :
    ∃ kept, kept <+: ps ∧
      (c.recordAll disk ps).records =
        c.records ++ kept.map (fun p => .line p.1 (storedText p.2)) ++
          (if (c.recordAll disk ps).stopped = true then [stoppedNote] else []) ∧
      ((c.recordAll disk ps).stopped = false → kept = ps) := by
  induction ps generalizing c with
  | nil =>
      refine ⟨[], List.nil_prefix, ?_, fun _ => rfl⟩
      change c.records = c.records ++ [] ++ if c.stopped = true then [stoppedNote] else []
      simp [h]
  | cons p ps ih =>
      change ∃ kept, kept <+: p :: ps ∧
        ((c.record disk p.1 (Utf8.decode p.2)).recordAll disk ps).records = _ ++ _ ++
          (if ((c.record disk p.1 (Utf8.decode p.2)).recordAll disk ps).stopped = true
            then [stoppedNote] else []) ∧
        (((c.record disk p.1 (Utf8.decode p.2)).recordAll disk ps).stopped = false → _)
      rcases record_cases disk h p.1 (Utf8.decode p.2) with ⟨hgo, hrec⟩ | ⟨hstop, hrec⟩
      · obtain ⟨kept, hfront, hrecords, hall⟩ := ih hgo
        refine ⟨p :: kept, List.cons_prefix_cons.mpr ⟨rfl, hfront⟩, ?_, fun hstopped => ?_⟩
        · rw [hrecords, hrec]
          simp only [List.append_assoc, List.map_cons, List.cons_append, List.nil_append]
          rfl
        · rw [hall hstopped]
      · refine ⟨[], List.nil_prefix, ?_, fun hstopped => ?_⟩
        · rw [recordAll_of_stopped hstop, hrec, if_pos hstop]
          simp
        · rw [recordAll_of_stopped hstop, hstop] at hstopped
          exact absurd hstopped (by decide)

/-- A text with no escape sequence and no `\r` at its end that fits a record. -/
def Plain (line : Text) : Prop :=
  escape ∉ line ∧ line.getLast? ≠ some '\r' ∧ byteLength line ≤ maxLineBytes

theorem stripEscapes_plain {line : Text} (h : escape ∉ line) : stripEscapes line = line := by
  induction line with
  | nil => simp [stripEscapes]
  | cons c rest ih =>
      rw [List.mem_cons, not_or] at h
      unfold stripEscapes
      rw [if_pos (Ne.symm h.1), ih h.2]

theorem Capture.text_plain {line : Text} (h : Plain line) : text line = line := by
  have hstrip : stripAnsi line = line := by
    unfold stripAnsi
    rw [stripEscapes_plain h.1]
    exact if_neg h.2.1
  unfold text
  rw [hstrip]
  exact if_neg (by simpa using h.2.2)

end Records

/-! ## Whole streams -/

/-- The pieces of an unfinished line, none where there is nothing of it. -/
def tailPieces (rest : Bytes) : List Bytes := if rest = [] then [] else pieces maxLineBytes rest

/-- The pieces of a stream. -/
def streamPieces (bytes : Bytes) : List Bytes :=
  (splitLines bytes).1.flatMap (pieces maxLineBytes) ++ tailPieces (splitLines bytes).2

theorem tailPieces_flatten (rest : Bytes) : (tailPieces rest).flatten = rest := by
  unfold tailPieces
  split_ifs with h
  · rw [h]
    rfl
  · exact pieces_flatten maxLineBytes_pos rest

theorem decode_tailPieces {rest : Bytes} (h : CleanCuts maxLineBytes rest) :
    (tailPieces rest).flatMap Utf8.decode = Utf8.decode rest := by
  unfold tailPieces
  split_ifs with hnil
  · rw [hnil]
    rfl
  · exact decode_pieces maxLineBytes_pos rest h

theorem Assembly.foldl_feed (bytes : Bytes) (chunks : List Bytes) :
    chunks.foldl Assembly.feed
        { ended := (splitLines bytes).1
          pieces := (splitLines bytes).1.flatMap (Run.pieces maxLineBytes)
          line := (splitLines bytes).2 } =
      { ended := (splitLines (bytes ++ chunks.flatten)).1
        pieces := (splitLines (bytes ++ chunks.flatten)).1.flatMap (Run.pieces maxLineBytes)
        line := (splitLines (bytes ++ chunks.flatten)).2 } := by
  induction chunks generalizing bytes with
  | nil => rw [List.flatten_nil, List.append_nil]; rfl
  | cons chunk chunks ih =>
      rw [List.flatten_cons, ← List.append_assoc, ← ih (bytes ++ chunk), List.foldl_cons,
        splitLines_append bytes chunk, List.flatMap_append]
      rfl

theorem Assembly.foldl_filter (s : Stream) (events : List Event) (a : Assembly) :
    events.foldl (Assembly.next s) a =
      (events.filter fun e => e.stream = s).foldl (Assembly.next s) a := by
  induction events generalizing a with
  | nil => rfl
  | cons e events ih =>
      by_cases h : e.stream = s
      · rw [List.filter_cons_of_pos (by simpa using h), List.foldl_cons, List.foldl_cons, ih]
      · rw [List.filter_cons_of_neg (by simpa using h), List.foldl_cons, ih]
        unfold Assembly.next
        rw [if_neg h]

/-- A stream fed in any chunks, and then flushed. -/
theorem Assembly.of_chunks {s : Stream} {events : List Event} {chunks : List Bytes}
    (h : (events.filter fun e => e.stream = s) = chunks.map (.feed s) ++ [.flush s]) :
    events.foldl (Assembly.next s) .empty =
      { ended := (splitLines chunks.flatten).1, pieces := streamPieces chunks.flatten,
        line := [] } := by
  have hfeeds : (chunks.map (Event.feed s)).foldl (Assembly.next s) .empty =
      chunks.foldl Assembly.feed .empty := by
    rw [List.foldl_map]
    congr 1
    funext a chunk
    exact if_pos rfl
  have hflush : ∀ a : Assembly, a.next s (.flush s) = a.flush := fun a => if_pos rfl
  rw [foldl_filter, h, List.foldl_append, hfeeds, List.foldl_cons, List.foldl_nil, hflush]
  have hall := foldl_feed [] chunks
  rw [List.nil_append] at hall
  change (chunks.foldl Assembly.feed .empty) = _ at hall
  rw [hall]
  rfl


/-! ## Results -/

/-- What the capture holds of a stream with these bytes. -/
structure Recorded (c : Capture) (s : Stream) (bytes : Bytes) : Prop where
  /-- One record for each piece, as long as the capture has not stopped. -/
  texts : ∃ kept, kept <+: streamPieces bytes ∧
    texts s c.records =
      kept.map storedText ++ (if c.stopped = true then texts s [stoppedNote] else []) ∧
    (c.stopped = false → kept = streamPieces bytes)
  /-- The pieces and the line ends are the bytes. -/
  joined : ((splitLines bytes).1.flatMap fun line =>
      (pieces maxLineBytes line).flatten ++ [newline]) ++
    (tailPieces (splitLines bytes).2).flatten = bytes
  /-- Where no cut is inside a character, the decoded pieces are the decoded stream. -/
  decoded : (∀ line ∈ (splitLines bytes).2 :: (splitLines bytes).1, CleanCuts maxLineBytes line) →
    ((splitLines bytes).1.flatMap fun line =>
      (pieces maxLineBytes line).flatMap Utf8.decode ++ ['\n']) ++
    (tailPieces (splitLines bytes).2).flatMap Utf8.decode = Utf8.decode bytes
  /-- A piece whose text is plain is stored as it is. -/
  plain : ∀ piece, Plain (Utf8.decode piece) → storedText piece = Utf8.decode piece

theorem pieces_joined (bytes : Bytes) :
    ((splitLines bytes).1.flatMap fun line =>
      (pieces maxLineBytes line).flatten ++ [newline]) ++
    (tailPieces (splitLines bytes).2).flatten = bytes := by
  simp only [pieces_flatten maxLineBytes_pos, tailPieces_flatten]
  exact splitLines_join bytes

theorem pieces_decoded {bytes : Bytes}
    (h : ∀ line ∈ (splitLines bytes).2 :: (splitLines bytes).1, CleanCuts maxLineBytes line) :
    ((splitLines bytes).1.flatMap fun line =>
      (pieces maxLineBytes line).flatMap Utf8.decode ++ ['\n']) ++
    (tailPieces (splitLines bytes).2).flatMap Utf8.decode = Utf8.decode bytes := by
  rw [decode_tailPieces (h _ List.mem_cons_self), ← decode_lines bytes]
  congr 1
  apply List.flatMap_congr
  intro line hline
  rw [decode_pieces maxLineBytes_pos line (h line (List.mem_cons_of_mem _ hline))]

theorem assembles_create (disk : Disk) (written : Nat) :
    Assembles disk (Capture.create written) (Capture.create written) (fun _ => .empty) [] := by
  constructor
  · change _ = { Capture.create written with
      pending := fun _ => (cuts maxLineBytes []).2 }
    rw [cuts_nil maxLineBytes_pos]
    rfl
  · exact fun _ => List.not_mem_nil
  · intro s _
    change [] = [] ++ (cuts maxLineBytes []).1
    rw [cuts_nil maxLineBytes_pos]
    rfl

theorem capture_lines (disk : Disk) (written : Nat) (events : List Event) :
    let c := events.foldl (Capture.next disk) (Capture.create written)
    (∀ s, (c.pending s).length < maxLineBytes) ∧
      ∀ (s : Stream) (chunks : List Bytes), (events.filter fun e => e.stream = s) = chunks.map (.feed s) ++ [.flush s] →
        (∀ line ∈ (splitLines chunks.flatten).1, ¬ Exact maxLineBytes line) →
        Recorded c s chunks.flatten := by
  intro c
  obtain ⟨ps, h⟩ := assembles_run events (assembles_create disk written)
  rw [List.nil_append] at h
  constructor
  · intro s
    rw [h.pending s]
    exact cuts_rest_lt maxLineBytes_pos _
  · intro s chunks hchunks hexact
    refine ⟨?_, pieces_joined _, pieces_decoded, fun _ => Capture.text_plain⟩
    have hall := h.recorded s
    rw [Assembly.of_chunks hchunks] at hall
    have hpieces : ofStream s ps = streamPieces chunks.flatten := by
      rw [hall hexact, cuts_nil maxLineBytes_pos, List.append_nil]
    obtain ⟨kept, hfront, hrecords, hstopped⟩ :=
      Capture.recordAll_records disk (c := Capture.create written) rfl ps
    have hsame : c.records = ((Capture.create written).recordAll disk ps).records := by
      rw [show c = _ from h.capture]
    have hstop : c.stopped = ((Capture.create written).recordAll disk ps).stopped := by
      rw [show c = _ from h.capture]
    refine ⟨ofStream s kept, ?_, ?_, fun hgo => ?_⟩
    · rw [← hpieces]
      exact (hfront.filter _).map _
    · rw [hsame, hrecords, hstop, texts_append, texts_append, texts_map]
      change [] ++ _ ++ _ = _
      rw [List.nil_append]
      congr 1
      split_ifs <;> rfl
    · rw [hstopped (hstop ▸ hgo), hpieces]


/-- A disk where every record has its place. -/
def roomyDisk : Disk := { size := fun _ _ => 0, rotates := fun _ => true }

/-- `hello` and `word` on one stream, `E1` on the other. -/
theorem capture_lines_interleaved :
    Recorded
      ([.feed .out [104, 101], .feed .err [69, 49, 10], .feed .out [108, 108, 111, 10, 119, 111],
        .flush .err, .feed .out [114, 100], .flush .out].foldl (Capture.next roomyDisk)
          (Capture.create 0))
      .out [104, 101, 108, 108, 111, 10, 119, 111, 114, 100] :=
  (capture_lines roomyDisk 0 _).2 .out
    [[104, 101], [108, 108, 111, 10, 119, 111], [114, 100]] rfl (by decide)

section Failures

theorem record_rotates {disk : Disk} (h : ∀ k, disk.rotates k = true) (c : Capture) (s : Stream)
    (line : Text) : (c.record disk s line).stopped = c.stopped := by
  unfold Capture.record Capture.pushErr Capture.writeRecord
  simp only [h]
  split_ifs <;> rfl

theorem recordAll_rotates {disk : Disk} (h : ∀ k, disk.rotates k = true) (c : Capture)
    (ps : List (Stream × Bytes)) : (c.recordAll disk ps).stopped = c.stopped := by
  induction ps generalizing c with
  | nil => rfl
  | cons p ps ih =>
      change ((c.record disk p.1 _).recordAll disk ps).stopped = _
      rw [ih, record_rotates h]

theorem texts_roomy (ps : List (Stream × Bytes)) (s : Stream) :
    texts s ((Capture.create 0).recordAll roomyDisk ps).records =
      (ofStream s ps).map storedText := by
  obtain ⟨kept, _, hrecords, hall⟩ :=
    Capture.recordAll_records roomyDisk (c := Capture.create 0) rfl ps
  have hgo : ((Capture.create 0).recordAll roomyDisk ps).stopped = false :=
    recordAll_rotates (fun _ => rfl) _ _
  rw [hrecords, hgo, hall hgo, ← texts_map]
  simp [Capture.create]

theorem decode_replicate (n : Nat) (more : Bytes) :
    Utf8.decode (List.replicate n 97 ++ more) = List.replicate n 'a' ++ Utf8.decode more := by
  induction n with
  | zero => rfl
  | succ n ih =>
      rw [List.replicate_succ, List.cons_append, List.replicate_succ, List.cons_append, ← ih]
      rfl

theorem newline_notMem_replicate (n : Nat) : newline ∉ List.replicate n (97 : UInt8) := by
  intro h
  have := List.eq_of_mem_replicate h
  exact absurd this (by decide)

theorem flushPartial_nothing {c : Capture} (h : c.pending .out = []) :
    c.flushPartial roomyDisk .out = c.setPending .out [] := by
  rw [Capture.flushPartial_eq, h]
  rfl

/-- A line and its newline in one chunk. -/
theorem texts_line {line : Bytes} (hopen : newline ∉ line) :
    texts .out ([.feed .out (line ++ [newline]), .flush .out].foldl
        (Capture.next roomyDisk) (Capture.create 0)).records =
      (pieces maxLineBytes line).map storedText := by
  have hfeed : Capture.feed roomyDisk (Capture.create 0) .out (line ++ [newline]) =
      ((Capture.create 0).recordAll roomyDisk
        ((pieces maxLineBytes line).map (Prod.mk .out))).setPending .out [] := by
    rw [Capture.feed_eq _ _ _ List.not_mem_nil]
    change (Capture.recordAll roomyDisk _ (((splitLines (line ++ [newline])).1.flatMap _ ++
      (cuts maxLineBytes (splitLines (line ++ [newline])).2).1).map _)).setPending _
      (cuts maxLineBytes (splitLines (line ++ [newline])).2).2 = _
    rw [splitLines_line hopen]
    change (Capture.recordAll roomyDisk _ (([line].flatMap _ ++
      (cuts maxLineBytes []).1).map _)).setPending _ (cuts maxLineBytes []).2 = _
    rw [cuts_nil maxLineBytes_pos, List.flatMap_singleton, List.append_nil]
  change texts .out (Capture.flushPartial roomyDisk
    (Capture.feed roomyDisk (Capture.create 0) .out (line ++ [newline])) .out).records = _
  rw [hfeed, flushPartial_nothing (Capture.setPending_self _ _ _), Capture.setPending_setPending]
  change texts .out (Capture.recordAll _ _ _).records = _
  rw [texts_roomy, ofStream_map]
  rfl

/-- A line of exactly `MAX_LINE_BYTES` has an empty record more where its newline comes alone. -/
theorem texts_at_limit {line : Bytes} (hopen : newline ∉ line)
    (hlength : line.length = maxLineBytes) :
    texts .out ([.feed .out line, .feed .out [newline], .flush .out].foldl
        (Capture.next roomyDisk) (Capture.create 0)).records = [storedText line, []] := by
  have hmax := maxLineBytes_pos
  have hempty : storedText [] = [] := by decide +kernel
  have hline : Capture.feed roomyDisk (Capture.create 0) .out line =
      ((Capture.create 0).recordAll roomyDisk [(.out, line)]).setPending .out [] := by
    rw [Capture.feed_eq _ _ _ List.not_mem_nil]
    change (Capture.recordAll roomyDisk _ (((splitLines line).1.flatMap _ ++
      (cuts maxLineBytes (splitLines line).2).1).map _)).setPending _
      (cuts maxLineBytes (splitLines line).2).2 = _
    rw [splitLines_open hopen, cuts_full hmax hlength]
    rfl
  have hnewline : ∀ c : Capture, c.pending .out = [] →
      Capture.feed roomyDisk c .out [newline] =
        (c.recordAll roomyDisk [(.out, [])]).setPending .out [] := by
    intro c hc
    rw [Capture.feed_eq c _ _ (hc ▸ List.not_mem_nil), hc]
    change (Capture.recordAll roomyDisk c (([[]].flatMap _ ++
      (cuts maxLineBytes []).1).map _)).setPending _ (cuts maxLineBytes []).2 = _
    rw [cuts_nil hmax, List.flatMap_singleton, pieces_nil hmax]
    rfl
  change texts .out (Capture.flushPartial roomyDisk (Capture.feed roomyDisk
    (Capture.feed roomyDisk (Capture.create 0) .out line) .out [newline]) .out).records = _
  rw [hline, hnewline _ (Capture.setPending_self _ _ _),
    flushPartial_nothing (Capture.setPending_self _ _ _),
    Capture.setPending_setPending, Capture.setPending_recordAll, Capture.setPending_setPending,
    ← Capture.recordAll_append]
  change texts .out (Capture.recordAll _ _ _).records = _
  rw [texts_roomy]
  change [storedText line, storedText []] = _
  rw [hempty]

/-- A two-byte character across the end of the first piece. -/
theorem texts_across {front : Bytes} (hopen : newline ∉ front)
    (hlength : front.length + 1 = maxLineBytes) :
    texts .out ([.feed .out (front ++ [0xC3, 0xA9] ++ [newline]), .flush .out].foldl
        (Capture.next roomyDisk) (Capture.create 0)).records =
      [storedText (front ++ [0xC3]), ['\uFFFD']] := by
  have hline : newline ∉ front ++ [0xC3, 0xA9] := by
    rw [List.mem_append, not_or]
    exact ⟨hopen, by decide⟩
  have hfirst : (front ++ [(0xC3 : UInt8)]).length = maxLineBytes := by
    rw [List.length_append]
    exact hlength
  have hsplit : front ++ [0xC3, 0xA9] = (front ++ [0xC3]) ++ [0xA9] := by
    rw [List.append_assoc]
    rfl
  have hlong : maxLineBytes < (front ++ [0xC3, 0xA9] : Bytes).length := by
    rw [hsplit, List.length_append, hfirst]
    exact Nat.lt_succ_self _
  have hlast : storedText [0xA9] = ['\uFFFD'] := by decide +kernel
  rw [texts_line hline, pieces_long hlong maxLineBytes_pos, hsplit, List.take_left' hfirst,
    List.drop_left' hfirst, pieces_short (by decide) maxLineBytes_pos, List.map_cons,
    List.map_singleton, hlast]

/-- An empty record for a newline that came in a chunk of its own, a character cut in two, and an
escape sequence that no record has. -/
theorem capture_lines_fails :
    texts .out ([.feed .out (List.replicate maxLineBytes 97), .feed .out [newline],
        .flush .out].foldl (Capture.next roomyDisk) (Capture.create 0)).records ≠
      texts .out ([.feed .out (List.replicate maxLineBytes 97 ++ [newline]), .flush .out].foldl
        (Capture.next roomyDisk) (Capture.create 0)).records ∧
    (['\uFFFD'] ∈ texts .out ([.feed .out (List.replicate (maxLineBytes - 1) 97 ++ [0xC3, 0xA9] ++
        [newline]), .flush .out].foldl (Capture.next roomyDisk) (Capture.create 0)).records ∧
      Utf8.decode (List.replicate (maxLineBytes - 1) 97 ++ [0xC3, 0xA9] ++ [newline]) =
        List.replicate (maxLineBytes - 1) 'a' ++ ['é', '\n']) ∧
    texts .out ([.feed .out [27, 91, 51, 49, 109, 114, 101, 100, 10], .flush .out].foldl
        (Capture.next roomyDisk) (Capture.create 0)).records = [['r', 'e', 'd']] := by
  refine ⟨?_, ⟨?_, ?_⟩, ?_⟩
  · rw [texts_at_limit (newline_notMem_replicate _) List.length_replicate,
      texts_line (newline_notMem_replicate _),
      pieces_short (Nat.le_of_eq List.length_replicate) maxLineBytes_pos]
    intro h
    exact absurd (congrArg List.length h) (by simp)
  · rw [texts_across (newline_notMem_replicate _) (by rw [List.length_replicate]; rfl)]
    exact List.mem_cons_of_mem _ List.mem_cons_self
  · rw [List.append_assoc, decode_replicate]
    rfl
  · rw [show ([27, 91, 51, 49, 109, 114, 101, 100, 10] : Bytes) =
        [27, 91, 51, 49, 109, 114, 101, 100] ++ [newline] from rfl,
      texts_line (by decide), pieces_short (by decide) maxLineBytes_pos]
    decide +kernel

end Failures

end Victauri.Cli.Run
