import Victauri.Plugin.BackendLogs.History

/-!
# What eviction and clearing leave of the log

Both move the oldest sequence number, and the ring keeps one watermark: where the last clear
left off.  A trace keeps what the ring forgets.
-/

namespace Victauri.Plugin.BackendLogs

/-! ## A buffer with one waiter -/

/-- What happens to a buffer that is waited on. -/
inductive Event where
  | push (entry : BackendLogEntry)
  | clear
  /-- The waiter's next round. -/
  | round

/-- The record an event brings. -/
def Event.pushed : Event → Option BackendLogEntry
  | push entry => some entry
  | _ => none

/-- What a push evicts: the entries that were held or came in and are held no longer. -/
def LogBuffer.evictedBy (b : LogBuffer) (entry : BackendLogEntry) : List BackendLogEntry :=
  let held := b.ring.entries ++ [{ entry with seq := b.ring.nextSeq }]
  held.take (held.length - (b.push entry).ring.entries.length)

structure Trace where
  buffer : LogBuffer
  wait : WaitFor
  answer : Option (BackendLogEntry × Nat)
  /-- Everything the waiter checked, a clear removed, or a push evicted. -/
  tested : List BackendLogEntry
  cleared : List BackendLogEntry
  evicted : List BackendLogEntry
  /-- What had been evicted when the buffer was last cleared. -/
  evictedBeforeClear : List BackendLogEntry
  /-- What was waited for and evicted untested: all of it, what the waiter has not been round
  to count yet, and what a clear came over before it was. -/
  lost : List BackendLogEntry
  uncounted : List BackendLogEntry
  hidden : List BackendLogEntry

namespace Trace

def start (capacity maxBytes fromSeq : Nat) : Trace :=
  { buffer := .new capacity maxBytes, wait := .start fromSeq, answer := none, tested := []
    cleared := [], evicted := [], evictedBeforeClear := [], lost := [], uncounted := []
    hidden := [] }

/-- `e` is waited for and no round has tested it. -/
def awaits (fromSeq : Nat) (t : Trace) (e : BackendLogEntry) : Bool :=
  decide (fromSeq ≤ e.seq) && t.tested.all fun d => d.seq != e.seq

variable (fromSeq : Nat) (pred : BackendLogEntry → Bool)

/-- A round of the wait. -/
def scan (t : Trace) : Trace :=
  let r := t.wait.round pred t.buffer.ring
  { t with
    wait := r.2
    answer := r.1
    tested := t.tested ++ t.wait.fresh t.buffer.ring
    uncounted := [] }

def step (t : Trace) : Event → Trace
  | .push entry =>
      let gone := t.buffer.evictedBy entry
      { t with
        buffer := t.buffer.push entry
        evicted := t.evicted ++ gone
        lost := t.lost ++ gone.filter (t.awaits fromSeq)
        uncounted := t.uncounted ++ gone.filter (t.awaits fromSeq) }
  | .clear =>
      { t with
        buffer := t.buffer.clear
        cleared := t.cleared ++ t.buffer.ring.entries
        evictedBeforeClear := t.evicted
        uncounted := []
        hidden := t.hidden ++ t.uncounted }
  | .round =>
      -- An answered wait has returned.
      if t.answer.isSome then t else t.scan pred

def run (t : Trace) (events : List Event) : Trace := events.foldl (step fromSeq pred) t

@[simp] theorem scan_scannedTo (t : Trace) :
    (t.scan pred).wait.scannedTo = max t.wait.scannedTo t.buffer.ring.nextSeq := rfl

end Trace

/-! ## One event -/

section Events

variable {pushed : List BackendLogEntry} {oldest : Nat} {b : LogBuffer}

/-- What a push evicts is the next stretch of the history. -/
theorem evictedBy_eq (h : Tracks pushed oldest b.ring) (e : BackendLogEntry) {oldest' : Nat}
    (hle : oldest ≤ oldest') (h' : Tracks (pushed ++ [e]) oldest' (b.push e).ring) :
    b.evictedBy e = stretch (pushed ++ [e]) oldest oldest' := by
  have hheld : b.ring.entries ++ [{ e with seq := b.ring.nextSeq }] =
      (numbered (pushed ++ [e])).drop oldest := by
    rw [numbered_append, List.drop_append_of_le_length (by rw [length_numbered]; exact h.oldest_le),
      ← h.entries, ← h.nextSeq]
  have hlength := h'.length_entries
  have holdest := h'.oldest_le
  rw [LogBuffer.evictedBy, hheld, hlength, List.length_drop, length_numbered, stretch,
    List.drop_take]
  congr 1
  omega

/-- A ring counts what lies between its watermarks. -/
theorem evictedSince_eq (h : Tracks pushed oldest b.ring) (start : Nat) :
    b.ring.evictedSince start =
      (stretch pushed (max start b.ring.clearedBefore) oldest).length := by
  rw [Ring.evictedSince, h.oldestSeq, length_stretch, Nat.min_eq_left h.oldest_le]

end Events

/-- The watermarks tell stretches of the history. -/
structure Trace.Inv (fromSeq : Nat) (pushed : List BackendLogEntry) (oldest : Nat) (t : Trace) :
    Prop where
  tracks : Tracks pushed oldest t.buffer.ring
  evicted : t.evicted =
    t.evictedBeforeClear ++ stretch pushed t.buffer.ring.clearedBefore oldest
  before : ∀ e ∈ t.evictedBeforeClear, e.seq < t.buffer.ring.clearedBefore
  from_le : fromSeq ≤ t.wait.scannedTo
  scannedTo_le : t.wait.scannedTo ≤ max fromSeq pushed.length
  tested : ∀ e ∈ t.tested, e.seq < t.wait.scannedTo
  /-- What is still held below `scanned_to` has been tested. -/
  held : ∀ e ∈ numbered pushed, oldest ≤ e.seq → fromSeq ≤ e.seq → e.seq < t.wait.scannedTo →
    e ∈ t.tested
  gone : ∀ e ∈ numbered pushed, e.seq < oldest → fromSeq ≤ e.seq →
    e ∈ t.tested ∨ e ∈ t.cleared ∨ e ∈ t.lost
  uncounted : t.uncounted =
    stretch pushed (max t.wait.scannedTo t.buffer.ring.clearedBefore) oldest
  counted : t.lost.length = t.wait.missed + t.uncounted.length + t.hidden.length

namespace Trace.Inv

variable {fromSeq : Nat} {pushed : List BackendLogEntry} {oldest : Nat} {t : Trace}

theorem start (capacity maxBytes fromSeq : Nat) :
    (Trace.start capacity maxBytes fromSeq).Inv fromSeq [] 0 where
  tracks := tracks_empty
  evicted := rfl
  before := fun e he => absurd he List.not_mem_nil
  from_le := Nat.le_refl _
  scannedTo_le := Nat.le_max_left _ _
  tested := fun e he => absurd he List.not_mem_nil
  held := fun e he => absurd he List.not_mem_nil
  gone := fun e he => absurd he List.not_mem_nil
  uncounted := by
    rw [stretch_of_le (Nat.zero_le _)]
    rfl
  counted := rfl

theorem push (h : t.Inv fromSeq pushed oldest) (pred : BackendLogEntry → Bool)
    (e : BackendLogEntry) :
    ∃ oldest', (t.step fromSeq pred (.push e)).Inv fromSeq (pushed ++ [e]) oldest' := by
  obtain ⟨oldest', hle, hle', hcleared, htracks'⟩ :=
    h.tracks.push t.buffer.capacity_pos t.buffer.maxBytes e
  have hgone : t.buffer.evictedBy e = stretch (pushed ++ [e]) oldest oldest' :=
    evictedBy_eq h.tracks e hle htracks'
  have holdest := h.tracks.oldest_le
  have hbefore := h.tracks.clearedBefore_le
  have hfrom := h.from_le
  have hscanned := h.scannedTo_le
  have hheld : ∀ d ∈ numbered (pushed ++ [e]), oldest ≤ d.seq → fromSeq ≤ d.seq →
      d.seq < t.wait.scannedTo → d ∈ t.tested := by
    intro d hd
    rw [numbered_append, List.mem_append, List.mem_singleton] at hd
    rcases hd with hd | rfl
    · exact h.held d hd
    · -- the new entry is past everything scanned
      intro _ hge hlt
      dsimp only at hge hlt
      omega
  have hawaits : ∀ d ∈ stretch (pushed ++ [e]) oldest oldest',
      t.awaits fromSeq d = true ↔ t.wait.scannedTo ≤ d.seq := by
    intro d hd
    obtain ⟨hin, -, hge⟩ := mem_stretch.mp hd
    rw [Trace.awaits, Bool.and_eq_true, decide_eq_true_eq, List.all_eq_true]
    constructor
    · rintro ⟨hseq, hall⟩
      by_contra hlt
      have htested := hall d (hheld d hin hge hseq (Nat.not_le.mp hlt))
      rw [bne_self_eq_false] at htested
      exact Bool.false_ne_true htested
    · intro hseq
      refine ⟨Nat.le_trans hfrom hseq, ?_⟩
      intro c hc
      have hlt := h.tested c hc
      rw [bne_iff_ne]
      omega
  have hlost : (t.buffer.evictedBy e).filter (t.awaits fromSeq) =
      stretch (pushed ++ [e]) (max oldest t.wait.scannedTo) oldest' := by
    rw [hgone, filter_stretch hawaits]
  have hpush {lo : Nat} : stretch pushed lo oldest = stretch (pushed ++ [e]) lo oldest :=
    (stretch_push holdest e lo).symm
  refine ⟨oldest', ?_⟩
  exact
    { tracks := htracks'
      evicted := by
        change t.evicted ++ t.buffer.evictedBy e = t.evictedBeforeClear ++
          stretch (pushed ++ [e]) (t.buffer.push e).ring.clearedBefore oldest'
        have hsame : (t.buffer.push e).ring.clearedBefore = t.buffer.ring.clearedBefore := hcleared
        rw [h.evicted, hgone, hsame, List.append_assoc, hpush, stretch_append hbefore hle]
      before := by
        intro d hd
        exact Nat.lt_of_lt_of_eq (h.before d hd) hcleared.symm
      from_le := hfrom
      scannedTo_le := by
        rw [List.length_append]
        change t.wait.scannedTo ≤ _
        omega
      tested := h.tested
      held := by
        intro d hd hge
        exact hheld d hd (Nat.le_trans hle hge)
      gone := by
        intro d hd hlt hseq
        change d ∈ t.tested ∨ d ∈ t.cleared ∨ d ∈ t.lost ++ _
        rw [List.mem_append]
        by_cases hold : d.seq < oldest
        · have hin : d ∈ numbered pushed := by
            have hstretch := mem_stretch.mpr ⟨hd, hold, Nat.zero_le _⟩
            rw [← hpush] at hstretch
            exact (mem_stretch.mp hstretch).1
          exact (h.gone d hin hold hseq).imp_right (Or.imp_right Or.inl)
        · by_cases hnew : t.wait.scannedTo ≤ d.seq
          · refine .inr (.inr (.inr ?_))
            rw [hlost, mem_stretch]
            exact ⟨hd, hlt, by omega⟩
          · exact .inl (hheld d hd (Nat.not_lt.mp hold) hseq (Nat.not_le.mp hnew))
      uncounted := by
        change t.uncounted ++ (t.buffer.evictedBy e).filter _ = stretch (pushed ++ [e])
          (max t.wait.scannedTo (t.buffer.push e).ring.clearedBefore) oldest'
        have hsame : (t.buffer.push e).ring.clearedBefore = t.buffer.ring.clearedBefore := hcleared
        rw [h.uncounted, hlost, hsame, hpush]
        rcases Nat.le_total t.wait.scannedTo oldest with hscan | hscan
        · rw [Nat.max_eq_left hscan]
          exact stretch_append (Nat.max_le.mpr ⟨hscan, hbefore⟩) hle _
        · rw [stretch_of_le (by omega), List.nil_append]
          congr 1
          omega
      counted := by
        change (t.lost ++ _).length = t.wait.missed + (t.uncounted ++ _).length + t.hidden.length
        rw [List.length_append, List.length_append, h.counted]
        omega }

theorem clear (h : t.Inv fromSeq pushed oldest) (pred : BackendLogEntry → Bool) :
    (t.step fromSeq pred .clear).Inv fromSeq pushed pushed.length where
  tracks := h.tracks.clear
  evicted := by
    change t.evicted = t.evicted ++ stretch pushed t.buffer.ring.nextSeq pushed.length
    rw [h.tracks.nextSeq, stretch_of_le (Nat.le_refl _), List.append_nil]
  before := by
    intro e he
    change e.seq < t.buffer.ring.nextSeq
    rw [h.tracks.nextSeq]
    have hbefore := h.tracks.clearedBefore_le
    have holdest := h.tracks.oldest_le
    have he : e ∈ t.evicted := he
    rw [h.evicted, List.mem_append, mem_stretch] at he
    rcases he with he | ⟨-, hlt, -⟩
    · have hlt := h.before e he
      omega
    · omega
  from_le := h.from_le
  scannedTo_le := h.scannedTo_le
  tested := h.tested
  held := by
    intro e he hge
    exact absurd (seq_lt_of_mem he) (Nat.not_lt.mpr hge)
  gone := by
    intro e he _ hseq
    change e ∈ t.tested ∨ e ∈ t.cleared ++ t.buffer.ring.entries ∨ e ∈ t.lost
    rw [List.mem_append]
    by_cases hlt : e.seq < oldest
    · exact (h.gone e he hlt hseq).imp_right (Or.imp_left Or.inl)
    · refine .inr (.inl (.inr ?_))
      rw [h.tracks.entries, drop_numbered, mem_stretch]
      exact ⟨he, seq_lt_of_mem he, Nat.not_lt.mp hlt⟩
  uncounted := by
    change [] = stretch pushed (max t.wait.scannedTo t.buffer.ring.nextSeq) pushed.length
    rw [h.tracks.nextSeq, stretch_of_le (Nat.le_max_right _ _)]
  counted := by
    change t.lost.length = t.wait.missed + 0 + (t.hidden ++ t.uncounted).length
    rw [List.length_append, h.counted]
    omega

theorem round (h : t.Inv fromSeq pushed oldest) (pred : BackendLogEntry → Bool) :
    (t.step fromSeq pred .round).Inv fromSeq pushed oldest := by
  by_cases hanswer : t.answer.isSome
  · rw [Trace.step, if_pos hanswer]
    exact h
  · rw [Trace.step, if_neg hanswer]
    have hfrom := h.from_le
    have hscanned := h.scannedTo_le
    have holdest := h.tracks.oldest_le
    have htested : (t.scan pred).tested =
        t.tested ++ stretch pushed (max oldest t.wait.scannedTo) pushed.length := by
      rw [← drop_numbered, ← h.tracks.since]
      rfl
    have hnext : (t.scan pred).wait.scannedTo = max t.wait.scannedTo pushed.length := by
      rw [Trace.scan_scannedTo, h.tracks.nextSeq]
    exact
      { tracks := h.tracks
        evicted := h.evicted
        before := h.before
        from_le := by
          rw [hnext]
          omega
        scannedTo_le := by
          rw [hnext]
          omega
        tested := by
          intro e he
          rw [htested, List.mem_append, mem_stretch] at he
          rw [hnext]
          rcases he with he | ⟨-, hlt, -⟩
          · exact Nat.lt_of_lt_of_le (h.tested e he) (Nat.le_max_left _ _)
          · exact Nat.lt_of_lt_of_le hlt (Nat.le_max_right _ _)
        held := by
          intro e he hge hseq _
          rw [htested, List.mem_append, mem_stretch]
          by_cases hold : e.seq < t.wait.scannedTo
          · exact .inl (h.held e he hge hseq hold)
          · exact .inr ⟨he, seq_lt_of_mem he, by omega⟩
        gone := by
          intro e he hlt hseq
          rw [htested, List.mem_append]
          exact (h.gone e he hlt hseq).imp_left Or.inl
        uncounted := by
          rw [hnext, stretch_of_le (by omega)]
          rfl
        counted := by
          change t.lost.length =
            t.wait.missed + t.buffer.ring.evictedSince t.wait.scannedTo + 0 + t.hidden.length
          rw [h.counted, h.uncounted, evictedSince_eq h.tracks, Nat.add_zero] }

theorem run (h : t.Inv fromSeq pushed oldest) (pred : BackendLogEntry → Bool)
    (events : List Event) :
    ∃ oldest', (t.run fromSeq pred events).Inv fromSeq
      (pushed ++ events.filterMap Event.pushed) oldest' := by
  induction events generalizing t pushed oldest with
  | nil =>
      rw [List.filterMap_nil, List.append_nil]
      exact ⟨oldest, h⟩
  | cons event events ih =>
      cases event with
      | push e =>
          obtain ⟨oldest', hpush⟩ := h.push pred e
          obtain ⟨last, hlast⟩ := ih hpush
          rw [List.append_assoc] at hlast
          exact ⟨last, hlast⟩
      | clear => exact ih (h.clear pred)
      | round => exact ih (h.round pred)

/-- The ring's count is right from past what it forgot. -/
theorem evictedSince_iff (h : t.Inv fromSeq pushed oldest) (start : Nat) :
    t.buffer.ring.evictedSince start = t.evicted.countP (fun e => start ≤ e.seq) ↔
      ∀ e ∈ t.evictedBeforeClear, e.seq < start := by
  have hcount : (stretch pushed t.buffer.ring.clearedBefore oldest).countP
      (fun e => start ≤ e.seq) = t.buffer.ring.evictedSince start := by
    rw [List.countP_eq_length_filter, evictedSince_eq h.tracks, Nat.max_comm,
      filter_stretch fun e _ => decide_eq_true_iff]
  rw [h.evicted, List.countP_append, hcount]
  constructor
  · intro heq e he
    have hzero : t.evictedBeforeClear.countP (fun e => start ≤ e.seq) = 0 := by omega
    have hnot := List.countP_eq_zero.mp hzero e he
    rw [decide_eq_true_eq] at hnot
    exact Nat.not_le.mp hnot
  · intro hall
    have hzero : t.evictedBeforeClear.countP (fun e => start ≤ e.seq) = 0 := by
      rw [List.countP_eq_zero]
      intro e he
      rw [decide_eq_true_eq]
      exact Nat.not_le.mpr (hall e he)
    rw [hzero, Nat.zero_add]

end Trace.Inv

/-! ## Whole runs -/

/-- A timed-out wait answers for every entry pushed before its last scan: it tested it, or a
clear removed it, or the entry is one of those it reports as missed. -/
structure Trace.Accounted (fromSeq : Nat) (pushed : List BackendLogEntry) (t : Trace) : Prop where
  entries : ∀ e ∈ numbered pushed, fromSeq ≤ e.seq →
    e ∈ t.tested ∨ e ∈ t.cleared ∨ e ∈ t.lost
  missed : t.lost.length = t.wait.missed

end Victauri.Plugin.BackendLogs
