import Victauri.Core.Recording
import Mathlib.Data.List.Induction

/-!
# What a recording remembers

A ledger forgets nothing: every event appended since the start, oldest first, and
every checkpoint taken, with the number of events appended before it.  The
recorder keeps two bounded rings and a counter instead.  `Tracks` relates the two,
`Tracks.perform` keeps the relation over one operation, and `tracks_performAll`
over every sequence of them.  The window between two checkpoints is then read off
the ledger.
-/

namespace Victauri.Core

open Victauri.Library

/-! ## The ledger -/

structure Ledger where
  /-- Every event appended, oldest first. -/
  events : List AppEvent
  /-- Every checkpoint taken: its id, and how many events had been appended. -/
  marks : List (String × Nat)

namespace Ledger

def empty : Ledger := { events := [], marks := [] }

/-- The checkpoints a recording still knows by id. -/
def held (l : Ledger) : List (String × Nat) :=
  Ring.newest defaultMaxCheckpoints l.marks

/-- One operation on the recording of generation `generation`. -/
def perform (generation : UInt64) (l : Ledger) : Op → Ledger
  | .recordEvent event => { l with events := l.events ++ [event] }
  | .recordEventIf g event =>
      if generation = g then { l with events := l.events ++ [event] } else l
  | .checkpoint id _ _ _ =>
      if id ∈ l.held.map Prod.fst then l
      else { l with marks := l.marks ++ [(id, l.events.length)] }

def performAll (generation : UInt64) (ops : List Op) : Ledger :=
  ops.foldl (perform generation) empty

/-- How many events had been appended when the checkpoint now known as `id` was
taken. -/
def position (l : Ledger) (id : String) : Option Nat :=
  (l.marks.reverse.find? fun m => m.1 == id).map Prod.snd

/-- The appended events, numbered from 0. -/
def numbered (l : Ledger) : List RecordedEvent :=
  l.events.mapIdx fun i event => { index := i, timestamp := event.timestamp, event }

/-- The events appended after the first `lo` and not after the first `hi`. -/
def between (l : Ledger) (lo hi : Nat) : List RecordedEvent :=
  (l.numbered.take hi).drop lo

end Ledger

/-! ## Numbered events -/

theorem length_numbered (l : Ledger) : l.numbered.length = l.events.length := by
  simp [Ledger.numbered]

theorem index_numbered (l : Ledger) (i : Nat) (h : i < l.numbered.length) :
    l.numbered[i].index = i := by
  simp [Ledger.numbered]

theorem numbered_append (l : Ledger) (event : AppEvent) :
    { l with events := l.events ++ [event] : Ledger }.numbered =
      l.numbered ++
        [{ index := l.events.length, timestamp := event.timestamp, event }] := by
  simp [Ledger.numbered, List.mapIdx_append]

/-- A list numbered from `n` on, cut at `k`, is the list of those numbered from `k`. -/
private theorem filter_ge_of_numbered (xs : List RecordedEvent) (n k : Nat)
    (h : ∀ i (hi : i < xs.length), xs[i].index = n + i) :
    xs.filter (fun e => n + k ≤ e.index) = xs.drop k := by
  induction xs generalizing n k with
  | nil => simp
  | cons x xs ih =>
      have hx : x.index = n := h 0 (Nat.succ_pos _)
      have htail : ∀ i (hi : i < xs.length), xs[i].index = n + 1 + i := by
        intro i hi
        have := h (i + 1) (by simpa using hi)
        rw [List.getElem_cons_succ] at this
        omega
      cases k with
      | zero =>
          have hall := ih (n + 1) 0 htail
          rw [List.drop_zero] at hall ⊢
          rw [List.filter_eq_self] at hall ⊢
          intro e he
          rcases List.mem_cons.mp he with rfl | he
          · simp [hx]
          · have hle := hall e he
            simp only [decide_eq_true_eq] at hle ⊢
            omega
      | succ k =>
          have hlt : ¬ (n + (k + 1) ≤ x.index) := by omega
          rw [List.filter_cons_of_neg (by simpa using hlt), List.drop_succ_cons,
            ← ih (n + 1) k htail]
          refine List.filter_congr fun e _ => ?_
          rw [show n + (k + 1) = n + 1 + k by omega]

theorem filter_ge_numbered (l : Ledger) (k : Nat) :
    l.numbered.filter (fun e => k ≤ e.index) = l.numbered.drop k := by
  have h := filter_ge_of_numbered l.numbered 0 k fun i hi => by
    rw [index_numbered, Nat.zero_add]
  simpa using h

theorem filter_lt_numbered (l : Ledger) (k : Nat) :
    l.numbered.filter (fun e => e.index < k) = l.numbered.take k := by
  have hsplit := List.take_append_drop k l.numbered
  have htake : (l.numbered.take k).filter (fun e => e.index < k) = l.numbered.take k := by
    rw [List.filter_eq_self]
    intro e he
    obtain ⟨i, hi, rfl⟩ := List.mem_iff_getElem.mp he
    rw [List.length_take] at hi
    rw [List.getElem_take, index_numbered]
    simpa using Nat.lt_of_lt_of_le hi (Nat.min_le_left _ _)
  have hdrop : (l.numbered.drop k).filter (fun e => e.index < k) = [] := by
    rw [← filter_ge_numbered, List.filter_filter, List.filter_eq_nil_iff]
    intro e _
    simp only [Bool.and_eq_true, decide_eq_true_eq, not_and]
    omega
  calc
    l.numbered.filter (fun e => e.index < k) =
        (l.numbered.take k ++ l.numbered.drop k).filter (fun e => e.index < k) := by
      rw [hsplit]
    _ = l.numbered.take k := by rw [List.filter_append, htake, hdrop, List.append_nil]

theorem between_eq_filter (l : Ledger) (lo hi : Nat) :
    l.between lo hi = l.numbered.filter (fun e => lo ≤ e.index && e.index < hi) := by
  have h : l.numbered.filter (fun e => lo ≤ e.index && e.index < hi) =
      (l.numbered.filter (fun e => e.index < hi)).filter (fun e => lo ≤ e.index) := by
    rw [List.filter_filter]
  rw [h, filter_lt_numbered, Ledger.between]
  have hge := filter_ge_of_numbered (l.numbered.take hi) 0 lo fun i hi => by
    rw [List.getElem_take, index_numbered, Nat.zero_add]
  simpa using hge.symm

theorem length_between (l : Ledger) {lo hi : Nat} (hhi : hi ≤ l.events.length) :
    (l.between lo hi).length = hi - lo := by
  rw [Ledger.between, List.length_drop, List.length_take, length_numbered]
  omega

/-! ## The recorder tracks the ledger -/

/-- The active recording is what `l` leaves in rings of these capacities. -/
structure Tracks (generation : UInt64) (maxEvents : Nat) (l : Ledger)
    (a : ActiveRecording) : Prop where
  generation_eq : a.generation = generation
  maxEvents_eq : a.maxEvents = maxEvents
  maxCheckpoints_eq : a.maxCheckpoints = defaultMaxCheckpoints
  counter : a.eventCounter = l.events.length
  events : a.events = Ring.newest maxEvents l.numbered
  checkpoints : a.checkpoints.map (fun c => (c.id, c.eventIndex)) = l.held
  distinct : (l.held.map Prod.fst).Nodup
  bounded : ∀ m ∈ l.marks, m.2 ≤ l.events.length

theorem tracks_started (sessionId : String) (generation : UInt64) (now : DateTime)
    (maxEvents : Nat) :
    Tracks generation maxEvents .empty (.started sessionId generation now maxEvents) where
  generation_eq := rfl
  maxEvents_eq := rfl
  maxCheckpoints_eq := rfl
  counter := rfl
  events := by simp [ActiveRecording.started, Ledger.numbered, Ledger.empty]
  checkpoints := by simp [ActiveRecording.started, Ledger.held, Ledger.empty]
  distinct := by simp [Ledger.held, Ledger.empty]
  bounded := by simp [Ledger.empty]

section Tracks

variable {generation : UInt64} {maxEvents : Nat} {l : Ledger} {a : ActiveRecording}

theorem Tracks.append (h : Tracks generation maxEvents l a) (event : AppEvent)
    (hroom : l.events.length < usizeMax) :
    Tracks generation maxEvents { l with events := l.events ++ [event] }
      (a.append event) where
  generation_eq := h.generation_eq
  maxEvents_eq := h.maxEvents_eq
  maxCheckpoints_eq := h.maxCheckpoints_eq
  counter := by
    have hsat : saturatingAdd l.events.length 1 = l.events.length + 1 :=
      Nat.min_eq_left hroom
    simp [ActiveRecording.append, h.counter, hsat]
  events := by
    rw [numbered_append, ← Ring.push_newest, ← h.events, ← h.counter, ← h.maxEvents_eq]
    rfl
  checkpoints := h.checkpoints
  distinct := h.distinct
  bounded := by
    intro m hm
    have := h.bounded m hm
    simp only [List.length_append, List.length_singleton]
    omega

/-- The ids the recording refuses are the ids the ledger holds. -/
theorem Tracks.any_id_iff (h : Tracks generation maxEvents l a) (id : String) :
    (a.checkpoints.any fun c => c.id == id) = true ↔ id ∈ l.held.map Prod.fst := by
  rw [← h.checkpoints]
  simp [List.any_eq_true]

theorem Tracks.checkpoint (h : Tracks generation maxEvents l a) {id : String}
    (label : Option String) (state : Json.Value) (now : DateTime)
    (hnew : id ∉ l.held.map Prod.fst) :
    Tracks generation maxEvents { l with marks := l.marks ++ [(id, l.events.length)] }
      (a.pushCheckpoint
        { id, label, timestamp := now, state, eventIndex := a.eventCounter }) := by
  have hheld : Ledger.held { l with marks := l.marks ++ [(id, l.events.length)] } =
      Ring.push defaultMaxCheckpoints l.held (id, l.events.length) :=
    (Ring.push_newest _ _ _).symm
  refine
    { generation_eq := h.generation_eq
      maxEvents_eq := h.maxEvents_eq
      maxCheckpoints_eq := h.maxCheckpoints_eq
      counter := h.counter
      events := h.events
      checkpoints := ?_
      distinct := ?_
      bounded := ?_ }
  · rw [hheld, ActiveRecording.pushCheckpoint, Ring.map_push, h.checkpoints,
      h.maxCheckpoints_eq, h.counter]
  · rw [hheld, Ring.map_push]
    exact Ring.nodup_push h.distinct hnew
  · intro m hm
    rcases List.mem_append.mp hm with hm | hm
    · exact h.bounded m hm
    · exact Nat.le_of_eq (congrArg Prod.snd (List.mem_singleton.mp hm))

/-- One operation keeps the recorder on its ledger. -/
theorem Tracks.perform (h : Tracks generation maxEvents l a) {r : EventRecorder}
    (hr : r.recording = some a) (op : Op)
    (hroom : (l.perform generation op).events.length < usizeMax) :
    ∃ a', (r.perform op).recording = some a' ∧
      Tracks generation maxEvents (l.perform generation op) a' := by
  cases op with
  | recordEvent event =>
      have hlt : l.events.length < usizeMax := by
        simp only [Ledger.perform, List.length_append] at hroom
        omega
      exact ⟨a.append event, by simp [EventRecorder.perform, EventRecorder.recordEvent, hr],
        h.append event hlt⟩
  | recordEventIf g event =>
      by_cases hg : generation = g
      · have hlt : l.events.length < usizeMax := by
          simp only [Ledger.perform, if_pos hg, List.length_append] at hroom
          omega
        refine ⟨a.append event, ?_, ?_⟩
        · simp [EventRecorder.perform, EventRecorder.recordEventIf, hr, h.generation_eq, hg]
        · simpa only [Ledger.perform, if_pos hg] using h.append event hlt
      · refine ⟨a, ?_, ?_⟩
        · simp [EventRecorder.perform, EventRecorder.recordEventIf, hr, h.generation_eq, hg]
        · simpa only [Ledger.perform, if_neg hg] using h
  | checkpoint id label state now =>
      by_cases hid : id ∈ l.held.map Prod.fst
      · have hany := (h.any_id_iff id).mpr hid
        refine ⟨a, ?_, ?_⟩
        · simp only [EventRecorder.perform, EventRecorder.checkpoint,
            ActiveRecording.checkpoint, hr, hany, if_true]
        · simpa only [Ledger.perform, if_pos hid] using h
      · have hany : ¬ (a.checkpoints.any fun c => c.id == id) = true :=
          fun hc => hid ((h.any_id_iff id).mp hc)
        refine ⟨a.pushCheckpoint
          { id, label, timestamp := now, state, eventIndex := a.eventCounter }, ?_, ?_⟩
        · simp only [EventRecorder.perform, EventRecorder.checkpoint,
            ActiveRecording.checkpoint, hr, if_neg hany]
        · simpa only [Ledger.perform, if_neg hid] using h.checkpoint label state now hid

theorem length_events_perform_le (generation : UInt64) (l : Ledger) (op : Op) :
    l.events.length ≤ (l.perform generation op).events.length := by
  cases op with
  | recordEvent event => simp [Ledger.perform]
  | recordEventIf g event =>
      simp only [Ledger.perform]
      split <;> simp
  | checkpoint id label state now =>
      simp only [Ledger.perform]
      split <;> exact Nat.le_refl _

/-- Every sequence of operations keeps the recorder on its ledger. -/
theorem tracks_performAll {r : EventRecorder} (hr : r.recording = some a)
    (h : Tracks generation maxEvents .empty a) (ops : List Op)
    (hfew : (Ledger.performAll generation ops).events.length < usizeMax) :
    ∃ a', (r.performAll ops).recording = some a' ∧
      Tracks generation maxEvents (.performAll generation ops) a' := by
  induction ops using List.reverseRecOn with
  | nil => exact ⟨a, hr, h⟩
  | append_singleton ops op ih =>
      have hsnoc : Ledger.performAll generation (ops ++ [op]) =
          (Ledger.performAll generation ops).perform generation op := by
        simp [Ledger.performAll]
      rw [hsnoc] at hfew ⊢
      have hle := length_events_perform_le generation (.performAll generation ops) op
      obtain ⟨a', hr', h'⟩ := ih (by omega)
      have hperform : r.performAll (ops ++ [op]) = (r.performAll ops).perform op := by
        simp [EventRecorder.performAll]
      rw [hperform]
      exact h'.perform hr' op hfew

end Tracks

end Victauri.Core
