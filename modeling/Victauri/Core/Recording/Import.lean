import Victauri.Core.Recording
import Mathlib.Tactic.ByContra
import Mathlib.Tactic.Set

/-!
# Recording on from an imported session

An import seeds the event counter past every index it keeps, and the counter
saturates.  `additions` lists what later operations add to the recording, and
`additions_position` says which index each addition carries.  From it follows
exactly when the new indices stay clear of the old ones: as long as the counter is
not at `usize::MAX` before the last event, and nothing the clamp dropped lies ahead.
-/

namespace Victauri.Core

open Victauri.Library

/-- An entry added to a recording. -/
inductive Addition where
  | event (e : RecordedEvent)
  | checkpoint (c : StateCheckpoint)

namespace Addition

/-- The index an event gets, or the index a checkpoint is taken at. -/
def position : Addition → Nat
  | event e => e.index
  | checkpoint c => c.eventIndex

def isEvent : Addition → Bool
  | event _ => true
  | checkpoint _ => false

end Addition

namespace EventRecorder

def newestEvent (r : EventRecorder) : Option Addition :=
  (r.recording.bind fun a => a.events.getLast?).map .event

def newestCheckpoint (r : EventRecorder) : Option Addition :=
  (r.recording.bind fun a => a.checkpoints.getLast?).map .checkpoint

/-- What one operation adds: the newest entry after it, if it was accepted. -/
def added (r : EventRecorder) : Op → Option Addition
  | .recordEvent event => (r.recordEvent event).newestEvent
  | .recordEventIf generation event =>
      match r.recordEventIf generation event with
      | (true, r) => r.newestEvent
      | (false, _) => none
  | .checkpoint id label state now =>
      match r.checkpoint id label state now with
      | (.ok (), r) => r.newestCheckpoint
      | (.error _, _) => none

/-- Everything a sequence of operations adds, in order. -/
def additions (r : EventRecorder) : List Op → List Addition
  | [] => []
  | op :: ops => (r.added op).toList ++ (r.perform op).additions ops

end EventRecorder

/-- No added event repeats the index of an event already there, nor lies before a
checkpoint already taken. -/
structure KeepsIndices (events : List RecordedEvent) (checkpoints : List StateCheckpoint)
    (added : List Addition) : Prop where
  fresh : ∀ pre e post, added = pre ++ .event e :: post →
    (∀ old ∈ events, old.index ≠ e.index) ∧
      ∀ old, .event old ∈ pre → old.index ≠ e.index
  after : ∀ pre e post, added = pre ++ .event e :: post →
    (∀ c ∈ checkpoints, c.eventIndex ≤ e.index) ∧
      ∀ c, .checkpoint c ∈ pre → c.eventIndex ≤ e.index

/-- What the field types of a session guarantee: its indices are `usize` values. -/
structure RecordedSession.FitsUsize (s : RecordedSession) : Prop where
  events : ∀ e ∈ s.events, e.index ≤ usizeMax
  checkpoints : ∀ c ∈ s.checkpoints, c.eventIndex ≤ usizeMax

/-- One past every index in use, in unbounded arithmetic. -/
def past (events : List RecordedEvent) (checkpoints : List StateCheckpoint) : Nat :=
  (events.map (fun e : RecordedEvent => e.index + 1) ++
    checkpoints.map (fun c : StateCheckpoint => c.eventIndex)).max?.getD 0

/-! ## The seed of the counter -/

theorem lt_past_of_mem {events : List RecordedEvent} {checkpoints : List StateCheckpoint}
    {e : RecordedEvent} (he : e ∈ events) : e.index < past events checkpoints :=
  List.le_max?_getD_of_mem (a := e.index + 1)
    (List.mem_append_left _ (List.mem_map_of_mem he))

theorem le_past_of_mem {events : List RecordedEvent} {checkpoints : List StateCheckpoint}
    {c : StateCheckpoint} (hc : c ∈ checkpoints) : c.eventIndex ≤ past events checkpoints :=
  List.le_max?_getD_of_mem
    (List.mem_append_right _ (List.mem_map_of_mem (f := fun c : StateCheckpoint => c.eventIndex) hc))

/-- A nonzero `past` is attained. -/
theorem past_attained {events : List RecordedEvent} {checkpoints : List StateCheckpoint}
    (hpos : 0 < past events checkpoints) :
    (∃ e ∈ events, e.index + 1 = past events checkpoints) ∨
      ∃ c ∈ checkpoints, c.eventIndex = past events checkpoints := by
  rw [past] at hpos ⊢
  cases hmax : (events.map (fun e : RecordedEvent => e.index + 1) ++
      checkpoints.map (fun c : StateCheckpoint => c.eventIndex)).max? with
  | none => simp [hmax] at hpos
  | some m =>
      have hmem := List.max?_mem hmax
      simpa [List.mem_append, List.mem_map] using hmem

theorem max?_getD_cons (x : Nat) (xs : List Nat) :
    (x :: xs).max?.getD 0 = max x (xs.max?.getD 0) := by
  rw [List.max?_cons]
  cases xs.max? <;> simp

/-- Saturating each index first, or the maximum last, gives the same seed. -/
theorem max?_getD_map_min (m : Nat) (xs : List Nat) :
    (xs.map fun n => min n m).max?.getD 0 = min (xs.max?.getD 0) m := by
  induction xs with
  | nil => simp
  | cons x xs ih =>
      rw [List.map_cons, max?_getD_cons, max?_getD_cons, ih]
      omega

theorem seed_eq (events : List RecordedEvent) (checkpoints : List StateCheckpoint)
    (hc : ∀ c ∈ checkpoints, c.eventIndex ≤ usizeMax) :
    ActiveRecording.seed events checkpoints = min (past events checkpoints) usizeMax := by
  have hmap : events.map (fun e => saturatingAdd e.index 1) ++
      checkpoints.map (fun c : StateCheckpoint => c.eventIndex) =
      (events.map (fun e : RecordedEvent => e.index + 1) ++
        checkpoints.map (fun c : StateCheckpoint => c.eventIndex)).map
          (fun n => min n usizeMax) := by
    rw [List.map_append, List.map_map, List.map_map]
    congr 1
    exact List.map_congr_left fun c hmem => (Nat.min_eq_left (hc c hmem)).symm
  rw [ActiveRecording.seed, past, hmap, max?_getD_map_min]

/-! ## What operations add -/

section Additions

variable {r : EventRecorder} {a : ActiveRecording}

theorem getLast?_push {α : Type} (cap : Nat) (ring : List α) (x : α) :
    (Ring.push cap ring x).getLast? = some x := by
  simp [Ring.push]

theorem newestEvent_append (hr : r.recording = some (a.append event)) :
    r.newestEvent = some (.event
      { index := a.eventCounter, timestamp := event.timestamp, event }) := by
  simp [EventRecorder.newestEvent, hr, ActiveRecording.append, getLast?_push]

theorem checkpoint_eq_ok {a' : ActiveRecording} {id : String} {label : Option String}
    {state : Json.Value} {now : DateTime} (h : a.checkpoint id label state now = .ok a') :
    ∃ c : StateCheckpoint, c.eventIndex = a.eventCounter ∧ a' = a.pushCheckpoint c := by
  rw [ActiveRecording.checkpoint] at h
  split at h
  · cases h
  · let c : StateCheckpoint :=
      { id := id, label := label, timestamp := now, state := state,
        eventIndex := a.eventCounter }
    exact ⟨c, rfl, (Except.ok.inj h).symm⟩

theorem newestCheckpoint_push (hr : r.recording = some (a.pushCheckpoint c)) :
    r.newestCheckpoint = some (.checkpoint c) := by
  simp [EventRecorder.newestCheckpoint, hr, ActiveRecording.pushCheckpoint, getLast?_push]

/-- The three ways one operation can go: it adds an event at the counter and moves
the counter on, it adds a checkpoint at the counter, or it adds nothing. -/
theorem perform_cases (hr : r.recording = some a) (op : Op) :
    (∃ event, op.records a.generation = true ∧
      r.added op = some (.event
        { index := a.eventCounter, timestamp := event.timestamp, event }) ∧
      (r.perform op).recording = some (a.append event)) ∨
    (∃ c : StateCheckpoint, op.records a.generation = false ∧
      c.eventIndex = a.eventCounter ∧ r.added op = some (.checkpoint c) ∧
      (r.perform op).recording = some (a.pushCheckpoint c)) ∨
    (op.records a.generation = false ∧ r.added op = none ∧
      (r.perform op).recording = some a) := by
  cases op with
  | recordEvent event =>
      have hnext : (r.recordEvent event).recording = some (a.append event) := by
        simp [EventRecorder.recordEvent, hr]
      exact .inl ⟨event, rfl, newestEvent_append hnext, hnext⟩
  | recordEventIf g event =>
      by_cases hg : a.generation = g
      · have hok : r.recordEventIf g event =
            (true, { r with recording := some (a.append event) }) := by
          simp [EventRecorder.recordEventIf, hr, hg]
        refine .inl ⟨event, by simp [Op.records, hg], ?_, ?_⟩
        · simp only [EventRecorder.added, hok]
          exact newestEvent_append rfl
        · simp only [EventRecorder.perform, hok]
      · have hno : r.recordEventIf g event = (false, r) := by
          simp [EventRecorder.recordEventIf, hr, hg]
        refine .inr (.inr ⟨by simp [Op.records, hg], ?_, ?_⟩)
        · simp only [EventRecorder.added, hno]
        · simpa only [EventRecorder.perform, hno] using hr
  | checkpoint id label state now =>
      cases hc : a.checkpoint id label state now with
      | ok a' =>
          have hok : r.checkpoint id label state now =
              (.ok (), { r with recording := some a' }) := by
            simp [EventRecorder.checkpoint, hr, hc]
          obtain ⟨c, hindex, rfl⟩ := checkpoint_eq_ok hc
          refine .inr (.inl ⟨c, rfl, hindex, ?_, ?_⟩)
          · simp only [EventRecorder.added, hok]
            exact newestCheckpoint_push rfl
          · simp only [EventRecorder.perform, hok]
      | error e =>
          have hno : r.checkpoint id label state now = (.error e, r) := by
            simp [EventRecorder.checkpoint, hr, hc]
          refine .inr (.inr ⟨rfl, ?_, ?_⟩)
          · simp only [EventRecorder.added, hno]
          · simpa only [EventRecorder.perform, hno] using hr

end Additions

/-- How many events a list of additions holds. -/
def eventCount (added : List Addition) : Nat := added.countP Addition.isEvent

@[simp] theorem eventCount_nil : eventCount [] = 0 := rfl

@[simp] theorem eventCount_event (e : RecordedEvent) (added : List Addition) :
    eventCount (.event e :: added) = eventCount added + 1 := by
  rw [eventCount, List.countP_cons_of_pos rfl, eventCount]

@[simp] theorem eventCount_checkpoint (c : StateCheckpoint) (added : List Addition) :
    eventCount (.checkpoint c :: added) = eventCount added := by
  rw [eventCount, List.countP_cons_of_neg (by simp [Addition.isEvent]), eventCount]

/-- Every addition sits at the counter's start plus the events added before it. -/
theorem additions_position (ops : List Op) :
    ∀ {r : EventRecorder} {a : ActiveRecording} {pre} x {post},
      r.recording = some a → a.eventCounter ≤ usizeMax →
      r.additions ops = pre ++ x :: post →
      x.position = saturatingAdd a.eventCounter (eventCount pre) := by
  induction ops with
  | nil =>
      intro r a pre x post _ _ h
      simp [EventRecorder.additions] at h
  | cons op ops ih =>
      intro r a pre x post hr hle h
      rw [EventRecorder.additions] at h
      rcases perform_cases hr op with ⟨event, _, hadd, hnext⟩ | ⟨c, _, hc, hadd, hnext⟩ |
        ⟨_, hadd, hnext⟩
      · rw [hadd, Option.toList_some, List.singleton_append] at h
        cases pre with
        | nil =>
            obtain ⟨rfl, _⟩ := List.cons.inj h
            exact (saturatingAdd_zero hle).symm
        | cons y pre =>
            obtain ⟨rfl, hrest⟩ := List.cons.inj h
            rw [ih x hnext (saturatingAdd_le _ _) hrest, eventCount_event, Nat.add_comm _ 1]
            exact saturatingAdd_saturatingAdd _ _ _
      · rw [hadd, Option.toList_some, List.singleton_append] at h
        cases pre with
        | nil =>
            obtain ⟨rfl, _⟩ := List.cons.inj h
            exact hc.trans (saturatingAdd_zero hle).symm
        | cons y pre =>
            obtain ⟨rfl, hrest⟩ := List.cons.inj h
            rw [ih x hnext hle hrest, eventCount_checkpoint]
            rfl
      · rw [hadd, Option.toList_none, List.nil_append] at h
        exact ih x hnext hle h

/-- One event is added for every operation that records one. -/
theorem eventCount_additions (ops : List Op) :
    ∀ {r : EventRecorder} {a : ActiveRecording}, r.recording = some a →
      eventCount (r.additions ops) = ops.countP (Op.records a.generation) := by
  induction ops with
  | nil => intro r a _; rfl
  | cons op ops ih =>
      intro r a hr
      rw [EventRecorder.additions]
      rcases perform_cases hr op with ⟨event, hrec, hadd, hnext⟩ |
        ⟨c, hrec, _, hadd, hnext⟩ | ⟨hrec, hadd, hnext⟩
      · rw [hadd, Option.toList_some, List.singleton_append, eventCount_event, ih hnext,
          List.countP_cons_of_pos hrec]
        rfl
      · rw [hadd, Option.toList_some, List.singleton_append, eventCount_checkpoint,
          ih hnext, List.countP_cons_of_neg (by simp [hrec])]
        rfl
      · rw [hadd, Option.toList_none, List.nil_append, ih hnext,
          List.countP_cons_of_neg (by simp [hrec])]

/-- Every event count below the total is reached just before some event. -/
theorem exists_event_at (added : List Addition) :
    ∀ {k : Nat}, k < eventCount added →
      ∃ pre e post, added = pre ++ .event e :: post ∧ eventCount pre = k := by
  induction added with
  | nil => intro k hk; simp at hk
  | cons x xs ih =>
      intro k hk
      cases x with
      | checkpoint c =>
          obtain ⟨pre, e, post, hxs, hpre⟩ := ih (k := k) (by simpa using hk)
          exact ⟨.checkpoint c :: pre, e, post, by rw [hxs]; rfl, by simpa using hpre⟩
      | event d =>
          cases k with
          | zero => exact ⟨[], d, xs, rfl, rfl⟩
          | succ k =>
              obtain ⟨pre, e, post, hxs, hpre⟩ := ih (k := k) (by simpa using hk)
              exact ⟨.event d :: pre, e, post, by rw [hxs]; rfl, by simpa using hpre⟩

/-! ## When the new indices stay clear

`events` and `checkpoints` are any collections that hold at least what the import
kept; `n` is the number of events recorded, `start` one past every kept index. -/

section KeepsIndices

variable {r : EventRecorder} {a : ActiveRecording} {ops : List Op}
  {kept events : List RecordedEvent} {keptCheckpoints checkpoints : List StateCheckpoint}

theorem keepsIndices_of_clear (hr : r.recording = some a)
    (hseed : a.eventCounter = min (past kept keptCheckpoints) usizeMax)
    (hroom : past kept keptCheckpoints + ops.countP (Op.records a.generation) ≤ usizeMax + 1)
    (hevents : ∀ e ∈ events, e.index < past kept keptCheckpoints ∨
      past kept keptCheckpoints + ops.countP (Op.records a.generation) ≤ e.index)
    (hcheckpoints : ∀ c ∈ checkpoints, c.eventIndex ≤ past kept keptCheckpoints) :
    KeepsIndices events checkpoints (r.additions ops) := by
  have hle : a.eventCounter ≤ usizeMax := by rw [hseed]; exact Nat.min_le_right _ _
  -- while there is room, the event after `k` others gets exactly the index `start + k`
  have hindex : ∀ pre e post, r.additions ops = pre ++ .event e :: post →
      eventCount pre < ops.countP (Op.records a.generation) ∧
        e.index = past kept keptCheckpoints + eventCount pre := by
    intro pre e post h
    have hcount := eventCount_additions ops hr
    have hsplit : eventCount (r.additions ops) = eventCount pre + (eventCount post + 1) := by
      rw [h, eventCount, List.countP_append]
      exact congrArg _ (eventCount_event e post)
    have hpos : e.index = saturatingAdd a.eventCounter (eventCount pre) :=
      additions_position ops _ hr hle h
    rw [hseed] at hpos
    refine ⟨by omega, ?_⟩
    rw [hpos, saturatingAdd]
    omega
  refine ⟨fun pre e post h => ⟨fun old hold => ?_, fun old hold => ?_⟩,
    fun pre e post h => ⟨fun c hc => ?_, fun c hc => ?_⟩⟩
  · have he := hindex pre e post h
    have := hevents old hold
    omega
  · obtain ⟨before, between, rfl⟩ := List.append_of_mem hold
    have hlater := hindex _ e post h
    have hearlier := hindex before old (between ++ .event e :: post) (by simp [h])
    rw [hearlier.2, hlater.2]
    simp only [eventCount, List.countP_append]
    have : 0 < List.countP Addition.isEvent (.event old :: between) := by
      rw [List.countP_cons_of_pos rfl]
      omega
    omega
  · have he := hindex pre e post h
    have := hcheckpoints c hc
    omega
  · obtain ⟨before, between, rfl⟩ := List.append_of_mem hc
    have hearlier : c.eventIndex = saturatingAdd a.eventCounter (eventCount before) :=
      additions_position ops (.checkpoint c) hr hle
        (h.trans (List.append_assoc before (.checkpoint c :: between) _))
    have hlater : e.index = saturatingAdd a.eventCounter
        (eventCount (before ++ .checkpoint c :: between)) :=
      additions_position ops (.event e) hr hle h
    rw [hearlier, hlater, saturatingAdd, saturatingAdd]
    simp only [eventCount, List.countP_append]
    omega

theorem clear_of_keepsIndices (hr : r.recording = some a)
    (hseed : a.eventCounter = min (past kept keptCheckpoints) usizeMax)
    (hkept : ∀ e ∈ kept, e.index ≤ usizeMax)
    (hkeptCheckpoints : ∀ c ∈ keptCheckpoints, c.eventIndex ≤ usizeMax)
    (hsub : ∀ e ∈ kept, e ∈ events)
    (hpos : 0 < ops.countP (Op.records a.generation))
    (h : KeepsIndices events checkpoints (r.additions ops)) :
    past kept keptCheckpoints + ops.countP (Op.records a.generation) ≤ usizeMax + 1 ∧
      (∀ e ∈ events, e.index < past kept keptCheckpoints ∨
        past kept keptCheckpoints + ops.countP (Op.records a.generation) ≤ e.index) ∧
      ∀ c ∈ checkpoints, c.eventIndex ≤ past kept keptCheckpoints := by
  set n := ops.countP (Op.records a.generation) with hn
  set start := past kept keptCheckpoints with hstart
  have hle : a.eventCounter ≤ usizeMax := by rw [hseed]; exact Nat.min_le_right _ _
  have hcount : eventCount (r.additions ops) = n := eventCount_additions ops hr
  -- the event after `k` others, and the index it gets
  have hevent : ∀ k, k < n → ∃ pre e post, r.additions ops = pre ++ .event e :: post ∧
      eventCount pre = k ∧ e.index = min (start + k) usizeMax := by
    intro k hk
    obtain ⟨pre, e, post, hsplit, hpre⟩ := exists_event_at (k := k) (r.additions ops) (by omega)
    have hindex : e.index = saturatingAdd a.eventCounter (eventCount pre) :=
      additions_position ops _ hr hle hsplit
    refine ⟨pre, e, post, hsplit, hpre, ?_⟩
    rw [hindex, hpre, hseed, saturatingAdd]
    omega
  -- a kept index of `usize::MAX` is given out again at once
  have hstartle : start ≤ usizeMax := by
    by_contra hgt
    obtain ⟨pre, e, post, hsplit, hpre, hindex⟩ := hevent 0 hpos
    have hpast : 0 < past kept keptCheckpoints := by omega
    rcases past_attained hpast with
      ⟨old, hold, hmax⟩ | ⟨c, hc, hmax⟩
    · have hne := (h.fresh pre e post hsplit).1 old (hsub old hold)
      have := hkept old hold
      omega
    · have := hkeptCheckpoints c hc
      omega
  have hroom : start + n ≤ usizeMax + 1 := by
    by_contra hgt
    -- the last two events both sit at `usize::MAX`
    obtain ⟨pre, e, post, hsplit, hpre, hindex⟩ := hevent (n - 1) (by omega)
    obtain ⟨before, e', between, rfl, hbefore⟩ := exists_event_at (k := n - 2) pre (by omega)
    have hindex' : e'.index = saturatingAdd a.eventCounter (eventCount before) :=
      additions_position ops (.event e') hr hle
        (hsplit.trans (List.append_assoc before (.event e' :: between) _))
    have hne := (h.fresh _ e post hsplit).2 e' (by simp)
    rw [hindex', hbefore, hseed, saturatingAdd] at hne
    omega
  refine ⟨hroom, fun old hold => ?_, fun c hc => ?_⟩
  · by_contra hbetween
    obtain ⟨pre, e, post, hsplit, hpre, hindex⟩ := hevent (old.index - start) (by omega)
    have hne := (h.fresh pre e post hsplit).1 old hold
    omega
  · obtain ⟨pre, e, post, hsplit, hpre, hindex⟩ := hevent 0 hpos
    have hafter := (h.after pre e post hsplit).1 c hc
    omega

end KeepsIndices

/-- Recording on after an import keeps clear of every index of the session, kept or
dropped, exactly when the counter does not reach `usize::MAX` before the last event
and no entry the clamp dropped carries an index the new events reach; and of every
index the recording itself holds, exactly when the counter does not. -/
theorem import_keepsIndices_iff (r : EventRecorder) (session : RecordedSession)
    (hfits : session.FitsUsize) (ops : List Op) :
    let kept := Ring.clamp r.maxEvents session.events
    let keptCheckpoints := Ring.clamp defaultMaxCheckpoints session.checkpoints
    let start := past kept keptCheckpoints
    let n := ops.countP (Op.records (r.generations + 1))
    let added := (r.importSession session).additions ops
    (KeepsIndices session.events session.checkpoints added ↔
        n = 0 ∨ start + n ≤ usizeMax + 1 ∧
          (∀ e ∈ session.events, e.index < start ∨ start + n ≤ e.index) ∧
          ∀ c ∈ session.checkpoints, c.eventIndex ≤ start) ∧
      (KeepsIndices kept keptCheckpoints added ↔ n = 0 ∨ start + n ≤ usizeMax + 1) := by
  intro kept keptCheckpoints start n added
  have hr : (r.importSession session).recording =
      some (.imported session (r.generations + 1) r.maxEvents) := rfl
  have hkept : ∀ e ∈ kept, e.index ≤ usizeMax :=
    fun e he => hfits.events e (Ring.mem_of_mem_clamp he)
  have hkeptCheckpoints : ∀ c ∈ keptCheckpoints, c.eventIndex ≤ usizeMax :=
    fun c hc => hfits.checkpoints c (Ring.mem_of_mem_clamp hc)
  have hseed : (ActiveRecording.imported session (r.generations + 1)
      r.maxEvents).eventCounter = min start usizeMax :=
    seed_eq kept keptCheckpoints hkeptCheckpoints
  -- no event recorded: nothing to keep clear of
  have hnone : n = 0 → ∀ events checkpoints, KeepsIndices events checkpoints added := by
    intro hn events checkpoints
    have hcount : eventCount added = 0 := (eventCount_additions ops hr).trans hn
    have habsurd : ∀ pre e post, added = pre ++ .event e :: post → False := by
      intro pre e post h
      rw [h, eventCount, List.countP_append, List.countP_cons_of_pos rfl] at hcount
      omega
    exact ⟨fun pre e post h => (habsurd pre e post h).elim,
      fun pre e post h => (habsurd pre e post h).elim⟩
  constructor
  · constructor
    · intro h
      refine (Nat.eq_zero_or_pos n).imp_right fun hpos => ?_
      exact clear_of_keepsIndices hr hseed hkept hkeptCheckpoints
        (fun e he => Ring.mem_of_mem_clamp he) hpos h
    · rintro (hn | ⟨hroom, hevents, hcheckpoints⟩)
      · exact hnone hn _ _
      · exact keepsIndices_of_clear hr hseed hroom hevents hcheckpoints
  · constructor
    · intro h
      refine (Nat.eq_zero_or_pos n).imp_right fun hpos => ?_
      exact (clear_of_keepsIndices hr hseed hkept hkeptCheckpoints
        (fun e he => he) hpos h).1
    · rintro (hn | hroom)
      · exact hnone hn _ _
      · exact keepsIndices_of_clear hr hseed hroom
          (fun e he => .inl (lt_past_of_mem he)) (fun c hc => le_past_of_mem hc)

/-- Two events recorded on after a session that ends at index 7, with a checkpoint
at 9. -/
theorem import_keepsIndices_iff_of_nine :
    KeepsIndices [⟨7, 0, .windowEvent "main" "focus" 0⟩] [⟨"a", none, 0, .null, 9⟩]
      (((EventRecorder.new 4).importSession
          ⟨"s", 0, [⟨7, 0, .windowEvent "main" "focus" 0⟩], [⟨"a", none, 0, .null, 9⟩]⟩).additions
        [.recordEvent (.windowEvent "main" "blur" 1),
          .recordEvent (.windowEvent "main" "focus" 2)]) := by
  have hfits : RecordedSession.FitsUsize
      ⟨"s", 0, [⟨7, 0, .windowEvent "main" "focus" 0⟩], [⟨"a", none, 0, .null, 9⟩]⟩ :=
    ⟨by simp [usizeMax], by simp [usizeMax]⟩
  refine (import_keepsIndices_iff (.new 4) _ hfits
    [.recordEvent (.windowEvent "main" "blur" 1),
      .recordEvent (.windowEvent "main" "focus" 2)]).1.mpr (.inr ⟨?_, ?_, ?_⟩)
  · change 9 + 2 ≤ usizeMax + 1
    simp [usizeMax]
  · simp [past, Ring.clamp, EventRecorder.new, defaultMaxCheckpoints]
  · simp [past, Ring.clamp, EventRecorder.new, defaultMaxCheckpoints]

/-- The first event recorded after an event of index `usize::MAX` gets that index
again. -/
theorem import_reuses_max_index :
    ¬ KeepsIndices [⟨usizeMax, 0, .windowEvent "main" "focus" 0⟩] []
      (((EventRecorder.new 4).importSession
          ⟨"s", 0, [⟨usizeMax, 0, .windowEvent "main" "focus" 0⟩], []⟩).additions
        [.recordEvent (.windowEvent "main" "blur" 1)]) := by
  intro h
  have hadded : ((EventRecorder.new 4).importSession
      ⟨"s", 0, [⟨usizeMax, 0, .windowEvent "main" "focus" 0⟩], []⟩).additions
        [.recordEvent (.windowEvent "main" "blur" 1)] =
      [.event ⟨usizeMax, 1, .windowEvent "main" "blur" 1⟩] := rfl
  exact (h.fresh [] _ [] hadded).1 _ (List.mem_singleton_self _) rfl

end Victauri.Core
