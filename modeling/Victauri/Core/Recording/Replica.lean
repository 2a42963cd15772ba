import Victauri.Core.Recording.Import
import Victauri.Core.Recording.Window

/-!
# A recording and its import

An exported session holds the two rings but neither the counter nor the generation.  While
the ring keeps its newest event, the counter can be read back from what is held; from then
on the original and the import take the same steps.
-/

namespace Victauri.Core

open Victauri.Library

/-! ## Two runs, side by side -/

/-- The same request to a recording, at another time. -/
inductive Op.AtAnotherTime : Op → Op → Prop
  | recordEvent (event : AppEvent) : AtAnotherTime (.recordEvent event) (.recordEvent event)
  | checkpoint (id : String) (label : Option String) (state : Json.Value) (now now' : DateTime) :
      AtAnotherTime (.checkpoint id label state now) (.checkpoint id label state now')

namespace EventRecorder

/-- What a request is answered. -/
def outcome (r : EventRecorder) : Op → Except VictauriError Unit
  | .recordEvent _ => .ok ()
  | .recordEventIf _ _ => .ok ()
  | .checkpoint id label state now => (r.checkpoint id label state now).1

def outcomes (r : EventRecorder) : List Op → List (Except VictauriError Unit)
  | [] => []
  | op :: ops => r.outcome op :: (r.perform op).outcomes ops

end EventRecorder

/-- The same checkpoint, taken at another time. -/
def StateCheckpoint.AtAnotherTime (c c' : StateCheckpoint) : Prop :=
  c' = { c with timestamp := c'.timestamp }

/-- What is left of `old`, and the same checkpoints taken after it. -/
def SameCheckpoints (old cs cs' : List StateCheckpoint) : Prop :=
  ∃ k new new', cs = old.drop k ++ new ∧ cs' = old.drop k ++ new' ∧
    List.Forall₂ StateCheckpoint.AtAnotherTime new new'

def SameSession (old : List StateCheckpoint) (s s' : RecordedSession) : Prop :=
  s'.id = s.id ∧ s'.startedAt = s.startedAt ∧ s'.events = s.events ∧
    SameCheckpoints old s.checkpoints s'.checkpoints

/-- No query tells the two recorders apart, but for the time of a checkpoint not in `old`. -/
structure SameAnswers (old : List StateCheckpoint) (r r' : EventRecorder) : Prop where
  eventsSince : ∀ index, r'.eventsSince index = r.eventsSince index
  eventsBetween : ∀ lo hi, r'.eventsBetween lo hi = r.eventsBetween lo hi
  getCheckpoints : SameCheckpoints old r.getCheckpoints r'.getCheckpoints
  checkpointWindow : ∀ fromId toId,
    r'.checkpointWindow fromId toId = r.checkpointWindow fromId toId
  eventCount : r'.eventCount = r.eventCount
  exportSession : ∃ s s', r.exportSession = some s ∧ r'.exportSession = some s' ∧
    SameSession old s s'

/-! ## Checkpoints -/

theorem StateCheckpoint.AtAnotherTime.refl (c : StateCheckpoint) : c.AtAnotherTime c := rfl

theorem StateCheckpoint.AtAnotherTime.id_eq {c c' : StateCheckpoint} (h : c.AtAnotherTime c') :
    c'.id = c.id := by
  rw [h]

theorem StateCheckpoint.AtAnotherTime.eventIndex_eq {c c' : StateCheckpoint}
    (h : c.AtAnotherTime c') : c'.eventIndex = c.eventIndex := by
  rw [h]

section Checkpoints

variable {old cs cs' : List StateCheckpoint}

theorem SameCheckpoints.refl (old : List StateCheckpoint) : SameCheckpoints old old old :=
  ⟨0, [], [], by simp, by simp, .nil⟩

theorem SameCheckpoints.forall₂ (h : SameCheckpoints old cs cs') :
    List.Forall₂ StateCheckpoint.AtAnotherTime cs cs' := by
  obtain ⟨k, new, new', rfl, rfl, hnew⟩ := h
  refine List.rel_append ?_ hnew
  exact List.forall₂_same.mpr fun c _ => .refl c

theorem SameCheckpoints.push (h : SameCheckpoints old cs cs') (cap : Nat)
    {c c' : StateCheckpoint} (hc : c.AtAnotherTime c') :
    SameCheckpoints old (Ring.push cap cs c) (Ring.push cap cs' c') := by
  have hlength := h.forall₂.length_eq
  obtain ⟨k, new, new', rfl, rfl, hnew⟩ := h
  have happend (xs xs' : List StateCheckpoint) (hxs : List.Forall₂ StateCheckpoint.AtAnotherTime xs xs') :
      List.Forall₂ StateCheckpoint.AtAnotherTime (xs ++ [c]) (xs' ++ [c']) :=
    List.rel_append hxs (.cons hc .nil)
  rw [Ring.push, Ring.push, ← hlength]
  by_cases hfull : cap ≤ (old.drop k ++ new).length
  · rw [if_pos hfull, if_pos hfull]
    cases hold : old.drop k with
    | nil =>
        refine ⟨k, new.drop 1 ++ [c], new'.drop 1 ++ [c'], ?_, ?_, ?_⟩
        · rw [hold, List.nil_append, List.nil_append]
        · rw [hold, List.nil_append, List.nil_append]
        · exact happend _ _ (List.forall₂_drop 1 hnew)
    | cons first rest =>
        have hrest : old.drop (k + 1) = rest := by
          rw [← List.drop_drop, hold]
          rfl
        refine ⟨k + 1, new ++ [c], new' ++ [c'], ?_, ?_, happend _ _ hnew⟩
        · rw [hrest, List.cons_append, List.drop_succ_cons, List.drop_zero, List.append_assoc]
        · rw [hrest, List.cons_append, List.drop_succ_cons, List.drop_zero, List.append_assoc]
  · rw [if_neg hfull, if_neg hfull]
    exact ⟨k, new ++ [c], new' ++ [c'], List.append_assoc .., List.append_assoc ..,
      happend _ _ hnew⟩

theorem any_id_congr (h : List.Forall₂ StateCheckpoint.AtAnotherTime cs cs') (id : String) :
    (cs'.any fun c => c.id == id) = cs.any fun c => c.id == id := by
  induction h with
  | nil => rfl
  | cons hc _ ih => rw [List.any_cons, List.any_cons, ih, hc.id_eq]

theorem checkpointIndex_congr (h : List.Forall₂ StateCheckpoint.AtAnotherTime cs cs')
    (id : String) : checkpointIndex cs' id = checkpointIndex cs id := by
  induction h with
  | nil => rfl
  | @cons c c' rest rest' hc _ ih =>
      unfold checkpointIndex at ih ⊢
      rw [List.find?_cons, List.find?_cons, hc.id_eq]
      cases c.id == id with
      | true => exact congrArg Except.ok hc.eventIndex_eq
      | false => exact ih

end Checkpoints

/-! ## One step of both -/

/-- Two recordings that differ in the generation and in times of checkpoints only. -/
structure Alike (old : List StateCheckpoint) (a a' : ActiveRecording) : Prop where
  sessionId : a'.sessionId = a.sessionId
  startedAt : a'.startedAt = a.startedAt
  events : a'.events = a.events
  checkpoints : SameCheckpoints old a.checkpoints a'.checkpoints
  eventCounter : a'.eventCounter = a.eventCounter
  maxEvents : a'.maxEvents = a.maxEvents
  maxCheckpoints : a'.maxCheckpoints = a.maxCheckpoints

section Alike

variable {old : List StateCheckpoint} {a a' : ActiveRecording}

theorem Alike.append (h : Alike old a a') (event : AppEvent) :
    Alike old (a.append event) (a'.append event) where
  sessionId := h.sessionId
  startedAt := h.startedAt
  events := by
    rw [ActiveRecording.append, ActiveRecording.append, h.events, h.maxEvents, h.eventCounter]
  checkpoints := h.checkpoints
  eventCounter := by
    rw [ActiveRecording.append, ActiveRecording.append, h.eventCounter]
  maxEvents := h.maxEvents
  maxCheckpoints := h.maxCheckpoints

theorem Alike.pushCheckpoint (h : Alike old a a') {c c' : StateCheckpoint}
    (hc : c.AtAnotherTime c') : Alike old (a.pushCheckpoint c) (a'.pushCheckpoint c') where
  sessionId := h.sessionId
  startedAt := h.startedAt
  events := h.events
  checkpoints := by
    rw [ActiveRecording.pushCheckpoint, ActiveRecording.pushCheckpoint, h.maxCheckpoints]
    exact h.checkpoints.push _ hc
  eventCounter := h.eventCounter
  maxEvents := h.maxEvents
  maxCheckpoints := h.maxCheckpoints

variable {r r' : EventRecorder} (hr : r.recording = some a) (hr' : r'.recording = some a')

include hr hr'

/-- The same request is answered the same and keeps the recordings alike. -/
theorem Alike.perform (h : Alike old a a') {op op' : Op} (hop : op.AtAnotherTime op') :
    r'.outcome op' = r.outcome op ∧
      ∃ b b', (r.perform op).recording = some b ∧ (r'.perform op').recording = some b' ∧
        Alike old b b' := by
  cases hop with
  | recordEvent event =>
      refine ⟨rfl, a.append event, a'.append event, ?_, ?_, h.append event⟩
      · rw [EventRecorder.perform, EventRecorder.recordEvent, hr]
        rfl
      · rw [EventRecorder.perform, EventRecorder.recordEvent, hr']
        rfl
  | checkpoint id label state now now' =>
      have hany := any_id_congr h.checkpoints.forall₂ id
      simp only [EventRecorder.outcome, EventRecorder.perform, EventRecorder.checkpoint,
        ActiveRecording.checkpoint, hr, hr', hany]
      by_cases htaken : (a.checkpoints.any fun c => c.id == id) = true
      · rw [if_pos htaken, if_pos htaken]
        exact ⟨rfl, a, a', hr, hr', h⟩
      · rw [if_neg htaken, if_neg htaken]
        refine ⟨rfl, _, _, rfl, rfl, h.pushCheckpoint ?_⟩
        rw [StateCheckpoint.AtAnotherTime, h.eventCounter]

/-- Queries do not tell alike recordings apart. -/
theorem Alike.sameAnswers (h : Alike old a a') : SameAnswers old r r' where
  eventsSince index := by
    simp only [EventRecorder.eventsSince, hr, hr', h.events]
  eventsBetween lo hi := by
    simp only [EventRecorder.eventsBetween, hr, hr', h.events]
  getCheckpoints := by
    simp only [EventRecorder.getCheckpoints, hr, hr']
    exact h.checkpoints
  checkpointWindow fromId toId := by
    simp only [EventRecorder.checkpointWindow, hr, hr', windowOf, h.events,
      checkpointIndex_congr h.checkpoints.forall₂]
  eventCount := by
    simp only [EventRecorder.eventCount, hr, hr', Option.elim_some, h.events]
  exportSession := by
    refine ⟨a.session, a'.session, ?_, ?_, h.sessionId, h.startedAt, h.events, h.checkpoints⟩
    · rw [EventRecorder.exportSession, hr]
    · rw [EventRecorder.exportSession, hr']

end Alike

theorem Alike.performAll {old : List StateCheckpoint} {ops ops' : List Op}
    (hops : List.Forall₂ Op.AtAnotherTime ops ops') :
    ∀ {a a' : ActiveRecording} {r r' : EventRecorder}, r.recording = some a →
      r'.recording = some a' → Alike old a a' →
        r'.outcomes ops' = r.outcomes ops ∧
          SameAnswers old (r.performAll ops) (r'.performAll ops') := by
  induction hops with
  | nil => exact fun hr hr' h => ⟨rfl, h.sameAnswers hr hr'⟩
  | cons hop _ ih =>
      intro a a' r r' hr hr' h
      obtain ⟨houtcome, b, b', hb, hb', hnext⟩ := h.perform hr hr' hop
      obtain ⟨houtcomes, hanswers⟩ := ih hb hb' hnext
      refine ⟨?_, hanswers⟩
      rw [EventRecorder.outcomes, EventRecorder.outcomes, houtcome, houtcomes]

/-! ## What an import reads back -/

section Imported

variable {generation : UInt64} {maxEvents : Nat} {l : Ledger} {a : ActiveRecording}

theorem Tracks.index_lt (h : Tracks generation maxEvents l a) :
    ∀ e ∈ a.events, e.index < l.events.length := by
  rw [h.events, Ring.newest_eq_drop]
  intro e he
  obtain ⟨i, hi, rfl⟩ := List.mem_iff_getElem.mp (List.mem_of_mem_drop he)
  rw [index_numbered]
  rw [length_numbered] at hi
  exact hi

theorem Tracks.eventIndex_le (h : Tracks generation maxEvents l a) :
    ∀ c ∈ a.checkpoints, c.eventIndex ≤ l.events.length := by
  intro c hc
  have hheld := List.mem_map_of_mem (f := fun c : StateCheckpoint => (c.id, c.eventIndex)) hc
  rw [h.checkpoints] at hheld
  exact h.bounded _ (Ring.mem_of_mem_clamp hheld)

/-- A ring that an event was pushed into holds the newest one. -/
theorem Tracks.newest_mem (h : Tracks generation maxEvents l a) (hpos : 0 < l.events.length) :
    ∃ e ∈ a.events, e.index + 1 = l.events.length := by
  have hlength := length_numbered l
  have hlast : l.events.length - 1 < l.numbered.length := by omega
  refine ⟨l.numbered[l.events.length - 1], ?_, ?_⟩
  · rw [h.events, Ring.newest_eq_drop, List.mem_drop_iff_getElem, Ring.evicted]
    refine ⟨min (l.events.length - 1) (max 1 maxEvents - 1), ?_, ?_⟩
    · omega
    · congr 1
      omega
  · rw [index_numbered]
    omega

/-- What is held gives the counter back. -/
theorem Tracks.seed_eq (h : Tracks generation maxEvents l a)
    (hfew : l.events.length < usizeMax) :
    ActiveRecording.seed a.events a.checkpoints = a.eventCounter := by
  have hpast : past a.events a.checkpoints = l.events.length := by
    apply Nat.le_antisymm
    · by_contra hlt
      rw [Nat.not_le] at hlt
      rcases past_attained (Nat.zero_lt_of_lt hlt) with ⟨e, he, heq⟩ | ⟨c, hc, heq⟩
      · have := h.index_lt e he
        omega
      · have := h.eventIndex_le c hc
        omega
    · rcases Nat.eq_zero_or_pos l.events.length with hzero | hpos
      · rw [hzero]
        exact Nat.zero_le _
      · obtain ⟨e, he, heq⟩ := h.newest_mem hpos
        have hlt : e.index < past a.events a.checkpoints := lt_past_of_mem he
        omega
  have hbound : ∀ c ∈ a.checkpoints, c.eventIndex ≤ usizeMax := fun c hc =>
    Nat.le_trans (h.eventIndex_le c hc) (Nat.le_of_lt hfew)
  rw [Core.seed_eq a.events a.checkpoints hbound, hpast, h.counter]
  exact Nat.min_eq_left (Nat.le_of_lt hfew)

/-- A ring of capacity 0 holds an event all the same, which an import drops. -/
theorem Tracks.clamp_events (h : Tracks generation maxEvents l a)
    (hkept : 0 < maxEvents ∨ l.events = []) : Ring.clamp maxEvents a.events = a.events := by
  apply Ring.clamp_eq_self
  have hlength := length_numbered l
  rw [h.events, Ring.newest, Ring.length_clamp]
  rcases hkept with hpos | hnil
  · omega
  · rw [hnil] at hlength
    rw [hlength, List.length_nil, Nat.min_zero]
    exact Nat.zero_le _

theorem Tracks.clamp_checkpoints (h : Tracks generation maxEvents l a) :
    Ring.clamp defaultMaxCheckpoints a.checkpoints = a.checkpoints := by
  apply Ring.clamp_eq_self
  have hlength := congrArg List.length h.checkpoints
  rw [List.length_map, Ledger.held, Ring.newest, Ring.length_clamp] at hlength
  have hpos : 1 ≤ defaultMaxCheckpoints := by decide
  omega

theorem Tracks.alike_imported (h : Tracks generation maxEvents l a)
    (hfew : l.events.length < usizeMax) (hkept : 0 < maxEvents ∨ l.events = [])
    (generation' : UInt64) :
    Alike a.checkpoints a (.imported a.session generation' maxEvents) where
  sessionId := rfl
  startedAt := rfl
  events := h.clamp_events hkept
  checkpoints := by
    have hclamp : (ActiveRecording.imported a.session generation' maxEvents).checkpoints =
        Ring.clamp defaultMaxCheckpoints a.checkpoints := by
      simp only [ActiveRecording.imported, ActiveRecording.session]
    rw [hclamp, h.clamp_checkpoints]
    exact .refl a.checkpoints
  eventCounter := by
    have hseed : (ActiveRecording.imported a.session generation' maxEvents).eventCounter =
        ActiveRecording.seed (Ring.clamp maxEvents a.events)
          (Ring.clamp defaultMaxCheckpoints a.checkpoints) := rfl
    rw [hseed, h.clamp_events hkept, h.clamp_checkpoints, h.seed_eq hfew]
  maxEvents := h.maxEvents_eq.symm
  maxCheckpoints := h.maxCheckpoints_eq.symm

end Imported

/-- A recording that is exported and imported into a recorder with the same capacity goes
on as the original does, for ever, unless the capacity is 0 and an event was recorded. -/
theorem import_mirrors (r r₁ other other₁ : EventRecorder) (sessionId : String)
    (now : DateTime) (generation : UInt64)
    (hstart : r.startSession sessionId now = (.ok generation, r₁)) (before : List Op)
    (hfew : (Ledger.performAll generation before).events.length < usizeMax)
    (hkept : 0 < r.maxEvents ∨ (Ledger.performAll generation before).events = [])
    (hother : other.maxEvents = r.maxEvents) (session : RecordedSession)
    (hexport : (r₁.performAll before).exportSession = some session)
    (himport : other₁ = other.importSession session ∨
      other.recording = none ∧ other₁ = (other.importIfIdle session).2)
    (ops ops' : List Op) (hops : List.Forall₂ Op.AtAnotherTime ops ops') :
    other₁.outcomes ops' = (r₁.performAll before).outcomes ops ∧
      SameAnswers session.checkpoints ((r₁.performAll before).performAll ops)
        (other₁.performAll ops') := by
  have hstarted : r₁.recording = some (.started sessionId generation now r.maxEvents) := by
    rw [EventRecorder.startSession] at hstart
    cases hr : r.recording with
    | some a => simp [hr] at hstart
    | none =>
        simp only [hr, Prod.mk.injEq, Except.ok.injEq] at hstart
        rw [← hstart.2, ← hstart.1]
        rfl
  obtain ⟨a, ha, htracks⟩ := tracks_performAll hstarted
    (tracks_started sessionId generation now r.maxEvents) before hfew
  obtain rfl : a.session = session := by
    rw [EventRecorder.exportSession, ha] at hexport
    exact Option.some.inj hexport
  have himported : other₁.recording =
      some (.imported a.session (other.generations + 1) r.maxEvents) := by
    rw [← hother]
    rcases himport with rfl | ⟨hidle, rfl⟩
    · rfl
    · simp only [EventRecorder.importIfIdle, EventRecorder.nextGeneration, hidle]
      rfl
  exact Alike.performAll hops ha himported (htracks.alike_imported hfew hkept _)

/-- Three events in a ring of two, a checkpoint before them, then one more of each. -/
theorem import_mirrors_of_two :
    let r := ((EventRecorder.new 2).startSession "s" 0).2.performAll
      [.checkpoint "a" none .null 1, .recordEvent (.windowEvent "main" "focus" 2),
        .recordEvent (.windowEvent "main" "blur" 3), .recordEvent (.windowEvent "main" "focus" 4)]
    let session : RecordedSession :=
      ⟨"s", 0, [⟨1, 3, .windowEvent "main" "blur" 3⟩, ⟨2, 4, .windowEvent "main" "focus" 4⟩],
        [⟨"a", none, 1, .null, 0⟩]⟩
    SameAnswers session.checkpoints
      (r.performAll [.checkpoint "b" none .null 5, .recordEvent (.windowEvent "main" "blur" 6)])
      (((EventRecorder.new 2).importSession session).performAll
        [.checkpoint "b" none .null 9, .recordEvent (.windowEvent "main" "blur" 6)]) := by
  intro r session
  exact (import_mirrors (.new 2) _ (.new 2) _ "s" 0 1 rfl
    [.checkpoint "a" none .null 1, .recordEvent (.windowEvent "main" "focus" 2),
      .recordEvent (.windowEvent "main" "blur" 3), .recordEvent (.windowEvent "main" "focus" 4)]
    (by change 3 < usizeMax; decide) (.inl (by decide)) rfl session rfl (.inl rfl) _ _
    (.cons (.checkpoint "b" none .null 5 9) (.cons (.recordEvent _) .nil))).2

/-- With capacity 0 the recording holds its newest event, and the import none. -/
theorem import_drops_newest :
    let r := ((EventRecorder.new 0).startSession "s" 0).2.performAll
      [.recordEvent (.windowEvent "main" "focus" 1)]
    let session : RecordedSession := ⟨"s", 0, [⟨0, 1, .windowEvent "main" "focus" 1⟩], []⟩
    r.exportSession = some session ∧
      ¬SameAnswers session.checkpoints r ((EventRecorder.new 0).importSession session) := by
  refine ⟨rfl, ?_⟩
  intro h
  have hcount : 0 = 1 := h.eventCount
  cases hcount

end Victauri.Core
