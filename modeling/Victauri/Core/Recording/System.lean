import Victauri.Core.Recording
import Victauri.Library.Run
import Mathlib.Logic.Function.Basic

/-!
# A recorder and its clients

Any number of clients use one recorder.  A client's call runs in steps, each of which
takes one lock or draws one generation and does all that follows until the next:

* a start holds the recording lock while it draws its generation;
* a stop holds the recording lock while it takes the other one;
* an import draws its generation before it takes the recording lock;
* a reader that finds no recording lets the recording lock go before it takes the
  lock of the last session;
* everything else is one step under the recording lock.

`last_session` is never locked from one step to the next, so only the holder of the
recording lock is part of the state.
-/

namespace Victauri.Core

open Victauri.Library

/-- The readers, with their arguments. -/
inductive Query where
  | eventsSince (index : Nat)
  | eventsBetween (lo hi : DateTime)
  | getCheckpoints
  | checkpointWindow (fromId toId : String)
  | exportSession
  | ipcReplaySequence

/-- What a reader returns. -/
inductive Answer where
  | events (events : List RecordedEvent)
  | checkpoints (checkpoints : List StateCheckpoint)
  | window (window : Except VictauriError CheckpointWindow)
  | session (session : Option RecordedSession)
  | calls (calls : List IpcCall)

namespace Query

/-- The reader run alone, on one state of the recorder. -/
def answer (r : EventRecorder) : Query → Answer
  | eventsSince index => .events (r.eventsSince index)
  | eventsBetween lo hi => .events (r.eventsBetween lo hi)
  | getCheckpoints => .checkpoints r.getCheckpoints
  | checkpointWindow fromId toId => .window (r.checkpointWindow fromId toId)
  | exportSession => .session r.exportSession
  | ipcReplaySequence => .calls r.ipcReplaySequence

/-- What a reader makes of the active recording, under the first lock. -/
def onActive (active : ActiveRecording) : Query → Answer
  | eventsSince index => .events (selectSince index active.events)
  | eventsBetween lo hi => .events (selectBetween lo hi active.events)
  | getCheckpoints => .checkpoints active.checkpoints
  | checkpointWindow fromId toId =>
      .window (windowOf fromId toId active.checkpoints active.events)
  | exportSession => .session (some active.session)
  | ipcReplaySequence => .calls (ipcCalls active.events)

/-- What a reader makes of the last session, under the second lock. -/
def onLast (last : Option RecordedSession) : Query → Answer
  | eventsSince index => .events (last.elim [] fun s => selectSince index s.events)
  | eventsBetween lo hi => .events (last.elim [] fun s => selectBetween lo hi s.events)
  | getCheckpoints => .checkpoints (last.elim [] fun s => s.checkpoints)
  | checkpointWindow fromId toId =>
      .window (match last with
        | some s => windowOf fromId toId s.checkpoints s.events
        | none => .error .noActiveRecording)
  | exportSession => .session last
  | ipcReplaySequence => .calls (last.elim [] fun s => ipcCalls s.events)

theorem answer_of_some {r : EventRecorder} {active : ActiveRecording}
    (h : r.recording = some active) (q : Query) : q.answer r = q.onActive active := by
  cases q <;>
    simp only [answer, onActive, EventRecorder.eventsSince, EventRecorder.eventsBetween,
      EventRecorder.getCheckpoints, EventRecorder.checkpointWindow,
      EventRecorder.exportSession, EventRecorder.ipcReplaySequence, h]

theorem answer_of_none {r : EventRecorder} (h : r.recording = none) (q : Query) :
    q.answer r = q.onLast r.lastSession := by
  cases q with
  | checkpointWindow fromId toId =>
      cases hlast : r.lastSession <;>
        simp only [answer, onLast, EventRecorder.checkpointWindow, h, hlast]
  | _ =>
      simp only [answer, onLast, EventRecorder.eventsSince, EventRecorder.eventsBetween,
        EventRecorder.getCheckpoints, EventRecorder.exportSession,
        EventRecorder.ipcReplaySequence, h]

end Query

inductive Request where
  | startSession (sessionId : String) (now : DateTime)
  | stop
  | stopIfSession (sessionId : String)
  | stopIfGeneration (generation : UInt64)
  | recordEvent (event : AppEvent)
  | recordEventIf (generation : UInt64) (event : AppEvent)
  | checkpoint (id : String) (label : Option String) (state : Json.Value) (now : DateTime)
  | importSession (session : RecordedSession)
  | importIfIdle (session : RecordedSession)
  | query (q : Query)

inductive Response where
  | done
  | started (result : Except VictauriError UInt64)
  | stopped (session : Option RecordedSession)
  | recorded (accepted : Bool)
  | checkpointed (result : Except VictauriError Unit)
  | imported (result : Except VictauriError UInt64)
  | answered (answer : Answer)

/-- Where a client is. -/
inductive Pc where
  | idle
  /-- Called, no step taken yet. -/
  | called (request : Request)
  /-- A start that holds the recording lock, about to draw its generation. -/
  | drawing (sessionId : String) (now : DateTime)
  /-- A stop that holds the recording lock, about to lock the last session.  Only a
  stop by generation says which one it asked for. -/
  | finishing (session : RecordedSession) (generation : Option UInt64)
  /-- An import whose recording is built, about to take the recording lock. -/
  | storing (active : ActiveRecording) (onlyIfIdle : Bool)
  /-- A reader that saw no recording, about to lock the last session. -/
  | reading (q : Query)
  | returning (response : Response)

/-- What happened so far.  No step reads it: it is there to speak about runs.
A recording is known by its place in `births`, the generations of all recordings in
the order they became active; the active one is always the last. -/
structure History where
  draws : Nat
  births : List UInt64
  /-- Each accepted `record_event_if`: the generation asked for, the event, and the
  recording it was appended to. -/
  appended : List (UInt64 × AppEvent × Nat)
  /-- Each `stop_if_generation` that stopped something: the generation asked for and
  the recording it stopped. -/
  stops : List (UInt64 × Nat)

structure System (Client : Type) where
  recorder : EventRecorder
  /-- Who holds the recording lock between two steps. -/
  holder : Option Client
  pcs : Client → Pc
  history : History

inductive Action (Client : Type) where
  | call (c : Client) (request : Request)
  | act (c : Client)
  | ret (c : Client)

/-- Whose action it is. -/
def Action.client {Client : Type} : Action Client → Client
  | call c _ => c
  | act c => c
  | ret c => c

namespace System

variable {Client : Type} [DecidableEq Client]

def init (maxEvents : Nat) : System Client :=
  { recorder := .new maxEvents, holder := none, pcs := fun _ => .idle
    history := { draws := 0, births := [], appended := [], stops := [] } }

def goto (s : System Client) (c : Client) (pc : Pc) : System Client :=
  { s with pcs := Function.update s.pcs c pc }

section

variable (s : System Client) (c : Client) (pc : Pc)

@[simp] theorem goto_recorder : (s.goto c pc).recorder = s.recorder := rfl

@[simp] theorem goto_holder : (s.goto c pc).holder = s.holder := rfl

@[simp] theorem goto_history : (s.goto c pc).history = s.history := rfl

@[simp] theorem goto_pcs_self : (s.goto c pc).pcs c = pc := by
  simp [goto]

theorem goto_pcs_of_ne {d : Client} (h : d ≠ c) : (s.goto c pc).pcs d = s.pcs d := by
  simp [goto, h]

end

/-- The recording that is active, by its place in `births`. -/
def current (s : System Client) : Nat := s.history.births.length - 1

/-- Draw a generation. -/
def draw (s : System Client) : System Client :=
  { s with history := { s.history with draws := s.history.draws + 1 } }

/-- `active` becomes the active recording. -/
def birth (s : System Client) (generation : UInt64) : System Client :=
  { s with history := { s.history with births := s.history.births ++ [generation] } }

/-- The common first step of the stops: take the recording out, if `wanted`. -/
def take (s : System Client) (c : Client) (wanted : Bool) (generation : Option UInt64) :
    System Client :=
  match wanted, s.recorder.takeRecording with
  | true, (some session, recorder) =>
      { s with recorder, holder := some c }.goto c (.finishing session generation)
  | _, _ => s.goto c (.returning (.stopped none))

/-- The first step of a call; the recording lock is free, if the step needs it. -/
def enter (s : System Client) (c : Client) : Request → System Client
  | .startSession sessionId now =>
      match s.recorder.recording with
      | some _ => s.goto c (.returning (.started (.error .recordingAlreadyActive)))
      | none => { s with holder := some c }.goto c (.drawing sessionId now)
  | .stop => s.take c true none
  | .stopIfSession sessionId =>
      s.take c (s.recorder.recording.any fun a => a.sessionId == sessionId) none
  | .stopIfGeneration generation =>
      s.take c (s.recorder.recording.any fun a => a.generation == generation)
        (some generation)
  | .recordEvent event =>
      { s with recorder := s.recorder.recordEvent event }.goto c (.returning .done)
  | .recordEventIf generation event =>
      match s.recorder.recordEventIf generation event with
      | (true, recorder) =>
          { s with
            recorder
            history := { s.history with
              appended := s.history.appended ++ [(generation, event, s.current)] } }.goto c
            (.returning (.recorded true))
      | (false, _) => s.goto c (.returning (.recorded false))
  | .checkpoint id label state now =>
      let (result, recorder) := s.recorder.checkpoint id label state now
      { s with recorder }.goto c (.returning (.checkpointed result))
  | .importSession session =>
      let (generation, recorder) := s.recorder.nextGeneration
      { s.draw with recorder }.goto c
        (.storing (.imported session generation recorder.maxEvents) false)
  | .importIfIdle session =>
      let (generation, recorder) := s.recorder.nextGeneration
      { s.draw with recorder }.goto c
        (.storing (.imported session generation recorder.maxEvents) true)
  | .query q =>
      match s.recorder.recording with
      | some active => s.goto c (.returning (.answered (q.onActive active)))
      | none => s.goto c (.reading q)

/-- The first step of an import takes no lock. -/
def needsLock : Request → Bool
  | .importSession _ => false
  | .importIfIdle _ => false
  | _ => true

/-- The later steps of a call. -/
def act (s : System Client) (c : Client) : Option (System Client) :=
  match s.pcs c with
  | .idle => none
  | .called request =>
      if needsLock request && s.holder.isSome then none else some (s.enter c request)
  | .drawing sessionId now =>
      let (generation, recorder) := s.recorder.beginRecording sessionId now
      some ({ (s.draw.birth generation) with recorder, holder := none }.goto c
        (.returning (.started (.ok generation))))
  | .finishing session generation =>
      some ({ s with
        recorder := s.recorder.keepSession session
        holder := none
        history := { s.history with
          stops := s.history.stops ++ (generation.map fun g => (g, s.current)).toList } }.goto
        c (.returning (.stopped (some session))))
  | .storing active onlyIfIdle =>
      if s.holder.isSome then none
      else if onlyIfIdle && s.recorder.recording.isSome then
        some (s.goto c (.returning (.imported (.error .recordingAlreadyActive))))
      else
        some ({ (s.birth active.generation) with recorder := s.recorder.install active }.goto c
          (.returning (if onlyIfIdle then .imported (.ok active.generation) else .done)))
  | .reading q => some (s.goto c (.returning (.answered (q.onLast s.recorder.lastSession))))
  | .returning _ => none

def step (s : System Client) : Action Client → Option (System Client)
  | .call c request =>
      match s.pcs c with
      | .idle => some (s.goto c (.called request))
      | _ => none
  | .act c => s.act c
  | .ret c =>
      match s.pcs c with
      | .returning _ => some (s.goto c .idle)
      | _ => none

/-- Any interleaving of the clients' steps. -/
abbrev Runs (s : System Client) (as : List (Action Client)) (t : System Client) : Prop :=
  Run (fun s a t => step s a = some t) s as t

/-! ## What a step can do

Every invariant of the system is proved over these eight effects and not over the
cases of `enter` and `act`. -/

end System

/-- Holding the recording lock. -/
def Pc.Holds : Pc → Prop
  | drawing _ _ => True
  | finishing _ _ => True
  | _ => False

/-- Neither holding the recording lock nor about to store an import. -/
def Pc.Quiet : Pc → Prop
  | drawing _ _ => False
  | finishing _ _ => False
  | storing _ _ => False
  | _ => True

theorem Pc.Quiet.not_holds {pc : Pc} (h : pc.Quiet) : ¬ pc.Holds := by
  cases pc <;> first | exact id | exact h.elim

namespace System

variable {Client : Type} [DecidableEq Client]

/-- The recorders `r` and `r'` differ at most in the contents of the active
recording. -/
structure SameRecording (r r' : EventRecorder) : Prop where
  generations : r'.generations = r.generations
  generation : r'.recording.map (fun a => a.generation) =
    r.recording.map (fun a => a.generation)
  lastSession : r'.lastSession = r.lastSession

theorem SameRecording.refl (r : EventRecorder) : SameRecording r r := ⟨rfl, rfl, rfl⟩

/-- What a step of client `c` can do to the system. -/
inductive Effect (c : Client) (s : System Client) : System Client → Prop
  | quiet {recorder : EventRecorder} {pc : Pc} (hpc : pc.Quiet)
      (hsame : SameRecording s.recorder recorder) :
      Effect c s ({ s with recorder }.goto c pc)
  | append {recorder : EventRecorder} {generation : UInt64} {event : AppEvent}
      (hsame : SameRecording s.recorder recorder)
      (hactive : s.recorder.recording.map (fun a => a.generation) = some generation) :
      Effect c s ({ s with
        recorder
        history := { s.history with
          appended := s.history.appended ++ [(generation, event, s.current)] } }.goto c
          (.returning (.recorded true)))
  | lock {sessionId : String} {now : DateTime} (hfree : s.holder = none)
      (hidle : s.recorder.recording = none) :
      Effect c s ({ s with holder := some c }.goto c (.drawing sessionId now))
  | take {active : ActiveRecording} {generation : Option UInt64} (hfree : s.holder = none)
      (hactive : s.recorder.recording = some active)
      (hgeneration : ∀ g ∈ generation, active.generation = g) :
      Effect c s ({ s with
        recorder := { s.recorder with recording := none }
        holder := some c }.goto c (.finishing active.session generation))
  | draw {active : ActiveRecording} {onlyIfIdle : Bool}
      (hdrawn : active.generation = s.recorder.generations + 1) :
      Effect c s ({ s.draw with recorder := s.recorder.nextGeneration.2 }.goto c
        (.storing active onlyIfIdle))
  | start {sessionId : String} {now : DateTime} (hpc : s.pcs c = .drawing sessionId now) :
      Effect c s ({ (s.draw.birth (s.recorder.generations + 1)) with
        recorder := (s.recorder.beginRecording sessionId now).2, holder := none }.goto c
        (.returning (.started (.ok (s.recorder.generations + 1)))))
  | finish {session : RecordedSession} {generation : Option UInt64}
      (hpc : s.pcs c = .finishing session generation) :
      Effect c s ({ s with
        recorder := s.recorder.keepSession session
        holder := none
        history := { s.history with
          stops := s.history.stops ++ (generation.map fun g => (g, s.current)).toList } }.goto
        c (.returning (.stopped (some session))))
  | store {active : ActiveRecording} {onlyIfIdle : Bool} {response : Response}
      (hpc : s.pcs c = .storing active onlyIfIdle) (hfree : s.holder = none) :
      Effect c s ({ (s.birth active.generation) with
        recorder := s.recorder.install active }.goto c (.returning response))

variable {s t : System Client} {c : Client}

theorem Effect.stay {pc : Pc} (hpc : pc.Quiet) : Effect c s (s.goto c pc) :=
  .quiet hpc (.refl s.recorder)

theorem sameRecording_recordEvent (r : EventRecorder) (event : AppEvent) :
    SameRecording r (r.recordEvent event) where
  generations := rfl
  generation := by
    rw [EventRecorder.recordEvent, Option.map_map]
    rfl
  lastSession := rfl

theorem sameRecording_checkpoint (r : EventRecorder) (id : String) (label : Option String)
    (state : Json.Value) (now : DateTime) :
    SameRecording r (r.checkpoint id label state now).2 := by
  cases hr : r.recording with
  | none =>
      simp only [EventRecorder.checkpoint, hr]
      exact .refl r
  | some active =>
      cases hc : active.checkpoint id label state now with
      | error e =>
          simp only [EventRecorder.checkpoint, hr, hc]
          exact .refl r
      | ok active' =>
          simp only [EventRecorder.checkpoint, hr, hc]
          refine ⟨rfl, ?_, rfl⟩
          rw [ActiveRecording.checkpoint] at hc
          split at hc
          · cases hc
          · obtain rfl := Except.ok.inj hc
            rw [hr]
            rfl

theorem take_effect (hfree : s.holder = none) (wanted : Bool) (generation : Option UInt64)
    (hwanted : wanted = true → ∀ active, s.recorder.recording = some active →
      ∀ g ∈ generation, active.generation = g) :
    Effect c s (s.take c wanted generation) := by
  cases wanted with
  | false => exact .stay trivial
  | true =>
      cases hr : s.recorder.recording with
      | none =>
          simp only [System.take, EventRecorder.takeRecording, hr]
          exact .stay trivial
      | some active =>
          simp only [System.take, EventRecorder.takeRecording, hr]
          exact .take hfree hr (hwanted rfl active hr)

theorem enter_effect (request : Request)
    (hfree : needsLock request = true → s.holder = none) :
    Effect c s (s.enter c request) := by
  cases request with
  | startSession sessionId now =>
      rw [System.enter]
      cases hr : s.recorder.recording with
      | some active => exact .stay trivial
      | none => exact .lock (hfree rfl) hr
  | stop => exact take_effect (hfree rfl) true none (by simp)
  | stopIfSession sessionId => exact take_effect (hfree rfl) _ none (by simp)
  | stopIfGeneration generation =>
      refine take_effect (hfree rfl) _ _ fun hwanted active hr g hg => ?_
      obtain rfl := Option.some.inj hg
      simpa [hr] using hwanted
  | recordEvent event => exact .quiet trivial (sameRecording_recordEvent _ _)
  | recordEventIf generation event =>
      rw [System.enter, EventRecorder.recordEventIf]
      cases hr : s.recorder.recording with
      | none => exact .stay trivial
      | some active =>
          by_cases hg : active.generation = generation
          · simp only [hg, beq_self_eq_true, if_true]
            exact .append ⟨rfl, by rw [hr]; rfl, rfl⟩ (by rw [hr, Option.map_some, hg])
          · simp only [beq_eq_false_iff_ne.mpr hg, Bool.false_eq_true, if_false]
            exact .stay trivial
  | checkpoint id label state now =>
      exact .quiet trivial (sameRecording_checkpoint _ _ _ _ _)
  | importSession session => exact .draw rfl
  | importIfIdle session => exact .draw rfl
  | query q =>
      rw [System.enter]
      cases s.recorder.recording with
      | some active => exact .stay trivial
      | none => exact .stay trivial

theorem act_effect (h : s.act c = some t) : Effect c s t := by
  rw [System.act] at h
  cases hpc : s.pcs c with
  | idle => simp [hpc] at h
  | returning response => simp [hpc] at h
  | called request =>
      simp only [hpc] at h
      split at h
      · cases h
      · rename_i hlock
        obtain rfl := Option.some.inj h
        refine enter_effect request fun hneeds => ?_
        simpa [hneeds] using hlock
  | drawing sessionId now =>
      simp only [hpc] at h
      obtain rfl := Option.some.inj h
      exact .start hpc
  | finishing session generation =>
      simp only [hpc] at h
      obtain rfl := Option.some.inj h
      exact .finish hpc
  | storing active onlyIfIdle =>
      simp only [hpc] at h
      split at h
      · cases h
      · rename_i hlock
        split at h
        · obtain rfl := Option.some.inj h
          exact .stay trivial
        · obtain rfl := Option.some.inj h
          exact .store hpc (by simpa using hlock)
  | reading q =>
      simp only [hpc] at h
      obtain rfl := Option.some.inj h
      exact .stay trivial

/-- Every step of the system is one of the effects. -/
theorem step_effect {a : Action Client} (h : step s a = some t) : Effect a.client s t := by
  cases a with
  | call c request =>
      simp only [step] at h
      split at h
      · obtain rfl := Option.some.inj h
        exact .stay trivial
      · cases h
  | act c => exact act_effect h
  | ret c =>
      simp only [step] at h
      split at h
      · obtain rfl := Option.some.inj h
        exact .stay trivial
      · cases h

/-- No client moves another. -/
theorem Effect.pcs_of_ne (e : Effect c s t) {d : Client} (hd : d ≠ c) :
    t.pcs d = s.pcs d := by
  cases e <;> exact goto_pcs_of_ne _ _ _ hd

theorem SameRecording.eq_none {r r' : EventRecorder} (h : SameRecording r r')
    (hr : r.recording = none) : r'.recording = none := by
  have hmap := h.generation
  rw [hr] at hmap
  exact Option.map_eq_none_iff.mp hmap

/-! ## The recording lock -/

/-- A client between two steps of a start or of a stop holds the recording lock, and
there is no recording. -/
def Locked (s : System Client) : Prop :=
  ∀ c, (s.pcs c).Holds → s.holder = some c ∧ s.recorder.recording = none

omit [DecidableEq Client] in
theorem locked_init (maxEvents : Nat) : Locked (init maxEvents : System Client) :=
  fun _ h => h.elim

theorem Locked.step (h : Locked s) (e : Effect c s t) : Locked t := by
  intro d hd
  by_cases hdc : d = c
  · -- The client that moved: it holds the lock only if it just took it.
    subst hdc
    cases e with
    | quiet hpc _ => exact absurd (by simpa using hd) hpc.not_holds
    | lock _ hidle => exact ⟨rfl, hidle⟩
    | take => exact ⟨rfl, rfl⟩
    | append | draw | start | finish | store => simp [Pc.Holds] at hd
  · -- Another client: what it held it still holds, so the step took no lock.
    rw [e.pcs_of_ne hdc] at hd
    obtain ⟨hholder, hnone⟩ := h d hd
    cases e with
    | quiet _ hsame => exact ⟨hholder, hsame.eq_none hnone⟩
    | append hsame _ => exact ⟨hholder, hsame.eq_none hnone⟩
    | draw => exact ⟨hholder, hnone⟩
    | lock hfree => simp [hfree] at hholder
    | take hfree => simp [hfree] at hholder
    | store _ hfree => simp [hfree] at hholder
    | start hpc =>
        obtain ⟨hholder', -⟩ := h c (by rw [hpc]; trivial)
        exact absurd (Option.some.inj (hholder.symm.trans hholder')) hdc
    | finish hpc =>
        obtain ⟨hholder', -⟩ := h c (by rw [hpc]; trivial)
        exact absurd (Option.some.inj (hholder.symm.trans hholder')) hdc

theorem Runs.locked {as : List (Action Client)} (h : Runs s as t) (hs : Locked s) :
    Locked t :=
  h.invariant (fun _ _ _ hl hstep => hl.step (step_effect hstep)) hs

end System

end Victauri.Core
