import Victauri.Core.Recording.System

/-!
# Readers are linearizable

A reader looks at the active recording under one lock, lets it go, and looks at the
last session under another.  Between the two a recording may have been started,
stopped or imported any number of times.

The reader still returns what it would return alone on one state of the recorder
between its call and its return: while it waits for the second lock, the last session
is either the one that stood beside the empty recording it saw, or it was just put
there by a stop, which holds the recording lock and leaves no recording behind.
-/

namespace Victauri.Core.System

open Victauri.Library

variable {Client : Type} [DecidableEq Client]

variable {s t u : System Client} {c : Client} {q : Query}

/-- Only the second lock of a stop changes the last session, and it leaves no
recording. -/
theorem Effect.lastSession (hs : Locked s) (e : Effect c s t) :
    t.recorder.lastSession = s.recorder.lastSession ∨ t.recorder.recording = none := by
  cases e with
  | quiet _ hsame => exact .inl hsame.lastSession
  | append hsame _ => exact .inl hsame.lastSession
  | finish hpc =>
      obtain ⟨-, hnone⟩ := hs c (by rw [hpc]; trivial)
      exact .inr hnone
  | lock | take | draw | start | store => exact .inl rfl

/-- The run `as` from `s` to `t` went through a recorder on which `P` holds. -/
def Through (s : System Client) (as : List (Action Client)) (t : System Client)
    (P : EventRecorder → Prop) : Prop :=
  ∃ as₁ as₂ w, as = as₁ ++ as₂ ∧ Runs s as₁ w ∧ Runs w as₂ t ∧ P w.recorder

theorem Through.last {as : List (Action Client)} {P : EventRecorder → Prop}
    (h : Runs s as t) (hP : P t.recorder) : Through s as t P :=
  ⟨as, [], t, (List.append_nil as).symm, h, .nil t, hP⟩

theorem Through.snoc {as : List (Action Client)} {a : Action Client}
    {P P' : EventRecorder → Prop} (h : Through s as t P) (hstep : step t a = some u)
    (hP : ∀ r, P r → P' r) : Through s (as ++ [a]) u P' := by
  obtain ⟨as₁, as₂, w, rfl, h₁, h₂, hw⟩ := h
  exact ⟨as₁, as₂ ++ [a], w, List.append_assoc .., h₁, h₂.snoc hstep, hP _ hw⟩

/-- How far a reader `q` of client `c` is after the run `as` from its call in `s`. -/
inductive Reader (s : System Client) (c : Client) (q : Query)
    (as : List (Action Client)) (t : System Client) : Prop
  | called (hpc : t.pcs c = .called (.query q))
  | reading (hpc : t.pcs c = .reading q)
      (hsaw : Through s as t fun r =>
        r.recording = none ∧ r.lastSession = t.recorder.lastSession)
  | returning {x : Answer} (hpc : t.pcs c = .returning (.answered x))
      (hsaw : Through s as t fun r => x = q.answer r)

/-- A step of another client. -/
theorem Reader.other {as : List (Action Client)} {a : Action Client} (hrun : Runs s as t)
    (ht : Locked t) (h : Reader s c q as t) (hstep : step t a = some u)
    (ha : c ≠ a.client) : Reader s c q (as ++ [a]) u := by
  have heffect := step_effect hstep
  have hpcs := heffect.pcs_of_ne ha
  cases h with
  | called hpc => exact .called (hpcs.trans hpc)
  | returning hpc hsaw => exact .returning (hpcs.trans hpc) (hsaw.snoc hstep fun _ h => h)
  | reading hpc hsaw =>
      refine .reading (hpcs.trans hpc) ?_
      rcases heffect.lastSession ht with hsame | hnone
      · exact hsaw.snoc hstep fun r hr => ⟨hr.1, hr.2.trans hsame.symm⟩
      · exact .last (hrun.snoc hstep) ⟨hnone, rfl⟩

/-- A step of the reader itself, short of its return. -/
theorem Reader.own {as : List (Action Client)} (hrun : Runs s as t)
    (h : Reader s c q as t) (hstep : step t (.act c) = some u) :
    Reader s c q (as ++ [.act c]) u := by
  have hrun' := hrun.snoc hstep
  have hact := hstep
  simp only [step, act] at hact
  cases h with
  | called hpc =>
      simp only [hpc, needsLock, Bool.true_and] at hact
      split at hact
      · cases hact
      · obtain rfl := Option.some.inj hact
        simp only [enter] at hrun' ⊢
        cases hr : t.recorder.recording with
        | none =>
            simp only [hr] at hrun'
            exact .reading (goto_pcs_self ..) (.last hrun' ⟨hr, rfl⟩)
        | some active =>
            simp only [hr] at hrun'
            exact .returning (goto_pcs_self ..)
              (.last hrun' (Query.answer_of_some hr q).symm)
  | reading hpc hsaw =>
      simp only [hpc] at hact
      obtain rfl := Option.some.inj hact
      refine .returning (goto_pcs_self ..) (hsaw.snoc hstep fun r hr => ?_)
      rw [Query.answer_of_none hr.1, hr.2]
  | returning hpc _ => simp [hpc] at hact

/-- Every reader's answer is the answer it gives alone on one state of the recorder
between its call and its return. -/
theorem reader_linearizable (maxEvents : Nat) (before as : List (Action Client))
    (hbefore : Runs (init maxEvents) before s)
    (hcall : step s (.call c (.query q)) = some t) (hrun : Runs t as u)
    (hret : .ret c ∉ as) {x : Answer} (hanswer : u.pcs c = .returning (.answered x)) :
    ∃ as₁ as₂ w, as = as₁ ++ as₂ ∧ Runs t as₁ w ∧ Runs w as₂ u ∧
      x = q.answer w.recorder := by
  have hlocked : Locked t :=
    Runs.locked (hbefore.snoc hcall) (locked_init maxEvents)
  have hcalled : t.pcs c = .called (.query q) := by
    simp only [step] at hcall
    split at hcall
    · obtain rfl := Option.some.inj hcall
      exact goto_pcs_self ..
    · cases hcall
  have hreader : Reader t c q as u := by
    refine Run.snocInduction (motive := fun as u => .ret c ∉ as → Reader t c q as u)
      (fun _ => .called hcalled) ?_ hrun hret
    intro as m a n hm ih hstep hnot
    rw [List.mem_append, not_or, List.mem_singleton] at hnot
    have hreader := ih hnot.1
    by_cases ha : c = a.client
    · cases a with
      | call d request =>
          obtain rfl : c = d := ha
          exact absurd hstep (by cases hreader <;> simp [step, *])
      | act d =>
          obtain rfl : c = d := ha
          exact hreader.own hm hstep
      | ret d => exact absurd (congrArg Action.ret ha) hnot.2
    · exact hreader.other hm (Runs.locked hm hlocked) hstep ha
  cases hreader with
  | called hpc => simp [hpc] at hanswer
  | reading hpc _ => simp [hpc] at hanswer
  | returning hpc hsaw =>
      obtain rfl : _ = x := by simpa using hpc.symm.trans hanswer
      exact hsaw

/-- An export that sees no recording, waits while another client starts a recording
and stops it, and then returns the session stopped. -/
theorem reader_linearizable_of_gap :
    let t : System Bool := (init 8).goto true (.called (.query .exportSession))
    let as := [.act true, .call false (.startSession "a" 0), .act false, .act false,
      .ret false, .call false .stop, .act false, .act false, .act true]
    ∃ u as₁ as₂ w, as.foldlM step t = some u ∧ as = as₁ ++ as₂ ∧ Runs t as₁ w ∧
      Runs w as₂ u ∧
      .session (some ⟨"a", 0, [], []⟩) = Query.exportSession.answer w.recorder := by
  intro t as
  obtain ⟨u, hu, hanswer⟩ : ∃ u, as.foldlM step t = some u ∧ u.pcs true =
      .returning (.answered (.session (some ⟨"a", 0, [], []⟩))) := ⟨_, rfl, rfl⟩
  obtain ⟨as₁, as₂, w, h⟩ := reader_linearizable (s := init 8) (t := t) 8 [] as (.nil _)
    rfl (.of_foldlM hu) (by simp [as]) hanswer
  exact ⟨u, as₁, as₂, w, hu, h⟩

end Victauri.Core.System
