import Victauri.Cli.Bridge.Backends
import Victauri.Cli.Bridge.Replies

/-!
# Recovery of the bridge

A request that is forwarded while one backend stays up, with the poller's steps in between: which
session states lead to the backend's answer, and which do not.
-/

namespace Victauri.Cli.Bridge

open Core.Json Library Program

section Recovery

variable {same : Value → Value → Bool} {msg : Value} {backend : Backend} {sessions : Sessions}

/-! ## What is answered -/

theorem process_not_stale {label : Option String} :
    (backend.process label msg).staleSession = false := by
  unfold Backend.process
  by_cases hrequest : expectsReply msg = true
  · rw [if_pos hrequest]
    rfl
  · rw [if_neg hrequest]
    rfl

theorem process_sessionId {label : Option String} :
    (backend.process label msg).sessionId = label := by
  unfold Backend.process
  by_cases hrequest : expectsReply msg = true
  · rw [if_pos hrequest]
  · rw [if_neg hrequest]

theorem answered_process {label : Option String} (hrequest : expectsReply msg = true)
    (hanswers : answersRequest same (backend.answer msg) msg = true) :
    answered same msg (backend.process label msg) = .payloads (backend.answer msg) := by
  have hsome : (backend.answer msg).isEmpty = false := by
    rw [List.isEmpty_eq_false_iff]
    intro hnone
    rw [hnone] at hanswers
    exact absurd hanswers Bool.false_ne_true
  have hok : (⟨200, label, backend.answer msg⟩ : PostOutcome).accepted = false := rfl
  rw [Backend.process, if_pos hrequest, answered, if_neg (by simp [hok]),
    if_neg (by simp [hsome]), if_neg (by simp [hanswers])]

theorem refusal_stale (sessions : Sessions) (session : Option String) :
    (PostOutcome.staleSession ⟨sessions.refusal session, none, []⟩) = true := by
  rcases sessions.stale session with h | h | h <;> simp [PostOutcome.staleSession, h]

theorem post_stateless {label session : Option String} (hkind : backend.kind = .stateless label) :
    backend.post session msg = (backend.process label msg, backend) := by
  unfold Backend.post
  rw [hkind]

theorem post_initialize (hkind : backend.kind = .stateful sessions)
    (hinit : method msg = "initialize") :
    backend.post none msg =
      (backend.process (some (sessions.mint sessions.issued)) msg,
        { backend with kind := .stateful { sessions with issued := sessions.issued + 1 } }) := by
  unfold Backend.post
  rw [hkind]
  exact if_pos ⟨rfl, hinit⟩

theorem post_current {session : String} (hkind : backend.kind = .stateful sessions)
    (hcurrent : some session = sessions.current) :
    ∃ label, backend.post (some session) msg = (backend.process label msg, backend) := by
  unfold Backend.post
  rw [hkind]
  refine ⟨_, (if_neg ?_).trans (if_pos ⟨rfl, hcurrent⟩)⟩
  exact fun h => Option.some_ne_none session h.1

theorem post_refused {session : Option String} (hkind : backend.kind = .stateful sessions)
    (hmsg : method msg ≠ "initialize")
    (hcurrent : ¬ (session.isSome = true ∧ session = sessions.current)) :
    backend.post session msg = (⟨sessions.refusal session, none, []⟩, backend) := by
  unfold Backend.post
  rw [hkind]
  exact (if_neg fun h => hmsg h.2).trans (if_neg hcurrent)

/-- Only an `initialize` without a session changes a backend. -/
theorem post_some_backend (session : String) : (backend.post (some session) msg).2 = backend := by
  unfold Backend.post
  cases backend.kind with
  | stateless label => rfl
  | stateful sessions =>
      dsimp only
      rw [if_neg fun h => Option.some_ne_none session h.1]
      split
      · rfl
      · rfl

/-! ## Calls -/

variable {α : Type} {goal : α} {Φ : World → Prop} {n : Nat} {info : ServerInfo} {w : World}

theorem Poll.session_none {w' : World} (h : Poll w w') (hnone : w.session = none) :
    w'.session = none := by
  obtain ⟨-, -, -, ⟨hsession, -⟩ | ⟨-, hsession, -⟩⟩ := h.effect
  · rw [hsession, hnone]
  · exact hsession

theorem needed_wins {next : Bool → Program Op α} (hstable : ∀ w w', Poll w w' → Φ w → Φ w')
    (hs : Φ w)
    (hskip : ∀ w, Φ w → (w.stateless = true ∨ w.session.isSome = true) →
      Wins perform Poll goal n w (next false))
    (hask : ∀ w, Φ w → w.session = none → Wins perform Poll goal n w (next true)) :
    Wins perform Poll goal (n + 2) w (needed next) := by
  refine Wins.call hstable hs fun w hw => ?_
  change Wins perform Poll goal (n + 1) w (if w.stateless = true then next false
    else .call .session fun session => next session.isNone)
  by_cases hflag : w.stateless = true
  · rw [if_pos hflag]
    exact (hskip w hw (Or.inl hflag)).mono (by omega)
  · rw [if_neg hflag]
    refine Wins.call hstable hw fun w hw => ?_
    change Wins perform Poll goal n w (next w.session.isNone)
    cases hsession : w.session with
    | none => exact hask w hw hsession
    | some session => exact hskip w hw (Or.inr (by rw [hsession]; rfl))

/-- The handshake is skipped, or there is no session and it is made if it can be. -/
theorem ensureBackendSession_wins {next : Program Op α}
    (hstable : ∀ w w', Poll w w' → Φ w → Φ w') (hs : Φ w)
    (hskip : ∀ w, Φ w → (w.stateless = true ∨ w.session.isSome = true) →
      Wins perform Poll goal n w next)
    (hnoInit : ∀ w, Φ w → w.cachedInit = none → Wins perform Poll goal n w next)
    (hshake : ∀ w, ∀ init : InitMessage, Φ w → w.session = none →
      Wins perform Poll goal (n + 3) w (handshake info init.msg next)) :
    Wins perform Poll goal (n + 8) w (ensureBackendSession info next) := by
  refine needed_wins hstable hs (fun w hw h => (hskip w hw h).mono (by omega))
    fun w hw hnone => ?_
  rw [if_neg (by decide)]
  have hboth : ∀ w w', Poll w w' → Φ w ∧ w.session = none → Φ w' ∧ w'.session = none :=
    fun w w' hpoll h => ⟨hstable w w' hpoll h.1, hpoll.session_none h.2⟩
  refine needed_wins hboth ⟨hw, hnone⟩
    (fun w hw h => (hskip w hw.1 h).mono (by omega)) fun w hw _ => ?_
  rw [if_neg (by decide)]
  refine Wins.call hboth hw fun w hw => ?_
  rw [show perform Op.cachedInit w = (w.cachedInit, w) from rfl]
  dsimp only
  cases hinit : w.cachedInit with
  | none => exact (hnoInit w hw.1 hinit).mono (by omega)
  | some init => exact hshake w init hw.1 hw.2

/-- The session that came with an answer is kept, and the forward is over. -/
theorem sessionKept_wins {out : PostOutcome} :
    Wins perform Poll (answered same msg out) 1 w (match out.sessionId with
      | some fresh => .call (Op.setSession fresh) fun _ => .done (answered same msg out)
      | none => .done (answered same msg out)) := by
  cases out.sessionId with
  | none => rfl
  | some fresh => exact fun _ _ => rfl

/-- A post reaches the backend that is up. -/
theorem perform_post {w : World} {session : Option String} (hup : w.backend = some backend) :
    perform (.post backend.info session msg) w =
      (.ok (backend.post session msg).1,
        { w with backend := some (backend.post session msg).2 }) := by
  simp only [perform, hup, if_true]

/-! ## A stateless backend -/

section Stateless

variable {label : Option String} (hkind : backend.kind = .stateless label)
  (hrequest : expectsReply msg = true)
  (hanswers : answersRequest same (backend.answer msg) msg = true)

theorem Poll.backend_eq {w' : World} (h : Poll w w') (hup : w.backend = some backend) :
    w'.backend = some backend :=
  h.effect.1.trans hup

include hkind in
theorem handshake_wins_stateless {init : Value} {next : Program Op α}
    (hup : w.backend = some backend)
    (hnext : ∀ w, w.backend = some backend → Wins perform Poll goal n w next) :
    Wins perform Poll goal (n + 3) w (handshake backend.info init next) := by
  have hstable : ∀ w w' : World, Poll w w' → w.backend = some backend →
      w'.backend = some backend := fun w w' => Poll.backend_eq
  refine Wins.call hstable hup fun w hup => ?_
  rw [perform_post hup, post_stateless hkind]
  dsimp only
  rw [process_sessionId, process_not_stale, if_neg Bool.false_ne_true]
  have hnote : ∀ w : World, w.backend = some backend → Wins perform Poll goal (n + 1) w
      (.call (.post backend.info label (notification "notifications/initialized"))
        fun _ => next) := by
    intro w hup
    refine Wins.call hstable hup fun w hup => ?_
    rw [perform_post hup, post_stateless hkind]
    exact hnext _ rfl
  cases label with
  | some session => exact Wins.call hstable rfl fun w hup => hnote _ hup
  | none => exact Wins.call hstable rfl fun w hup => hnote _ hup

include hkind in
theorem ensureBackendSession_wins_stateless {next : Program Op α}
    (hup : w.backend = some backend)
    (hnext : ∀ w, w.backend = some backend → Wins perform Poll goal n w next) :
    Wins perform Poll goal (n + 8) w (ensureBackendSession backend.info next) :=
  ensureBackendSession_wins (fun _ _ => Poll.backend_eq) hup (fun w hw _ => hnext w hw)
    (fun w hw _ => hnext w hw) fun _ _ hw _ => handshake_wins_stateless hkind hw hnext

include hkind hrequest hanswers in
theorem attempts_wins_stateless {left : Nat} (hup : w.backend = some backend) :
    Wins perform Poll (.payloads (backend.answer msg)) 11 w
      (attempts same msg (left + 1) backend.info) := by
  have hstable : ∀ w w' : World, Poll w w' → w.backend = some backend →
      w'.backend = some backend := fun w w' => Poll.backend_eq
  refine ensureBackendSession_wins_stateless hkind hup fun w hup => ?_
  refine Wins.call hstable hup fun w hup => ?_
  refine Wins.call hstable hup fun w hup => ?_
  rw [perform_post hup, post_stateless hkind]
  dsimp only
  rw [if_neg (by simp [process_not_stale]), ← answered_process hrequest hanswers]
  exact sessionKept_wins

end Stateless

/-! ## A stateful backend -/

/-- The backend that is up, with some sessions. -/
def Serves (backend : Backend) (w : World) : Prop :=
  ∃ sessions, w.backend = some { backend with kind := .stateful sessions }

/-- The last session that the backend issued. -/
def World.current (w : World) : Option String :=
  match w.backend with
  | some ⟨_, _, .stateful sessions⟩ => sessions.current
  | _ => none

structure Ready (backend : Backend) (w : World) : Prop where
  serves : Serves backend w
  stateless : w.stateless = false
  cachedInit : w.cachedInit.isSome = true

/-- The session held is the backend's. -/
def Holds (w : World) : Prop := w.session.isSome = true ∧ w.session = w.current

/-- What an attempt starts from: with the session to come or held, the poller's drop takes one
attempt; with another session, that takes one more. -/
structure Opens (backend : Backend) (left : Nat) (w : World) : Prop where
  ready : Ready backend w
  enough : (w.session = none ∨ Holds w) ∧ pending w < left ∨ pending w + 1 < left

/-- What the post of an attempt starts from. -/
structure Posting (backend : Backend) (left : Nat) (w : World) : Prop where
  ready : Ready backend w
  enough : Holds w ∧ pending w < left ∨ pending w + 1 < left

theorem Serves.backend_ne_none (h : Serves backend w) : w.backend ≠ none := by
  obtain ⟨sessions, hup⟩ := h
  rw [hup]
  exact Option.some_ne_none _

theorem Serves.poll {w' : World} (hpoll : Poll w w') (h : Serves backend w) : Serves backend w' := by
  obtain ⟨sessions, hup⟩ := h
  exact ⟨sessions, hpoll.backend_eq hup⟩

theorem Poll.current {w' : World} (h : Poll w w') : w'.current = w.current := by
  rw [World.current, World.current, h.effect.1]

theorem Ready.poll {w' : World} (hpoll : Poll w w') (h : Ready backend w) : Ready backend w' := by
  obtain ⟨-, hinit, hflag, -⟩ := hpoll.effect
  refine ⟨h.serves.poll hpoll, ?_, ?_⟩
  · rcases hflag with hflag | hflag
    · rw [hflag, h.stateless]
    · exact hflag
  · rw [hinit]
    exact h.cachedInit

theorem Opens.poll {left : Nat} {w' : World} (hpoll : Poll w w') (h : Opens backend left w) :
    Opens backend left w' := by
  refine ⟨h.ready.poll hpoll, ?_⟩
  rcases hpoll.session h.ready.serves.backend_ne_none with ⟨hsame, hle⟩ | ⟨hnone, hdrop⟩
  · rcases h.enough with ⟨hsession, hleft⟩ | hleft
    · refine Or.inl ⟨?_, by omega⟩
      rw [Holds, hsame, hpoll.current]
      exact hsession
    · exact Or.inr (by omega)
  · refine Or.inl ⟨Or.inl hnone, ?_⟩
    rcases h.enough with ⟨-, hleft⟩ | hleft <;> omega

theorem Posting.poll {left : Nat} {w' : World} (hpoll : Poll w w') (h : Posting backend left w) :
    Posting backend left w' := by
  refine ⟨h.ready.poll hpoll, ?_⟩
  rcases hpoll.session h.ready.serves.backend_ne_none with ⟨hsame, hle⟩ | ⟨hnone, hdrop⟩
  · rcases h.enough with ⟨hholds, hleft⟩ | hleft
    · refine Or.inl ⟨?_, by omega⟩
      rw [Holds, hsame, hpoll.current]
      exact hholds
    · exact Or.inr (by omega)
  · refine Or.inr ?_
    rcases h.enough with ⟨-, hleft⟩ | hleft <;> omega

theorem World.backend_self (hup : w.backend = some backend) :
    { w with backend := some backend } = w := by
  rw [← hup]

/-- A post with a session changes nothing. -/
theorem post_some_world {session : String} (h : Serves backend w) :
    (perform (.post backend.info (some session) msg) w).2 = w := by
  obtain ⟨sessions, hup⟩ := h
  rw [show backend.info = ({ backend with kind := .stateful sessions } : Backend).info from rfl,
    perform_post hup, post_some_backend]
  exact World.backend_self hup

/-- The handshake ends with the session that it got, unless the poller drops that. -/
theorem handshake_wins {init : InitMessage} {next : Program Op α} {left : Nat}
    (hopens : Opens backend left w) (hnone : w.session = none)
    (hnext : ∀ w, Posting backend left w → Wins perform Poll goal n w next) :
    Wins perform Poll goal (n + 3) w (handshake backend.info init.msg next) := by
  have hstable : ∀ w w' : World, Poll w w' → Opens backend left w ∧ w.session = none →
      Opens backend left w' ∧ w'.session = none :=
    fun w w' hpoll h => ⟨h.1.poll hpoll, hpoll.session_none h.2⟩
  refine Wins.call hstable ⟨hopens, hnone⟩ fun w hw => ?_
  obtain ⟨⟨⟨⟨sessions, hup⟩, hflag, hinit⟩, henough⟩, hnone⟩ := hw
  have hkind : ({ backend with kind := .stateful sessions } : Backend).kind = .stateful sessions :=
    rfl
  rw [show backend.info = ({ backend with kind := .stateful sessions } : Backend).info from rfl,
    perform_post hup, post_initialize hkind init.isInitialize]
  dsimp only
  rw [process_sessionId]
  -- the session is issued, and not yet held
  obtain ⟨fresh, hfresh⟩ : ∃ fresh, fresh = sessions.mint sessions.issued := ⟨_, rfl⟩
  rw [← hfresh]
  have hissuedStable : ∀ w w' : World, Poll w w' →
      Opens backend left w ∧ w.session = none ∧ w.current = some fresh →
      Opens backend left w' ∧ w'.session = none ∧ w'.current = some fresh :=
    fun w w' hpoll h => ⟨h.1.poll hpoll, hpoll.session_none h.2.1, hpoll.current.trans h.2.2⟩
  refine Wins.call hissuedStable ⟨⟨⟨⟨_, rfl⟩, hflag, hinit⟩, ?_⟩, hnone, ?_⟩
    fun w ⟨hopens, hnone, hcurrent⟩ => ?_
  · rcases henough with ⟨-, hleft⟩ | hleft
    · exact Or.inl ⟨Or.inl hnone, hleft⟩
    · exact Or.inr hleft
  · exact congrArg some hfresh.symm
  have hposting : Posting backend left { w with session := some fresh } := by
    refine ⟨⟨hopens.ready.serves, hopens.ready.stateless, hopens.ready.cachedInit⟩, ?_⟩
    have hheld : Holds { w with session := some fresh } := ⟨rfl, hcurrent.symm⟩
    rcases hopens.enough with ⟨-, hleft⟩ | hleft
    · exact Or.inl ⟨hheld, hleft⟩
    · exact Or.inr hleft
  refine Wins.call (fun _ _ => Posting.poll) hposting fun w hposting => ?_
  rw [post_some_world hposting.ready.serves]
  exact hnext w hposting

/-- What a post with the session of the backend, or with another, comes to. -/
theorem perform_post_serves {session : Option String} (h : Serves backend w)
    (hmsg : method msg ≠ "initialize") :
    ∃ out, perform (.post backend.info session msg) w = (.ok out, w) ∧
      (session.isSome = true ∧ session = w.current →
        ∃ label, out = backend.process label msg) ∧
      (¬ (session.isSome = true ∧ session = w.current) → out.staleSession = true) := by
  obtain ⟨sessions, hup⟩ := h
  have hcurrent : w.current = sessions.current := by rw [World.current, hup]
  rw [show backend.info = ({ backend with kind := .stateful sessions } : Backend).info from rfl,
    perform_post hup, hcurrent]
  by_cases hheld : session.isSome = true ∧ session = sessions.current
  · obtain ⟨s, rfl⟩ := Option.isSome_iff_exists.mp hheld.1
    obtain ⟨label, hpost⟩ : ∃ label,
        ({ backend with kind := .stateful sessions } : Backend).post (some s) msg =
          (backend.process label msg, { backend with kind := .stateful sessions }) :=
      post_current rfl hheld.2
    rw [hpost, World.backend_self hup]
    exact ⟨_, rfl, fun _ => ⟨label, rfl⟩, fun h => absurd hheld h⟩
  · rw [post_refused rfl hmsg hheld, World.backend_self hup]
    exact ⟨_, rfl, fun h => absurd h hheld, fun _ => refusal_stale sessions session⟩

theorem rediscover_serves (h : Serves backend w) :
    perform .rediscover w = (some backend.info, w) := by
  obtain ⟨sessions, hup⟩ := h
  rw [perform, hup]
  rfl

theorem ensureBackendSession_wins_stateful {next : Program Op α} {left : Nat}
    (hopens : Opens backend left w)
    (hnext : ∀ w, Posting backend left w → Wins perform Poll goal n w next) :
    Wins perform Poll goal (n + 8) w (ensureBackendSession backend.info next) := by
  refine ensureBackendSession_wins (fun _ _ => Opens.poll) hopens (fun w hw hskip => ?_)
    (fun w hw hinit => ?_) fun w init hw hnone => handshake_wins hw hnone hnext
  · refine hnext w ⟨hw.ready, ?_⟩
    rcases hw.enough with ⟨hnone | hholds, hleft⟩ | hleft
    · rw [hw.ready.stateless, hnone] at hskip
      exact absurd hskip (by decide)
    · exact Or.inl ⟨hholds, hleft⟩
    · exact Or.inr hleft
  · have hsome := hw.ready.cachedInit
    rw [hinit] at hsome
    exact absurd hsome Bool.false_ne_true

/-- A session that was read and is not the backend's: it is still held, or gone. -/
structure Stale (backend : Backend) (left : Nat) (session : Option String) (w : World) : Prop where
  ready : Ready backend w
  enough : pending w < left
  held : w.session = session ∨ w.session = none
  notCurrent : ¬ (session.isSome = true ∧ session = w.current)

theorem pending_poll {w' : World} (hpoll : Poll w w') (hup : w.backend ≠ none) :
    pending w' ≤ pending w := by
  rcases hpoll.session hup with ⟨-, hle⟩ | ⟨-, hdrop⟩ <;> omega

theorem Stale.poll {left : Nat} {session : Option String} {w' : World} (hpoll : Poll w w')
    (h : Stale backend left session w) : Stale backend left session w' := by
  have hup := h.ready.serves.backend_ne_none
  refine ⟨h.ready.poll hpoll, Nat.lt_of_le_of_lt (pending_poll hpoll hup) h.enough, ?_, ?_⟩
  · rcases hpoll.session hup with ⟨hsame, -⟩ | ⟨hnone, -⟩
    · rw [hsame]
      exact h.held
    · exact Or.inr hnone
  · rw [hpoll.current]
    exact h.notCurrent

theorem Stale.cleared {left : Nat} {session : Option String} (h : Stale backend left session w) :
    Opens backend left (perform (.clearSessionIf session) w).2 := by
  change Opens backend left (if w.session = session then { w with session := none } else w)
  by_cases hsame : w.session = session
  · rw [if_pos hsame]
    exact ⟨⟨h.ready.serves, h.ready.stateless, h.ready.cachedInit⟩,
      Or.inl ⟨Or.inl rfl, h.enough⟩⟩
  · rw [if_neg hsame]
    exact ⟨h.ready, Or.inl ⟨Or.inl (h.held.resolve_left hsame), h.enough⟩⟩

section Attempts

variable (hrequest : expectsReply msg = true) (hmsg : method msg ≠ "initialize")
  (hanswers : answersRequest same (backend.answer msg) msg = true)

include hrequest hmsg hanswers in
/-- The answer to a post with the session that is the backend's. -/
theorem post_wins {session : Option String} {next : PostResult → Program Op ForwardResult}
    (hserves : Serves backend w) (hsome : session.isSome = true) (hcurrent : session = w.current)
    (hnext : ∀ out : PostOutcome, out.staleSession = false →
      next (.ok out) = match out.sessionId with
        | some fresh => .call (Op.setSession fresh) fun _ => .done (answered same msg out)
        | none => .done (answered same msg out)) :
    Wins perform Poll (.payloads (backend.answer msg)) 2 w
      (.call (.post backend.info session msg) next) := by
  have hstable : ∀ w w' : World, Poll w w' → Serves backend w ∧ session = w.current →
      Serves backend w' ∧ session = w'.current :=
    fun w w' hpoll h => ⟨h.1.poll hpoll, h.2.trans hpoll.current.symm⟩
  refine Wins.call hstable ⟨hserves, hcurrent⟩ fun w hw => ?_
  obtain ⟨out, hpost, hheld, -⟩ := perform_post_serves hw.1 hmsg
  obtain ⟨label, rfl⟩ := hheld ⟨hsome, hw.2⟩
  rw [hpost]
  dsimp only
  rw [hnext _ process_not_stale, ← answered_process hrequest hanswers]
  exact sessionKept_wins

include hrequest hmsg hanswers in
theorem attempts_wins {left : Nat} (hopens : Opens backend left w) :
    Wins perform Poll (.payloads (backend.answer msg)) (12 * left) w
      (attempts same msg left backend.info) := by
  induction left generalizing w with
  | zero => rcases hopens.enough with ⟨-, hleft⟩ | hleft <;> exact absurd hleft (Nat.not_lt_zero _)
  | succ left ih =>
      rw [show 12 * (left + 1) = 12 * left + 4 + 8 by omega]
      refine ensureBackendSession_wins_stateful hopens fun w hw => ?_
      refine Wins.call (fun _ _ => Posting.poll) hw fun w hw => ?_
      change Wins perform Poll _ (12 * left + 3) w (.call (.post backend.info w.session msg) _)
      by_cases hholds : Holds w
      · refine (post_wins hrequest hmsg hanswers hw.ready.serves hholds.1 hholds.2 ?_).mono
          (by omega)
        intro out hfresh
        refine (if_neg (by simp [hfresh])).trans ?_
        cases out.sessionId with
        | none => rfl
        | some session => rfl
      · -- the session is stale, or the poller has dropped it
        have hleft : pending w + 1 < left + 1 := by
          rcases hw.enough with ⟨hheld, -⟩ | hleft
          · exact absurd hheld hholds
          · exact hleft
        have hstale : Stale backend left w.session w :=
          ⟨hw.ready, by omega, Or.inl rfl, hholds⟩
        refine Wins.call (fun _ _ => Stale.poll) hstale fun w' hstale => ?_
        obtain ⟨out, hpost, -, hrefused⟩ :=
          perform_post_serves hstale.ready.serves hmsg
        rw [hpost]
        dsimp only
        rw [if_pos (hrefused hstale.notCurrent), if_pos (by omega)]
        refine Wins.call (fun _ _ => Stale.poll) hstale fun w' hstale => ?_
        refine Wins.call (fun _ _ => Opens.poll) hstale.cleared fun w' hopens => ?_
        rw [rediscover_serves hopens.ready.serves]
        exact ih hopens

/-- The session held is the backend's, and the poller is not about to drop it. -/
structure Settled (backend : Backend) (w : World) : Prop where
  serves : Serves backend w
  holds : Holds w
  poller : w.poller ≠ .sawDown

theorem Settled.poll {w' : World} (hpoll : Poll w w') (h : Settled backend w) :
    Settled backend w' := by
  obtain ⟨-, -, -, ⟨hsession, hpoller⟩ | ⟨hdown, -, -⟩⟩ := hpoll.effect
  · refine ⟨h.serves.poll hpoll, ?_, fun hdown => h.serves.backend_ne_none (hpoller hdown).2⟩
    rw [Holds, hsession, hpoll.current]
    exact h.holds
  · exact absurd hdown h.poller

theorem ensureBackendSession_wins_settled {next : Program Op α} (hsettled : Settled backend w)
    (hnext : ∀ w, Settled backend w → Wins perform Poll goal n w next) :
    Wins perform Poll goal (n + 8) w (ensureBackendSession backend.info next) := by
  refine ensureBackendSession_wins (fun _ _ => Settled.poll) hsettled (fun w hw _ => hnext w hw)
    (fun w hw _ => hnext w hw) fun w init hw hnone => ?_
  have hsome := hw.holds.1
  rw [hnone] at hsome
  exact absurd hsome Bool.false_ne_true

include hrequest hmsg hanswers in
theorem attempts_wins_settled {left : Nat} (hsettled : Settled backend w) :
    Wins perform Poll (.payloads (backend.answer msg)) 11 w
      (attempts same msg (left + 1) backend.info) := by
  refine ensureBackendSession_wins_settled hsettled fun w hw => ?_
  refine Wins.call (fun _ _ => Settled.poll) hw fun w hw => ?_
  refine post_wins hrequest hmsg hanswers hw.serves hw.holds.1 hw.holds.2 fun out hfresh => ?_
  refine (if_neg (by simp [hfresh])).trans ?_
  cases out.sessionId with
  | none => rfl
  | some session => rfl

end Attempts

/-! ## Without a handshake -/

/-- The session held is not the backend's, and no handshake will be made. -/
structure Stuck (backend : Backend) (w : World) : Prop where
  serves : Serves backend w
  noHandshake : w.stateless = true ∨ w.cachedInit = none
  notHolds : ¬ Holds w

theorem needed_alone {a : α} {next : Bool → Program Op α}
    (hskip : w.stateless = true ∨ w.session.isSome = true → Alone perform w (next false) a)
    (hask : w.stateless = false → w.session = none → Alone perform w (next true) a) :
    Alone perform w (needed next) a := by
  refine .call ?_
  change Alone perform w (if w.stateless = true then next false
    else .call .session fun session => next session.isNone) a
  by_cases hflag : w.stateless = true
  · rw [if_pos hflag]
    exact hskip (Or.inl hflag)
  · rw [if_neg hflag]
    refine .call ?_
    change Alone perform w (next w.session.isNone) a
    cases hsession : w.session with
    | none => exact hask (Bool.eq_false_iff.mpr hflag) hsession
    | some session => exact hskip (Or.inr (by rw [hsession]; rfl))

theorem ensureBackendSession_alone {a : α} {next : Program Op α} (hstuck : Stuck backend w)
    (hnext : Alone perform w next a) : Alone perform w (ensureBackendSession info next) a := by
  refine needed_alone (fun _ => hnext) fun _ _ => ?_
  rw [if_neg (by decide)]
  refine needed_alone (fun _ => hnext) fun hflag _ => ?_
  rw [if_neg (by decide)]
  have hinit : w.cachedInit = none := by
    rcases hstuck.noHandshake with h | h
    · exact absurd (hflag.symm.trans h) (by decide)
    · exact h
  refine .call ?_
  rw [show perform Op.cachedInit w = (w.cachedInit, w) from rfl]
  dsimp only
  rw [hinit]
  exact hnext

/-- Every attempt is refused. -/
theorem attempts_alone {left : Nat} (hmsg : method msg ≠ "initialize") (hstuck : Stuck backend w) :
    Alone perform w (attempts same msg left backend.info) (.unreachable unreachableMessage) := by
  induction left generalizing w with
  | zero => exact .done w _
  | succ left ih =>
      refine ensureBackendSession_alone hstuck ?_
      refine .call ?_
      change Alone perform w (.call (.post backend.info w.session msg) _) _
      refine .call ?_
      obtain ⟨out, hpost, -, hrefused⟩ := perform_post_serves hstuck.serves hmsg
      rw [hpost]
      dsimp only
      rw [if_pos (hrefused hstuck.notHolds)]
      refine .call ?_
      have hcleared : Stuck backend { w with session := none } :=
        ⟨hstuck.serves, hstuck.noHandshake, fun h => absurd h.1 Bool.false_ne_true⟩
      have hperform : (perform (.clearSessionIf w.session) w).2 = { w with session := none } :=
        if_pos rfl
      change Alone perform (perform (.clearSessionIf w.session) w).2 _ _
      rw [hperform]
      by_cases hleft : 0 < left
      · rw [if_pos hleft]
        refine .call ?_
        rw [rediscover_serves hcleared.serves]
        exact ih hcleared
      · rw [if_neg hleft]
        exact ih hcleared

/-! ## Forwards -/

theorem isRequest_of_handleLine {backendUp permit : Bool} {line : Value}
    (h : handleLine backendUp permit line = .request msg) :
    expectsReply msg = true ∧ method msg ≠ "initialize" := by
  have harray : ∀ items, line ≠ .array items := by
    rintro items rfl
    exact Handling.noConfusion h
  rw [handleLine.eq_2 _ _ _ harray] at h
  by_cases hmethod : (line.get "method").isNone = true
  · rw [if_pos hmethod] at h
    by_cases hresponse : isClientResponse line = true
    · rw [if_pos hresponse] at h
      exact Handling.noConfusion h
    · rw [if_neg hresponse] at h
      exact Handling.noConfusion h
  rw [if_neg hmethod] at h
  by_cases hdropped : (method line = "initialize" ∨ method line = "ping") ∧
      expectsReply line = false
  · rw [if_pos hdropped] at h
    exact Handling.noConfusion h
  rw [if_neg hdropped] at h
  by_cases hinit : method line = "initialize"
  · rw [dif_pos hinit] at h
    exact Handling.noConfusion h
  rw [dif_neg hinit] at h
  by_cases hready : method line = "notifications/initialized"
  · rw [if_pos hready] at h
    exact Handling.noConfusion h
  rw [if_neg hready] at h
  by_cases hping : method line = "ping"
  · rw [if_pos hping] at h
    exact Handling.noConfusion h
  rw [if_neg hping] at h
  by_cases hrequest : expectsReply line = false
  · rw [if_pos hrequest] at h
    exact Handling.noConfusion h
  rw [if_neg hrequest] at h
  cases permit with
  | true =>
      have hsame : line = msg := Handling.request.inj h
      rw [← hsame]
      exact ⟨Bool.not_eq_false _ ▸ hrequest, hinit⟩
  | false => exact Handling.noConfusion h

theorem scan_up (hup : w.backend = some backend) : perform .scan w = (.one backend.info, w) := by
  rw [perform, hup]
  rfl

/-- A forward that finds the backend. -/
theorem forwardWithRetries_wins {goal : ForwardResult}
    (hstable : ∀ w w', Poll w w' → Φ w → Φ w')
    (hbackend : ∀ w, Φ w → ∃ kind, w.backend = some { backend with kind := kind }) (hs : Φ w)
    (hnext : ∀ w, Φ w → Wins perform Poll goal n w (attempts same msg maxRetries backend.info)) :
    Wins perform Poll goal (n + 1) w (forwardWithRetries same msg) := by
  refine Wins.call hstable hs fun w hw => ?_
  obtain ⟨kind, hup⟩ := hbackend w hw
  rw [scan_up hup]
  exact hnext w hw

theorem pending_le_one : pending w ≤ 1 := by
  unfold pending
  split <;> omega

theorem forwardWithRetries_wins_of_recoverable (hup : w.backend = some backend)
    (hrequest : expectsReply msg = true) (hmsg : method msg ≠ "initialize")
    (hanswers : answersRequest same (backend.answer msg) msg = true)
    (hrecoverable : Recoverable backend w) :
    Wins perform Poll (.payloads (backend.answer msg)) 49 w (forwardWithRetries same msg) := by
  unfold Recoverable at hrecoverable
  cases hkind : backend.kind with
  | stateless label =>
      have hwins : Wins perform Poll (.payloads (backend.answer msg)) 12 w
          (forwardWithRetries same msg) :=
        forwardWithRetries_wins (fun _ _ => Poll.backend_eq) (fun w hw => ⟨backend.kind, hw⟩) hup
          fun w hw => attempts_wins_stateless hkind hrequest hanswers hw
      exact hwins.mono (by decide)
  | stateful sessions =>
      rw [hkind] at hrecoverable
      have hserves : Serves backend w := ⟨sessions, by rw [hup, ← hkind]⟩
      rcases hrecoverable with ⟨hflag, hinit⟩ | ⟨hsome, hcurrent, hpoller⟩
      · have hopens : Opens backend 4 w := by
          refine ⟨⟨hserves, hflag, hinit⟩, Or.inr ?_⟩
          have hle : pending w ≤ 1 := pending_le_one
          omega
        refine forwardWithRetries_wins (fun _ _ => Opens.poll)
          (fun w hw => ?_) hopens fun w hw => attempts_wins hrequest hmsg hanswers hw
        obtain ⟨sessions, hup⟩ := hw.ready.serves
        exact ⟨_, hup⟩
      · have hcurrent' : w.current = sessions.current := by
          obtain ⟨info, answer, kind⟩ := backend
          subst hkind
          rw [World.current, hup]
        have hsettled : Settled backend w :=
          ⟨hserves, ⟨hsome, hcurrent.trans hcurrent'.symm⟩, hpoller⟩
        have hwins : Wins perform Poll (.payloads (backend.answer msg)) 12 w
            (forwardWithRetries same msg) := by
          refine forwardWithRetries_wins (fun _ _ => Settled.poll) (fun w hw => ?_) hsettled
            fun w hw => attempts_wins_settled hrequest hmsg hanswers hw
          obtain ⟨sessions, hup⟩ := hw.serves
          exact ⟨_, hup⟩
        exact hwins.mono (by decide)

theorem forwardWithRetries_fails (hup : w.backend = some backend)
    (hmsg : method msg ≠ "initialize") (hnot : ¬ Recoverable backend w) :
    ∃ w', Relation.ReflTransGen Poll w w' ∧
      Alone perform w' (forwardWithRetries same msg) (.unreachable unreachableMessage) := by
  unfold Recoverable at hnot
  cases hkind : backend.kind with
  | stateless label =>
      rw [hkind] at hnot
      exact absurd trivial hnot
  | stateful sessions =>
      rw [hkind] at hnot
      dsimp only at hnot
      obtain ⟨hshake, hheld⟩ := not_or.mp hnot
      have hserves : Serves backend w := ⟨sessions, by rw [hup, ← hkind]⟩
      have hnone : w.stateless = true ∨ w.cachedInit = none := by
        by_contra hno
        obtain ⟨hflag, hinit⟩ := not_or.mp hno
        exact hshake ⟨Bool.eq_false_iff.mpr hflag, Option.isSome_iff_ne_none.mpr hinit⟩
      have hstuck : ∃ w', Relation.ReflTransGen Poll w w' ∧ Stuck backend w' := by
        by_cases hpoller : w.poller = .sawDown
        · -- the session goes before the forward begins
          refine ⟨_, .single (.dropSession hpoller), hserves, hnone, fun h => ?_⟩
          exact absurd h.1 Bool.false_ne_true
        · have hcurrent : w.current = sessions.current := by
            obtain ⟨info, answer, kind⟩ := backend
            subst hkind
            rw [World.current, hup]
          refine ⟨w, .refl, hserves, hnone, fun h => hheld ⟨h.1, ?_, hpoller⟩⟩
          rw [h.2, hcurrent]
      obtain ⟨w', hdrift, hstuck⟩ := hstuck
      refine ⟨w', hdrift, .call ?_⟩
      obtain ⟨sessions, hup⟩ := hstuck.serves
      rw [scan_up hup]
      have hrefused : Alone perform w' (attempts same msg maxRetries backend.info) _ :=
        attempts_alone hmsg hstuck
      exact hrefused

/-- While a backend stays up, a request is answered by it, whatever the poller does meanwhile, if
and only if the backend needs no session, or the bridge may shake hands, or it holds the session
that is the backend's and will not be dropped. -/
theorem forwardWithRetries_recovers_iff (same : Value → Value → Bool) (backend : Backend)
    (w : World) (backendUp permit : Bool) (line msg : Value) (hup : w.backend = some backend)
    (hline : handleLine backendUp permit line = .request msg)
    (hanswers : answersRequest same (backend.answer msg) msg = true) :
    Ends perform Poll (.payloads (backend.answer msg)) 49 w (forwardWithRetries same msg) ↔
      Recoverable backend w := by
  obtain ⟨hrequest, hmsg⟩ := isRequest_of_handleLine hline
  constructor
  · intro hends
    by_contra hnot
    obtain ⟨w', hdrift, hfails⟩ := forwardWithRetries_fails hup hmsg hnot
    refine hfails.not_ends hdrift ?_ hends
    exact fun h => ForwardResult.noConfusion h
  · intro hrecoverable
    exact (forwardWithRetries_wins_of_recoverable hup hrequest hmsg hanswers hrecoverable).ends

end Recovery

/-! ## A flag left over -/

/-- So many calls of the program, with nothing else in between. -/
def drive : Nat → World × Program Op (List Value) → World × Program Op (List Value)
  | 0, state => state
  | n + 1, (w, .call op next) => drive n ((perform op w).2, next (perform op w).1)
  | _ + 1, (w, .done lines) => (w, .done lines)

theorem drive_run (same : Value → Value → Bool) (fallbackTools : List Value) (n : Nat)
    (w : World) (p : Program Op (List Value)) :
    ∃ events, Run (Step same fallbackTools) (w, p) events (drive n (w, p)) := by
  induction n generalizing w p with
  | zero => exact ⟨[], .nil _⟩
  | succ n ih =>
      cases p with
      | done lines => exact ⟨[], .nil _⟩
      | call op next =>
          obtain ⟨events, hrun⟩ := ih (perform op w).2 (next (perform op w).1)
          exact ⟨.call :: events, .cons .call hrun⟩

def initLine : Value :=
  .object [("jsonrpc", .string "2.0"), ("id", .number (.posInt 1)), ("method", .string "initialize")]

def appInfo : ServerInfo := ⟨7373, none⟩

def emptyAnswer (msg : Value) : List Value := [resultReply (id msg) (.object [])]

def oldApp : Backend := ⟨appInfo, emptyAnswer, .stateless none⟩

def appSessions : Sessions := ⟨fun _ => "session", 0, false, fun _ => 422, fun _ => by decide⟩

def newApp : Backend := ⟨appInfo, emptyAnswer, .stateful appSessions⟩

/-- The app that issued no session is gone, and another has started before the poller looked. -/
def replaced : World := ⟨some newApp, none, true, some ⟨initLine, rfl⟩, .watching⟩

/-- The client is initialized while nothing is up. -/
def initialized : World := ⟨none, none, false, some ⟨initLine, rfl⟩, .watching⟩

theorem drive_initLine : drive 1 (start.1, lineProgram sameScalar [] false true true initLine) =
    (initialized, .done [localInitializeResponse initLine]) := rfl

/-- A call to the app that issues no session sets the flag. -/
theorem drive_toolCall :
    drive 12 ({ initialized with backend := some oldApp },
      lineProgram sameScalar [] false true true toolCall) =
      ({ initialized with backend := some oldApp, stateless := true },
        .done (emptyAnswer toolCall)) := rfl

theorem replaced_reachable : Reachable sameScalar [] replaced := by
  obtain ⟨_, hinit⟩ := drive_run sameScalar [] 1 start.1
    (lineProgram sameScalar [] false true true initLine)
  rw [drive_initLine] at hinit
  obtain ⟨_, hcall⟩ := drive_run sameScalar [] 12 { initialized with backend := some oldApp }
    (lineProgram sameScalar [] false true true toolCall)
  rw [drive_toolCall] at hcall
  have hlast : Run (Step sameScalar [])
      ({ initialized with backend := some oldApp, stateless := true },
        .done (emptyAnswer toolCall)) [.gone, .appears newApp]
      (replaced, .done (emptyAnswer toolCall)) :=
    .cons .gone (.cons (.appears rfl rfl) (.nil _))
  have hfirst : Run (Step sameScalar []) start _ _ := .cons .line hinit
  have hfresh : oldApp.isFresh := trivial
  have hsecond := hfirst.append (.cons (.appears rfl hfresh) (.cons .line hcall))
  exact ⟨_, _, hsecond.append hlast⟩

theorem forwardWithRetries_recovers_fails :
    ¬ ∀ w, Reachable sameScalar [] w → ∀ backend, w.backend = some backend →
      ∀ backendUp permit line msg, handleLine backendUp permit line = .request msg →
        answersRequest sameScalar (backend.answer msg) msg = true →
          ∃ n, Ends perform Poll (.payloads (backend.answer msg)) n w
            (forwardWithRetries sameScalar msg) := by
  intro h
  have hline : handleLine false true toolCall = .request toolCall := rfl
  obtain ⟨n, hends⟩ := h replaced replaced_reachable newApp rfl false true toolCall toolCall hline
    (by decide)
  obtain ⟨hrequest, hmsg⟩ := isRequest_of_handleLine hline
  have hnot : ¬ Recoverable newApp replaced := by
    rintro (⟨hflag, -⟩ | ⟨hsome, -⟩)
    · exact absurd hflag.symm Bool.false_ne_true
    · exact absurd hsome Bool.false_ne_true
  have hup : replaced.backend = some newApp := rfl
  obtain ⟨w', hdrift, hfails⟩ := forwardWithRetries_fails hup hmsg hnot
  exact hfails.not_ends hdrift (fun h => ForwardResult.noConfusion h) hends

/-- The same restart, after a poll that saw the app down. -/
theorem forwardWithRetries_recovers_polled :
    Ends perform Poll (.payloads (newApp.answer toolCall)) 49 { replaced with stateless := false }
      (forwardWithRetries sameScalar toolCall) :=
  (forwardWithRetries_recovers_iff sameScalar newApp { replaced with stateless := false } false true
    toolCall toolCall rfl rfl (by decide)).mpr (Or.inl ⟨rfl, rfl⟩)

end Victauri.Cli.Bridge
