import Victauri.Plugin.Bridge

/-!
# What a round trip's caller may rely on

Two facts about one trip carry everything a caller is told: what the job's place says
about the runs of its closure (`Ran`), and what the caller's place says about both
(`Told`).  Two facts about the gate carry the exclusion: the lock and the queues know
where every trip is (`Placed`), and a caller that has seen the gate empty has it to
itself (`Exclusive`).
-/

namespace Victauri.Plugin.Bridge

/-- An error saying that the closure will not run. -/
def WillNotRun (error : String) : Prop := "(it will not run)".toList <:+ error.toList

instance (error : String) : Decidable (WillNotRun error) := by
  unfold WillNotRun
  infer_instance

theorem contains_append (a b : String) : contains (a ++ b) b = true := by
  rw [contains, decide_eq_true_eq, String.toList_append]
  exact (List.suffix_append _ _).isInfix

/-- An error ends in `(it will not run)` only if its last part, when longer, does. -/
theorem not_willNotRun_append {a b : String} (hlength : 17 ≤ b.toList.length)
    (h : ¬ WillNotRun b) : ¬ WillNotRun (a ++ b) := by
  intro hab
  rw [WillNotRun, String.toList_append] at hab
  exact h (List.suffix_of_suffix_length_le hab (List.suffix_append _ _) hlength)

/-- The two errors of a closure that started. -/
theorem outcomeUnknown_spec (what : String) :
    closureMayHaveRun (outcomeUnknown what) = true ∧ ¬ WillNotRun (outcomeUnknown what) := by
  constructor
  · rw [closureMayHaveRun, outcomeUnknown, contains_append, Bool.true_or]
  · exact not_willNotRun_append (by decide) (by decide)

theorem panicked_spec (what : String) :
    closureMayHaveRun (what ++ " " ++ panickedOnMain) = true ∧
      ¬ WillNotRun (what ++ " " ++ panickedOnMain) := by
  constructor
  · rw [closureMayHaveRun, contains_append, Bool.or_true]
  · exact not_willNotRun_append (by decide) (by decide)

namespace Trip

variable {V : Type}

/-- The closure was not started. -/
def Unstarted (x : Trip V) : Prop := x.starts = 0 ∧ x.results = [] ∧ x.sent = none

/-- The closure ran once, and its outcome was sent. -/
def Done (x : Trip V) : Prop :=
  x.state = .running ∧ x.starts = 1 ∧ ∃ r, x.results = [r] ∧ x.sent = some r

/-- What the job's place says about the runs of its closure. -/
def Ran (x : Trip V) : Prop :=
  match x.job with
  | .unposted => x.state = .queued ∧ x.Unstarted
  | .queued => x.state ≠ .running ∧ x.Unstarted
  | .taken => x.state ≠ .running ∧ x.Unstarted
  | .counted => x.state ≠ .running ∧ x.Unstarted
  | .running => x.state = .running ∧ x.starts = 1 ∧ x.results = [] ∧ x.sent = none
  | .finished r => x.state = .running ∧ x.starts = 1 ∧ x.results = [r] ∧ x.sent = none
  | .leaving => x.state = .abandoned ∧ x.Unstarted ∨ x.Done
  | .gone => x.state ≠ .running ∧ x.Unstarted ∨ x.Done

/-- The closure has not run and cannot any more. -/
def NeverRuns (x : Trip V) : Prop :=
  x.starts = 0 ∧ (x.state = .abandoned ∨ x.job = .unposted ∨ x.job = .gone)

/-- What a result says about the trip. -/
def Verdict (x : Trip V) : Except String V → Prop
  | .ok v => x.starts = 1 ∧ x.results = [some v]
  | .error e =>
      x.NeverRuns ∨ x.state = .running ∧ closureMayHaveRun e = true ∧ ¬ WillNotRun e

/-- What the caller's place says about the trip. -/
def Told (x : Trip V) : Prop :=
  match x.pc with
  | .idle => x.job = .unposted
  | .locking => x.job = .unposted
  | .draining => x.job = .unposted
  | .posting => x.job = .unposted
  | .receiving => x.job ≠ .unposted ∧ x.state ≠ .abandoned
  | .timedOut => x.job ≠ .unposted ∧ x.state ≠ .abandoned
  | .graced => x.state = .running
  | .unlocking r => x.Verdict r
  | .returned r => x.Verdict r

structure Ok (x : Trip V) : Prop where
  ran : x.Ran
  told : x.Told

theorem ok_new : (Trip.new V).Ok := ⟨⟨rfl, rfl, rfl, rfl⟩, rfl⟩

/-- A job that may still start: its caller is waiting for it. -/
theorem Ok.waiting {x : Trip V} (h : x.Ok) (hstate : x.state = .queued)
    (hjob : x.job = .queued ∨ x.job = .taken ∨ x.job = .counted) :
    x.pc = .receiving ∨ x.pc = .timedOut := by
  have hran := h.ran
  have htold := h.told
  have hstarts : x.starts = 0 := by
    rcases hjob with hjob | hjob | hjob <;> (simp only [Ran, hjob] at hran; exact hran.2.1)
  have hverdict (r : Except String V) : ¬ x.Verdict r := by
    cases r with
    | ok v => simp [Verdict, hstarts]
    | error e => rcases hjob with hjob | hjob | hjob <;> simp [Verdict, NeverRuns, hstate, hjob]
  cases hpc : x.pc with
  | receiving => exact .inl rfl
  | timedOut => exact .inr rfl
  | graced => simp [Told, hpc, hstate] at htold
  | unlocking r => exact absurd (by simpa [Told, hpc] using htold) (hverdict r)
  | returned r => exact absurd (by simpa [Told, hpc] using htold) (hverdict r)
  | idle | locking | draining | posting =>
      rcases hjob with hjob | hjob | hjob <;> simp [Told, hpc, hjob] at htold

/-- What was sent is what the closure's one run came to. -/
theorem Ran.sent {x : Trip V} (h : x.Ran) {r : Option V} (hsent : x.sent = some r) :
    x.state = .running ∧ x.starts = 1 ∧ x.results = [r] := by
  have hdone : x.Done := by
    unfold Ran at h
    split at h <;> simp_all [Unstarted]
  obtain ⟨hstate, hstarts, r', hresults, hsent'⟩ := hdone
  obtain rfl := Option.some.inj (hsent.symm.trans hsent')
  exact ⟨hstate, hstarts, hresults⟩

theorem verdict_outcome {x : Trip V} {r : Option V} (what : String)
    (h : x.state = .running ∧ x.starts = 1 ∧ x.results = [r]) :
    x.Verdict (outcome what r) := by
  obtain ⟨hstate, hstarts, hresults⟩ := h
  cases r with
  | some v => exact ⟨hstarts, hresults⟩
  | none => exact .inr ⟨hstate, panicked_spec what⟩

/-- A job that has not started and is still to be posted. -/
theorem Ran.unposted {x : Trip V} (h : x.Ran) (hjob : x.job = .unposted) :
    x.state = .queued ∧ x.Unstarted := by
  simpa [Ran, hjob] using h

/-- What the caller is told does not depend on how far the job is, once it is posted
and before it is gone. -/
theorem Told.move {x : Trip V} (h : x.Told) (hposted : x.job ≠ .unposted)
    (hgone : x.job ≠ .gone) {job : JobPc V} (hjob : job ≠ .unposted)
    (sent : Option (Option V)) : Trip.Told { x with job, sent } := by
  have hverdict (r : Except String V) (hr : x.Verdict r) :
      Trip.Verdict { x with job, sent } r := by
    cases r with
    | ok v => exact hr
    | error e =>
        rcases hr with ⟨hstarts, hstate | hjob' | hjob'⟩ | hr
        · exact .inl ⟨hstarts, .inl hstate⟩
        · exact absurd hjob' hposted
        · exact absurd hjob' hgone
        · exact .inr hr
  unfold Told at h ⊢
  cases hpc : x.pc with
  | idle | locking | draining | posting => exact absurd (by simpa [hpc] using h) hposted
  | receiving | timedOut => exact ⟨hjob, by simpa [hpc, hposted] using h⟩
  | graced => simpa [hpc] using h
  | unlocking r => exact hverdict r (by simpa [hpc] using h)
  | returned r => exact hverdict r (by simpa [hpc] using h)

end Trip

namespace Dispatch

variable {Call V : Type} [DecidableEq Call] {what : Call → String} {s t : Dispatch Call V}

@[simp] theorem set_trips_self (s : Dispatch Call V) (c : Call) (x : Trip V) :
    (s.set c x).trips c = x := by
  simp [set]

theorem set_trips_of_ne (s : Dispatch Call V) (c : Call) (x : Trip V) {d : Call}
    (h : d ≠ c) : (s.set c x).trips d = s.trips d := by
  simp [set, h]

theorem forall_set {P : Trip V → Prop} {r : Dispatch Call V} (hr : r.trips = s.trips)
    (h : ∀ d, P (s.trips d)) {c : Call} {x : Trip V} (hx : P x) :
    ∀ d, P ((r.set c x).trips d) := by
  intro d
  by_cases hd : d = c
  · subst hd
    rwa [set_trips_self]
  · rw [set_trips_of_ne _ _ _ hd, hr]
    exact h d

/-! ## The lock -/

end Dispatch

/-- Between taking the gate's lock and letting it go. -/
def Pc.Holds {V : Type} : Pc V → Prop
  | idle => False
  | locking => False
  | returned _ => False
  | _ => True

/-- On the main thread's stack. -/
def JobPc.onStack {V : Type} : JobPc V → Bool
  | unposted => false
  | queued => false
  | gone => false
  | _ => true

/-- Counted in `in_flight`. -/
def JobPc.isCounted {V : Type} : JobPc V → Bool
  | counted => true
  | running => true
  | finished _ => true
  | leaving => true
  | _ => false

theorem JobPc.onStack_of_isCounted {V : Type} {job : JobPc V} (h : job.isCounted = true) :
    job.onStack = true := by
  cases job <;> first | rfl | cases h

namespace Dispatch

variable {Call V : Type} [DecidableEq Call] {what : Call → String} {s t : Dispatch Call V}

/-- The lock knows who holds it. -/
def Locked (s : Dispatch Call V) : Prop :=
  ∀ c, (s.trips c).pc.Holds ↔ s.holder = some c

/-- The invariant after a move that neither takes the lock nor lets it go. -/
theorem Locked.keep (h : Locked s) {r : Dispatch Call V} {c : Call} {x : Trip V}
    (hr : r.trips = s.trips ∧ r.holder = s.holder)
    (hx : x.pc.Holds ↔ (s.trips c).pc.Holds) : Locked (r.set c x) := by
  intro d
  change _ ↔ r.holder = some d
  rw [hr.2]
  by_cases hd : d = c
  · subst hd
    rw [set_trips_self, hx]
    exact h d
  · rw [set_trips_of_ne _ _ _ hd, hr.1]
    exact h d

theorem Step.locked (h : Locked s) (hstep : Step what s t) : Locked t := by
  cases hstep with
  | @lock c hpc hfree =>
      intro d
      change _ ↔ some c = some d
      by_cases hd : d = c
      · subst hd
        simp [Pc.Holds]
      · rw [set_trips_of_ne _ _ _ hd, Option.some.injEq, eq_comm, iff_false_right hd]
        change ¬ (s.trips d).pc.Holds
        rw [h d, hfree]
        simp
  | @unlock c r hpc =>
      intro d
      change _ ↔ none = some d
      have hc : s.holder = some c := (h c).mp (by rw [hpc]; trivial)
      by_cases hd : d = c
      · subst hd
        simp [Pc.Holds]
      · rw [set_trips_of_ne _ _ _ hd]
        refine iff_of_false ?_ (by simp)
        change ¬ (s.trips d).pc.Holds
        rw [h d, hc, Option.some.injEq]
        exact fun hcd => hd hcd.symm
  | call hpc | lockLate hpc | drained hpc | drainedLate hpc | drainLate hpc | post hpc
  | postFailed _ hpc | receive hpc | disconnected hpc | timeout hpc | abandon hpc
  | tooLate hpc | receiveGraced hpc | graceOver hpc =>
      exact h.keep ⟨rfl, rfl⟩ (by rw [hpc]; exact Iff.rfl)
  | take | discard | count | start | refuse | finish | send | uncount =>
      exact h.keep ⟨rfl, rfl⟩ Iff.rfl

/-! ## The queue and the stack -/

/-- The queue, the main thread's stack and `in_flight` know where every job is. -/
structure Placed (queue executing : List Call) (inFlight : Nat) (jobs : Call → JobPc V) :
    Prop where
  mem_queue : ∀ c, c ∈ queue ↔ jobs c = .queued
  queue_nodup : queue.Nodup
  mem_executing : ∀ c, c ∈ executing ↔ (jobs c).onStack = true
  executing_nodup : executing.Nodup
  counts : inFlight = executing.countP fun c => (jobs c).isCounted

namespace Placed

variable {queue executing : List Call} {inFlight : Nat} {jobs : Call → JobPc V} {c : Call}

theorem countP_update {l : List Call} (h : c ∉ l) (job : JobPc V) :
    (l.countP fun d => (Function.update jobs c job d).isCounted) =
      l.countP fun d => (jobs d).isCounted := by
  refine List.countP_congr fun d hd => ?_
  rw [Function.update_of_ne (ne_of_mem_of_not_mem hd h)]

theorem post (h : Placed queue executing inFlight jobs) (hjob : jobs c = .unposted) :
    Placed (queue ++ [c]) executing inFlight (Function.update jobs c .queued) := by
  have hqueue : c ∉ queue := by simp [h.mem_queue, hjob]
  have hexecuting : c ∉ executing := by simp [h.mem_executing, hjob, JobPc.onStack]
  constructor
  · intro d
    by_cases hd : d = c
    · simp [hd]
    · simp [hd, h.mem_queue]
  · exact List.nodup_append.mpr ⟨h.queue_nodup, by simp, by
      rintro d hd _ hc rfl
      exact hqueue (List.mem_singleton.mp hc ▸ hd)⟩
  · intro d
    by_cases hd : d = c
    · simp [hd, hexecuting, JobPc.onStack]
    · simp [hd, h.mem_executing]
  · exact h.executing_nodup
  · rw [countP_update hexecuting]
    exact h.counts

theorem postFailed (h : Placed queue executing inFlight jobs) (hjob : jobs c = .unposted) :
    Placed queue executing inFlight (Function.update jobs c .gone) := by
  have hqueue : c ∉ queue := by simp [h.mem_queue, hjob]
  have hexecuting : c ∉ executing := by simp [h.mem_executing, hjob, JobPc.onStack]
  refine ⟨fun d => ?_, h.queue_nodup, fun d => ?_, h.executing_nodup, ?_⟩
  · by_cases hd : d = c
    · simp [hd, hqueue]
    · simp [hd, h.mem_queue]
  · by_cases hd : d = c
    · simp [hd, hexecuting, JobPc.onStack]
    · simp [hd, h.mem_executing]
  · rw [countP_update hexecuting]
    exact h.counts

theorem take (h : Placed (c :: queue) executing inFlight jobs) :
    Placed queue (c :: executing) inFlight (Function.update jobs c .taken) := by
  have hjob : jobs c = .queued := (h.mem_queue c).mp List.mem_cons_self
  have hqueue : c ∉ queue := (List.nodup_cons.mp h.queue_nodup).1
  have hexecuting : c ∉ executing := by simp [h.mem_executing, hjob, JobPc.onStack]
  refine ⟨fun d => ?_, (List.nodup_cons.mp h.queue_nodup).2, fun d => ?_,
    List.nodup_cons.mpr ⟨hexecuting, h.executing_nodup⟩, ?_⟩
  · by_cases hd : d = c
    · simp [hd, hqueue]
    · simp [hd, ← h.mem_queue]
  · by_cases hd : d = c
    · simp [hd, JobPc.onStack]
    · simp [hd, h.mem_executing]
  · rw [List.countP_cons_of_neg (by simp [JobPc.isCounted]), countP_update hexecuting]
    exact h.counts

theorem discard (h : Placed queue executing inFlight jobs) (hc : c ∈ queue) :
    Placed (queue.erase c) executing inFlight (Function.update jobs c .gone) := by
  have hjob : jobs c = .queued := (h.mem_queue c).mp hc
  have hexecuting : c ∉ executing := by simp [h.mem_executing, hjob, JobPc.onStack]
  refine ⟨fun d => ?_, h.queue_nodup.erase c, fun d => ?_, h.executing_nodup, ?_⟩
  · by_cases hd : d = c
    · simp [hd, h.queue_nodup.mem_erase_iff]
    · simp [hd, h.queue_nodup.mem_erase_iff, h.mem_queue]
  · by_cases hd : d = c
    · simp [hd, hexecuting, JobPc.onStack]
    · simp [hd, h.mem_executing]
  · rw [countP_update hexecuting]
    exact h.counts

theorem count (h : Placed queue (c :: executing) inFlight jobs) (hjob : jobs c = .taken) :
    Placed queue (c :: executing) (inFlight + 1) (Function.update jobs c .counted) := by
  have hqueue : c ∉ queue := by simp [h.mem_queue, hjob]
  have hexecuting : c ∉ executing := (List.nodup_cons.mp h.executing_nodup).1
  refine ⟨fun d => ?_, h.queue_nodup, fun d => ?_, h.executing_nodup, ?_⟩
  · by_cases hd : d = c
    · simp [hd, hqueue]
    · simp [hd, h.mem_queue]
  · by_cases hd : d = c
    · simp [hd, JobPc.onStack]
    · simpa [hd] using h.mem_executing d
  · rw [List.countP_cons_of_pos (by simp [JobPc.isCounted]), countP_update hexecuting,
      h.counts, List.countP_cons_of_neg (by simp [hjob, JobPc.isCounted])]

/-- A job that is counted before and after a move. -/
theorem counted (h : Placed queue executing inFlight jobs) {job : JobPc V}
    (hbefore : (jobs c).isCounted = true) (hafter : job.isCounted = true) :
    Placed queue executing inFlight (Function.update jobs c job) := by
  refine ⟨fun d => ?_, h.queue_nodup, fun d => ?_, h.executing_nodup, ?_⟩
  · by_cases hd : d = c
    · subst hd
      rw [h.mem_queue, Function.update_self]
      refine iff_of_false ?_ ?_
      · intro hjob
        simp [hjob, JobPc.isCounted] at hbefore
      · rintro rfl
        simp [JobPc.isCounted] at hafter
    · simp [hd, h.mem_queue]
  · by_cases hd : d = c
    · subst hd
      rw [h.mem_executing, Function.update_self]
      exact iff_of_true (JobPc.onStack_of_isCounted hbefore) (JobPc.onStack_of_isCounted hafter)
    · simp [hd, h.mem_executing]
  · rw [h.counts]
    refine List.countP_congr fun d _ => ?_
    by_cases hd : d = c
    · subst hd
      rw [Function.update_self, hbefore, hafter]
    · rw [Function.update_of_ne hd]

theorem uncount (h : Placed queue (c :: executing) inFlight jobs) (hjob : jobs c = .leaving) :
    Placed queue executing (inFlight - 1) (Function.update jobs c .gone) := by
  have hqueue : c ∉ queue := by simp [h.mem_queue, hjob]
  obtain ⟨hexecuting, hnodup⟩ := List.nodup_cons.mp h.executing_nodup
  refine ⟨fun d => ?_, h.queue_nodup, fun d => ?_, hnodup, ?_⟩
  · by_cases hd : d = c
    · simp [hd, hqueue]
    · simp [hd, h.mem_queue]
  · by_cases hd : d = c
    · simp [hd, hexecuting, JobPc.onStack]
    · simpa [hd] using h.mem_executing d
  · rw [countP_update hexecuting, h.counts,
      List.countP_cons_of_pos (by simp [hjob, JobPc.isCounted]), Nat.add_sub_cancel]

end Placed

/-- Where every job is. -/
def jobs (s : Dispatch Call V) : Call → JobPc V := fun c => (s.trips c).job

theorem jobs_set (s : Dispatch Call V) (c : Call) (x : Trip V) :
    (s.set c x).jobs = Function.update s.jobs c x.job := by
  funext d
  by_cases hd : d = c
  · subst hd
    simp [jobs]
  · simp [jobs, set_trips_of_ne, hd]

/-- The invariant after a move of a caller alone. -/
theorem Placed.keep (h : Placed s.queue s.executing s.inFlight s.jobs)
    {r : Dispatch Call V} (hr : r.jobs = s.jobs) {c : Call} {x : Trip V}
    (hx : x.job = (s.trips c).job) :
    Placed s.queue s.executing s.inFlight (r.set c x).jobs := by
  have hjobs : Function.update s.jobs c (s.trips c).job = s.jobs :=
    Function.update_eq_self c s.jobs
  rw [jobs_set, hr, hx, hjobs]
  exact h

theorem Step.ok (h : ∀ c, (s.trips c).Ok)
    (hqueue : ∀ c ∈ s.queue, (s.trips c).job = .queued) (hstep : Step what s t) :
    ∀ c, (t.trips c).Ok := by
  -- Only the trip that moves has to be looked at; `x` is that trip.
  cases hstep with
  | @call c hpc | @lock c hpc | @drained c hpc =>
      obtain ⟨hran, htold⟩ := h c
      simp only [Trip.Told, hpc] at htold
      exact forall_set rfl h ⟨hran, htold⟩
  | @lockLate c hpc | @drainedLate c hpc | @drainLate c hpc =>
      obtain ⟨hran, htold⟩ := h c
      simp only [Trip.Told, hpc] at htold
      exact forall_set rfl h ⟨hran, .inl ⟨(hran.unposted htold).2.1, .inr (.inl htold)⟩⟩
  | @post c hpc =>
      obtain ⟨hran, htold⟩ := h c
      simp only [Trip.Told, hpc] at htold
      obtain ⟨hstate, hunstarted⟩ := hran.unposted htold
      refine forall_set rfl h ⟨⟨?_, hunstarted⟩, ?_, ?_⟩ <;> simp [hstate]
  | @postFailed c error hpc =>
      obtain ⟨hran, htold⟩ := h c
      simp only [Trip.Told, hpc] at htold
      obtain ⟨hstate, hunstarted⟩ := hran.unposted htold
      exact forall_set rfl h
        ⟨.inl ⟨by simp [hstate], hunstarted⟩, .inl ⟨hunstarted.1, .inr (.inr rfl)⟩⟩
  | @receive c r _ hsent | @receiveGraced c r _ hsent =>
      obtain ⟨hran, -⟩ := h c
      exact forall_set rfl h ⟨hran, Trip.verdict_outcome _ (hran.sent hsent)⟩
  | @disconnected c hpc hsent hgone =>
      obtain ⟨hran, htold⟩ := h c
      simp only [Trip.Told, hpc] at htold
      have hran' := hran
      refine forall_set rfl h ⟨hran', .inl ?_⟩
      rcases hgone with hjob | hjob
      · simp [Trip.Ran, Trip.Done, hjob, hsent, htold.2] at hran
      · simp only [Trip.Ran, Trip.Done, hjob, hsent] at hran
        rcases hran with ⟨-, hunstarted⟩ | ⟨-, -, r, -, hr⟩
        · exact ⟨hunstarted.1, .inr (.inr hjob)⟩
        · cases hr
  | @timeout c hpc =>
      obtain ⟨hran, htold⟩ := h c
      simp only [Trip.Told, hpc] at htold
      exact forall_set rfl h ⟨hran, htold⟩
  | @abandon c hpc hswap =>
      obtain ⟨hran, htold⟩ := h c
      simp only [Trip.Told, hpc] at htold
      have hunstarted : (s.trips c).Unstarted := by
        unfold Trip.Ran at hran
        split at hran <;> simp_all [Trip.Done]
      refine forall_set rfl h ⟨?_, .inl ⟨hunstarted.1, .inl rfl⟩⟩
      unfold Trip.Ran at hran ⊢
      cases hjob : (s.trips c).job <;> simp_all [Trip.Done, Trip.Unstarted]
  | @tooLate c hpc hswap =>
      obtain ⟨hran, htold⟩ := h c
      simp only [Trip.Told, hpc] at htold
      refine forall_set rfl h ⟨hran, ?_⟩
      cases hstate : (s.trips c).state with
      | queued => exact absurd hstate hswap
      | running => exact hstate
      | abandoned => exact absurd hstate htold.2
  | @graceOver c hpc =>
      obtain ⟨hran, htold⟩ := h c
      simp only [Trip.Told, hpc] at htold
      exact forall_set rfl h ⟨hran, .inr ⟨htold, outcomeUnknown_spec _⟩⟩
  | @unlock c r hpc =>
      obtain ⟨hran, htold⟩ := h c
      simp only [Trip.Told, hpc] at htold
      exact forall_set rfl h ⟨hran, htold⟩
  | @take c rest hc =>
      have hjob := hqueue c (by rw [hc]; exact List.mem_cons_self)
      obtain ⟨hran, htold⟩ := h c
      simp only [Trip.Ran, hjob] at hran
      exact forall_set rfl h ⟨hran, htold.move (by simp [hjob]) (by simp [hjob]) (by simp) _⟩
  | @discard c hc =>
      have hjob := hqueue c hc
      obtain ⟨hran, htold⟩ := h c
      simp only [Trip.Ran, hjob] at hran
      exact forall_set rfl h
        ⟨.inl hran, htold.move (by simp [hjob]) (by simp [hjob]) (by simp) _⟩
  | @count c _ _ hjob =>
      obtain ⟨hran, htold⟩ := h c
      simp only [Trip.Ran, hjob] at hran
      exact forall_set rfl h ⟨hran, htold.move (by simp [hjob]) (by simp [hjob]) (by simp) _⟩
  | @start c _ _ hjob hswap =>
      have hwaiting := (h c).waiting hswap (.inr (.inr hjob))
      obtain ⟨hran, -⟩ := h c
      simp only [Trip.Ran, hjob, Trip.Unstarted] at hran
      obtain ⟨-, hstarts, hresults, hsent⟩ := hran
      refine forall_set rfl h ⟨⟨rfl, by simp [hstarts], hresults, hsent⟩, ?_⟩
      rcases hwaiting with hpc | hpc <;> simp [Trip.Told, hpc]
  | @refuse c _ _ hjob hswap =>
      obtain ⟨hran, htold⟩ := h c
      simp only [Trip.Ran, hjob] at hran
      have hstate : (s.trips c).state = .abandoned := by
        cases hstate : (s.trips c).state with
        | queued => exact absurd hstate hswap
        | running => exact absurd hstate hran.1
        | abandoned => rfl
      exact forall_set rfl h ⟨.inl ⟨hstate, hran.2⟩,
        htold.move (by simp [hjob]) (by simp [hjob]) (by simp) _⟩
  | @finish c _ r _ hjob =>
      obtain ⟨hran, htold⟩ := h c
      simp only [Trip.Ran, hjob] at hran
      obtain ⟨hstate, hstarts, hresults, hsent⟩ := hran
      refine forall_set rfl h ⟨⟨hstate, hstarts, by simp [hresults], hsent⟩, ?_⟩
      -- The caller has no result yet, or one that does not depend on the run.
      have hverdict (r' : Except String V) (hr : (s.trips c).Verdict r') :
          Trip.Verdict { s.trips c with
            job := .finished r, results := (s.trips c).results ++ [r] } r' := by
        cases r' with
        | ok v => simp [Trip.Verdict, hresults] at hr
        | error e =>
            rcases hr with ⟨hzero, -⟩ | hr
            · simp [hstarts] at hzero
            · exact .inr hr
      cases hpc : (s.trips c).pc with
      | unlocking r' | returned r' =>
          simp only [Trip.Told, hpc] at htold ⊢
          exact hverdict r' htold
      | _ => simp_all [Trip.Told]
  | @send c _ r _ hjob =>
      obtain ⟨hran, htold⟩ := h c
      simp only [Trip.Ran, hjob] at hran
      obtain ⟨hstate, hstarts, hresults, -⟩ := hran
      exact forall_set rfl h ⟨.inr ⟨hstate, hstarts, r, hresults, rfl⟩,
        htold.move (by simp [hjob]) (by simp [hjob]) (by simp) _⟩
  | @uncount c _ _ hjob =>
      obtain ⟨hran, htold⟩ := h c
      simp only [Trip.Ran, hjob] at hran
      refine forall_set rfl h ⟨hran.imp_left ?_,
        htold.move (by simp [hjob]) (by simp [hjob]) (by simp) _⟩
      rintro ⟨hstate, hunstarted⟩
      exact ⟨by simp [hstate], hunstarted⟩

theorem Step.placed (h : Placed s.queue s.executing s.inFlight s.jobs)
    (hok : ∀ c, (s.trips c).Ok) (hstep : Step what s t) :
    Placed t.queue t.executing t.inFlight t.jobs := by
  cases hstep with
  | call | lock | lockLate | drained | drainedLate | drainLate | receive | disconnected
  | timeout | abandon | tooLate | receiveGraced | graceOver | unlock =>
      exact h.keep rfl rfl
  | @post c hpc =>
      rw [jobs_set]
      exact h.post (by simpa [Trip.Told, hpc, jobs] using (hok c).told)
  | @postFailed c error hpc =>
      rw [jobs_set]
      exact h.postFailed (by simpa [Trip.Told, hpc, jobs] using (hok c).told)
  | take hqueue =>
      rw [jobs_set]
      rw [hqueue] at h
      exact h.take
  | discard hqueue =>
      rw [jobs_set]
      exact h.discard hqueue
  | count htop hjob =>
      rw [jobs_set]
      change Placed s.queue s.executing (s.inFlight + 1) _
      rw [htop] at h ⊢
      exact h.count hjob
  | start _ hjob | refuse _ hjob | finish _ _ hjob | send _ hjob =>
      rw [jobs_set]
      exact h.counted (by rw [jobs, hjob]; rfl) rfl
  | uncount htop hjob =>
      rw [jobs_set]
      rw [htop] at h
      exact h.uncount hjob

/-! ## Exclusion -/

end Dispatch

/-- Having seen the gate empty, and still waiting for its own closure. -/
def Pc.Alone {V : Type} : Pc V → Prop
  | posting => True
  | receiving => True
  | timedOut => True
  | graced => True
  | _ => False

theorem Pc.Alone.holds {V : Type} {pc : Pc V} (h : pc.Alone) : pc.Holds := by
  cases pc <;> trivial

namespace Dispatch

variable {Call V : Type} [DecidableEq Call] {what : Call → String} {s t : Dispatch Call V}

/-- A caller that has seen the gate empty runs its closure beside no other. -/
structure Exclusive (s : Dispatch Call V) : Prop where
  alone : ∀ {c d}, (s.trips c).pc.Alone → (s.trips d).job = .running → d = c
  one : ∀ {c d}, (s.trips c).job = .running → (s.trips d).job = .running → c = d

/-- The invariant after a move that starts no closure and sees no empty gate. -/
theorem Exclusive.keep (h : Exclusive s) {r : Dispatch Call V} (hr : r.trips = s.trips)
    {c : Call} {x : Trip V} (hpc : x.pc.Alone → (s.trips c).pc.Alone)
    (hjob : x.job = .running → (s.trips c).job = .running) : Exclusive (r.set c x) := by
  have halone (d : Call) : ((r.set c x).trips d).pc.Alone → (s.trips d).pc.Alone := by
    by_cases hd : d = c
    · subst hd
      rw [set_trips_self]
      exact hpc
    · rw [set_trips_of_ne _ _ _ hd, hr]
      exact id
  have hrunning (d : Call) : ((r.set c x).trips d).job = .running →
      (s.trips d).job = .running := by
    by_cases hd : d = c
    · subst hd
      rw [set_trips_self]
      exact hjob
    · rw [set_trips_of_ne _ _ _ hd, hr]
      exact id
  exact ⟨fun hc hd => h.alone (halone _ hc) (hrunning _ hd),
    fun hc hd => h.one (hrunning _ hc) (hrunning _ hd)⟩

omit [DecidableEq Call] in
/-- With nothing in flight no closure is running. -/
theorem Placed.not_running (h : Placed s.queue s.executing s.inFlight s.jobs)
    (hzero : s.inFlight = 0) (d : Call) : (s.trips d).job ≠ .running := by
  intro hd
  have hmem : d ∈ s.executing := (h.mem_executing d).mpr (by rw [jobs, hd]; rfl)
  have hcount := List.countP_eq_zero.mp (h.counts.symm.trans hzero) d hmem
  rw [jobs, hd] at hcount
  exact hcount rfl

theorem Step.exclusive (h : Exclusive s) (hlocked : Locked s) (hok : ∀ c, (s.trips c).Ok)
    (hplaced : Placed s.queue s.executing s.inFlight s.jobs) (hstep : Step what s t) :
    Exclusive t := by
  cases hstep with
  | @drained c hpc hzero =>
      have hnone (d : Call) : ((s.set c { s.trips c with pc := .posting }).trips d).job ≠
          .running := by
        by_cases hd : d = c
        · subst hd
          rw [set_trips_self]
          exact hplaced.not_running hzero d
        · rw [set_trips_of_ne _ _ _ hd]
          exact hplaced.not_running hzero d
      exact ⟨fun _ hd => absurd hd (hnone _), fun _ hd => absurd hd (hnone _)⟩
  | @start c _ _ hjob hswap =>
      -- The caller waits for this job, so it holds the lock and no other does.
      have halone : (s.trips c).pc.Alone := by
        rcases (hok c).waiting hswap (.inr (.inr hjob)) with hpc | hpc <;>
          (rw [hpc]; trivial)
      have hholder := (hlocked c).mp halone.holds
      have hrunning {d : Call} (hd : d ≠ c) : (s.trips d).job ≠ .running :=
        fun hd' => hd (h.alone halone hd')
      have hone {d : Call} (hd : ((s.set c { s.trips c with
          job := .running, state := .running, starts := (s.trips c).starts + 1 }).trips d).job =
          .running) : d = c := by
        by_contra hne
        rw [set_trips_of_ne _ _ _ hne] at hd
        exact hrunning hne hd
      refine ⟨fun {d e} hd he => ?_, fun hd he => (hone hd).trans (hone he).symm⟩
      obtain rfl := hone he
      by_contra hne
      rw [set_trips_of_ne _ _ _ (Ne.symm hne)] at hd
      have hholder' := (hlocked d).mp hd.holds
      exact hne (Option.some.inj (hholder.symm.trans hholder'))
  | call hpc | lock hpc | lockLate hpc | drainedLate hpc | drainLate hpc | receive hpc
  | disconnected hpc | timeout hpc | abandon hpc | tooLate hpc | receiveGraced hpc
  | graceOver hpc | unlock hpc =>
      refine h.keep ?_ (by simp [hpc, Pc.Alone]) id
      rfl
  | post hpc | postFailed _ hpc =>
      refine h.keep ?_ (by simp [hpc, Pc.Alone]) (by simp)
      rfl
  | take | discard | count | refuse | finish | send | uncount =>
      refine h.keep ?_ id (by simp)
      rfl

/-! ## Every reachable state -/

structure Inv (s : Dispatch Call V) : Prop where
  ok : ∀ c, (s.trips c).Ok
  locked : Locked s
  placed : Placed s.queue s.executing s.inFlight s.jobs
  exclusive : Exclusive s

omit [DecidableEq Call] in
theorem inv_init : Inv (init : Dispatch Call V) where
  ok _ := Trip.ok_new
  locked _ := iff_of_false id (by simp [init])
  placed := by
    constructor <;> simp [init, jobs, Trip.new, JobPc.onStack]
  exclusive := by
    constructor <;> simp [init, Trip.new]

theorem Inv.step (h : Inv s) (hstep : Step what s t) : Inv t where
  ok := hstep.ok h.ok fun c hc => (h.placed.mem_queue c).mp hc
  locked := hstep.locked h.locked
  placed := hstep.placed h.placed h.ok
  exclusive := hstep.exclusive h.exclusive h.locked h.ok h.placed

theorem Inv.reaches (h : Inv s) (hst : Reaches what s t) : Inv t := by
  induction hst with
  | refl => exact h
  | tail _ hstep ih => exact ih.step hstep

/-- A call that has returned stays so. -/
theorem Step.returned (hstep : Step what s t) {c : Call} {r : Except String V}
    (h : (s.trips c).pc = .returned r) : (t.trips c).pc = .returned r := by
  cases hstep with
  | @call d hpc | @lock d hpc | @lockLate d hpc | @drained d hpc | @drainedLate d hpc
  | @drainLate d hpc | @post d hpc | @postFailed d _ hpc | @receive d _ hpc
  | @disconnected d hpc | @timeout d hpc | @abandon d hpc | @tooLate d hpc
  | @receiveGraced d _ hpc | @graceOver d hpc | @unlock d _ hpc =>
      have hne : c ≠ d := by
        rintro rfl
        rw [hpc] at h
        cases h
      rw [set_trips_of_ne _ _ _ hne]
      exact h
  | @take d | @discard d | @count d | @start d | @refuse d | @finish d | @send d | @uncount d =>
      by_cases hd : c = d
      · subst hd
        rw [set_trips_self]
        exact h
      · rw [set_trips_of_ne _ _ _ hd]
        exact h

theorem Reaches.returned (hst : Reaches what s t) {c : Call} {r : Except String V}
    (h : (s.trips c).pc = .returned r) : (t.trips c).pc = .returned r := by
  induction hst with
  | refl => exact h
  | tail _ hstep ih => exact hstep.returned ih

/-- Closures are started, never unstarted. -/
theorem Step.starts_le (hstep : Step what s t) (c : Call) :
    (s.trips c).starts ≤ (t.trips c).starts := by
  have hset {r : Dispatch Call V} (hr : r.trips = s.trips) {d : Call} {x : Trip V}
      (hx : (s.trips d).starts ≤ x.starts) : (s.trips c).starts ≤ ((r.set d x).trips c).starts := by
    by_cases hd : c = d
    · subst hd
      rwa [set_trips_self]
    · rw [set_trips_of_ne _ _ _ hd, hr]
  cases hstep with
  | start => exact hset rfl (Nat.le_succ _)
  | _ => exact hset rfl (Nat.le_refl _)

theorem Reaches.starts_le (hst : Reaches what s t) (c : Call) :
    (s.trips c).starts ≤ (t.trips c).starts := by
  induction hst with
  | refl => exact Nat.le_refl _
  | tail _ hstep ih => exact Nat.le_trans ih (hstep.starts_le c)

end Dispatch

/-- The closure was started and has not finished. -/
def Trip.Unfinished {V : Type} (x : Trip V) : Prop := x.results.length < x.starts

theorem Trip.Ran.unfinished_iff {V : Type} {x : Trip V} (h : x.Ran) :
    x.Unfinished ↔ x.job = .running := by
  unfold Trip.Unfinished
  cases hjob : x.job with
  | running =>
      simp only [Ran, hjob] at h
      simp [h.2.1, h.2.2.1]
  | finished r =>
      simp only [Ran, hjob] at h
      simp [h.2.1, h.2.2.1]
  | unposted | queued | taken | counted =>
      simp only [Ran, hjob] at h
      simp [h.2.1]
  | leaving | gone =>
      simp only [Ran, hjob] at h
      rcases h with ⟨-, hstarts, -⟩ | ⟨-, hstarts, r, hresults, -⟩
      · simp [hstarts]
      · simp [hstarts, hresults]

namespace Dispatch

variable {Call V : Type} [DecidableEq Call] {what : Call → String} {s t : Dispatch Call V}

/-- What the gate guarantees in a state, for the whole run through it. -/
structure Guarantees (what : Call → String) (s : Dispatch Call V) : Prop where
  /-- After an error that says so, the closure neither has run nor will. -/
  willNotRun : ∀ c e, (s.trips c).pc = .returned (.error e) → WillNotRun e →
    ∀ t, Reaches what t s ∨ Reaches what s t → (t.trips c).starts = 0
  /-- A value is the result of the closure's one run. -/
  ok : ∀ c v, (s.trips c).pc = .returned (.ok v) →
    ∀ t, Reaches what s t → (t.trips c).starts = 1 ∧ (t.trips c).results = [some v]
  /-- No error denies a closure that was started, or will be. -/
  mayHaveRun : ∀ c e, (s.trips c).pc = .returned (.error e) →
    ∀ t, Reaches what s t → (t.trips c).starts ≠ 0 → closureMayHaveRun e = true
  /-- At most one closure is unfinished. -/
  exclusive : ∀ c d, (s.trips c).Unfinished → (s.trips d).Unfinished → c = d
  /-- A closure starts when no other is unfinished. -/
  startsAlone : ∀ t, Step what s t → ∀ c, (s.trips c).starts < (t.trips c).starts →
    ∀ d, ¬ (s.trips d).Unfinished
  /-- Nothing is in flight once no posted job is executing. -/
  inFlight : s.executing = [] → s.inFlight = 0

omit [DecidableEq Call] in
theorem Inv.verdict (h : Inv s) {c : Call} {r : Except String V}
    (hpc : (s.trips c).pc = .returned r) : (s.trips c).Verdict r := by
  simpa [Trip.Told, hpc] using (h.ok c).told

omit [DecidableEq Call] in
theorem Inv.exclusive_unfinished (h : Inv s) {c d : Call} (hc : (s.trips c).Unfinished)
    (hd : (s.trips d).Unfinished) : c = d :=
  h.exclusive.one ((h.ok c).ran.unfinished_iff.mp hc) ((h.ok d).ran.unfinished_iff.mp hd)

/-- A step that starts a closure leaves it unfinished, and leaves the others as they
were. -/
theorem Step.unfinished_of_starts (hok : ∀ c, (s.trips c).Ok) (hstep : Step what s t) {c : Call}
    (hc : (s.trips c).starts < (t.trips c).starts) :
    ¬ (s.trips c).Unfinished ∧ (t.trips c).Unfinished ∧ ∀ d, d ≠ c → t.trips d = s.trips d := by
  have hsame {r : Dispatch Call V} (hr : r.trips = s.trips) {d : Call} {x : Trip V}
      (hx : x.starts = (s.trips d).starts) : ¬ (s.trips c).starts < ((r.set d x).trips c).starts := by
    by_cases hd : c = d
    · subst hd
      rw [set_trips_self, hx]
      exact Nat.lt_irrefl _
    · rw [set_trips_of_ne _ _ _ hd, hr]
      exact Nat.lt_irrefl _
  cases hstep with
  | @start d _ _ hjob hswap =>
      by_cases hd : c = d
      · subst hd
        have hran := (hok c).ran
        simp only [Trip.Ran, hjob] at hran
        obtain ⟨-, hstarts, hresults, -⟩ := hran
        refine ⟨?_, ?_, fun e he => set_trips_of_ne _ _ _ he⟩
        · simp [Trip.Unfinished, hstarts]
        · simp [Trip.Unfinished, hresults]
      · rw [set_trips_of_ne _ _ _ hd] at hc
        exact absurd hc (Nat.lt_irrefl _)
  | _ => exact absurd hc (hsame rfl rfl)

/-- Every interleaving of callers and main thread keeps the guarantees. -/
theorem serializedRoundTrip_guarantees (hs : Reaches what init s) : Guarantees what s := by
  have hinv : Inv s := inv_init.reaches hs
  -- A verdict is read off in a later state, where the call has returned the same.
  have hlater {c : Call} {r : Except String V} (hpc : (s.trips c).pc = .returned r)
      {t : Dispatch Call V} (hst : Reaches what s t) : (t.trips c).Verdict r :=
    (hinv.reaches hst).verdict (Reaches.returned hst hpc)
  have hnever {c : Call} {e : String} (hpc : (s.trips c).pc = .returned (.error e))
      (he : WillNotRun e) {t : Dispatch Call V} (hst : Reaches what s t) :
      (t.trips c).starts = 0 := by
    rcases hlater hpc hst with hzero | ⟨-, -, hnot⟩
    · exact hzero.1
    · exact absurd he hnot
  constructor
  · intro c e hpc he t ht
    rcases ht with hts | hst
    · have hle := Reaches.starts_le hts c
      rw [hnever hpc he .refl] at hle
      exact Nat.le_zero.mp hle
    · exact hnever hpc he hst
  · intro c v hpc t hst
    exact hlater hpc hst
  · intro c e hpc t hst hstarts
    rcases hlater hpc hst with hzero | ⟨-, hmay, -⟩
    · exact absurd hzero.1 hstarts
    · exact hmay
  · intro c d hc hd
    exact hinv.exclusive_unfinished hc hd
  · intro t hstep c hc d hd
    obtain ⟨hbefore, hafter, hothers⟩ := hstep.unfinished_of_starts hinv.ok hc
    have hne : d ≠ c := by
      rintro rfl
      exact hbefore hd
    rw [← hothers d hne] at hd
    exact hne ((hinv.step hstep).exclusive_unfinished hd hafter)
  · intro hempty
    have hcount := hinv.placed.counts
    rwa [hempty, List.countP_nil] at hcount

/-- A caller that gives up on its queued job, and another that then gets its value. -/
theorem serializedRoundTrip_guarantees_of_abandoned :
    let what : Bool → String := fun _ => "eval"
    ∃ s : Dispatch Bool Nat, Reaches what init s ∧
      (s.trips false).pc = .returned (.error (timedOutBeforeStart "eval")) ∧
      (s.trips true).pc = .returned (.ok 7) ∧ Guarantees what s := by
  intro what
  have run : Reaches what init (init : Dispatch Bool Nat) := .refl
  have run := run.tail (.call (c := false) rfl)
  have run := run.tail (.lock (c := false) rfl rfl)
  have run := run.tail (.drained (c := false) rfl rfl)
  have run := run.tail (.post (c := false) rfl)
  have run := run.tail (.timeout (c := false) rfl)
  have run := run.tail (.abandon (c := false) rfl rfl)
  have run := run.tail (.unlock (c := false) rfl)
  have run := run.tail (.call (c := true) rfl)
  have run := run.tail (.lock (c := true) rfl rfl)
  have run := run.tail (.drained (c := true) rfl rfl)
  have run := run.tail (.post (c := true) rfl)
  have run := run.tail (.take (c := false) rfl (by simp [Pumping, set, init]))
  have run := run.tail (.count (c := false) rfl rfl)
  have run := run.tail (.refuse (c := false) rfl rfl (by simp [set]))
  have run := run.tail (.uncount (c := false) rfl rfl)
  have run := run.tail (.take (c := true) rfl (by simp [Pumping, set, init]))
  have run := run.tail (.count (c := true) rfl rfl)
  have run := run.tail (.start (c := true) rfl rfl rfl)
  have run := run.tail (.finish (c := true) (some 7) rfl rfl)
  have run := run.tail (.send (c := true) rfl rfl)
  have run := run.tail (.receive (c := true) rfl rfl)
  have run := run.tail (.unlock (c := true) rfl)
  exact ⟨_, run, rfl, rfl, serializedRoundTrip_guarantees run⟩

end Dispatch

end Victauri.Plugin.Bridge
