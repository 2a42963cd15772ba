import Mathlib.Algebra.Group.Nat.Defs
import Victauri.Core.Recording.System

/-!
# Generations identify recordings

A start draws its generation inside the recording lock, an import outside of it, so
recordings need not become active in the order of their generations.  A generation is
nevertheless drawn once, and belongs to the one recording it was drawn for, as long
as the 64-bit counter behind it has not come round: the draws are numbered from 0, and
`drawIndex` recovers the number of a draw from the generation it gave.
-/

namespace Victauri.Core

/-- Which draw gives the generation `g`, in the counter's first round. -/
def drawIndex (g : UInt64) : Nat := (g - 1).toNat

theorem drawIndex_lt (g : UInt64) : drawIndex g < 2 ^ 64 := (g - 1).toNat_lt

/-- The generation drawn after `n` others. -/
theorem drawIndex_ofNat_add_one {n : Nat} (h : n < 2 ^ 64) :
    drawIndex (UInt64.ofNat n + 1) = n := by
  have hsub : UInt64.ofNat n + 1 - 1 = UInt64.ofNat n := UInt64.add_sub_cancel _ _
  rw [drawIndex, hsub, UInt64.toNat_ofNat', Nat.mod_eq_of_lt h]

/-- The generation of an import on its way to the recording lock. -/
def Pc.pending : Pc → Option UInt64
  | storing active _ => some active.generation
  | _ => none

theorem Pc.Quiet.pending {pc : Pc} (h : pc.Quiet) : pc.pending = none := by
  cases pc <;> first | rfl | exact h.elim

namespace System

open Victauri.Library

variable {Client : Type} [DecidableEq Client]

variable {s t : System Client} {c : Client}

/-! ## Every generation is drawn for one recording -/

/-- The generations in use, by recordings that became active and by imports under
way, have all been drawn, and none is in use twice. -/
structure Fresh (s : System Client) : Prop where
  counter : s.recorder.generations = UInt64.ofNat s.history.draws
  births_drawn : ∀ g ∈ s.history.births, drawIndex g < s.history.draws
  births_nodup : s.history.births.Nodup
  pending_drawn : ∀ {c g}, (s.pcs c).pending = some g → drawIndex g < s.history.draws
  pending_unborn : ∀ {c g}, (s.pcs c).pending = some g → g ∉ s.history.births
  pending_inj : ∀ {c d g}, (s.pcs c).pending = some g → (s.pcs d).pending = some g → c = d
  active : ∀ {active}, s.recorder.recording = some active →
    s.history.births.getLast? = some active.generation

omit [DecidableEq Client] in
theorem fresh_init (maxEvents : Nat) : Fresh (init maxEvents : System Client) where
  counter := rfl
  births_drawn := by simp [init]
  births_nodup := List.nodup_nil
  pending_drawn := by simp [init, Pc.pending]
  pending_unborn := by simp [init, Pc.pending]
  pending_inj := by simp [init, Pc.pending]
  active := by simp [init, EventRecorder.new]

theorem Effect.draws_le (e : Effect c s t) : s.history.draws ≤ t.history.draws := by
  cases e <;> simp [System.draw, System.birth]

omit [DecidableEq Client] in
/-- The invariant after a step that draws nothing and gives birth to nothing. -/
theorem Fresh.keep (h : Fresh s) (hgen : t.recorder.generations = s.recorder.generations)
    (hdraws : t.history.draws = s.history.draws)
    (hbirths : t.history.births = s.history.births)
    (hpending : ∀ d g, (t.pcs d).pending = some g → (s.pcs d).pending = some g)
    (hactive : ∀ active', t.recorder.recording = some active' →
      ∃ active, s.recorder.recording = some active ∧
        active.generation = active'.generation) : Fresh t where
  counter := by rw [hgen, hdraws, h.counter]
  births_drawn := by rw [hdraws, hbirths]; exact h.births_drawn
  births_nodup := by rw [hbirths]; exact h.births_nodup
  pending_drawn := fun hg => by rw [hdraws]; exact h.pending_drawn (hpending _ _ hg)
  pending_unborn := fun hg => by rw [hbirths]; exact h.pending_unborn (hpending _ _ hg)
  pending_inj := fun hg hg' => h.pending_inj (hpending _ _ hg) (hpending _ _ hg')
  active := fun hr => by
    obtain ⟨active, hactive, hgeneration⟩ := hactive _ hr
    rw [hbirths, ← hgeneration]
    exact h.active hactive

/-- After a step to a place where nothing is pending, what is pending was so before. -/
theorem pending_of_goto {r : System Client} (hr : r.pcs = s.pcs) {pc : Pc}
    (hpc : pc.pending = none) (d : Client) (g : UInt64)
    (h : ((r.goto c pc).pcs d).pending = some g) : (s.pcs d).pending = some g := by
  by_cases hd : d = c
  · subst hd
    rw [goto_pcs_self, hpc] at h
    cases h
  · rwa [goto_pcs_of_ne _ _ _ hd, hr] at h

theorem SameRecording.active {r r' : EventRecorder} (h : SameRecording r r')
    (active' : ActiveRecording) (hr : r'.recording = some active') :
    ∃ active, r.recording = some active ∧ active.generation = active'.generation := by
  have hmap := h.generation
  rw [hr, Option.map_some] at hmap
  exact Option.map_eq_some_iff.mp hmap.symm

omit [DecidableEq Client] in
/-- The invariant after a recording of the unused generation `g` becomes active. -/
theorem Fresh.born (h : Fresh s) {g : UInt64}
    (hcounter : t.recorder.generations = UInt64.ofNat t.history.draws)
    (hdraws : s.history.draws ≤ t.history.draws) (hdrawn : drawIndex g < t.history.draws)
    (hunborn : g ∉ s.history.births) (hbirths : t.history.births = s.history.births ++ [g])
    (hpending : ∀ d g', (t.pcs d).pending = some g' →
      (s.pcs d).pending = some g' ∧ g' ≠ g)
    (hactive : t.recorder.recording.map (fun a => a.generation) = some g) : Fresh t where
  counter := hcounter
  births_drawn := by
    intro g' hg'
    rw [hbirths, List.mem_append, List.mem_singleton] at hg'
    rcases hg' with hg' | rfl
    · exact Nat.lt_of_lt_of_le (h.births_drawn g' hg') hdraws
    · exact hdrawn
  births_nodup := by
    rw [hbirths]
    exact h.births_nodup.append (List.nodup_singleton g) (by simpa using hunborn)
  pending_drawn := fun hg => Nat.lt_of_lt_of_le (h.pending_drawn (hpending _ _ hg).1) hdraws
  pending_unborn := fun hg => by
    obtain ⟨hg, hne⟩ := hpending _ _ hg
    rw [hbirths, List.mem_append, List.mem_singleton, not_or]
    exact ⟨h.pending_unborn hg, hne⟩
  pending_inj := fun hg hg' => h.pending_inj (hpending _ _ hg).1 (hpending _ _ hg').1
  active := fun hr => by
    rw [hr, Option.map_some] at hactive
    rw [hbirths, List.getLast?_concat, hactive]

omit [DecidableEq Client] in
/-- The next generation to be drawn is one that nothing uses. -/
theorem Fresh.next (h : Fresh s) (hdraws : s.history.draws < 2 ^ 64) :
    drawIndex (s.recorder.generations + 1) = s.history.draws := by
  rw [h.counter]
  exact drawIndex_ofNat_add_one hdraws

omit [DecidableEq Client] in
theorem Fresh.next_unborn (h : Fresh s) (hdraws : s.history.draws < 2 ^ 64) :
    s.recorder.generations + 1 ∉ s.history.births := by
  intro hmem
  have hlt := h.births_drawn _ hmem
  rw [h.next hdraws] at hlt
  exact Nat.lt_irrefl _ hlt

omit [DecidableEq Client] in
theorem Fresh.next_not_pending (h : Fresh s) (hdraws : s.history.draws < 2 ^ 64) (d : Client) :
    (s.pcs d).pending ≠ some (s.recorder.generations + 1) := by
  intro hpending
  have hlt := h.pending_drawn hpending
  rw [h.next hdraws] at hlt
  exact Nat.lt_irrefl _ hlt

omit [DecidableEq Client] in
theorem Fresh.counter_next (h : Fresh s) :
    s.recorder.generations + 1 = UInt64.ofNat (s.history.draws + 1) := by
  rw [h.counter, UInt64.ofNat_add]
  rfl

theorem Fresh.step (h : Fresh s) (e : Effect c s t)
    (hdraws : t.history.draws ≤ 2 ^ 64) : Fresh t := by
  cases e with
  | quiet hpc hsame =>
      exact h.keep hsame.generations rfl rfl (pending_of_goto rfl hpc.pending) hsame.active
  | append hsame _ => exact h.keep hsame.generations rfl rfl (pending_of_goto rfl rfl) hsame.active
  | lock => exact h.keep rfl rfl rfl (pending_of_goto rfl rfl) fun a ha => ⟨a, ha, rfl⟩
  | take => exact h.keep rfl rfl rfl (pending_of_goto rfl rfl) (by simp)
  | finish => exact h.keep rfl rfl rfl (pending_of_goto rfl rfl) fun a ha => ⟨a, ha, rfl⟩
  | draw hdrawn =>
      rename_i active onlyIfIdle
      have hlt : s.history.draws < 2 ^ 64 := hdraws
      -- What is pending now is the generation just drawn, at `c`, or was pending before.
      have hpending : ∀ d g, ((s.draw.goto c (.storing active onlyIfIdle)).pcs d).pending =
          some g → d = c ∧ g = s.recorder.generations + 1 ∨ (s.pcs d).pending = some g := by
        intro d g hg
        by_cases hd : d = c
        · subst hd
          rw [goto_pcs_self, Pc.pending, hdrawn] at hg
          exact .inl ⟨rfl, (Option.some.inj hg).symm⟩
        · rw [goto_pcs_of_ne _ _ _ hd] at hg
          exact .inr hg
      exact {
        counter := h.counter_next
        births_drawn := fun g hg => Nat.lt_succ_of_lt (h.births_drawn g hg)
        births_nodup := h.births_nodup
        pending_drawn := fun {d g} hg => by
          rcases hpending d g hg with ⟨rfl, rfl⟩ | hold
          · exact Nat.lt_succ_of_le (Nat.le_of_eq (h.next hlt))
          · exact Nat.lt_succ_of_lt (h.pending_drawn hold)
        pending_unborn := fun {d g} hg => by
          rcases hpending d g hg with ⟨rfl, rfl⟩ | hold
          · exact h.next_unborn hlt
          · exact h.pending_unborn hold
        pending_inj := fun {d d' g} hg hg' => by
          rcases hpending d g hg with ⟨hd, rfl⟩ | hold
          · rcases hpending d' _ hg' with ⟨hd', -⟩ | hold'
            · exact hd.trans hd'.symm
            · exact absurd hold' (h.next_not_pending hlt d')
          · rcases hpending d' g hg' with ⟨-, rfl⟩ | hold'
            · exact absurd hold (h.next_not_pending hlt d)
            · exact h.pending_inj hold hold'
        active := h.active }
  | start hpc =>
      have hlt : s.history.draws < 2 ^ 64 := hdraws
      refine h.born (g := s.recorder.generations + 1) h.counter_next (Nat.le_succ _) ?_
        (h.next_unborn hlt) rfl ?_ rfl
      · exact Nat.lt_succ_of_le (Nat.le_of_eq (h.next hlt))
      · intro d g hg
        have hold := pending_of_goto rfl rfl d g hg
        refine ⟨hold, ?_⟩
        rintro rfl
        exact h.next_not_pending hlt d hold
  | store hpc hfree =>
      rename_i active onlyIfIdle response
      have hstored : (s.pcs c).pending = some active.generation := by rw [hpc]; rfl
      refine h.born (g := active.generation) h.counter (Nat.le_refl _) (h.pending_drawn hstored)
        (h.pending_unborn hstored) rfl ?_ rfl
      intro d g hg
      refine ⟨pending_of_goto rfl rfl d g hg, ?_⟩
      rintro rfl
      obtain rfl := h.pending_inj (pending_of_goto rfl rfl d _ hg) hstored
      rw [goto_pcs_self] at hg
      cases hg

/-! ## What is done under a generation is done to its recording -/

/-- What was done under a generation was done to the recording it was drawn for, and
a generation was stopped at most once; what is under way will keep it so. -/
structure Accounted (s : System Client) : Prop where
  appended : ∀ {g event i}, (g, event, i) ∈ s.history.appended →
    s.history.births[i]? = some g
  stopped : ∀ {g i}, (g, i) ∈ s.history.stops → s.history.births[i]? = some g
  once : (s.history.stops.map Prod.fst).Nodup
  active : ∀ {active}, s.recorder.recording = some active →
    active.generation ∉ s.history.stops.map Prod.fst
  finishing : ∀ {c session g}, s.pcs c = .finishing session (some g) →
    s.history.births.getLast? = some g ∧ g ∉ s.history.stops.map Prod.fst

omit [DecidableEq Client] in
theorem accounted_init (maxEvents : Nat) : Accounted (init maxEvents : System Client) where
  appended := by simp [init]
  stopped := by simp [init]
  once := by simp [init]
  active := by simp [init, EventRecorder.new]
  finishing := by simp [init]

omit [DecidableEq Client] in
theorem Accounted.stopped_born (h : Accounted s) {g : UInt64}
    (hg : g ∉ s.history.births) : g ∉ s.history.stops.map Prod.fst := by
  intro hmem
  obtain ⟨⟨g', i⟩, hstop, rfl⟩ := List.mem_map.mp hmem
  exact hg (List.mem_of_getElem? (h.stopped hstop))

omit [DecidableEq Client] in
theorem births_current {g : UInt64} (h : s.history.births.getLast? = some g) :
    s.history.births[s.current]? = some g := by
  rw [← h, List.getLast?_eq_getElem?]
  rfl

/-- A client that was finishing before a step of `c` still is, unless it is `c`. -/
theorem finishing_of_goto {r : System Client} (hr : r.pcs = s.pcs) {pc : Pc}
    (hpc : ∀ session g, pc ≠ .finishing session g) {d : Client} {session : RecordedSession}
    {g : Option UInt64} (h : (r.goto c pc).pcs d = .finishing session g) :
    d ≠ c ∧ s.pcs d = .finishing session g := by
  by_cases hd : d = c
  · subst hd
    rw [goto_pcs_self] at h
    exact absurd h (hpc session g)
  · rw [goto_pcs_of_ne _ _ _ hd, hr] at h
    exact ⟨hd, h⟩

/-- The invariant after a step that writes nothing down. -/
theorem Accounted.keep (h : Accounted s) {r : System Client} {pc : Pc} (hr : r.pcs = s.pcs)
    (hpc : ∀ session g, pc ≠ .finishing session g) (hhistory : r.history.births =
      s.history.births ∧ r.history.appended = s.history.appended ∧
      r.history.stops = s.history.stops)
    (hactive : ∀ active', r.recorder.recording = some active' →
      ∃ active, s.recorder.recording = some active ∧
        active.generation = active'.generation) : Accounted (r.goto c pc) := by
  obtain ⟨hbirths, happended, hstops⟩ := hhistory
  constructor
  · simp only [goto_history, hbirths, happended]
    exact h.appended
  · simp only [goto_history, hbirths, hstops]
    exact h.stopped
  · simp only [goto_history, hstops]
    exact h.once
  · intro active' hactive'
    obtain ⟨active, ha, hgeneration⟩ := hactive active' hactive'
    simp only [goto_history, hstops, ← hgeneration]
    exact h.active ha
  · intro d session g hd
    simp only [goto_history, hbirths, hstops]
    exact h.finishing (finishing_of_goto hr hpc hd).2

theorem getElem?_append_some {α : Type} {l : List α} {i : Nat} {a : α} (h : l[i]? = some a)
    (l' : List α) : (l ++ l')[i]? = some a := by
  obtain ⟨hlt, -⟩ := List.getElem?_eq_some_iff.mp h
  rw [List.getElem?_append_left hlt, h]

/-- The invariant after the recording of the unborn generation `g` became active, which
takes the recording lock. -/
theorem Accounted.born (h : Accounted s) {g : UInt64} {r : System Client}
    {response : Response} (hr : r.pcs = s.pcs)
    (hunborn : g ∉ s.history.births) (hhistory : r.history.births =
      s.history.births ++ [g] ∧ r.history.appended = s.history.appended ∧
      r.history.stops = s.history.stops)
    (hactive : ∀ {active}, r.recorder.recording = some active → active.generation = g)
    (hfree : ∀ d session g, d ≠ c → s.pcs d ≠ .finishing session g) :
    Accounted (r.goto c (.returning response)) := by
  obtain ⟨hbirths, happended, hstops⟩ := hhistory
  constructor
  · simp only [goto_history, hbirths, happended]
    exact fun he => getElem?_append_some (h.appended he) _
  · simp only [goto_history, hbirths, hstops]
    exact fun he => getElem?_append_some (h.stopped he) _
  · simp only [goto_history, hstops]
    exact h.once
  · intro active ha
    simp only [goto_history, hstops, hactive ha]
    exact h.stopped_born hunborn
  · intro d session g hd
    obtain ⟨hne, hold⟩ := finishing_of_goto hr (by simp) hd
    exact absurd hold (hfree d session _ hne)

theorem Accounted.step (h : Accounted s) (hlocked : Locked s) (hfresh : Fresh s)
    (hfresh' : Fresh t) (e : Effect c s t) : Accounted t := by
  -- A step that makes a recording active finds no stop under way.
  have alone (hpc : (s.pcs c).Holds ∨ s.holder = none) (d : Client)
      (session : RecordedSession) (g : Option UInt64) (hd : d ≠ c) :
      s.pcs d ≠ .finishing session g := by
    intro hfinishing
    obtain ⟨hholder, -⟩ := hlocked d (by rw [hfinishing]; trivial)
    rcases hpc with hpc | hfree
    · exact hd (Option.some.inj (hholder.symm.trans (hlocked c hpc).1))
    · simp [hfree] at hholder
  cases e with
  | quiet hpc hsame =>
      refine h.keep rfl (fun session g hg => ?_) ⟨rfl, rfl, rfl⟩ hsame.active
      rw [hg] at hpc
      exact hpc
  | lock =>
      exact h.keep rfl (by simp) ⟨rfl, rfl, rfl⟩ fun a ha => ⟨a, ha, rfl⟩
  | draw =>
      exact h.keep rfl (by simp) ⟨rfl, rfl, rfl⟩ fun a ha => ⟨a, ha, rfl⟩
  | append hsame hactive =>
      rename_i recorder generation event
      have hkeep : Accounted ({ s with recorder }.goto c (.returning (.recorded true))) :=
        h.keep rfl (by simp) ⟨rfl, rfl, rfl⟩ hsame.active
      obtain ⟨active, ha, rfl⟩ := Option.map_eq_some_iff.mp hactive
      refine ⟨fun {g ev i} he => ?_, hkeep.stopped, hkeep.once, hkeep.active, hkeep.finishing⟩
      rw [goto_history, List.mem_append, List.mem_singleton] at he
      rcases he with he | he
      · exact h.appended he
      · obtain ⟨rfl, rfl, rfl⟩ := he
        exact births_current (hfresh.active ha)
  | take hfree hactive hgeneration =>
      rename_i active generation
      refine ⟨h.appended, h.stopped, h.once, by simp, ?_⟩
      intro d session g hd
      by_cases hdc : d = c
      · subst hdc
        rw [goto_pcs_self] at hd
        obtain ⟨-, rfl⟩ := Pc.finishing.inj hd
        obtain rfl := hgeneration g rfl
        exact ⟨hfresh.active hactive, h.active hactive⟩
      · rw [goto_pcs_of_ne _ _ _ hdc] at hd
        exact absurd hd (alone (.inr hfree) d session _ hdc)
  | start hpc =>
      have hunborn := (List.nodup_append.mp hfresh'.births_nodup).2.2
      refine h.born rfl ?_ ⟨rfl, rfl, rfl⟩ ?_ (alone (.inl (by rw [hpc]; trivial)))
      · exact fun hmem => hunborn _ hmem _ (List.mem_singleton_self _) rfl
      · rintro active ⟨⟩
        rfl
  | store hpc hfree =>
      refine h.born rfl ?_ ⟨rfl, rfl, rfl⟩ ?_ (alone (.inr hfree))
      · exact hfresh.pending_unborn (c := c) (by rw [hpc]; rfl)
      · rintro active ⟨⟩
        rfl
  | finish hpc =>
      rename_i session generation
      obtain ⟨-, hnone⟩ := hlocked c (by rw [hpc]; trivial)
      have hidle {active : ActiveRecording} (ha : s.recorder.recording = some active) :
          False := by
        rw [hnone] at ha
        cases ha
      have hothers {d : Client} {session' : RecordedSession} {g : Option UInt64} {r : Response}
          {r' : System Client} (hr : r'.pcs = s.pcs)
          (hd : (r'.goto c (.returning r)).pcs d = .finishing session' g) : False := by
        obtain ⟨hne, hold⟩ := finishing_of_goto hr (by simp) hd
        exact alone (.inl (by rw [hpc]; trivial)) d _ _ hne hold
      cases generation with
      | none =>
          refine ⟨h.appended, ?_, ?_, fun ha => (hidle ha).elim, fun hd => (hothers rfl hd).elim⟩
          · simpa using @h.stopped
          · simpa using h.once
      | some g =>
          obtain ⟨hlast, hunstopped⟩ := h.finishing hpc
          refine ⟨h.appended, ?_, ?_, fun ha => (hidle ha).elim, fun hd => (hothers rfl hd).elim⟩
          · intro g' i hi
            rw [goto_history, List.mem_append] at hi
            rcases hi with hi | hi
            · exact h.stopped hi
            · obtain ⟨rfl, rfl⟩ : g' = g ∧ i = s.current := by simpa using hi
              exact births_current hlast
          · simp only [goto_history, Option.map_some, Option.toList_some, List.map_append,
              List.map_cons, List.map_nil]
            exact List.nodup_append.mpr ⟨h.once, List.nodup_singleton g, by
              rintro a ha b hb rfl
              exact hunstopped (List.mem_singleton.mp hb ▸ ha)⟩

/-! ## A refused import -/

/-- Client `c` takes a step from `m` to `n` in the run `as` from `s` to `u`. -/
def StepOf (c : Client) (s : System Client) (as : List (Action Client)) (u m n : System Client) :
    Prop :=
  ∃ as₁ as₂, as = as₁ ++ .act c :: as₂ ∧ Runs s as₁ m ∧ step m (.act c) = some n ∧ Runs n as₂ u

/-- Until client `c` returns, only its own steps move it. -/
theorem pcs_invariant {P : Pc → Prop} (hact : ∀ {m n : System Client},
      P (m.pcs c) → step m (.act c) = some n → P (n.pcs c))
    (hidle : ¬ P .idle) {u : System Client} {as : List (Action Client)} (h : Runs s as u)
    (hret : .ret c ∉ as) (hs : P (s.pcs c)) : P (u.pcs c) := by
  refine Run.snocInduction (motive := fun as u => .ret c ∉ as → P (u.pcs c))
    (fun _ => hs) ?_ h hret
  intro as m a n _ ih hstep hnot
  rw [List.mem_append, not_or, List.mem_singleton] at hnot
  have hm := ih hnot.1
  by_cases ha : c = a.client
  · cases a with
    | act d =>
        obtain rfl : c = d := ha
        exact hact hm hstep
    | ret d => exact absurd (congrArg Action.ret ha) hnot.2
    | call d request =>
        obtain rfl : c = d := ha
        simp only [step] at hstep
        split at hstep
        · rename_i hpc
          exact absurd (hpc ▸ hm) hidle
        · cases hstep
  · rw [(step_effect hstep).pcs_of_ne ha]
    exact hm

theorem returning_stays {u : System Client} {as : List (Action Client)} (h : Runs s as u)
    (hret : .ret c ∉ as) {response : Response} (hs : s.pcs c = .returning response) :
    u.pcs c = .returning response := by
  refine pcs_invariant (P := fun pc => pc = .returning response) ?_ (by simp) h hret hs
  intro m n hm hstep
  simp [step, act, hm] at hstep

/-- Inside a conditional import: called, on its way to the lock, or answered. -/
def Pc.Importing (session : RecordedSession) : Pc → Prop
  | .called request => request = .importIfIdle session
  | .storing _ onlyIfIdle => onlyIfIdle = true
  | .returning (.imported _) => True
  | _ => False

/-- What a step inside a conditional import does: it leaves the recording and the last
session alone, or it returns a generation. -/
theorem importing_step {session : RecordedSession} {m n : System Client}
    (hm : Pc.Importing session (m.pcs c)) (hstep : step m (.act c) = some n) :
    Pc.Importing session (n.pcs c) ∧
      (n.recorder.recording = m.recorder.recording ∧
          n.recorder.lastSession = m.recorder.lastSession ∨
        ∃ g, n.pcs c = .returning (.imported (.ok g))) := by
  simp only [step, act] at hstep
  cases hpc : m.pcs c with
  | called request =>
      rw [hpc] at hm
      obtain rfl : request = .importIfIdle session := hm
      simp only [hpc, needsLock, Bool.false_and, Bool.false_eq_true, if_false] at hstep
      obtain rfl := Option.some.inj hstep
      refine ⟨?_, .inl ⟨rfl, rfl⟩⟩
      rw [enter, goto_pcs_self]
      rfl
  | storing active onlyIfIdle =>
      rw [hpc] at hm
      obtain rfl : onlyIfIdle = true := hm
      simp only [hpc] at hstep
      split at hstep
      · cases hstep
      · split at hstep
        · obtain rfl := Option.some.inj hstep
          rw [goto_pcs_self]
          exact ⟨trivial, .inl ⟨rfl, rfl⟩⟩
        · obtain rfl := Option.some.inj hstep
          rw [goto_pcs_self]
          exact ⟨trivial, .inr ⟨active.generation, rfl⟩⟩
  | returning response => simp [hpc] at hstep
  | idle => simp [hpc] at hstep
  | drawing sessionId now => exact absurd hm (by rw [hpc]; exact id)
  | finishing session generation => exact absurd hm (by rw [hpc]; exact id)
  | reading q => exact absurd hm (by rw [hpc]; exact id)

/-- A conditional import that returns an error changes neither the active recording
nor the last session, in any of its steps. -/
theorem refused_import_keeps {session : RecordedSession} {u : System Client}
    {as : List (Action Client)} {e : VictauriError}
    (hcall : step s (.call c (.importIfIdle session)) = some t) (hret : .ret c ∉ as)
    (hrefused : u.pcs c = .returning (.imported (.error e))) {m n : System Client}
    (hstep : StepOf c t as u m n) :
    n.recorder.recording = m.recorder.recording ∧
      n.recorder.lastSession = m.recorder.lastSession := by
  obtain ⟨as₁, as₂, rfl, hbefore, hstep, hafter⟩ := hstep
  rw [List.mem_append, List.mem_cons, not_or, not_or] at hret
  have hcalled : Pc.Importing session (t.pcs c) := by
    simp only [step] at hcall
    split at hcall
    · obtain rfl := Option.some.inj hcall
      rw [goto_pcs_self]
      rfl
    · cases hcall
  have hm : Pc.Importing session (m.pcs c) :=
    pcs_invariant (P := Pc.Importing session) (fun hm hstep => (importing_step hm hstep).1) id
      hbefore hret.1 hcalled
  rcases (importing_step hm hstep).2 with hsame | ⟨g, hg⟩
  · exact hsame
  · have hu := returning_stays hafter hret.2.2 hg
    rw [hrefused] at hu
    cases hu

/-! ## The whole system -/

/-- What generations are for.  `births` has the generation of every recording that
became active; a recording is its place in that list. -/
structure Owns (h : History) : Prop where
  /-- No two recordings have one generation. -/
  distinct : h.births.Nodup
  /-- An event accepted under `g` went to the recording of generation `g`. -/
  appended : ∀ g event i, (g, event, i) ∈ h.appended → h.births[i]? = some g
  /-- A stop by generation `g` stopped the recording of generation `g`. -/
  stopped : ∀ g i, (g, i) ∈ h.stops → h.births[i]? = some g
  /-- A generation is stopped at most once. -/
  once : (h.stops.map Prod.fst).Nodup

/-- A conditional import, called in the state `s`, that returns an error. -/
def RefusalsKeep (s : System Client) : Prop :=
  ∀ c session t as u e, step s (.call c (.importIfIdle session)) = some t → Runs t as u →
    .ret c ∉ as → u.pcs c = .returning (.imported (.error e)) →
    ∀ m n, StepOf c t as u m n → n.recorder.recording = m.recorder.recording ∧
      n.recorder.lastSession = m.recorder.lastSession

theorem Runs.accounted {maxEvents : Nat} {as : List (Action Client)}
    (h : Runs (init maxEvents) as s) (hdraws : s.history.draws ≤ 2 ^ 64) :
    Fresh s ∧ Accounted s := by
  refine Run.snocInduction
    (motive := fun _ s => s.history.draws ≤ 2 ^ 64 → Fresh s ∧ Accounted s)
    (fun _ => ⟨fresh_init _, accounted_init _⟩) ?_ h hdraws
  intro as m a n hm ih hstep hn
  have heffect := step_effect hstep
  obtain ⟨hfresh, haccounted⟩ := ih (Nat.le_trans heffect.draws_le hn)
  have hfresh' := hfresh.step heffect hn
  exact ⟨hfresh', haccounted.step (Runs.locked hm (locked_init _)) hfresh hfresh' heffect⟩

/-- Start a recording and stop it. -/
def round : List (Action Unit) :=
  [.call () (.startSession "a" 0), .act (), .act (), .ret (),
    .call () .stop, .act (), .act (), .ret ()]

theorem runs_round {s : System Unit} (hpc : s.pcs () = .idle) (hfree : s.holder = none)
    (hnone : s.recorder.recording = none) :
    ∃ t, Runs s round t ∧ t.pcs () = .idle ∧ t.holder = none ∧ t.recorder.recording = none ∧
      t.recorder.generations = s.recorder.generations + 1 ∧
      t.history.births = s.history.births ++ [s.recorder.generations + 1] := by
  obtain ⟨⟨recording, lastSession, maxEvents, generations⟩, holder, pcs, history⟩ := s
  obtain rfl : pcs = fun _ => .idle := funext fun _ => hpc
  obtain rfl : holder = none := hfree
  obtain rfl : recording = none := hnone
  exact ⟨_, .of_foldlM rfl, rfl, rfl, rfl, rfl, rfl⟩

theorem runs_rounds (n : Nat) :
    ∃ s, Runs (init 8) (List.replicate n round).flatten s ∧ s.pcs () = .idle ∧
      s.holder = none ∧ s.recorder.recording = none ∧
      s.recorder.generations = UInt64.ofNat n ∧
      s.history.births = (List.range n).map fun k => UInt64.ofNat k + 1 := by
  induction n with
  | zero => exact ⟨init 8, .nil _, rfl, rfl, rfl, rfl, rfl⟩
  | succ n ih =>
      obtain ⟨s, hs, hpc, hfree, hnone, hgenerations, hbirths⟩ := ih
      obtain ⟨t, ht, hpc', hfree', hnone', hgenerations', hbirths'⟩ :=
        runs_round hpc hfree hnone
      refine ⟨t, ?_, hpc', hfree', hnone', ?_, ?_⟩
      · rw [List.replicate_succ', List.flatten_concat]
        exact hs.append ht
      · rw [hgenerations', hgenerations, UInt64.ofNat_add]
        rfl
      · rw [hbirths', hbirths, hgenerations, List.range_succ, List.map_append]
        rfl

end System

end Victauri.Core
