import Victauri.Core.Recording.Ledger
import Mathlib.Data.List.Basic

/-!
# The window between two checkpoints

`checkpoint_window` answers from the two rings alone: it compares event indices with
the indices two checkpoints carry, and counts the missing ones.  Read against the
ledger, what it returns is exact.
-/

namespace Victauri.Core

open Victauri.Library

/-! ## Looking a checkpoint up by its id -/

/-- A search by key finds the one entry with that key. -/
theorem find?_of_distinct {β : Type} {xs : List (String × β)}
    (hdistinct : (xs.map Prod.fst).Nodup) {x : String × β} (hx : x ∈ xs) :
    xs.find? (fun m => m.1 == x.1) = some x := by
  induction xs with
  | nil => cases hx
  | cons y ys ih =>
      rw [List.map_cons, List.nodup_cons] at hdistinct
      rcases List.mem_cons.mp hx with rfl | hx
      · simp
      · have hne : y.1 ≠ x.1 := by
          intro heq
          exact hdistinct.1 (heq ▸ List.mem_map_of_mem hx)
        rw [List.find?_cons_of_neg (by simpa using hne)]
        exact ih hdistinct.2 hx

/-- A checkpoint the ledger holds is the newest one taken under its id. -/
theorem position_of_held {l : Ledger} (hdistinct : (l.held.map Prod.fst).Nodup)
    {id : String} {n : Nat} (h : (id, n) ∈ l.held) : l.position id = some n := by
  have hsplit : l.marks = l.marks.take (Ring.evicted defaultMaxCheckpoints l.marks) ++ l.held := by
    rw [Ledger.held, Ring.newest_eq_drop, List.take_append_drop]
  have hreverse : (l.held.reverse.map Prod.fst).Nodup := by
    rwa [List.map_reverse, List.nodup_reverse]
  have hfind := find?_of_distinct hreverse (List.mem_reverse.mpr h)
  rw [Ledger.position, hsplit, List.reverse_append, List.find?_append, hfind]
  rfl

theorem windowOf_eq {a : ActiveRecording} {fromId toId : String} {i j : Nat}
    (hi : Core.checkpointIndex a.checkpoints fromId = .ok i)
    (hj : Core.checkpointIndex a.checkpoints toId = .ok j) :
    windowOf fromId toId a.checkpoints a.events =
      .ok (windowBetween (min i j) (max i j) a.events) := by
  simp only [windowOf, hi, hj, bind, Except.bind, pure, Except.pure]
  by_cases hij : i ≤ j
  · rw [if_pos hij, Nat.min_eq_left hij, Nat.max_eq_right hij]
  · rw [if_neg hij, Nat.min_eq_right (by omega), Nat.max_eq_left (by omega)]

section Lookup

variable {generation : UInt64} {maxEvents : Nat} {l : Ledger} {a : ActiveRecording}

/-- Looking up a retained id finds the number of events before its checkpoint. -/
theorem Tracks.checkpointIndex (h : Tracks generation maxEvents l a) {id : String}
    (hid : id ∈ a.checkpoints.map fun c => c.id) :
    ∃ n, l.position id = some n ∧ n ≤ l.events.length ∧
      Core.checkpointIndex a.checkpoints id = .ok n := by
  obtain ⟨c, hc, rfl⟩ := List.mem_map.mp hid
  have hheld : (c.id, c.eventIndex) ∈ l.held := by
    rw [← h.checkpoints]
    exact List.mem_map_of_mem hc
  have hfind := find?_of_distinct h.distinct hheld
  rw [← h.checkpoints, List.find?_map] at hfind
  obtain ⟨d, hd, heq⟩ := Option.map_eq_some_iff.mp hfind
  refine ⟨c.eventIndex, position_of_held h.distinct hheld,
    h.bounded _ (Ring.mem_of_mem_clamp hheld), ?_⟩
  have hd' : a.checkpoints.find? (fun d => d.id == c.id) = some d := hd
  rw [Core.checkpointIndex, hd']
  exact congrArg Except.ok (congrArg Prod.snd heq)

/-! ## What the window holds -/

/-- The ring's part of a stretch of the ledger, and the rest of it counted. -/
theorem windowBetween_eq (h : Tracks generation maxEvents l a) (lo : Nat) {hi : Nat}
    (hhi : hi ≤ l.events.length) :
    let evicted := Ring.evicted maxEvents l.numbered
    (windowBetween lo hi a.events).events =
        (l.between lo hi).filter (fun e => evicted ≤ e.index) ∧
      (windowBetween lo hi a.events).dropped =
        ((l.between lo hi).filter (fun e => e.index < evicted)).length := by
  intro evicted
  have hring : a.events = l.numbered.filter (fun e => evicted ≤ e.index) := by
    rw [filter_ge_numbered, h.events, Ring.newest_eq_drop]
  have hkept : a.events.filter (fun e => lo ≤ e.index && e.index < hi) =
      (l.between lo hi).filter (fun e => evicted ≤ e.index) := by
    rw [hring, between_eq_filter, List.filter_filter, List.filter_filter]
    exact List.filter_congr fun e _ => Bool.and_comm _ _
  refine ⟨hkept, ?_⟩
  -- every event of the stretch is either in the ring or evicted
  have hpartition := List.length_eq_length_filter_add
    (l := l.between lo hi) (fun e => decide (evicted ≤ e.index))
  have hcomplement : (l.between lo hi).filter (fun e => !decide (evicted ≤ e.index)) =
      (l.between lo hi).filter (fun e => e.index < evicted) := by
    refine List.filter_congr fun e _ => ?_
    rw [← decide_not]
    exact decide_eq_decide.mpr Nat.not_le
  rw [hcomplement, length_between l hhi] at hpartition
  simp only [windowBetween, hkept]
  omega

end Lookup

/-- A recorder that has been started and then fed any operations answers for two
checkpoints it still knows with exactly the events appended between them that its
ring still holds, and counts the ones the ring has evicted. -/
theorem checkpointWindow_exact (r r₁ : EventRecorder) (sessionId : String)
    (now : DateTime) (generation : UInt64)
    (hstart : r.startSession sessionId now = (.ok generation, r₁))
    (hmax : 1 ≤ r.maxEvents) (ops : List Op)
    (hfew : (Ledger.performAll generation ops).events.length < usizeMax)
    (fromId toId : String)
    (hfrom : fromId ∈ (r₁.performAll ops).getCheckpoints.map fun c => c.id)
    (hto : toId ∈ (r₁.performAll ops).getCheckpoints.map fun c => c.id) :
    let l := Ledger.performAll generation ops
    ∃ a i j w, (r₁.performAll ops).recording = some a ∧
      l.position fromId = some i ∧ l.position toId = some j ∧
      (r₁.performAll ops).checkpointWindow fromId toId = .ok w ∧
      a.events = l.numbered.drop (l.events.length - r.maxEvents) ∧
      w.events = (l.between (min i j) (max i j)).filter
        (fun e => l.events.length - r.maxEvents ≤ e.index) ∧
      w.dropped = ((l.between (min i j) (max i j)).filter
        (fun e => e.index < l.events.length - r.maxEvents)).length := by
  intro l
  have hstarted : r₁.recording = some (.started sessionId generation now r.maxEvents) := by
    rw [EventRecorder.startSession] at hstart
    cases hr : r.recording with
    | some a => simp [hr] at hstart
    | none =>
        simp only [hr, Prod.mk.injEq, Except.ok.injEq] at hstart
        rw [← hstart.2, ← hstart.1]
        rfl
  obtain ⟨a, ha, htracks⟩ := tracks_performAll hstarted
    (tracks_started sessionId generation now r.maxEvents) ops hfew
  have hheld : (r₁.performAll ops).getCheckpoints = a.checkpoints := by
    simp [EventRecorder.getCheckpoints, ha]
  rw [hheld] at hfrom hto
  obtain ⟨i, hpi, hile, hi⟩ := htracks.checkpointIndex hfrom
  obtain ⟨j, hpj, hjle, hj⟩ := htracks.checkpointIndex hto
  have hevicted : Ring.evicted r.maxEvents l.numbered = l.events.length - r.maxEvents := by
    rw [Ring.evicted, length_numbered, Nat.max_eq_right hmax]
  have hwindow := windowBetween_eq htracks (min i j)
    (Nat.max_le.mpr ⟨hile, hjle⟩)
  simp only [show Ledger.performAll generation ops = l from rfl, hevicted] at hwindow
  refine ⟨a, i, j, windowBetween (min i j) (max i j) a.events, ha, hpi, hpj, ?_, ?_,
    hwindow.1, hwindow.2⟩
  · rw [EventRecorder.checkpointWindow, ha]
    exact windowOf_eq hi hj
  · rw [htracks.events, Ring.newest_eq_drop, hevicted]

/-- Three events between two checkpoints, in a ring of two: the first is gone. -/
theorem checkpointWindow_exact_of_three :
    ∃ w, (((EventRecorder.new 2).startSession "s" 0).2.performAll
        [.checkpoint "a" none .null 0, .recordEvent (.windowEvent "main" "focus" 5),
          .recordEvent (.windowEvent "main" "blur" 6),
          .recordEventIf 1 (.windowEvent "main" "focus" 7),
          .checkpoint "b" none .null 8]).checkpointWindow "b" "a" = .ok w ∧
      w.events.map (fun e => e.index) = [1, 2] ∧ w.dropped = 1 := by
  let ops : List Op :=
    [.checkpoint "a" none .null 0, .recordEvent (.windowEvent "main" "focus" 5),
      .recordEvent (.windowEvent "main" "blur" 6),
      .recordEventIf 1 (.windowEvent "main" "focus" 7), .checkpoint "b" none .null 8]
  have hthree : (Ledger.performAll 1 ops).events.length = 3 := rfl
  obtain ⟨a, i, j, w, _, hi, hj, hw, _, hevents, hdropped⟩ :=
    checkpointWindow_exact (.new 2) _ "s" 0 1 rfl (by decide) ops
      (by rw [hthree]; simp [usizeMax]) "b" "a" (by decide) (by decide)
  have hb : (Ledger.performAll 1 ops).position "b" = some 3 := by decide
  have ha : (Ledger.performAll 1 ops).position "a" = some 0 := by decide
  obtain rfl : 3 = i := Option.some.inj (hb.symm.trans hi)
  obtain rfl : 0 = j := Option.some.inj (ha.symm.trans hj)
  exact ⟨w, hw, by rw [hevents]; rfl, by rw [hdropped]; rfl⟩

end Victauri.Core
