import Victauri.Core.Usize
import Victauri.Plugin.Screencast
import Mathlib.Data.List.Nodup

/-!
# What a trace owns

Frames and a recording belong to the trace whose generation is current.  A registered recording is
in the one slot there is for it until a start or a stop takes it out and gives it to its caller.
-/

namespace Victauri.Plugin.Screencast

open Victauri.Library

variable {s t : Screencast} {call : Call} {calls : List Call} {generation : UInt64}

/-! ## Which generation is current -/

theorem current_snoc : Current (calls ++ [call]) generation ↔
    (∃ intervalMs maxFrames label superseded,
        call = .start intervalMs maxFrames label generation superseded) ∨
      call.ends = false ∧ Current calls generation := by
  constructor
  · rintro ⟨before, after, intervalMs, maxFrames, label, superseded, hcalls, hafter⟩
    cases after using List.reverseRecOn with
    | nil =>
        obtain ⟨-, hcall⟩ := List.append_inj' hcalls rfl
        exact .inl ⟨_, _, _, _, List.singleton_inj.mp hcall⟩
    | append_singleton after last =>
        rw [← List.cons_append, ← List.append_assoc] at hcalls
        obtain ⟨hbefore, hcall⟩ := List.append_inj' hcalls rfl
        obtain rfl := List.singleton_inj.mp hcall
        rw [List.forall_mem_append, List.forall_mem_singleton] at hafter
        exact .inr ⟨hafter.2, before, after, _, _, _, _, hbefore, hafter.1⟩
  · rintro (⟨intervalMs, maxFrames, label, superseded, rfl⟩ | ⟨hends, hcurrent⟩)
    · exact ⟨calls, [], _, _, _, _, rfl, List.forall_mem_nil _⟩
    · obtain ⟨before, after, intervalMs, maxFrames, label, superseded, rfl, hafter⟩ := hcurrent
      refine ⟨before, after ++ [call], _, _, _, _, List.append_assoc _ _ _, ?_⟩
      rw [List.forall_mem_append, List.forall_mem_singleton]
      exact ⟨hafter, hends⟩

theorem isCurrent_iff : s.isCurrent generation = true ↔
    s.trace.active = true ∧ s.trace.generation = generation := by
  rw [isCurrent, Bool.and_eq_true, beq_iff_eq]

/-! ## What a step can do -/

/-- A trace starts, ends, gets a recording or a frame, or nothing changes. -/
inductive Effect (s : Screencast) : Call → Screencast → Prop
  | start (intervalMs maxFrames : Nat) (label : Option String) :
      Effect s (.start intervalMs maxFrames label (s.trace.generation + 1) s.trace.ownedRecording)
        (s.start intervalMs maxFrames label).1
  | stop : Effect s (.stop s.trace.ownedRecording) s.stop.1
  | ended {generation : UInt64} (h : s.isCurrent generation = true) :
      Effect s (.stopIfGeneration generation (some s.trace.ownedRecording)) s.stop.1
  | registered {generation : UInt64} (recorderGeneration : UInt64)
      (h : s.isCurrent generation = true) :
      Effect s (.setOwnedRecording generation recorderGeneration true)
        { s with trace := { s.trace with ownedRecording := some recorderGeneration } }
  | pushed {generation : UInt64} (frame : TraceFrame) (h : s.isCurrent generation = true) :
      Effect s (.pushFrameIfCurrent generation frame true) (s.pushFrame frame)
  | kept {call : Call} (hends : call.ends = false) (hstarted : started call = none)
      (hpushed : pushed call = none) (hregistered : registered call = none)
      (hhanded : handedOut call = none)
      (hrefused : ∀ generation recorderGeneration,
        call = .setOwnedRecording generation recorderGeneration false →
          s.isCurrent generation = false) : Effect s call s

theorem Step.effect (h : s.Step call t) : Effect s call t := by
  cases call with
  | start intervalMs maxFrames label generation superseded =>
      obtain ⟨rfl, hrest⟩ := Prod.mk.inj h
      obtain ⟨rfl, rfl⟩ := Prod.mk.inj hrest
      exact .start intervalMs maxFrames label
  | stop owned =>
      obtain ⟨rfl, rfl⟩ := Prod.mk.inj h
      exact .stop
  | frameCount count =>
      obtain ⟨rfl, -⟩ := h
      exact .kept rfl rfl rfl rfl rfl fun _ _ hcall => Call.noConfusion hcall
  | stopIfGeneration generation stopped =>
      rw [Step, stopIfGeneration] at h
      split_ifs at h with hcurrent
      · obtain ⟨rfl, rfl⟩ := Prod.mk.inj h
        exact .ended hcurrent
      · obtain ⟨rfl, rfl⟩ := Prod.mk.inj h
        exact .kept rfl rfl rfl rfl rfl fun _ _ hcall => Call.noConfusion hcall
  | setOwnedRecording generation recorderGeneration registered =>
      rw [Step, setOwnedRecording] at h
      split_ifs at h with hcurrent
      · obtain ⟨rfl, rfl⟩ := Prod.mk.inj h
        exact .registered recorderGeneration hcurrent
      · obtain ⟨rfl, rfl⟩ := Prod.mk.inj h
        refine .kept rfl rfl rfl rfl rfl fun generation' _ hcall => ?_
        obtain ⟨rfl, -⟩ := Call.setOwnedRecording.inj hcall
        exact Bool.eq_false_iff.mpr hcurrent
  | pushFrameIfCurrent generation frame pushed =>
      rw [Step, pushFrameIfCurrent] at h
      split_ifs at h with hcurrent
      · obtain ⟨rfl, rfl⟩ := Prod.mk.inj h
        exact .pushed frame hcurrent
      · obtain ⟨rfl, rfl⟩ := Prod.mk.inj h
        exact .kept rfl rfl rfl rfl rfl fun _ _ hcall => Call.noConfusion hcall

theorem Effect.isCurrent (h : Effect s call t) : t.isCurrent generation = true ↔
    (∃ intervalMs maxFrames label superseded,
        call = .start intervalMs maxFrames label generation superseded) ∨
      call.ends = false ∧ s.isCurrent generation = true := by
  -- a call that is no start
  have hother (hcall : started call = none) : ¬∃ intervalMs maxFrames label superseded,
      call = .start intervalMs maxFrames label generation superseded := by
    rintro ⟨_, _, _, _, rfl⟩
    exact absurd hcall (Option.some_ne_none _)
  cases h with
  | start intervalMs maxFrames label =>
      rw [isCurrent_iff]
      constructor
      · rintro ⟨-, rfl⟩
        exact .inl ⟨_, _, _, _, rfl⟩
      · rintro (⟨_, _, _, _, hcall⟩ | ⟨hends, -⟩)
        · exact ⟨rfl, (Call.start.inj hcall).2.2.2.1⟩
        · exact Bool.noConfusion hends
  | stop | ended =>
      rw [or_iff_right (hother rfl)]
      exact ⟨fun hcurrent => Bool.noConfusion hcurrent, fun hends => Bool.noConfusion hends.1⟩
  | registered | pushed =>
      rw [or_iff_right (hother rfl)]
      exact ⟨fun hcurrent => ⟨rfl, hcurrent⟩, fun hcurrent => hcurrent.2⟩
  | kept hends hstarted =>
      rw [or_iff_right (hother hstarted)]
      exact ⟨fun hcurrent => ⟨hends, hcurrent⟩, fun hcurrent => hcurrent.2⟩

theorem run_current (h : Run Step default calls s) :
    s.isCurrent generation = true ↔ Current calls generation := by
  refine Run.snocInduction
    (motive := fun calls s => s.isCurrent generation = true ↔ Current calls generation) ?_ ?_ h
  · refine ⟨fun hcurrent => Bool.noConfusion hcurrent, ?_⟩
    rintro ⟨before, after, _, _, _, _, hcalls, -⟩
    exact absurd hcalls.symm (List.append_ne_nil_of_right_ne_nil _ (List.cons_ne_nil _ _))
  · intro calls s call t hrun ih hstep
    rw [hstep.effect.isCurrent, current_snoc, ih]

/-! ## Frames -/

theorem filterMap_concat {α β : Type} (f : α → Option β) (as : List α) (a : α) :
    (as ++ [a]).filterMap f = as.filterMap f ++ (f a).toList := by
  rw [List.filterMap_append]
  cases h : f a with
  | none => rw [List.filterMap_cons_none h]; rfl
  | some b => rw [List.filterMap_cons_some h]; rfl

theorem filterMap_none {α β : Type} {f : α → Option β} {a : α} (h : f a = none) (as : List α) :
    (as ++ [a]).filterMap f = as.filterMap f := by
  rw [filterMap_concat, h]
  exact List.append_nil _

theorem evict_suffix (maxBytes total : Nat) (frames : List TraceFrame) :
    evict maxBytes total frames <:+ frames := by
  fun_induction evict maxBytes total frames with
  | case1 total frame newer frames hover ih => exact ih.trans (List.suffix_cons _ _)
  | case2 total frame newer frames hfits => exact List.suffix_rfl
  | case3 total frames => exact List.suffix_rfl

theorem pushFrame_suffix (s : Screencast) (frame : TraceFrame) :
    (s.pushFrame frame).frames <:+ s.frames ++ [frame] :=
  (evict_suffix _ _ _).trans (List.drop_suffix _ _)

/-- The frames are the newest ones of those pushed since the last start, under the generation it
returned. -/
def FramesOfTrace (calls : List Call) (s : Screencast) : Prop :=
  s.frames = [] ∧ s.trace.active = false ∧ calls.filterMap started = [] ∨
    ∃ before after intervalMs maxFrames label generation superseded,
      calls = before ++ .start intervalMs maxFrames label generation superseded :: after ∧
        after.filterMap started = [] ∧
        (∀ push ∈ after.filterMap pushed, push.1 = generation) ∧
        s.frames <:+ (after.filterMap pushed).map Prod.snd ∧
        (s.trace.active = true → s.trace.generation = generation)

/-- A step that starts nothing and adds at most a frame of the trace. -/
theorem FramesOfTrace.keep (h : FramesOfTrace calls s) (hstarted : started call = none)
    (hactive : t.trace.active = true → s.trace.active = true ∧
      t.trace.generation = s.trace.generation)
    (hframes : t.frames = s.frames ∧ pushed call = none ∨
      ∃ generation frame, s.isCurrent generation = true ∧ pushed call = some (generation, frame) ∧
        t.frames <:+ s.frames ++ [frame]) : FramesOfTrace (calls ++ [call]) t := by
  have hnone := filterMap_none hstarted
  rcases h with ⟨hempty, hinactive, hcalls⟩ | ⟨before, after, intervalMs, maxFrames, label,
    generation, superseded, rfl, hafter, hpushes, hsuffix, hgeneration⟩
  · left
    rcases hframes with ⟨hsame, -⟩ | ⟨generation, frame, hcurrent, -⟩
    · refine ⟨hsame.trans hempty, ?_, (hnone calls).trans hcalls⟩
      rw [← Bool.not_eq_true]
      intro ht
      rw [(hactive ht).1] at hinactive
      exact Bool.noConfusion hinactive
    · rw [(isCurrent_iff.mp hcurrent).1] at hinactive
      exact Bool.noConfusion hinactive
  · right
    refine ⟨before, after ++ [call], intervalMs, maxFrames, label, generation, superseded,
      List.append_assoc _ _ _, (hnone after).trans hafter, ?_, ?_, fun ht => ?_⟩
    · rcases hframes with ⟨-, hpush⟩ | ⟨generation', frame, hcurrent, hpush, -⟩
      · rw [filterMap_none hpush]
        exact hpushes
      · rw [List.filterMap_append, List.filterMap_cons_some hpush, List.filterMap_nil,
          List.forall_mem_append, List.forall_mem_singleton]
        obtain ⟨hrunning, rfl⟩ := isCurrent_iff.mp hcurrent
        exact ⟨hpushes, hgeneration hrunning⟩
    · rcases hframes with ⟨hsame, hpush⟩ | ⟨generation', frame, -, hpush, hframe⟩
      · rw [filterMap_none hpush, hsame]
        exact hsuffix
      · rw [List.filterMap_append, List.filterMap_cons_some hpush, List.filterMap_nil,
          List.map_append]
        obtain ⟨older, holder⟩ := hsuffix
        refine hframe.trans ⟨older, ?_⟩
        rw [← List.append_assoc, holder]
        rfl
    · obtain ⟨hrunning, hsame⟩ := hactive ht
      rw [hsame]
      exact hgeneration hrunning

theorem FramesOfTrace.step (h : FramesOfTrace calls s) (heffect : Effect s call t) :
    FramesOfTrace (calls ++ [call]) t := by
  cases heffect with
  | start intervalMs maxFrames label =>
      exact .inr ⟨calls, [], intervalMs, maxFrames, label, _, _, rfl, rfl, List.forall_mem_nil _,
        List.suffix_rfl, fun _ => rfl⟩
  | stop | ended =>
      exact h.keep rfl (fun hactive => Bool.noConfusion hactive) (.inl ⟨rfl, rfl⟩)
  | registered => exact h.keep rfl (fun hactive => ⟨hactive, rfl⟩) (.inl ⟨rfl, rfl⟩)
  | pushed frame hcurrent =>
      exact h.keep rfl (fun hactive => ⟨hactive, rfl⟩)
        (.inr ⟨_, frame, hcurrent, rfl, pushFrame_suffix s frame⟩)
  | kept _ hstarted hpushed =>
      exact h.keep hstarted (fun hactive => ⟨hactive, rfl⟩) (.inl ⟨rfl, hpushed⟩)

theorem run_frames (h : Run Step default calls s) : FramesOfTrace calls s := by
  exact Run.snocInduction (motive := FramesOfTrace) (.inl ⟨rfl, rfl, rfl⟩)
    (fun _ _ _ _ _ ih hstep => ih.step hstep.effect) h

/-! ## Recordings -/

/-- The recording a trace owns was registered for it, and a trace that ended owns none. -/
structure Owns (calls : List Call) (s : Screencast) : Prop where
  active : s.trace.ownedRecording ≠ none → s.trace.active = true
  known : s.trace.ownedRecording ≠ none →
    s.trace.generation ∈ (calls.filterMap registered).map Prod.fst
  /-- Nothing is handed out twice. -/
  once : (calls.filterMap handedOut ++ s.trace.ownedRecording.toList).Sublist
    ((calls.filterMap registered).map Prod.snd)
  /-- Nothing is forgotten. -/
  all : ((calls.filterMap registered).map Prod.fst).Nodup →
    (calls.filterMap registered).map Prod.snd =
      calls.filterMap handedOut ++ s.trace.ownedRecording.toList

/-- What was owned is handed out. -/
theorem Owns.taken (h : Owns calls s) (hregistered : registered call = none)
    (hhanded : handedOut call = s.trace.ownedRecording) (ht : t.trace.ownedRecording = none) :
    Owns (calls ++ [call]) t := by
  have hhandedOut : (calls ++ [call]).filterMap handedOut ++ t.trace.ownedRecording.toList =
      calls.filterMap handedOut ++ s.trace.ownedRecording.toList := by
    rw [filterMap_concat, hhanded, ht]
    exact List.append_nil _
  refine ⟨fun howned => absurd ht howned, fun howned => absurd ht howned, ?_, ?_⟩
  · rw [filterMap_none hregistered, hhandedOut]
    exact h.once
  · rw [filterMap_none hregistered, hhandedOut]
    exact h.all

theorem Owns.kept (h : Owns calls s) (hregistered : registered call = none)
    (hhanded : handedOut call = none) (ht : t.trace = s.trace) : Owns (calls ++ [call]) t := by
  refine ⟨?_, ?_, ?_, ?_⟩
  · rw [ht]
    exact h.active
  · rw [ht, filterMap_none hregistered]
    exact h.known
  · rw [ht, filterMap_none hregistered, filterMap_none hhanded]
    exact h.once
  · rw [ht, filterMap_none hregistered, filterMap_none hhanded]
    exact h.all

/-- The trace gets a recording. -/
theorem Owns.given (h : Owns calls s) (recorderGeneration : UInt64)
    (hcurrent : s.isCurrent generation = true) :
    Owns (calls ++ [.setOwnedRecording generation recorderGeneration true])
      { s with trace := { s.trace with ownedRecording := some recorderGeneration } } := by
  obtain ⟨hactive, rfl⟩ := isCurrent_iff.mp hcurrent
  have hregistered : (calls ++ [Call.setOwnedRecording s.trace.generation recorderGeneration
      true]).filterMap registered =
        calls.filterMap registered ++ [(s.trace.generation, recorderGeneration)] :=
    filterMap_concat _ _ _
  have hhanded : (calls ++ [Call.setOwnedRecording s.trace.generation recorderGeneration
      true]).filterMap handedOut = calls.filterMap handedOut :=
    (filterMap_concat _ _ _).trans (List.append_nil _)
  refine ⟨fun _ => hactive, fun _ => ?_, ?_, fun hdistinct => ?_⟩
  · rw [hregistered, List.map_append]
    exact List.mem_append_right _ List.mem_cons_self
  · rw [hregistered, hhanded, List.map_append]
    exact ((List.sublist_append_left _ _).trans h.once).append (List.Sublist.refl _)
  · rw [hregistered, List.map_append, List.nodup_append] at hdistinct
    obtain ⟨hbefore, -, hfresh⟩ := hdistinct
    have howned : s.trace.ownedRecording = none := by
      by_contra howned
      exact hfresh _ (h.known howned) _ List.mem_cons_self rfl
    have hall := h.all hbefore
    rw [howned, Option.toList_none, List.append_nil] at hall
    rw [hregistered, hhanded, List.map_append, hall]
    rfl

theorem Owns.step (h : Owns calls s) (heffect : Effect s call t) : Owns (calls ++ [call]) t := by
  cases heffect with
  | start | stop | ended => exact h.taken rfl rfl rfl
  | registered recorderGeneration hcurrent => exact h.given recorderGeneration hcurrent
  | pushed => exact h.kept rfl rfl rfl
  | kept _ _ _ hregistered hhanded => exact h.kept hregistered hhanded rfl

theorem run_owns (h : Run Step default calls s) : Owns calls s := by
  refine Run.snocInduction (motive := Owns) ?_ (fun _ _ _ _ _ ih hstep => ih.step hstep.effect) h
  exact ⟨fun howned => absurd rfl howned, fun howned => absurd rfl howned, List.nil_sublist _,
    fun _ => rfl⟩

/-! ## Generations -/

/-- The generation counts the traces that began or ended, and a start returns a new one. -/
structure Fresh (calls : List Call) (s : Screencast) : Prop where
  count : s.trace.generation.toNat ≤ calls.length
  started_le : ∀ generation ∈ calls.filterMap started, generation ≤ s.trace.generation
  distinct : (calls.filterMap started).Nodup

theorem Fresh.step (h : Fresh calls s) (heffect : Effect s call t)
    (hlength : calls.length + 1 < 2 ^ 64) : Fresh (calls ++ [call]) t := by
  have hnext : (s.trace.generation + 1).toNat = s.trace.generation.toNat + 1 :=
    Core.toNat_add_one (Nat.lt_of_le_of_lt (Nat.succ_le_succ h.count) hlength)
  have hcount : (calls ++ [call]).length = calls.length + 1 := by
    rw [List.length_append, List.length_singleton]
  have hlater (generation : UInt64) (hstarted : generation ∈ calls.filterMap started) :
      generation < s.trace.generation + 1 := by
    rw [UInt64.lt_iff_toNat_lt, hnext]
    exact Nat.lt_succ_of_le (h.started_le generation hstarted)
  -- a step that starts nothing
  have hkeep (hstarted : started call = none) (hgeneration :
      t.trace.generation = s.trace.generation ∨
        t.trace.generation = s.trace.generation + 1) : Fresh (calls ++ [call]) t := by
    have hsame := filterMap_none hstarted calls
    refine ⟨?_, ?_, ?_⟩
    · have := h.count
      rcases hgeneration with hg | hg <;> rw [hg, hcount] <;> omega
    · rw [hsame]
      intro generation hmem
      rcases hgeneration with hg | hg <;> rw [hg]
      · exact h.started_le generation hmem
      · exact UInt64.le_of_lt (hlater generation hmem)
    · rw [hsame]
      exact h.distinct
  cases heffect with
  | start intervalMs maxFrames label =>
      have hgrown : (calls ++ [Call.start intervalMs maxFrames label (s.trace.generation + 1)
          s.trace.ownedRecording]).filterMap started =
            calls.filterMap started ++ [s.trace.generation + 1] := filterMap_concat _ _ _
      refine ⟨?_, ?_, ?_⟩
      · change (s.trace.generation + 1).toNat ≤ _
        have := h.count
        rw [hnext, hcount]
        omega
      · rw [hgrown, List.forall_mem_append, List.forall_mem_singleton]
        exact ⟨fun generation hmem => UInt64.le_of_lt (hlater generation hmem), UInt64.le_refl _⟩
      · rw [hgrown]
        refine List.Nodup.append h.distinct (List.nodup_singleton _) fun generation hmem hnew => ?_
        rw [List.mem_singleton] at hnew
        exact absurd hnew (UInt64.ne_of_lt (hlater generation hmem))
  | stop | ended => exact hkeep rfl (.inr rfl)
  | registered | pushed => exact hkeep rfl (.inl rfl)
  | kept _ hstarted => exact hkeep hstarted (.inl rfl)

theorem run_fresh (h : Run Step default calls s) (hlength : calls.length < 2 ^ 64) :
    Fresh calls s := by
  refine Run.snocInduction (motive := fun calls s => calls.length < 2 ^ 64 → Fresh calls s)
    (fun _ => ⟨Nat.le_of_eq rfl, List.forall_mem_nil _, List.nodup_nil⟩) ?_ h hlength
  intro calls s call t hrun ih hstep hlength
  rw [List.length_append, List.length_singleton] at hlength
  exact (ih (Nat.lt_of_succ_lt hlength)).step hstep.effect hlength

/-! ## Every run -/

/-- A recording is refused only when its trace is no longer current. -/
theorem run_refused {before after : List Call} {recorderGeneration : UInt64}
    (h : Run Step default
      (before ++ .setOwnedRecording generation recorderGeneration false :: after) s) :
    ¬Current before generation := by
  obtain ⟨m, hbefore, hafter⟩ := h.split
  cases hafter with
  | cons hstep hrest =>
      rw [← run_current hbefore, Bool.not_eq_true]
      cases hstep.effect with
      | kept _ _ _ _ _ hrefused => exact hrefused _ _ rfl

end Victauri.Plugin.Screencast
