import Mathlib.Algebra.Order.Ring.Int
import Victauri.Plugin.Drain.Steps

/-!
# Exactly once

No entry of a page goes into a recording twice, and none is missed: where a drain ends while its
recording is still the active one, all that the page held complete when it was read has been
recorded, but for what predates the recording and what is no event.

One condition is needed that the code does not establish: the positions of a window are dropped only
once the window is gone and no drain of it is under way.
-/

namespace Victauri.Plugin.Drain

open Victauri.Core Victauri.Library

variable {Task Time : Type} [LinearOrder Time] [Zero Time]
  {parse : String → Json.Value → Option AppEvent} {content : String → Nat → Time × Json.Value}
  {s s' : System Task Time} {a : Action Task Time} {label : String} {g : UInt64} {floor : Time}

section

variable [DecidableEq Task]

theorem step_drains (hs : Inv parse content s) (h : Step parse content s a s') :
    ∀ t, (s'.drains t).Fine parse content s' := by
  have hwindows : ∀ label p, s'.windows label = some p → s'.home p.instanceId = some label :=
    fun label p hp => (step_windows hs h label p hp).1
  have hother : ∀ t', (∀ t, a = .record t → t' ≠ t) →
      (s.drains t').Fine parse content s' := by
    intro t' hne
    refine (hs.drains t').keep hs hwindows fun label lock huses hholds g => ?_
    refine step_keeps hs h fun t r reply seen left n ha ht => .inl ?_
    rintro rfl
    exact hne t ha (hs.alone huses hholds (by rw [ht]; rfl) (by rw [ht]; rfl))
  have hgoto {t : Task} {pc : Pc Time} (hpc : pc.Fine parse content s') :
      (∀ t, a ≠ .record t) ∨ a = .record t →
      ∀ t', (Function.update s.drains t pc t').Fine parse content s' := by
    intro ha
    rw [Function.forall_update_iff s.drains fun _ pc => pc.Fine parse content s']
    refine ⟨hpc, fun t' hne => hother t' fun t'' ha' => ?_⟩
    rcases ha with ha | ha
    · exact absurd ha' (ha t'')
    · rw [ha] at ha'
      exact (Action.record.inj ha') ▸ hne
  cases h with
  | call ht => exact hgoto trivial (.inl nofun)
  | acquire ht => exact hgoto trivial (.inl nofun)
  | pin ht hg => exact hgoto (hs.active _ hg) (.inl nofun)
  | readCursor ht hg => exact hgoto (reading_fine hs ht hg).goto (.inl nofun)
  | @execute t r p ht hp =>
    have hk : Keeps s _ r.label r.generation :=
      step_keeps hs (.execute (t := t) ht hp) nofun
    have hfine := replied_fine hs ht hp
      ⟨hk.home, hk.begun, hk.active, hk.ledger_sub, hk.ledger, hk.window, hk.epoch, hk.floor⟩
    exact hgoto hfine.goto (.inl nofun)
  | @receive t r reply seen ht =>
    have hreplied : (Pc.replied r reply seen).Fine parse content s := ht ▸ hs.drains t
    have hrecording : (Pc.recording r reply seen reply.events 0).Fine parse content s := hreplied
    exact hgoto hrecording.goto (.inl nofun)
  | unpinned | early | drop | unanswered | unread => exact hgoto trivial (.inl nofun)
  | @record t r reply seen e left n ht =>
    have hdrains : (s.record parse r reply e).1.drains = s.drains := by
      rcases @record_cases Task Time parse s r reply e with ⟨heq, -⟩ | ⟨_, _, -, heq⟩ <;> rw [heq]
    intro t'
    change (Function.update (s.record parse r reply e).1.drains t _ t').Fine parse content _
    rw [hdrains]
    exact hgoto (recording_fine hs ht).goto (.inr rfl) t'
  | advance => exact hgoto trivial (.inl nofun)
  | _ => exact fun t' => hother t' nofun

theorem step_ledger (hs : Inv parse content s) (h : Step parse content s a s') :
    (∀ x ∈ s'.ledger, (∃ label, s'.home x.instanceId = some label) ∧
      x.generation ≤ s'.watermarks.epoch) ∧ s'.ledger.Nodup := by
  by_cases ha : ∃ t, a = .record t
  · obtain ⟨t, rfl⟩ := ha
    cases h with
    | @record _ r reply seen e left n ht =>
      have hfine := hs.drains t
      rw [ht] at hfine
      obtain ⟨hpinned, hanswers⟩ := hfine
      rcases @record_cases Task Time parse s r reply e with ⟨heq, -⟩ | ⟨_, _, -, heq⟩
      · rw [heq]
        exact ⟨hs.ledger, hs.nodup⟩
      · rw [heq]
        refine ⟨?_, List.nodup_cons.mpr ⟨hanswers.new e List.mem_cons_self, hs.nodup⟩⟩
        rintro x (_ | ⟨_, hx⟩)
        · exact ⟨⟨r.label, hanswers.covers.home _ rfl⟩, hpinned.le⟩
        · exact hs.ledger x hx
  · have hk : Keeps s s' "" 0 :=
      step_keeps hs h fun t _ _ _ _ _ heq _ => absurd ⟨t, heq⟩ ha
    have hledger : s'.ledger = s.ledger := by
      cases h with
      | record => exact absurd ⟨_, rfl⟩ ha
      | _ => rfl
    rw [hledger]
    refine ⟨fun x hx => ?_, hs.nodup⟩
    obtain ⟨⟨label, hlabel⟩, hle⟩ := hs.ledger x hx
    exact ⟨⟨label, hk.home _ _ hlabel⟩, UInt64.le_trans hle hk.epoch⟩

theorem step_active (hs : Inv parse content s) (h : Step parse content s a s') :
    ∀ g, generation s'.recorder = some g → g ∈ s'.begun := by
  cases h with
  | @record t r reply seen e left n ht =>
    rcases @record_cases Task Time parse s r reply e with ⟨heq, -⟩ | ⟨_, _, hgen, heq⟩
    · rw [heq]
      exact hs.active
    · rw [heq]
      exact fun g hg => hs.active g (hgen ▸ hg)
  | recorder =>
    intro g hg
    refine List.mem_append_left _ ?_
    rw [Option.mem_toList]
    exact hg
  | _ => exact hs.active

/-- Where no drain records into the current recording, the window's position covers what it has. -/
theorem step_settled (hs : Inv parse content s) (ho : Orderly s a)
    (h : Step parse content s a s') (label : String)
    (hquiet : ∀ t, (s'.drains t).writes ≠ some (label, s'.watermarks.epoch)) :
    Covers parse content s' label s'.watermarks.epoch s'.watermarks.floorMs
      (s'.watermarks.perLabel label) [] := by
  have hwindows : ∀ p, s'.windows label = some p → s'.home p.instanceId = some label :=
    fun p hp => (step_windows hs h label p hp).1
  -- a position that stays is as good as before
  have hstay (hepoch : s'.watermarks.epoch = s.watermarks.epoch)
      (hmark : s'.watermarks.perLabel label = s.watermarks.perLabel label)
      (hbefore : ∀ t, (s.drains t).writes ≠ some (label, s.watermarks.epoch))
      (hrecord : ∀ t r reply seen left n, a = .record t →
        s.drains t = .recording r reply seen left n →
          r.label ≠ label ∨ r.generation ≠ s.watermarks.epoch) :
      Covers parse content s' label s'.watermarks.epoch s'.watermarks.floorMs
        (s'.watermarks.perLabel label) [] := by
    have hk := step_keeps hs h hrecord
    rw [hepoch, hk.floor hepoch, hmark]
    exact (hs.settled label hbefore).keep hs hwindows hk
  have hmoved {t : Task} (hepoch : s'.watermarks.epoch = s.watermarks.epoch)
      (hdrains : ∀ t', t' ≠ t → s'.drains t' = s.drains t')
      (ht : (s.drains t).writes ≠ some (label, s.watermarks.epoch)) :
      ∀ t', (s.drains t').writes ≠ some (label, s.watermarks.epoch) := by
    intro t'
    by_cases heq : t' = t
    · rwa [heq]
    · have hwrites := hquiet t'
      rwa [hdrains t' heq, hepoch] at hwrites
  have hother {t t' : Task} {pc : Pc Time} (hne : t' ≠ t) :
      Function.update s.drains t pc t' = s.drains t' := Function.update_of_ne hne _ _
  cases h with
  | @call t l ht =>
    obtain ⟨hepoch, -, hmark, -⟩ := s.watermarks.lockFor_spec l
    refine hstay hepoch (congrFun hmark label) (hmoved hepoch (fun _ => hother) ?_) nofun
    rw [ht]
    rintro ⟨⟩
  | acquire ht | pin ht | unpinned ht | readCursor ht | early ht | execute ht | receive ht
  | drop ht | unanswered ht | unread ht =>
    refine hstay rfl rfl (hmoved rfl (fun _ => hother) ?_) nofun
    rw [ht]
    rintro ⟨⟩
  | @record t r reply seen e left n ht =>
    have hsame : (s.record parse r reply e).1.drains = s.drains ∧
        (s.record parse r reply e).1.watermarks = s.watermarks := by
      rcases @record_cases Task Time parse s r reply e with ⟨heq, -⟩ | ⟨_, _, -, heq⟩ <;>
        rw [heq] <;> exact ⟨rfl, rfl⟩
    obtain ⟨hdrains, hwatermarks⟩ := hsame
    have hwrites : (r.label, r.generation) ≠ (label, s.watermarks.epoch) := by
      intro heq
      apply hquiet t
      change (Function.update (s.record parse r reply e).1.drains t _ t).writes =
        some (label, (s.record parse r reply e).1.watermarks.epoch)
      rw [Function.update_self, hwatermarks, ← heq]
      rfl
    refine hstay (congrArg WatermarkState.epoch hwatermarks)
      (congrArg (fun w => w.perLabel label) hwatermarks)
      (@hmoved t (congrArg WatermarkState.epoch hwatermarks) ?_ ?_) ?_
    · intro t' hne
      change Function.update (s.record parse r reply e).1.drains t _ t' = s.drains t'
      rw [Function.update_of_ne hne, hdrains]
    · rw [ht]
      exact fun heq => hwrites (Option.some.inj heq)
    · rintro _ r' _ _ _ _ ⟨⟩ ht'
      rw [ht] at ht'
      obtain rfl := (Pc.recording.inj ht').1
      by_contra! hboth
      exact hwrites (Prod.ext hboth.1 hboth.2)
  | @advance t r reply seen n ht =>
    obtain ⟨hepoch, hfloor, -, hmark⟩ :=
      s.watermarks.advance_spec r.label r.cursor.epoch ⟨reply.instanceId, reply.seq⟩
    by_cases hown : s.watermarks.epoch = r.cursor.epoch ∧ label = r.label
    · -- the drain's own position: nothing is left of its answer
      obtain ⟨hcurrent, rfl⟩ := hown
      have hfine := hs.drains t
      rw [ht] at hfine
      obtain ⟨hpinned, hanswers⟩ := hfine
      have hgeneration : r.generation = s.watermarks.epoch := r.current.symm.trans hcurrent.symm
      have hcovers := hanswers.covers
      rw [hpinned.floor hgeneration, hgeneration] at hcovers
      rw [if_pos hcurrent] at hmark
      change Covers parse content _ r.label
        (s.watermarks.advance r.label r.cursor.epoch ⟨reply.instanceId, reply.seq⟩).epoch
        (s.watermarks.advance r.label r.cursor.epoch ⟨reply.instanceId, reply.seq⟩).floorMs
        ((s.watermarks.advance r.label r.cursor.epoch ⟨reply.instanceId, reply.seq⟩).perLabel
          r.label) []
      rw [hepoch, hfloor, hmark, Function.update_self]
      exact ⟨hcovers.home, hcovers.begun, hcovers.bound, hcovers.below, hcovers.done⟩
    · refine hstay hepoch ?_ (hmoved hepoch (fun _ => hother) ?_) nofun
      · refine (congrFun hmark label).trans ?_
        by_cases hcurrent : s.watermarks.epoch = r.cursor.epoch
        · rw [if_pos hcurrent, Function.update_of_ne fun heq => hown ⟨hcurrent, heq⟩]
        · rw [if_neg hcurrent]
      · rw [ht]
        intro heq
        obtain ⟨hlabel, hgeneration⟩ := Prod.mk.inj (Option.some.inj heq)
        exact hown ⟨hgeneration.symm.trans r.current.symm, hlabel.symm⟩
  | @reset floorMs epoch =>
    rcases s.watermarks.reset_spec floorMs epoch with heq | ⟨hlt, hepoch, -, hmark⟩
    · have hsame : (s.watermarks.reset floorMs epoch).epoch = s.watermarks.epoch :=
        congrArg WatermarkState.epoch heq
      refine hstay hsame (congrArg (fun w => w.perLabel label) heq) ?_ nofun
      exact fun t => hsame ▸ hquiet t
    · rw [show (s.watermarks.reset floorMs epoch).perLabel label = none from
        congrFun hmark label]
      refine .of_none fun x hx hg => ?_
      -- no recording so far has an epoch that is ahead
      have hle := (hs.ledger x hx).2
      rw [show x.generation = epoch from hg.trans hepoch] at hle
      exact absurd (UInt64.lt_of_le_of_lt hle hlt) (UInt64.lt_irrefl _)
  | @retain labels =>
    by_cases hmem : label ∈ labels
    · exact hstay rfl (if_pos hmem) hquiet nofun
    · rw [show (s.watermarks.retain labels).perLabel label = none from if_neg hmem]
      refine .of_none fun x hx hg p hp => ?_
      cases ((ho label hmem).1).symm.trans hp
  | stray | recorder | load | close | log => exact hstay rfl rfl hquiet nofun

theorem Inv.step (hs : Inv parse content s) (ho : Orderly s a)
    (h : Step parse content s a s') : Inv parse content s' where
  locks := step_locks hs ho h
  owner := step_owner hs h
  windows := step_windows hs h
  active := step_active hs h
  ledger := (step_ledger hs h).1
  nodup := (step_ledger hs h).2
  drains := step_drains hs h
  settled := step_settled hs ho h

end

theorem inv_init (maxEvents maxCapacity : Nat) :
    Inv parse content (System.init maxEvents maxCapacity : System Task Time) where
  locks _ _ _ h := by cases h
  owner _ _ h := by cases h
  windows _ _ h := by cases h
  active _ h := by cases h
  ledger _ h := by cases h
  nodup := List.nodup_nil
  drains _ := trivial
  settled _ _ := .of_none fun _ h => by cases h

omit [LinearOrder Time] [Zero Time] in
theorem drains_goto_self [DecidableEq Task] (s : System Task Time) (t : Task) (pc : Pc Time) :
    (s.goto t pc).drains t = pc :=
  Function.update_self ..

/-- A drain that nobody disturbs gets the answer of its page. -/
theorem exists_run_received [DecidableEq Task] {s : System Task Time} {t : Task} {label : String}
    {p : Page Time} (hidle : s.drains t = .idle)
    (hfree : s.owner (s.watermarks.lockFor label).1 = none)
    (hactive : generation s.recorder = some s.watermarks.epoch)
    (hpage : s.windows label = some p) :
    ∃ as s' r reply, Run (fun s a s' => Step parse content s a s' ∧ Orderly s a) s as s' ∧
      s'.drains t = .recording r reply (p.logs.stream.map Entry.id) reply.events 0 ∧
      s'.recorder = s.recorder ∧ s'.ledger = s.ledger ∧ r.label = label ∧
      r.generation = s.watermarks.epoch ∧ r.cursor = s.watermarks.cursor label ∧
      reply = (p.drainEvents r.ask.1 r.ask.2.1 r.ask.2.2).1 := by
  have hspec := s.watermarks.lockFor_spec label
  have hepoch : ((s.watermarks.lockFor label).2.cursor label).epoch = s.watermarks.epoch := hspec.1
  have hcursor : (s.watermarks.lockFor label).2.cursor label = s.watermarks.cursor label := by
    unfold WatermarkState.cursor
    rw [hspec.1, hspec.2.1, hspec.2.2.1]
  have hself (s : System Task Time) (pc : Pc Time) : (s.goto t pc).drains t = pc :=
    drains_goto_self s t pc
  have hrun : Run (fun s a s' => Step parse content s a s' ∧ Orderly s a) s [.call t label] _ :=
    .single ⟨.call hidle, trivial⟩
  have hrun := hrun.snoc ⟨.acquire (hself ..) hfree, trivial⟩
  have hrun := hrun.snoc ⟨.pin (hself ..) hactive, trivial⟩
  have hrun := hrun.snoc ⟨.readCursor (by exact hself ..) (by exact hepoch), trivial⟩
  have hrun := hrun.snoc ⟨.execute (hself ..) hpage, trivial⟩
  have hrun := hrun.snoc ⟨.receive (hself ..), trivial⟩
  exact ⟨_, _, _, _, hrun, hself .., rfl, rfl, rfl, rfl, hcursor, rfl⟩

def loggedEntry : Entry Int := ⟨0, false, false, 5, 5, .null⟩

def pageLogs : Logs Int := ⟨[loggedEntry], [], [], [], [], by decide⟩

def recorderOn : EventRecorder := ((EventRecorder.new 10).startSession "s" 0).2

theorem drainEvents_pageLogs :
    ((Page.loaded "a" pageLogs).drainEvents 0 none (0 : Int)).1 = ⟨"a", 1, [loggedEntry]⟩ := by
  simp [Page.drainEvents, Page.drainLoop, Page.sequence, Page.loaded, pageLogs, Logs.stream,
    emitted]

def logged : AppEvent := .console "log" "" 0

/-- A recording is on and its window has logged once. -/
def mainLoaded : System Unit Int :=
  { System.init 10 10 with
    recorder := recorderOn
    watermarks := { WatermarkState.new with epoch := 1 }
    windows := Function.update (fun _ => none) "main" (some (.loaded "a" pageLogs))
    home := Function.update (fun _ => none) "a" (some "main")
    begun := [1] }

theorem mainLoaded_window : mainLoaded.windows "main" = some (.loaded "a" pageLogs) :=
  Function.update_self "main" _ fun _ => none

theorem mainLoaded_reached :
    Run (fun s a s' => Step (fun _ _ => some logged) (fun _ _ => (5, .null)) s a s' ∧ Orderly s a)
      (System.init 10 10) [.recorder recorderOn, .reset 0 1, .load "main" "a" pageLogs]
      mainLoaded := by
  have hload : pageLogs.Agrees (fun _ _ => (5, .null)) "a" := by
    intro e he
    rw [show pageLogs.stream = [loggedEntry] from rfl, List.mem_singleton] at he
    rw [he]
    rfl
  exact .cons ⟨.recorder fun _ _ => .inr List.not_mem_nil, trivial⟩
    (.cons ⟨.reset, trivial⟩ (.single ⟨.load rfl hload, trivial⟩))

end Victauri.Plugin.Drain
