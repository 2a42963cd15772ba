import Victauri.Plugin.Drain.Invariant

/-!
# The steps of the drains

What each step changes of a window, of the locks and of what a drain knows.
-/

namespace Victauri.Plugin.Drain

open Victauri.Core Victauri.Library

variable {Task Time : Type} [LinearOrder Time] [Zero Time]
  {parse : String → Json.Value → Option AppEvent} {content : String → Nat → Time × Json.Value}
  {s s' : System Task Time} {a : Action Task Time} {label : String} {g : UInt64} {floor : Time}

/-! ## The steps -/

theorem recordEventIf_cases (r : EventRecorder) (g : UInt64) (event : AppEvent) :
    r.recordEventIf g event = (false, r) ∧ generation r ≠ some g ∨
      ∃ r', r.recordEventIf g event = (true, r') ∧ generation r' = generation r := by
  unfold EventRecorder.recordEventIf generation
  cases r.recording with
  | none => exact .inl ⟨rfl, nofun⟩
  | some active =>
    dsimp only
    by_cases hsame : active.generation = g
    · rw [if_pos (beq_iff_eq.mpr hsame)]
      exact .inr ⟨_, rfl, rfl⟩
    · rw [if_neg (fun heq => hsame (beq_iff_eq.mp heq))]
      exact .inl ⟨rfl, fun heq => hsame (Option.some.inj heq)⟩

omit [LinearOrder Time] [Zero Time] in
/-- An event that is read is recorded as long as the recording is the active one. -/
theorem record_cases (s : System Task Time) (r : Read Time) (reply : Reply Time)
    (e : Entry Time) :
    s.record parse r reply e = (s, 0) ∧
        (parse r.label e.event = none ∨ generation s.recorder ≠ some r.generation) ∨
      ∃ recorder eventLog, generation recorder = generation s.recorder ∧
        s.record parse r reply e =
          ({ s with
              recorder := recorder
              eventLog := eventLog
              ledger := ⟨r.generation, reply.instanceId, e.id⟩ :: s.ledger }, 1) := by
  unfold System.record
  cases hparse : parse r.label e.event with
  | none => exact .inl ⟨rfl, .inl rfl⟩
  | some event =>
    dsimp only
    rcases recordEventIf_cases s.recorder r.generation event with ⟨heq, hne⟩ | ⟨rec, heq, hsame⟩
    · rw [heq]
      exact .inl ⟨rfl, .inr hne⟩
    · rw [heq]
      exact .inr ⟨rec, _, hsame, rfl⟩

section

variable [DecidableEq Task]

omit [LinearOrder Time] [Zero Time] in
theorem Keeps.goto {t : Task} {pc : Pc Time} (h : Keeps s s' label g) :
    Keeps s (s'.goto t pc) label g :=
  ⟨h.home, h.begun, h.active, h.ledger_sub, h.ledger, h.window, h.epoch, h.floor⟩

/-- All but a drain's own recording leaves what matters to a window and a recording. -/
theorem step_keeps (hs : Inv parse content s) (h : Step parse content s a s')
    (hrecord : ∀ t r reply seen left n, a = .record t →
      s.drains t = .recording r reply seen left n → r.label ≠ label ∨ r.generation ≠ g) :
    Keeps s s' label g := by
  have hcounts {p p' : Page Time} {l : String} (hp : s.windows l = some p)
      (hgrows : p.Grows p') :
      Keeps s (s.setWindow l (some p')) label g := by
    refine ⟨fun _ _ h => h, fun _ h => h, fun _ _ h => h, fun _ h => h, fun _ h => .inl h, ?_,
      UInt64.le_refl _, fun _ => rfl⟩
    intro q hq
    left
    obtain ⟨rfl, heq⟩ | ⟨-, hq⟩ := System.windows_setWindow hq
    · obtain rfl := Option.some.inj heq
      exact ⟨p, hp, hgrows⟩
    · exact ⟨q, hq, (Page.Counts.refl q).grows⟩
  have hdrained {p : Page Time} {l : String} (hp : s.windows l = some p) (n : Nat)
      (i : Option String) (f : Time) : p.Grows (p.drainEvents n i f).2 :=
    (p.drainEvents_spec (hs.windows l p hp).2.1 n i f).counts.grows
  cases h with
  | @call t l =>
    obtain ⟨hepoch, hfloor, -⟩ := s.watermarks.lockFor_spec l
    exact .of_same rfl rfl rfl rfl rfl hepoch hfloor
  | acquire | pin | unpinned | readCursor | early | receive | drop | unanswered | unread =>
    exact .of_same rfl rfl rfl rfl rfl rfl rfl
  | execute _ hp => exact (hcounts hp (hdrained hp _ _ _)).goto
  | stray hp => exact hcounts hp (hdrained hp _ _ _)
  | log hp _ hlogs => exact hcounts hp (Page.grows_logs hlogs)
  | @record t r reply seen e left n ht =>
    rcases @record_cases Task Time parse s r reply e with ⟨heq, -⟩ | ⟨rec, log, hgen, heq⟩
    · rw [heq]
      exact .of_same rfl rfl rfl rfl rfl rfl rfl
    · rw [heq]
      refine ⟨fun _ _ h => h, fun _ h => h, fun _ _ h => hgen ▸ h,
        fun _ h => List.mem_cons_of_mem _ h, ?_, fun p hp => .inl ⟨p, hp, (Page.Counts.refl p).grows⟩,
        UInt64.le_refl _, fun _ => rfl⟩
      rintro x (_ | ⟨_, hx⟩)
      · have hfine := hs.drains t
        rw [ht] at hfine
        rcases hrecord t r reply seen _ n rfl ht with hne | hne
        · exact .inr (.inr ⟨r.label, hfine.2.covers.home _ rfl, hne⟩)
        · exact .inr (.inl hne)
      · exact .inl hx
  | @advance t r reply seen n ht =>
    obtain ⟨hepoch, hfloor, -⟩ :=
      s.watermarks.advance_spec r.label r.cursor.epoch ⟨reply.instanceId, reply.seq⟩
    exact .of_same rfl rfl rfl rfl rfl hepoch hfloor
  | @recorder _ hgen =>
    refine ⟨fun _ _ h => h, fun _ h => List.mem_append_right _ h, ?_, fun _ h => h,
      fun _ h => .inl h, fun p hp => .inl ⟨p, hp, (Page.Counts.refl p).grows⟩, UInt64.le_refl _,
      fun _ => rfl⟩
    exact fun g hg hactive => (hgen g hactive).resolve_right (not_not.mpr hg)
  | @reset floorMs epoch =>
    rcases s.watermarks.reset_spec floorMs epoch with heq | ⟨hlt, hepoch, -⟩
    · rw [heq]
      exact .of_same rfl rfl rfl rfl rfl rfl rfl
    · refine ⟨fun _ _ h => h, fun _ h => h, fun _ _ h => h, fun _ h => h, fun _ h => .inl h,
        fun p hp => .inl ⟨p, hp, (Page.Counts.refl p).grows⟩, ?_, ?_⟩
      · change s.watermarks.epoch ≤ (s.watermarks.reset floorMs epoch).epoch
        rw [hepoch]
        exact UInt64.le_of_lt hlt
      · intro heq
        rw [show epoch = s.watermarks.epoch from hepoch.symm.trans heq] at hlt
        exact absurd hlt (UInt64.lt_irrefl _)
  | retain => exact .of_same rfl rfl rfl rfl rfl rfl rfl
  | @load l instanceId logs hnew hagrees =>
    have hhome : ∀ i l', s.home i = some l' →
        Function.update s.home instanceId (some l) i = some l' := by
      intro i l' hi
      have hne : i ≠ instanceId := by
        rintro rfl
        rw [hnew] at hi
        cases hi
      exact (Function.update_of_ne hne _ _).trans hi
    refine ⟨hhome, fun _ h => h, fun _ _ h => h, fun _ h => h, fun _ h => .inl h, ?_,
      UInt64.le_refl _, fun _ => rfl⟩
    intro q hq
    obtain ⟨-, heq⟩ | ⟨-, hq⟩ := System.windows_setWindow hq
    · obtain rfl := Option.some.inj heq
      exact .inr hnew
    · exact .inl ⟨q, hq, (Page.Counts.refl q).grows⟩
  | @close l =>
    refine ⟨fun _ _ h => h, fun _ h => h, fun _ _ h => h, fun _ h => h, fun _ h => .inl h, ?_,
      UInt64.le_refl _, fun _ => rfl⟩
    intro q hq
    obtain ⟨-, heq⟩ | ⟨-, hq⟩ := System.windows_setWindow hq
    · cases heq
    · exact .inl ⟨q, hq, (Page.Counts.refl q).grows⟩

omit [DecidableEq Task] in
/-- Two drains that hold a lock drain different windows. -/
theorem Inv.alone (hs : Inv parse content s) {t t' : Task} {label : String} {lock lock' : Nat}
    (huses : (s.drains t).uses = some (label, lock)) (hholds : (s.drains t).holds = some lock)
    (huses' : (s.drains t').uses = some (label, lock'))
    (hholds' : (s.drains t').holds = some lock') : t = t' := by
  have hlock := (hs.locks t label lock huses).symm.trans (hs.locks t' label lock' huses')
  rw [Option.some.injEq] at hlock
  subst hlock
  exact Option.some.inj ((hs.owner t lock hholds).symm.trans (hs.owner t' lock hholds'))

theorem step_windows (hs : Inv parse content s) (h : Step parse content s a s') :
    ∀ label p, s'.windows label = some p →
      s'.home p.instanceId = some label ∧ p.Numbered ∧ p.logs.Agrees content p.instanceId := by
  have hdrained {p : Page Time} {l : String} (hp : s.windows l = some p) (n : Nat)
      (i : Option String) (f : Time) {label : String} {q : Page Time}
      (hq : (s.setWindow l (some (p.drainEvents n i f).2)).windows label = some q) :
      s.home q.instanceId = some label ∧ q.Numbered ∧ q.logs.Agrees content q.instanceId := by
    obtain ⟨rfl, heq⟩ | ⟨-, hq⟩ := System.windows_setWindow hq
    · obtain rfl := Option.some.inj heq
      obtain ⟨hhome, hnumbered, hagrees⟩ := hs.windows label p hp
      have hcounts := (p.drainEvents_spec hnumbered n i f).counts
      rw [hcounts.instanceId, hcounts.logs]
      exact ⟨hhome, hcounts.numbered hnumbered, hagrees⟩
    · exact hs.windows label q hq
  intro label q hq
  cases h with
  | execute _ hp => exact hdrained hp _ _ _ hq
  | stray hp => exact hdrained hp _ _ _ hq
  | @record t r reply seen e left n ht =>
    rcases @record_cases Task Time parse s r reply e with ⟨heq, -⟩ | ⟨rec, log, -, heq⟩ <;>
      rw [heq] at hq ⊢ <;> exact hs.windows label q hq
  | @load l instanceId logs hnew hagrees =>
    obtain ⟨rfl, heq⟩ | ⟨hne, hq⟩ := System.windows_setWindow hq
    · obtain rfl := Option.some.inj heq
      exact ⟨Function.update_self .., nofun, hagrees⟩
    · obtain ⟨hhome, hrest⟩ := hs.windows label q hq
      refine ⟨?_, hrest⟩
      have hne : q.instanceId ≠ instanceId := by
        rintro heq
        rw [heq, hnew] at hhome
        cases hhome
      exact (Function.update_of_ne hne _ _).trans hhome
  | @close l =>
    obtain ⟨-, heq⟩ | ⟨-, hq⟩ := System.windows_setWindow hq
    · cases heq
    · exact hs.windows label q hq
  | @log l p logs hp hagrees hlogs =>
    obtain ⟨rfl, heq⟩ | ⟨-, hq⟩ := System.windows_setWindow hq
    · obtain rfl := Option.some.inj heq
      obtain ⟨hhome, hnumbered, -⟩ := hs.windows label p hp
      exact ⟨hhome, hnumbered, hagrees⟩
    · exact hs.windows label q hq
  | _ => exact hs.windows label q hq

theorem step_locks (hs : Inv parse content s) (ho : Orderly s a)
    (h : Step parse content s a s') : ∀ t label lock,
      (s'.drains t).uses = some (label, lock) → s'.watermarks.locks label = some lock := by
  have hgoto {t : Task} {pc : Pc Time} (hpc : ∀ label lock, pc.uses = some (label, lock) →
      s.watermarks.locks label = some lock) :
      ∀ t' label lock, (Function.update s.drains t pc t').uses = some (label, lock) →
        s.watermarks.locks label = some lock := by
    rw [Function.forall_update_iff s.drains fun _ pc => ∀ label lock,
      pc.uses = some (label, lock) → s.watermarks.locks label = some lock]
    exact ⟨hpc, fun t' _ => hs.locks t'⟩
  have hsame {t : Task} {pc pc' : Pc Time} (ht : s.drains t = pc) (huses : pc'.uses = pc.uses) :
      ∀ label lock, pc'.uses = some (label, lock) → s.watermarks.locks label = some lock := by
    intro label lock hl
    exact hs.locks t label lock (ht ▸ huses ▸ hl)
  cases h with
  | @call t l ht =>
    obtain ⟨-, -, -, hlock, hkeeps⟩ := s.watermarks.lockFor_spec l
    change ∀ t' label lock, (Function.update s.drains t _ t').uses = some (label, lock) →
      (s.watermarks.lockFor l).2.locks label = some lock
    rw [Function.forall_update_iff s.drains fun _ pc => ∀ label lock,
      pc.uses = some (label, lock) → (s.watermarks.lockFor l).2.locks label = some lock]
    refine ⟨?_, fun t' _ label lock huses => hkeeps _ _ (hs.locks t' label lock huses)⟩
    rintro _ _ ⟨⟩
    exact hlock
  | acquire ht => exact hgoto (hsame ht rfl)
  | pin ht => exact hgoto (hsame ht rfl)
  | readCursor ht => exact hgoto (hsame ht rfl)
  | execute ht => exact hgoto (hsame ht rfl)
  | receive ht => exact hgoto (hsame ht rfl)
  | unpinned | early | drop | unanswered | unread => exact hgoto nofun
  | @record t r reply seen e left n ht =>
    rcases @record_cases Task Time parse s r reply e with ⟨heq, -⟩ | ⟨rec, log, -, heq⟩ <;>
      rw [heq] <;> exact hgoto (hsame ht rfl)
  | @advance t r reply seen n ht =>
    obtain ⟨-, -, hlocks, -⟩ :=
      s.watermarks.advance_spec r.label r.cursor.epoch ⟨reply.instanceId, reply.seq⟩
    intro t' label lock huses
    exact (congrFun hlocks label).trans (@hgoto t .idle nofun t' label lock huses)
  | @reset floorMs epoch =>
    intro t' label lock huses
    rcases s.watermarks.reset_spec floorMs epoch with heq | ⟨-, -, hlocks, -⟩
    · exact (congrArg (fun w => w.locks label) heq).trans (hs.locks t' label lock huses)
    · exact (congrFun hlocks label).trans (hs.locks t' label lock huses)
  | @retain labels =>
    intro t' label lock huses
    have hmem : label ∈ labels := by
      by_contra hmem
      exact (ho label hmem).2 t' lock huses
    exact (if_pos hmem).trans (hs.locks t' label lock huses)
  | _ => exact hs.locks

theorem step_owner (hs : Inv parse content s) (h : Step parse content s a s') :
    ∀ t lock, (s'.drains t).holds = some lock → s'.owner lock = some t := by
  have hgoto {t : Task} {pc : Pc Time} (hpc : pc.holds = (s.drains t).holds) :
      ∀ t' lock, (Function.update s.drains t pc t').holds = some lock →
        s.owner lock = some t' := by
    rw [Function.forall_update_iff s.drains fun t pc => ∀ lock,
      pc.holds = some lock → s.owner lock = some t]
    exact ⟨fun lock hl => hs.owner t lock (hpc ▸ hl), fun t' _ => hs.owner t'⟩
  have hleave {t : Task} {lock : Nat} (ht : (s.drains t).holds = some lock) :
      ∀ t' lock', (Function.update s.drains t .idle t').holds = some lock' →
        Function.update s.owner lock none lock' = some t' := by
    rw [Function.forall_update_iff s.drains fun t pc => ∀ lock',
      pc.holds = some lock' → Function.update s.owner lock none lock' = some t]
    refine ⟨nofun, fun t' hne lock' hl => ?_⟩
    have hne : lock' ≠ lock := by
      rintro rfl
      exact hne (Option.some.inj ((hs.owner t' _ hl).symm.trans (hs.owner t _ ht)))
    exact (Function.update_of_ne hne _ _).trans (hs.owner t' lock' hl)
  cases h with
  | call ht => exact hgoto (by rw [ht]; rfl)
  | @acquire t label lock ht hfree =>
    change ∀ t' lock', (Function.update s.drains t _ t').holds = some lock' →
      Function.update s.owner lock (some t) lock' = some t'
    rw [Function.forall_update_iff s.drains fun t' pc => ∀ lock',
      pc.holds = some lock' → Function.update s.owner lock (some t) lock' = some t']
    constructor
    · rintro _ ⟨⟩
      exact Function.update_self ..
    · intro t' _ lock' hl
      have hne : lock' ≠ lock := by
        rintro rfl
        cases hfree.symm.trans (hs.owner t' _ hl)
      exact (Function.update_of_ne hne _ _).trans (hs.owner t' lock' hl)
  | pin ht => exact hgoto (by rw [ht]; rfl)
  | readCursor ht => exact hgoto (by rw [ht]; rfl)
  | execute ht => exact hgoto (by rw [ht]; rfl)
  | receive ht => exact hgoto (by rw [ht]; rfl)
  | drop ht => exact hgoto (by rw [ht]; rfl)
  | unpinned ht => exact hleave (by rw [ht]; rfl)
  | early ht => exact hleave (by rw [ht]; rfl)
  | unanswered ht => exact hleave (by rw [ht]; rfl)
  | unread ht => exact hleave (by rw [ht]; rfl)
  | advance ht => exact hleave (by rw [ht]; rfl)
  | @record t r reply seen e left n ht =>
    rcases @record_cases Task Time parse s r reply e with ⟨heq, -⟩ | ⟨rec, log, -, heq⟩ <;>
      rw [heq] <;> exact hgoto (by rw [ht]; rfl)
  | _ => exact hs.owner

/-! ## What a drain knows -/

omit [DecidableEq Task] in
/-- What the window's position says becomes what the drain knows. -/
theorem reading_fine (hs : Inv parse content s) {t : Task} {lock : Nat}
    (ht : s.drains t = .pinned label lock g) (hg : (s.watermarks.cursor label).epoch = g) :
    (Pc.reading ⟨label, lock, g, s.watermarks.cursor label, hg⟩).Fine parse content s := by
  have hbegun : g ∈ s.begun := by
    have hfine := hs.drains t
    rwa [ht] at hfine
  have hepoch : s.watermarks.epoch = g := hg
  refine ⟨⟨hbegun, ?_, fun _ => rfl⟩, ?_⟩
  · rw [hepoch]
    exact UInt64.le_refl _
  · change Covers parse content s label g s.watermarks.floorMs (s.watermarks.perLabel label) []
    rw [← hepoch]
    refine hs.settled label fun t' hwrites => ?_
    -- a drain that records here would hold the lock of the window too
    have huses' : ∃ lock', (s.drains t').uses = some (label, lock') ∧
        (s.drains t').holds = some lock' := by
      cases hpc : s.drains t' with
      | recording r reply seen left n =>
        rw [hpc] at hwrites
        obtain ⟨rfl, -⟩ := Prod.mk.inj (Option.some.inj hwrites)
        exact ⟨r.lock, rfl, rfl⟩
      | _ =>
        rw [hpc] at hwrites
        cases hwrites
    obtain ⟨lock', huses', hholds'⟩ := huses'
    obtain rfl := hs.alone (by rw [ht]; rfl) (by rw [ht]; rfl) huses' hholds'
    rw [ht] at hwrites
    cases hwrites

omit [DecidableEq Task] in
/-- The page answers with what was not recorded before. -/
theorem replied_fine (hs : Inv parse content s) {t : Task} {r : Read Time} {p : Page Time}
    (ht : s.drains t = .reading r) (hp : s.windows r.label = some p)
    (hk : Keeps s (s.setWindow r.label (some (p.drainEvents r.ask.1 r.ask.2.1 r.ask.2.2).2))
      r.label r.generation) :
    (Pc.replied r (p.drainEvents r.ask.1 r.ask.2.1 r.ask.2.2).1
      (p.logs.stream.map Entry.id)).Fine parse content
        (s.setWindow r.label (some (p.drainEvents r.ask.1 r.ask.2.1 r.ask.2.2).2)) := by
  have hfine := hs.drains t
  rw [ht] at hfine
  obtain ⟨hpinned, hcovers⟩ := hfine
  obtain ⟨hhome, hnumbered, hagrees⟩ := hs.windows r.label p hp
  have hdrained := p.drainEvents_spec hnumbered r.ask.1 r.ask.2.1 r.ask.2.2
  generalize (p.drainEvents r.ask.1 r.ask.2.1 r.ask.2.2).1 = reply at hdrained ⊢
  generalize (p.drainEvents r.ask.1 r.ask.2.1 r.ask.2.2).2 = p' at hk hdrained ⊢
  obtain ⟨hcounts, hinstance, hseq, hmem, hnodup, hpast, hall⟩ := hdrained
  have hwindow : ∀ q, (s.setWindow r.label (some p')).windows r.label = some q → q = p' := by
    intro q hq
    obtain ⟨-, heq⟩ | ⟨hne, -⟩ := System.windows_setWindow hq
    · exact (Option.some.inj heq).symm
    · exact absurd rfl hne
  have hask : ∀ m, r.cursor.mark = some m → r.ask = (m.seq, some m.instanceId, 0) := by
    intro m hm
    rw [Read.ask, hm]
  -- what is in the recording has a number that was asked to be left out
  have hrecorded : ∀ id, ⟨r.generation, p.instanceId, id⟩ ∈ s.ledger →
      ∃ n, p.drainSeqs id = some n ∧ r.ask.2.1 = some p.instanceId ∧ n ≤ r.ask.1 := by
    intro id hid
    obtain ⟨m, n, hm, hsame, hn, hle⟩ := hcovers.below _ hid rfl p hp rfl
    rw [hask m hm]
    exact ⟨n, hn, congrArg some hsame, hle⟩
  -- what is complete in the logs was dealt with, predates the recording or is in the answer
  have hdone : generation s.recorder = some r.generation → ∀ id,
      id ∈ p.logs.stream.map Entry.id → id ∈ reply.events.map Entry.id ∨
        Done parse content s r.generation p.instanceId r.label r.cursor.floorMs id := by
    intro hactive id hid
    obtain ⟨e, he, rfl⟩ := List.mem_map.mp hid
    obtain ⟨n, hn, ⟨hasked, hle⟩ | ⟨hpos, hearly⟩ | hreply⟩ := hall e he
    · right
      cases hm : r.cursor.mark with
      | none =>
        rw [Read.ask, hm] at hasked
        cases hasked
      | some m =>
        rw [hask m hm] at hasked hle
        have hsame : p.instanceId = m.instanceId := (Option.some.inj hasked).symm
        have hold := hcounts.back e.id n hn (hle.trans (hcovers.bound m p hm hp hsame))
        have hdone := hcovers.done hactive m p hm hp hsame e.id n hid hold hle
        rw [hsame]
        exact hdone.resolve_left List.not_mem_nil
    · right
      cases hm : r.cursor.mark with
      | some m =>
        rw [hask m hm] at hpos
        exact absurd hpos (lt_irrefl 0)
      | none =>
        rw [Read.ask, hm] at hpos hearly
        have hkey : e.key = (content p.instanceId e.id).1 := congrArg Prod.fst (hagrees e he)
        exact .inr (.inl ⟨hpos, hkey ▸ hearly⟩)
    · exact .inl (List.mem_map_of_mem hreply)
  refine ⟨hpinned.keep hk, ?_⟩
  refine {
    covers := {
      home := ?_
      begun := fun _ => hpinned.begun
      bound := ?_
      below := ?_
      done := ?_ }
    nodup := hnodup
    agrees := ?_
    new := ?_
    numbered := ?_
    seen := ?_ }
  · rintro _ ⟨⟩
    rw [hinstance]
    exact hhome
  · rintro _ q ⟨⟩ hq -
    rw [hwindow q hq, hseq]
  · intro x hx hg q hq hsame
    rw [hwindow q hq] at hsame ⊢
    rw [hcounts.instanceId] at hsame
    obtain ⟨n, hn, -, -⟩ := hrecorded x.entry (by rw [hsame, ← hg]; exact hx)
    refine ⟨_, n, rfl, hinstance.trans hsame, hcounts.keeps _ _ hn, ?_⟩
    rw [hseq]
    exact (hnumbered _ _ hn).2.trans hcounts.le
  · rintro hactive _ q ⟨⟩ hq - id n hid - -
    rw [hwindow q hq, hcounts.logs] at hid
    rw [hinstance]
    exact hdone hactive id hid
  · intro e he
    rw [hinstance]
    exact hagrees e (hmem e he)
  · intro e he hledger
    rw [hinstance] at hledger
    obtain ⟨n, hn, hasked, hle⟩ := hrecorded e.id hledger
    obtain ⟨n', hn', hlt⟩ := hpast e he
    obtain rfl : n = n' := Option.some.inj ((hcounts.keeps _ _ hn).symm.trans hn')
    exact absurd (hlt hasked) (Nat.not_lt.mpr hle)
  · intro q hq _ e he
    rw [hwindow q hq]
    obtain ⟨n, hn, -⟩ := hpast e he
    refine ⟨n, hn, ?_⟩
    rw [hseq]
    exact (hcounts.numbered hnumbered _ _ hn).2
  · intro hactive id hid
    rw [hinstance]
    exact hdone hactive id hid

omit [DecidableEq Task] in
/-- One event less is left. -/
theorem Answers.tail {r : Read Time} {reply : Reply Time} {seen : List Nat} {e : Entry Time}
    {left : List (Entry Time)} (h : Answers parse content s r reply seen (e :: left))
    (hhome : s'.home = s.home) (hbegun : s'.begun = s.begun) (hwindows : s'.windows = s.windows)
    (hactive : generation s'.recorder = generation s.recorder)
    (hsub : ∀ x ∈ s.ledger, x ∈ s'.ledger)
    (hledger : ∀ x ∈ s'.ledger, x ∈ s.ledger ∨ x = ⟨r.generation, reply.instanceId, e.id⟩)
    (hdone : generation s.recorder = some r.generation →
      Done parse content s' r.generation reply.instanceId r.label r.cursor.floorMs e.id) :
    Answers parse content s' r reply seen left := by
  have hnodup := h.nodup
  rw [List.map_cons, List.nodup_cons] at hnodup
  have htail : generation s.recorder = some r.generation → ∀ id,
      id ∈ (e :: left).map Entry.id ∨
        Done parse content s r.generation reply.instanceId r.label r.cursor.floorMs id →
      id ∈ left.map Entry.id ∨
        Done parse content s' r.generation reply.instanceId r.label r.cursor.floorMs id := by
    rintro hgen id ((_ | ⟨_, hleft⟩) | hold)
    · exact .inr (hdone hgen)
    · exact .inl hleft
    · exact .inr (hold.imp_left (hsub _))
  refine {
    covers := {
      home := fun m hm => by rw [hhome]; exact h.covers.home m hm
      begun := fun hm => by rw [hbegun]; exact h.covers.begun hm
      bound := ?_
      below := ?_
      done := ?_ }
    nodup := hnodup.2
    agrees := fun e' he' => h.agrees e' (List.mem_cons_of_mem e he')
    new := ?_
    numbered := ?_
    seen := ?_ }
  · rw [hwindows]
    exact h.covers.bound
  · rw [hwindows]
    intro x hx hg p hp hsame
    rcases hledger x hx with hold | rfl
    · exact h.covers.below x hold hg p hp hsame
    · obtain ⟨n, hn, hle⟩ := h.numbered p hp hsame e List.mem_cons_self
      exact ⟨_, n, rfl, rfl, hn, hle⟩
  · rw [hwindows, hactive]
    intro hgen m p hm hp hsame id n hid hn hle
    obtain rfl := Option.some.inj hm
    exact htail hgen id (h.covers.done hgen _ p rfl hp hsame id n hid hn hle)
  · intro e' he' hmem
    rcases hledger _ hmem with hold | heq
    · exact h.new e' (List.mem_cons_of_mem e he') hold
    · have hid : e'.id = e.id := (Recorded.mk.inj heq).2.2
      exact hnodup.1 (hid ▸ List.mem_map_of_mem he')
  · rw [hwindows]
    exact fun p hp hsame e' he' => h.numbered p hp hsame e' (List.mem_cons_of_mem e he')
  · rw [hactive]
    exact fun hgen id hid => htail hgen id (h.seen hgen id hid)

omit [DecidableEq Task] in
/-- The recording goes on with what is left. -/
theorem recording_fine (hs : Inv parse content s) {t : Task} {r : Read Time} {reply : Reply Time}
    {seen : List Nat} {e : Entry Time} {left : List (Entry Time)} {n m : Nat}
    (ht : s.drains t = .recording r reply seen (e :: left) n) :
    (Pc.recording r reply seen left m).Fine parse content (s.record parse r reply e).1 := by
  have hfine := hs.drains t
  rw [ht] at hfine
  obtain ⟨hpinned, hanswers⟩ := hfine
  rcases @record_cases Task Time parse s r reply e with
    ⟨heq, hnone⟩ | ⟨recorder, eventLog, hgen, heq⟩
  · rw [heq]
    refine ⟨hpinned, hanswers.tail rfl rfl rfl rfl (fun _ h => h) (fun _ h => .inl h) ?_⟩
    intro hactive
    rcases hnone with hparse | hinactive
    · have hevent : e.event = (content reply.instanceId e.id).2 :=
        congrArg Prod.snd (hanswers.agrees e List.mem_cons_self)
      exact .inr (.inr (hevent ▸ hparse))
    · exact absurd hactive hinactive
  · rw [heq]
    refine ⟨⟨hpinned.begun, hpinned.le, hpinned.floor⟩, hanswers.tail rfl rfl rfl hgen
      (fun _ => List.mem_cons_of_mem _) ?_ fun _ => .inl List.mem_cons_self⟩
    intro x hx
    exact (List.mem_cons.mp hx).symm

theorem Covers.goto {t : Task} {pc : Pc Time} {mark : Option DrainMark} {left : List Nat}
    (h : Covers parse content s label g floor mark left) :
    Covers parse content (s.goto t pc) label g floor mark left :=
  ⟨h.home, h.begun, h.bound, h.below, h.done⟩

theorem Pc.Fine.goto {t : Task} {pc pc' : Pc Time} (h : pc.Fine parse content s) :
    pc.Fine parse content (s.goto t pc') := by
  have hpinned {r : Read Time} (h : r.Pinned s) : r.Pinned (s.goto t pc') :=
    ⟨h.begun, h.le, h.floor⟩
  have hanswers {r : Read Time} {reply : Reply Time} {seen : List Nat} {left : List (Entry Time)}
      (h : Answers parse content s r reply seen left) :
      Answers parse content (s.goto t pc') r reply seen left :=
    ⟨h.covers.goto, h.nodup, h.agrees, h.new, h.numbered, h.seen⟩
  cases pc with
  | idle | waiting | locked => trivial
  | pinned => exact h
  | reading => exact ⟨hpinned h.1, h.2.goto⟩
  | replied => exact ⟨hpinned h.1, hanswers h.2⟩
  | recording => exact ⟨hpinned h.1, hanswers h.2⟩

end

end Victauri.Plugin.Drain
