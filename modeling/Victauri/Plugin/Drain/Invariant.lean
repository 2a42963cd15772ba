import Victauri.Plugin.Drain.Pages

/-!
# What the drains know

The invariant of the drains: what the position of a window says about the recording, what a drain
knows that has an answer, and that the steps of others leave it as it is.
-/

namespace Victauri.Plugin.Drain

open Victauri.Core Victauri.Library

variable {Task Time : Type} [LinearOrder Time] [Zero Time]
  (parse : String → Json.Value → Option AppEvent) (content : String → Nat → Time × Json.Value)
  {s s' : System Task Time} {a : Action Task Time}

/-! ## What a position says -/

/-- The entry was recorded, predates the recording or is no event. -/
def Done (s : System Task Time) (g : UInt64) (instanceId label : String) (floor : Time)
    (id : Nat) : Prop :=
  ⟨g, instanceId, id⟩ ∈ s.ledger ∨ (0 < floor ∧ ¬ floor < (content instanceId id).1) ∨
    parse label (content instanceId id).2 = none

/-- What the recording `g` has of the page in the window `label` are entries up to the position
`mark`, and all of those but the ones that are `left`. -/
structure Covers (s : System Task Time) (label : String) (g : UInt64) (floor : Time)
    (mark : Option DrainMark) (left : List Nat) : Prop where
  home : ∀ m, mark = some m → s.home m.instanceId = some label
  begun : mark ≠ none → g ∈ s.begun
  bound : ∀ m p, mark = some m → s.windows label = some p → p.instanceId = m.instanceId →
    m.seq ≤ p.drainSeq
  below : ∀ x ∈ s.ledger, x.generation = g → ∀ p, s.windows label = some p →
    p.instanceId = x.instanceId →
      ∃ m n, mark = some m ∧ m.instanceId = x.instanceId ∧
        p.drainSeqs x.entry = some n ∧ n ≤ m.seq
  done : generation s.recorder = some g → ∀ m p, mark = some m → s.windows label = some p →
    p.instanceId = m.instanceId → ∀ id n, id ∈ p.logs.stream.map Entry.id →
      p.drainSeqs id = some n → n ≤ m.seq →
        id ∈ left ∨ Done parse content s g m.instanceId label floor id

/-- What a drain knows that has an answer, of which `left` is not recorded yet. -/
structure Answers (s : System Task Time) (r : Read Time) (reply : Reply Time) (seen : List Nat)
    (left : List (Entry Time)) : Prop where
  covers : Covers parse content s r.label r.generation r.cursor.floorMs
    (some ⟨reply.instanceId, reply.seq⟩) (left.map Entry.id)
  nodup : (left.map Entry.id).Nodup
  agrees : ∀ e ∈ left, (e.key, e.event) = content reply.instanceId e.id
  new : ∀ e ∈ left, ⟨r.generation, reply.instanceId, e.id⟩ ∉ s.ledger
  numbered : ∀ p, s.windows r.label = some p → p.instanceId = reply.instanceId →
    ∀ e ∈ left, ∃ n, p.drainSeqs e.id = some n ∧ n ≤ reply.seq
  seen : generation s.recorder = some r.generation → ∀ id ∈ seen,
    id ∈ left.map Entry.id ∨
      Done parse content s r.generation reply.instanceId r.label r.cursor.floorMs id

/-- The recording of a drain has begun, and its floor is the one it began with. -/
structure Read.Pinned (s : System Task Time) (r : Read Time) : Prop where
  begun : r.generation ∈ s.begun
  le : r.generation ≤ s.watermarks.epoch
  floor : r.generation = s.watermarks.epoch → r.cursor.floorMs = s.watermarks.floorMs

def Pc.Fine (s : System Task Time) : Pc Time → Prop
  | .idle | .waiting _ _ | .locked _ _ => True
  | .pinned _ _ g => g ∈ s.begun
  | .reading r => r.Pinned s ∧
      Covers parse content s r.label r.generation r.cursor.floorMs r.cursor.mark []
  | .replied r reply seen => r.Pinned s ∧ Answers parse content s r reply seen reply.events
  | .recording r reply seen left _ => r.Pinned s ∧ Answers parse content s r reply seen left

/-- The window and the recording into which a drain is recording. -/
def Pc.writes : Pc Time → Option (String × UInt64)
  | .recording r _ _ _ _ => some (r.label, r.generation)
  | _ => none

structure Inv (s : System Task Time) : Prop where
  locks : ∀ t label lock, (s.drains t).uses = some (label, lock) →
    s.watermarks.locks label = some lock
  owner : ∀ t lock, (s.drains t).holds = some lock → s.owner lock = some t
  windows : ∀ label p, s.windows label = some p →
    s.home p.instanceId = some label ∧ p.Numbered ∧ p.logs.Agrees content p.instanceId
  active : ∀ g, generation s.recorder = some g → g ∈ s.begun
  ledger : ∀ x ∈ s.ledger, (∃ label, s.home x.instanceId = some label) ∧
    x.generation ≤ s.watermarks.epoch
  nodup : s.ledger.Nodup
  drains : ∀ t, (s.drains t).Fine parse content s
  settled : ∀ label, (∀ t, (s.drains t).writes ≠ some (label, s.watermarks.epoch)) →
    Covers parse content s label s.watermarks.epoch s.watermarks.floorMs
      (s.watermarks.perLabel label) []

/-! ## What the steps of others leave -/

/-- What a step leaves of what matters to the window `label` and the recording `g`. -/
structure Keeps (s s' : System Task Time) (label : String) (g : UInt64) : Prop where
  home : ∀ i l, s.home i = some l → s'.home i = some l
  begun : ∀ g ∈ s.begun, g ∈ s'.begun
  active : ∀ g ∈ s.begun, generation s'.recorder = some g → generation s.recorder = some g
  ledger_sub : ∀ x ∈ s.ledger, x ∈ s'.ledger
  ledger : ∀ x ∈ s'.ledger, x ∈ s.ledger ∨ x.generation ≠ g ∨
    ∃ l, s'.home x.instanceId = some l ∧ l ≠ label
  window : ∀ p', s'.windows label = some p' →
    (∃ p, s.windows label = some p ∧ p.Grows p') ∨ s.home p'.instanceId = none
  epoch : s.watermarks.epoch ≤ s'.watermarks.epoch
  floor : s'.watermarks.epoch = s.watermarks.epoch →
    s'.watermarks.floorMs = s.watermarks.floorMs

variable {parse content} {label : String} {g : UInt64} {floor : Time}

theorem Done.keep {instanceId : String} {id : Nat} (hk : Keeps s s' label g)
    (h : Done parse content s g instanceId label floor id) :
    Done parse content s' g instanceId label floor id :=
  h.imp_left (hk.ledger_sub _)

theorem Covers.keep {mark : Option DrainMark} {left : List Nat} (hs : Inv parse content s)
    (hs' : ∀ p, s'.windows label = some p → s'.home p.instanceId = some label)
    (hk : Keeps s s' label g) (h : Covers parse content s label g floor mark left) :
    Covers parse content s' label g floor mark left where
  home m hm := hk.home _ _ (h.home m hm)
  begun hm := hk.begun g (h.begun hm)
  bound m p' hm hp' hsame := by
    rcases hk.window p' hp' with ⟨p, hp, hgrows⟩ | hnew
    · exact (h.bound m p hm hp (hgrows.instanceId.symm.trans hsame)).trans hgrows.le
    · rw [hsame, h.home m hm] at hnew
      cases hnew
  below x hx hg p' hp' hsame := by
    rcases hk.ledger x hx with hold | hother | ⟨l, hl, hne⟩
    · rcases hk.window p' hp' with ⟨p, hp, hgrows⟩ | hnew
      · obtain ⟨m, n, hm, hinstance, hn, hle⟩ :=
          h.below x hold hg p hp (hgrows.instanceId.symm.trans hsame)
        exact ⟨m, n, hm, hinstance, hgrows.keeps _ _ hn, hle⟩
      · obtain ⟨⟨l, hl⟩, -⟩ := hs.ledger x hold
        rw [hsame, hl] at hnew
        cases hnew
    · exact absurd hg hother
    · rw [← hsame, hs' p' hp'] at hl
      exact absurd (Option.some.inj hl).symm hne
  done hactive m p' hm hp' hsame id n hid hn hle := by
    have hbegun := h.begun (by rw [hm]; exact Option.some_ne_none m)
    rcases hk.window p' hp' with ⟨p, hp, hgrows⟩ | hnew
    · have hsame' := hgrows.instanceId.symm.trans hsame
      obtain ⟨hid', hn'⟩ := hgrows.back id n hid hn (hle.trans (h.bound m p hm hp hsame'))
      exact (h.done (hk.active g hbegun hactive) m p hm hp hsame' id n hid' hn' hle).imp_right
        fun hdone => hdone.keep hk
    · rw [hsame, h.home m hm] at hnew
      cases hnew

theorem Answers.keep {r : Read Time} {reply : Reply Time} {seen : List Nat}
    {left : List (Entry Time)} (hs : Inv parse content s)
    (hs' : ∀ p, s'.windows r.label = some p → s'.home p.instanceId = some r.label)
    (hk : Keeps s s' r.label r.generation) (h : Answers parse content s r reply seen left) :
    Answers parse content s' r reply seen left where
  covers := h.covers.keep hs hs' hk
  nodup := h.nodup
  agrees := h.agrees
  new e he hmem := by
    rcases hk.ledger _ hmem with hold | hother | ⟨l, hl, hne⟩
    · exact h.new e he hold
    · exact hother rfl
    · rw [hk.home _ _ (h.covers.home _ rfl)] at hl
      exact hne (Option.some.inj hl).symm
  numbered p' hp' hsame e he := by
    rcases hk.window p' hp' with ⟨p, hp, hgrows⟩ | hnew
    · obtain ⟨n, hn, hle⟩ := h.numbered p hp (hgrows.instanceId.symm.trans hsame) e he
      exact ⟨n, hgrows.keeps _ _ hn, hle⟩
    · rw [hsame, h.covers.home _ rfl] at hnew
      cases hnew
  seen hactive id hid := by
    have hbegun := h.covers.begun (Option.some_ne_none _)
    exact (h.seen (hk.active _ hbegun hactive) id hid).imp_right fun hdone => hdone.keep hk

omit [LinearOrder Time] [Zero Time] in
theorem Read.Pinned.keep {r : Read Time} (hk : Keeps s s' label g) (h : r.Pinned s) :
    r.Pinned s' where
  begun := hk.begun _ h.begun
  le := UInt64.le_trans h.le hk.epoch
  floor heq := by
    have hepoch : s'.watermarks.epoch = s.watermarks.epoch :=
      UInt64.le_antisymm (heq ▸ h.le) hk.epoch
    rw [h.floor (heq.trans hepoch), hk.floor hepoch]

/-- What a drain that holds a lock knows is left by a step that leaves its window alone. -/
theorem Pc.Fine.keep {pc : Pc Time} (hs : Inv parse content s)
    (hs' : ∀ label p, s'.windows label = some p → s'.home p.instanceId = some label)
    (hk : ∀ label lock, pc.uses = some (label, lock) → pc.holds = some lock →
      ∀ g, Keeps s s' label g)
    (h : pc.Fine parse content s) : pc.Fine parse content s' := by
  cases pc with
  | idle => trivial
  | waiting => trivial
  | locked => trivial
  | pinned label lock g => exact (hk label lock rfl rfl g).begun g h
  | reading r =>
    have hkeeps := hk r.label r.lock rfl rfl r.generation
    exact ⟨h.1.keep hkeeps, h.2.keep hs (hs' r.label) hkeeps⟩
  | replied r reply seen =>
    have hkeeps := hk r.label r.lock rfl rfl r.generation
    exact ⟨h.1.keep hkeeps, h.2.keep hs (hs' r.label) hkeeps⟩
  | recording r reply seen left n =>
    have hkeeps := hk r.label r.lock rfl rfl r.generation
    exact ⟨h.1.keep hkeeps, h.2.keep hs (hs' r.label) hkeeps⟩

/-- Without a position nothing of the page may be in the recording. -/
theorem Covers.of_none {left : List Nat}
    (h : ∀ x ∈ s.ledger, x.generation = g → ∀ p, s.windows label = some p →
      p.instanceId ≠ x.instanceId) : Covers parse content s label g floor none left where
  home _ hm := by cases hm
  begun hm := absurd rfl hm
  bound _ _ hm := by cases hm
  below x hx hg p hp hsame := absurd hsame (h x hx hg p hp)
  done _ _ _ hm := by cases hm

omit [LinearOrder Time] [Zero Time] in
theorem Keeps.of_same (hrecorder : s'.recorder = s.recorder) (hbegun : s'.begun = s.begun)
    (hhome : s'.home = s.home) (hledger : s'.ledger = s.ledger)
    (hwindows : s'.windows label = s.windows label)
    (hepoch : s'.watermarks.epoch = s.watermarks.epoch)
    (hfloor : s'.watermarks.floorMs = s.watermarks.floorMs) : Keeps s s' label g where
  home i l hl := hhome ▸ hl
  begun g hg := hbegun ▸ hg
  active g _ hg := hrecorder ▸ hg
  ledger_sub x hx := hledger ▸ hx
  ledger x hx := .inl (hledger ▸ hx)
  window p' hp' := .inl ⟨p', hwindows ▸ hp', (Page.Counts.refl p').grows⟩
  epoch := by
    rw [hepoch]
    exact UInt64.le_refl _
  floor _ := hfloor

end Victauri.Plugin.Drain
