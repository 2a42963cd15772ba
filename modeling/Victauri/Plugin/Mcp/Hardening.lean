import Mathlib.Data.Finset.Card
import Victauri.Library.Run

/-!
# The serve loop

`serve_hardened` of `hardening.rs`: the accept loop, a task for each connection, and the two pools
of permits they draw from.  A client may send at any time, and time runs out, a connection fails or
ends and the shutdown comes whenever they like.
-/

namespace Victauri.Plugin.Mcp.Hardening

open Victauri.Library

structure ServeLimits where
  maxConnections : Nat
  maxPending : Nat
  deriving DecidableEq

/-- Where the loop is. -/
inductive Phase where
  /-- It waits for a pending permit. -/
  | acquire
  /-- It has one and waits for a connection. -/
  | accept
  /-- It has one and pauses after a failed `accept`. -/
  | backoff
  /-- The listener is gone, the tasks have been told, and it waits for them. -/
  | closing
  | returned
  deriving DecidableEq

/-- The connections are open in one of three ways: until the first byte is seen, until a slot is
free, and while they are served. -/
structure System (Conn : Type) where
  phase : Phase
  shutdown : Bool
  pendingFree : Nat
  slotsFree : Nat
  waiting : Finset Conn
  queued : Finset Conn
  serving : Finset Conn
  /-- Those of `serving` that end after the request they are at. -/
  draining : Finset Conn
  /-- Those that were ever accepted. -/
  accepted : Finset Conn
  /-- Those whose client has sent a byte. -/
  sent : Finset Conn

variable {Conn : Type} [DecidableEq Conn]

namespace System

def init (limits : ServeLimits) : System Conn :=
  { phase := .acquire
    shutdown := false
    pendingFree := limits.maxPending
    slotsFree := limits.maxConnections
    waiting := ∅
    queued := ∅
    serving := ∅
    draining := ∅
    accepted := ∅
    sent := ∅ }

def opened (s : System Conn) : Finset Conn := s.waiting ∪ s.queued ∪ s.serving

/-- The pending permit of the loop itself. -/
def held (s : System Conn) : Nat :=
  match s.phase with
  | .accept | .backoff => 1
  | .acquire | .closing | .returned => 0

end System

inductive Action (Conn : Type) where
  | shutdown
  | permit
  | accept (c : Conn)
  | acceptError
  | retry
  | stop
  | send (c : Conn)
  | firstByte (c : Conn)
  | giveUp (c : Conn)
  | takeSlot (c : Conn)
  | signal (c : Conn)
  | drain (c : Conn)
  | finish (c : Conn)
  | return

inductive Step : System Conn → Action Conn → System Conn → Prop
  | shutdown {s} : Step s .shutdown { s with shutdown := true }
  | permit {s} (h : s.phase = .acquire) (hfree : 0 < s.pendingFree) :
      Step s .permit { s with phase := .accept, pendingFree := s.pendingFree - 1 }
  /-- The permit goes to the task of the connection. -/
  | accept {s c} (h : s.phase = .accept) (hnew : c ∉ s.accepted) :
      Step s (.accept c)
        { s with
          phase := .acquire
          waiting := insert c s.waiting
          accepted := insert c s.accepted }
  | acceptError {s} (h : s.phase = .accept) : Step s .acceptError { s with phase := .backoff }
  | retry {s} (h : s.phase = .backoff) :
      Step s .retry { s with phase := .acquire, pendingFree := s.pendingFree + 1 }
  | stopAcquire {s} (h : s.phase = .acquire) (hshutdown : s.shutdown = true) :
      Step s .stop { s with phase := .closing }
  | stopAccept {s} (h : s.phase = .accept) (hshutdown : s.shutdown = true) :
      Step s .stop { s with phase := .closing, pendingFree := s.pendingFree + 1 }
  | send {s c} : Step s (.send c) { s with sent := insert c s.sent }
  /-- `peek` returns a byte. -/
  | firstByte {s c} (h : c ∈ s.waiting) (hsent : c ∈ s.sent) :
      Step s (.firstByte c)
        { s with waiting := s.waiting.erase c, queued := insert c s.queued }
  /-- No byte in time, or the client is gone. -/
  | giveUp {s c} (h : c ∈ s.waiting) :
      Step s (.giveUp c)
        { s with waiting := s.waiting.erase c, pendingFree := s.pendingFree + 1 }
  | takeSlot {s c} (h : c ∈ s.queued) (hfree : 0 < s.slotsFree) :
      Step s (.takeSlot c)
        { s with
          queued := s.queued.erase c
          serving := insert c s.serving
          slotsFree := s.slotsFree - 1
          pendingFree := s.pendingFree + 1 }
  /-- The loop is over before the connection is served. -/
  | signalWaiting {s c} (h : c ∈ s.waiting) (hphase : s.phase = .closing) :
      Step s (.signal c)
        { s with waiting := s.waiting.erase c, pendingFree := s.pendingFree + 1 }
  | signalQueued {s c} (h : c ∈ s.queued) (hphase : s.phase = .closing) :
      Step s (.signal c)
        { s with queued := s.queued.erase c, pendingFree := s.pendingFree + 1 }
  | drain {s c} (h : c ∈ s.serving) (hphase : s.phase = .closing) (hnew : c ∉ s.draining) :
      Step s (.drain c) { s with draining := insert c s.draining }
  | finish {s c} (h : c ∈ s.serving) :
      Step s (.finish c)
        { s with
          serving := s.serving.erase c
          draining := s.draining.erase c
          slotsFree := s.slotsFree + 1 }
  /-- The last of the tasks is over. -/
  | return {s} (h : s.phase = .closing) (hopened : s.opened = ∅) :
      Step s .return { s with phase := .returned }

abbrev Runs (s : System Conn) (as : List (Action Conn)) (t : System Conn) : Prop := Run Step s as t

/-! ## The pools -/

variable {limits : ServeLimits} {s t : System Conn} {a : Action Conn} {as : List (Action Conn)}

/-- Every permit is free or held by one connection or the loop, and no connection gets one of the
slots without a byte. -/
structure Inv (limits : ServeLimits) (s : System Conn) : Prop where
  pending : s.waiting.card + s.queued.card + s.held + s.pendingFree = limits.maxPending
  slots : s.serving.card + s.slotsFree = limits.maxConnections
  waiting : ∀ c ∈ s.waiting, c ∈ s.accepted ∧ c ∉ s.queued ∧ c ∉ s.serving
  queued : ∀ c ∈ s.queued, c ∈ s.accepted ∧ c ∈ s.sent ∧ c ∉ s.serving
  serving : ∀ c ∈ s.serving, c ∈ s.accepted ∧ c ∈ s.sent
  draining : ∀ c ∈ s.draining, c ∈ s.serving
  returned : s.phase = .returned → s.opened = ∅

theorem inv_init : Inv limits (System.init limits : System Conn) where
  pending := Nat.zero_add _
  slots := Nat.zero_add _
  waiting _ h := absurd h (Finset.notMem_empty _)
  queued _ h := absurd h (Finset.notMem_empty _)
  serving _ h := absurd h (Finset.notMem_empty _)
  draining _ h := absurd h (Finset.notMem_empty _)
  returned _ := rfl

theorem step_pending (hs : Inv limits s) (h : Step s a t) :
    t.waiting.card + t.queued.card + t.held + t.pendingFree = limits.maxPending := by
  have hpending := hs.pending
  have herase {c : Conn} {A : Finset Conn} (hc : c ∈ A) : (A.erase c).card + 1 = A.card :=
    Finset.card_erase_add_one hc
  unfold System.held at hpending ⊢
  cases h with
  | permit h hfree | retry h | acceptError h =>
    rw [h] at hpending
    dsimp only at hpending ⊢
    omega
  | stopAcquire h _ | stopAccept h _ =>
    rw [h] at hpending
    dsimp only at hpending ⊢
    omega
  | @accept c h hnew =>
    have hfresh : c ∉ s.waiting := fun hc => hnew (hs.waiting c hc).1
    rw [h] at hpending
    dsimp only at hpending ⊢
    rw [Finset.card_insert_of_notMem hfresh]
    omega
  | @firstByte c h hsent =>
    have hcard := herase h
    dsimp only at hpending ⊢
    rw [Finset.card_insert_of_notMem (hs.waiting c h).2.1]
    omega
  | giveUp h | signalWaiting h _ | takeSlot h _ | signalQueued h _ =>
    have hcard := herase h
    dsimp only at hpending ⊢
    omega
  | «return» h _ =>
    rw [h] at hpending
    exact hpending
  | shutdown | send | drain | finish => exact hpending

theorem step_slots (hs : Inv limits s) (h : Step s a t) :
    t.serving.card + t.slotsFree = limits.maxConnections := by
  have hslots := hs.slots
  cases h with
  | @takeSlot c h hfree =>
    dsimp only
    rw [Finset.card_insert_of_notMem (hs.queued c h).2.2]
    omega
  | finish h =>
    have hcard := Finset.card_erase_add_one h
    dsimp only
    omega
  | _ => exact hslots

theorem Inv.step (hs : Inv limits s) (h : Step s a t) : Inv limits t where
  pending := step_pending hs h
  slots := step_slots hs h
  waiting := by
    have hwaiting := hs.waiting
    have hqueued := hs.queued
    have hserving := hs.serving
    cases h <;> grind
  queued := by
    have hwaiting := hs.waiting
    have hqueued := hs.queued
    have hserving := hs.serving
    cases h <;> grind
  serving := by
    have hqueued := hs.queued
    have hserving := hs.serving
    cases h <;> grind
  draining := by
    have hdraining := hs.draining
    cases h <;> grind
  returned := by
    have hreturned := hs.returned
    cases h <;> grind [System.opened]

theorem Inv.run (hs : Inv limits s) (h : Runs s as t) : Inv limits t :=
  h.invariant (fun _ _ _ hs hstep => hs.step hstep) hs

theorem runs_inv (h : Runs (System.init limits) as s) : Inv limits s := inv_init.run h

/-- A connection whose client has sent a byte is not kept from a slot by those whose have not. -/
theorem Inv.admits (hs : Inv limits s) {c : Conn} (hc : c ∈ s.waiting ∪ s.queued)
    (hsent : c ∈ s.sent) (hroom : (s.opened ∩ s.sent).card ≤ limits.maxConnections) :
    ∃ as t, Runs s as t ∧ c ∈ t.serving := by
  have hserved : c ∉ s.serving := by
    rcases Finset.mem_union.mp hc with hwaiting | hqueued
    · exact (hs.waiting c hwaiting).2.2
    · exact (hs.queued c hqueued).2.2
  have hsub : insert c s.serving ⊆ s.opened ∩ s.sent := by
    intro c' hc'
    rcases Finset.mem_insert.mp hc' with rfl | hserving
    · exact Finset.mem_inter.mpr ⟨Finset.mem_union_left _ hc, hsent⟩
    · exact Finset.mem_inter.mpr ⟨Finset.mem_union_right _ hserving, (hs.serving c' hserving).2⟩
  have hfree : 0 < s.slotsFree := by
    have hcard := Finset.card_le_card hsub
    have hslots := hs.slots
    rw [Finset.card_insert_of_notMem hserved] at hcard
    omega
  have hqueue {s : System Conn} (hqueued : c ∈ s.queued) (hfree : 0 < s.slotsFree) :
      ∃ as t, Runs s as t ∧ c ∈ t.serving :=
    ⟨[.takeSlot c], _, .single (.takeSlot hqueued hfree), Finset.mem_insert_self _ _⟩
  rcases Finset.mem_union.mp hc with hwaiting | hqueued
  · obtain ⟨as, t, hrun, ht⟩ := hqueue
      (s := { s with waiting := s.waiting.erase c, queued := insert c s.queued })
      (Finset.mem_insert_self _ _) hfree
    exact ⟨.firstByte c :: as, t, .cons (.firstByte hwaiting hsent) hrun, ht⟩
  · exact hqueue hqueued hfree

/-! ## The end -/

theorem step_closed (h : Step s a t) (hs : s.phase = .closing ∨ s.phase = .returned) :
    (t.phase = .closing ∨ t.phase = .returned) ∧ t.opened ⊆ s.opened := by
  unfold System.opened
  cases h <;> grind

/-- Once the loop is over no connection is accepted any more. -/
theorem runs_closed (h : Runs s as t) (hs : s.phase = .closing ∨ s.phase = .returned) :
    t.opened ⊆ s.opened :=
  (h.stable (P := fun t => (t.phase = .closing ∨ t.phase = .returned) ∧ t.opened ⊆ s.opened)
    (fun _ _ _ ht hstep =>
      have hnext := step_closed hstep ht.1
      ⟨hnext.1, hnext.2.trans ht.2⟩) ⟨hs, fun _ hc => hc⟩).2

/-- A connection that is open when the loop is over can end. -/
theorem Inv.exists_ends (hs : Inv limits s) (hphase : s.phase = .closing) {c : Conn}
    (hc : c ∈ s.opened) :
    ∃ a t, Step s a t ∧ t.phase = .closing ∧ t.opened = s.opened.erase c := by
  have hwaiting := hs.waiting
  have hqueued := hs.queued
  rcases Finset.mem_union.mp hc with hpending | hc
  · rcases Finset.mem_union.mp hpending with hc | hc
    · refine ⟨.signal c, _, .signalWaiting hc hphase, hphase, ?_⟩
      ext c'
      grind [System.opened]
    · refine ⟨.signal c, _, .signalQueued hc hphase, hphase, ?_⟩
      ext c'
      grind [System.opened]
  · refine ⟨.finish c, _, .finish hc, hphase, ?_⟩
    ext c'
    grind [System.opened]

theorem Inv.exists_returns (hs : Inv limits s) (hphase : s.phase = .closing) :
    ∃ as t, Runs s as t ∧ t.phase = .returned := by
  induction hn : s.opened.card generalizing s with
  | zero =>
    have hopened : s.opened = ∅ := Finset.card_eq_zero.mp hn
    exact ⟨[.return], _, .single (.return hphase hopened), rfl⟩
  | succ n ih =>
    obtain ⟨c, hc⟩ : s.opened.Nonempty := Finset.card_pos.mp (by omega)
    obtain ⟨a, t, hstep, ht, hopened⟩ := hs.exists_ends hphase hc
    have hcard := Finset.card_erase_add_one hc
    obtain ⟨as, u, hrun, hu⟩ := ih (hs.step hstep) ht (by rw [hopened]; omega)
    exact ⟨a :: as, u, .cons hstep hrun, hu⟩

/-- From wherever the loop is when the shutdown comes, it can come to its end. -/
theorem Inv.shuts_down (hs : Inv limits s) (hshutdown : s.shutdown = true) :
    ∃ as t, Runs s as t ∧ t.phase = .returned := by
  have hstop {s t : System Conn} {as : List (Action Conn)} (hs : Inv limits s)
      (hrun : Runs s as t) (ht : t.phase = .closing) :
      ∃ as u, Runs s as u ∧ u.phase = .returned := by
    obtain ⟨bs, u, hend, hu⟩ := (hs.run hrun).exists_returns ht
    exact ⟨as ++ bs, u, hrun.append hend, hu⟩
  cases hphase : s.phase with
  | acquire => exact hstop hs (.single (.stopAcquire hphase hshutdown)) rfl
  | accept => exact hstop hs (.single (.stopAccept hphase hshutdown)) rfl
  | backoff =>
    exact hstop hs (.cons (.retry hphase) (.single (.stopAcquire rfl hshutdown))) rfl
  | closing => exact hstop hs (.nil s) hphase
  | returned => exact ⟨[], s, .nil s, hphase⟩

/-- What `serve_hardened` keeps to in every run: the size of its pools, no slot for a connection
that has sent nothing, no such connection in the way of one that has, and an end that waits for all
connections, that no connection comes after and that can always be reached. -/
theorem serves_hardened (h : Runs (System.init limits) as s) :
    (s.waiting ∪ s.queued).card ≤ limits.maxPending ∧ s.serving.card ≤ limits.maxConnections ∧
      s.serving ⊆ s.sent ∧
      (∀ c ∈ s.waiting ∪ s.queued, c ∈ s.sent →
        (s.opened ∩ s.sent).card ≤ limits.maxConnections →
          ∃ as t, Runs s as t ∧ c ∈ t.serving) ∧
      (s.phase = .returned → s.opened = ∅) ∧
      (s.phase = .closing → ∀ as t, Runs s as t → t.opened ⊆ s.opened) ∧
      (s.shutdown = true → ∃ as t, Runs s as t ∧ t.phase = .returned) := by
  have hs := runs_inv h
  have hpending := hs.pending
  have hslots := hs.slots
  refine ⟨(Finset.card_union_le _ _).trans (by omega), by omega, fun c hc => (hs.serving c hc).2,
    fun c hc hsent hroom => hs.admits hc hsent hroom, hs.returned,
    fun hphase _ _ hrun => runs_closed hrun (.inl hphase), hs.shuts_down⟩

/-- A silent connection and one that is served, in pools of two and one. -/
theorem serves_hardened_two : ∃ as, ∃ s : System Nat, Runs (System.init ⟨1, 2⟩) as s ∧
    s.waiting = {0} ∧ s.serving = {1} ∧ s.serving.card ≤ 1 ∧ s.serving ⊆ s.sent := by
  have hrun : Runs (System.init ⟨1, 2⟩) [.permit, .accept 0, .permit, .accept 1, .send 1,
      .firstByte 1, .takeSlot 1] (_ : System Nat) :=
    .cons (.permit rfl (by decide)) <| .cons (.accept rfl (by decide)) <|
      .cons (.permit rfl (by decide)) <| .cons (.accept rfl (by decide)) <| .cons .send <|
        .cons (.firstByte (by decide) (by decide)) <| .single (.takeSlot (by decide) (by decide))
  obtain ⟨-, hserving, hsent, -⟩ := serves_hardened hrun
  exact ⟨_, _, hrun, by decide, by decide, hserving, hsent⟩

end Victauri.Plugin.Mcp.Hardening
