import Mathlib.Data.List.Nodup
import Mathlib.Data.List.Sublists
import Victauri.Plugin.Drain

/-!
# What a drain reads

A page numbers an entry the first time a drain sees it complete, and answers with the entries whose
number is past the one asked for.
-/

namespace Victauri.Plugin.Drain

namespace Page

variable {Time : Type} {p p' p'' : Page Time}

/-- Numbers count from one and are not past the counter. -/
def Numbered (p : Page Time) : Prop := ∀ id n, p.drainSeqs id = some n → 0 < n ∧ n ≤ p.drainSeq

/-- The same page, later: entries keep their numbers, and a new number is past all earlier ones. -/
structure Grows (p p' : Page Time) : Prop where
  instanceId : p'.instanceId = p.instanceId
  le : p.drainSeq ≤ p'.drainSeq
  keeps : ∀ id n, p.drainSeqs id = some n → p'.drainSeqs id = some n
  back : ∀ id n, id ∈ p'.logs.stream.map Entry.id → p'.drainSeqs id = some n → n ≤ p.drainSeq →
    id ∈ p.logs.stream.map Entry.id ∧ p.drainSeqs id = some n

/-- Only the numbers change, and what was numbered anew is past the counter. -/
structure Counts (p p' : Page Time) : Prop where
  instanceId : p'.instanceId = p.instanceId
  logs : p'.logs = p.logs
  le : p.drainSeq ≤ p'.drainSeq
  keeps : ∀ id n, p.drainSeqs id = some n → p'.drainSeqs id = some n
  back : ∀ id n, p'.drainSeqs id = some n → n ≤ p.drainSeq → p.drainSeqs id = some n
  numbered : p.Numbered → p'.Numbered

theorem Counts.refl (p : Page Time) : Counts p p :=
  ⟨rfl, rfl, Nat.le_refl _, fun _ _ h => h, fun _ _ h _ => h, fun h => h⟩

theorem Counts.trans (h : Counts p p') (h' : Counts p' p'') : Counts p p'' where
  instanceId := h'.instanceId.trans h.instanceId
  logs := h'.logs.trans h.logs
  le := h.le.trans h'.le
  keeps id n hn := h'.keeps id n (h.keeps id n hn)
  back id n hn hle := h.back id n (h'.back id n hn (hle.trans h.le)) hle
  numbered hp := h'.numbered (h.numbered hp)

theorem Counts.grows (h : Counts p p') : Grows p p' where
  instanceId := h.instanceId
  le := h.le
  keeps := h.keeps
  back id n hid hn hle := by
    rw [h.logs] at hid
    exact ⟨hid, h.back id n hn hle⟩

theorem grows_logs {logs : Logs Time} (h : p.Continues logs) : Grows p { p with logs := logs } where
  instanceId := rfl
  le := Nat.le_refl _
  keeps _ _ hn := hn
  back id n hid hn _ := by
    obtain ⟨e, he, rfl⟩ := List.mem_map.mp hid
    rcases h e he with hold | hnew
    · exact ⟨hold, hn⟩
    · rw [hnew] at hn
      cases hn

theorem sequence_spec (p : Page Time) (id : Nat) :
    Counts p (p.sequence id).2 ∧ (p.sequence id).2.drainSeqs id = some (p.sequence id).1 := by
  unfold sequence
  cases hseq : p.drainSeqs id with
  | some n => exact ⟨.refl p, hseq⟩
  | none =>
    dsimp only
    refine ⟨⟨rfl, rfl, Nat.le_succ _, ?_, ?_, ?_⟩, Function.update_self ..⟩
    · intro id' n hn
      have hne : id' ≠ id := by
        rintro rfl
        rw [hseq] at hn
        cases hn
      dsimp only
      rwa [Function.update_of_ne hne]
    · intro id' n hn hle
      dsimp only at hn
      by_cases hid : id' = id
      · rw [hid, Function.update_self, Option.some.injEq] at hn
        omega
      · rwa [Function.update_of_ne hid] at hn
    · intro hp id' n hn
      dsimp only at hn ⊢
      by_cases hid : id' = id
      · rw [hid, Function.update_self, Option.some.injEq] at hn
        omega
      · rw [Function.update_of_ne hid] at hn
        have hle := hp id' n hn
        omega

variable [LinearOrder Time] [Zero Time] {after : Nat} {floor : Time}

/-- What the loop over the entries `es` does. -/
structure Loop (after : Nat) (floor : Time) (es : List (Entry Time)) (p : Page Time)
    (events : List (Entry Time)) (p' : Page Time) : Prop where
  counts : Counts p p'
  sublist : events.Sublist es
  past : ∀ e ∈ events, ∃ n, p'.drainSeqs e.id = some n ∧ after < n
  all : ∀ e ∈ es, ∃ n, p'.drainSeqs e.id = some n ∧
    (n ≤ after ∨ 0 < floor ∧ ¬ floor < e.key ∨ e ∈ events)

theorem drainLoop_spec (es : List (Entry Time)) (p : Page Time) :
    Loop after floor es p (drainLoop after floor es p).1 (drainLoop after floor es p).2 := by
  induction es generalizing p with
  | nil => exact ⟨.refl p, .slnil, nofun, nofun⟩
  | cons e es ih =>
    obtain ⟨hcounts, hseq⟩ := p.sequence_spec e.id
    obtain ⟨htail, hsublist, hpast, hall⟩ := ih (p.sequence e.id).2
    have hnumber := htail.keeps _ _ hseq
    rw [drainLoop]
    dsimp only
    split_ifs with hle hfloor
    · refine ⟨hcounts.trans htail, hsublist.cons e, hpast, ?_⟩
      rintro e' (_ | ⟨_, he'⟩)
      · exact ⟨_, hnumber, .inl hle⟩
      · exact hall e' he'
    · refine ⟨hcounts.trans htail, hsublist.cons e, hpast, ?_⟩
      rintro e' (_ | ⟨_, he'⟩)
      · exact ⟨_, hnumber, .inr (.inl hfloor)⟩
      · exact hall e' he'
    · refine ⟨hcounts.trans htail, hsublist.cons_cons e, ?_, ?_⟩
      · rintro e' (_ | ⟨_, he'⟩)
        · exact ⟨_, hnumber, Nat.lt_of_not_le hle⟩
        · exact hpast e' he'
      · rintro e' (_ | ⟨_, he'⟩)
        · exact ⟨_, hnumber, .inr (.inr List.mem_cons_self)⟩
        · obtain ⟨n, hn, hor⟩ := hall e' he'
          exact ⟨n, hn, hor.imp_right (Or.imp_right (List.mem_cons_of_mem e))⟩

/-- What a page answers, and what it is afterwards. -/
structure Drained (p : Page Time) (afterSeq : Nat) (asked : Option String) (floorMs : Time)
    (reply : Reply Time) (p' : Page Time) : Prop where
  counts : Counts p p'
  instanceId : reply.instanceId = p.instanceId
  seq : reply.seq = p'.drainSeq
  mem : ∀ e ∈ reply.events, e ∈ p.logs.stream
  nodup : (reply.events.map Entry.id).Nodup
  past : ∀ e ∈ reply.events, ∃ n, p'.drainSeqs e.id = some n ∧
    (asked = some p.instanceId → afterSeq < n)
  all : ∀ e ∈ p.logs.stream, ∃ n, p'.drainSeqs e.id = some n ∧
    (asked = some p.instanceId ∧ n ≤ afterSeq ∨ 0 < floorMs ∧ ¬ floorMs < e.key ∨
      e ∈ reply.events)

theorem drainEvents_spec (p : Page Time) (hp : p.Numbered) (afterSeq : Nat)
    (asked : Option String) (floorMs : Time) :
    Drained p afterSeq asked floorMs (p.drainEvents afterSeq asked floorMs).1
      (p.drainEvents afterSeq asked floorMs).2 := by
  have hloop := @drainLoop_spec Time _ _ (if asked = some p.instanceId then afterSeq else 0)
    (if (if asked = some p.instanceId then afterSeq else 0) = 0 then floorMs else 0)
    p.logs.stream p
  unfold drainEvents
  dsimp only
  generalize hafter : (if asked = some p.instanceId then afterSeq else 0) = after at hloop ⊢
  generalize hfloor : (if after = 0 then floorMs else 0) = floor at hloop ⊢
  generalize drainLoop after floor p.logs.stream p = out at hloop ⊢
  obtain ⟨events, p'⟩ := out
  obtain ⟨hcounts, hsublist, hpast, hall⟩ := hloop
  have hperm := List.mergeSort_perm events fun a b => decide (a.timestamp ≤ b.timestamp)
  refine ⟨hcounts, hcounts.instanceId, rfl, ?_, ?_, ?_, ?_⟩
  · exact fun e he => hsublist.subset (hperm.mem_iff.mp he)
  · exact ((hperm.map Entry.id).nodup_iff).mpr (p.logs.nodup.sublist (hsublist.map Entry.id))
  · intro e he
    obtain ⟨n, hn, hlt⟩ := hpast e (hperm.mem_iff.mp he)
    refine ⟨n, hn, fun hsame => ?_⟩
    rw [if_pos hsame] at hafter
    exact hafter ▸ hlt
  · intro e he
    obtain ⟨n, hn, hle | hearly | hmem⟩ := hall e he
    · -- a number is positive, so that only the page that was asked for counts one as read
      refine ⟨n, hn, .inl ?_⟩
      have hpos := (hcounts.numbered hp e.id n hn).1
      by_cases hsame : asked = some p.instanceId
      · rw [if_pos hsame] at hafter
        exact ⟨hsame, hafter ▸ hle⟩
      · rw [if_neg hsame] at hafter
        omega
    · refine ⟨n, hn, .inr (.inl ?_)⟩
      by_cases hzero : after = 0
      · rw [if_pos hzero] at hfloor
        rwa [hfloor]
      · rw [if_neg hzero] at hfloor
        exact absurd hearly.1 (hfloor ▸ lt_irrefl _)
    · exact ⟨n, hn, .inr (.inr (hperm.mem_iff.mpr hmem))⟩

end Page

end Victauri.Plugin.Drain
