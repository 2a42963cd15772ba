import Mathlib.Data.List.Forall2
import Victauri.Plugin.BackendLogs.History
import Victauri.Plugin.Mcp.BackendLogTools

/-!
# What a redacting profile learns from the log

A page is the cut of one selection of the buffered entries.  The level, time, text and field
filters select by what the profile sees; the target prefixes select by the captured target.
-/

namespace Victauri.Plugin.Mcp

open Victauri.Core Victauri.Plugin.BackendLogs

/-! ## Selections -/

section Selection

variable (texts : TextFunctions) (fromStr : String → Option Json.Value) (privacy : PrivacyConfig)

/-- The filters of a query but for the target prefixes, on an entry as it is seen. -/
def passes (q : LogQuery) (e : BackendLogEntry) : Bool :=
  decide (q.minLevel.index ≤ e.level.index) && q.sinceMs.all (fun ms => decide (ms ≤ e.tsMs)) &&
    q.contains.all (fun needle => entryContains texts e (texts.toLowercase needle)) &&
    entryFieldsMatch texts e q.fields

/-- The target prefixes of a query. -/
def targetMatches (q : LogQuery) (target : String) : Bool :=
  q.targets.isEmpty || q.targets.any fun t => t.toList.isPrefixOf target.toList

/-- The entries a query selects: the target is the captured one. -/
def selects (q : LogQuery) (e : BackendLogEntry) : Bool :=
  targetMatches q e.target && passes texts q (seen texts fromStr privacy e)

/-- What the limit leaves: the oldest of a cursor read, the newest of any other. -/
def cut (sinceSeq : Option Nat) (limit : Nat) (all : List BackendLogEntry) :
    List BackendLogEntry :=
  if sinceSeq.isSome then all.take limit else keepNewest limit all

theorem cut_of_le (sinceSeq : Option Nat) {limit : Nat} {all : List BackendLogEntry}
    (h : all.length ≤ limit) : cut sinceSeq limit all = all := by
  rw [cut]
  split_ifs
  · exact List.take_of_length_le h
  · rw [keepNewest, Nat.sub_eq_zero_of_le h, List.drop_zero]

theorem length_cut_lt {sinceSeq : Option Nat} {limit : Nat} {all : List BackendLogEntry} :
    (cut sinceSeq limit all).length < all.length ↔ limit < all.length := by
  rw [cut]
  split_ifs
  · rw [List.length_take]
    omega
  · rw [keepNewest, List.length_drop]
    omega

/-- The page of a selection. -/
def pageOf (b : LogBuffer) (q : LogQuery) (p : BackendLogEntry → Bool) : LogPage :=
  let all := (b.ring.entries.drop (q.sinceSeq.elim 0 b.ring.indexOf)).filter p
  let matched := cut q.sinceSeq q.limit all
  let truncated := decide (matched.length < all.length)
  { entries := matched
    totalMatched := all.length
    truncated
    nextSeq := pageNextSeq q.sinceSeq truncated matched b.ring.nextSeq
    oldestSeq := b.ring.oldestSeq
    evicted := b.ring.evicted
    gap := q.sinceSeq.any fun s => 0 < b.ring.evictedSince s }

variable {texts fromStr privacy}

theorem seen_of_enabled (h : privacy.redactionEnabled = true) (e : BackendLogEntry) :
    seen texts fromStr privacy e =
      { e with
        message := privacy.redactOutput e.message
        target := privacy.redactOutput e.target
        spans := e.spans.map privacy.redactOutput
        fields := redactedFields texts fromStr privacy e.fields } := by
  rw [seen, visibleEntry, if_pos h]
  rfl

@[simp] theorem seen_seq (e : BackendLogEntry) : (seen texts fromStr privacy e).seq = e.seq := by
  rw [seen, visibleEntry]
  split_ifs <;> rfl

/-- Without text and field filters an entry is as good as what is seen of it. -/
theorem matches_eq {q : LogQuery} (hcontains : q.contains = none) (hfields : q.fields = [])
    (e : BackendLogEntry) : q.matches texts e = selects texts fromStr privacy q e := by
  have hlevel : (seen texts fromStr privacy e).level = e.level := by
    rw [seen, visibleEntry]
    split_ifs <;> rfl
  have htime : (seen texts fromStr privacy e).tsMs = e.tsMs := by
    rw [seen, visibleEntry]
    split_ifs <;> rfl
  have hsince : q.sinceMs.all (fun ms => decide (ms ≤ e.tsMs)) =
      !q.sinceMs.any fun ms => decide (e.tsMs < ms) := by
    cases q.sinceMs with
    | none => rfl
    | some ms =>
        rw [Option.all_some, Option.any_some, ← decide_not]
        simp only [Nat.not_lt]
  have hnofields : entryFieldsMatch texts e [] = true := rfl
  have hnofields' : entryFieldsMatch texts (seen texts fromStr privacy e) [] = true := rfl
  rw [selects, passes, hlevel, htime, hsince, hcontains, hfields, LogQuery.matches, hcontains,
    hfields, hnofields, hnofields', targetMatches]
  rcases Nat.lt_or_ge e.level.index q.minLevel.index with hlow | hhigh
  · rw [if_pos hlow, decide_eq_false (Nat.not_le.mpr hlow)]
    simp only [Bool.false_and, Bool.and_false]
  · rw [if_neg (Nat.not_lt.mpr hhigh), decide_eq_true hhigh]
    cases q.sinceMs.any fun ms => decide (e.tsMs < ms) with
    | true => simp only [if_true, Bool.not_true, Bool.and_false, Bool.false_and]
    | false =>
        cases q.targets.isEmpty with
        | true => simp
        | false =>
            cases q.targets.any fun t => t.toList.isPrefixOf e.target.toList <;> simp

theorem pageNextSeq_uncut (sinceSeq : Option Nat) (entries : List BackendLogEntry) (next : Nat) :
    pageNextSeq sinceSeq false entries next = next := by
  cases sinceSeq <;> rfl

theorem query_eq (b : LogBuffer) (q : LogQuery) :
    b.query texts q = pageOf b q (q.matches texts) := rfl

/-- Filtering the whole of a page again and cutting it is the page of both filters. -/
theorem pageOf_filter {b : LogBuffer} {q : LogQuery} {p p' : BackendLogEntry → Bool} {limit : Nat}
    (hlimit : b.ring.entries.length ≤ limit) :
    let page := pageOf b { q with limit } p
    let visible := page.entries.filter p'
    let truncated := decide (q.limit < visible.length)
    let matched := if truncated then cut q.sinceSeq q.limit visible else visible
    { page with
      entries := matched
      totalMatched := visible.length
      truncated
      nextSeq := pageNextSeq q.sinceSeq truncated matched page.nextSeq } =
      pageOf b q fun e => p' e && p e := by
  intro page visible truncated matched
  let all := (b.ring.entries.drop (q.sinceSeq.elim 0 b.ring.indexOf)).filter fun e => p' e && p e
  have hwhole : page.entries =
      (b.ring.entries.drop (q.sinceSeq.elim 0 b.ring.indexOf)).filter p := by
    refine cut_of_le _ (Nat.le_trans (List.length_filter_le _ _) ?_)
    rw [List.length_drop]
    exact Nat.le_trans (Nat.sub_le _ _) hlimit
  have hnext : page.nextSeq = b.ring.nextSeq := by
    have huncut : decide (page.entries.length < page.totalMatched) = false := by
      rw [hwhole]
      exact decide_eq_false (Nat.lt_irrefl _)
    change pageNextSeq q.sinceSeq (decide (page.entries.length < page.totalMatched)) _ _ = _
    rw [huncut]
    exact pageNextSeq_uncut _ _ _
  have hvisible : visible = all := by
    change page.entries.filter p' = _
    rw [hwhole, List.filter_filter]
  have htruncated : truncated = decide ((cut q.sinceSeq q.limit all).length < all.length) := by
    change decide (q.limit < visible.length) = _
    rw [hvisible]
    exact decide_eq_decide.mpr length_cut_lt.symm
  have hmatched : matched = cut q.sinceSeq q.limit all := by
    change (if truncated then cut q.sinceSeq q.limit visible else visible) = _
    rw [hvisible]
    split_ifs with hcut
    · rfl
    · rw [htruncated, decide_eq_true_eq, length_cut_lt, Nat.not_lt] at hcut
      rw [cut_of_le _ hcut]
  rw [hnext, hmatched, htruncated, hvisible]
  rfl

/-- What is read is the page of the selection. -/
theorem logsBackend_eq (henabled : privacy.redactionEnabled = true) {b : LogBuffer}
    (hlength : b.ring.entries.length ≤ usizeMax) (q : LogQuery) :
    logsBackend texts fromStr privacy b q =
      pageOf b q (selects texts fromStr privacy q) := by
  rw [logsBackend, henabled, Bool.true_and]
  split_ifs with hfilters
  · rw [queryVisible, query_eq]
    refine (pageOf_filter hlength).trans (congrArg (pageOf b q) (funext fun e => ?_))
    have hbare : entryFieldsMatch texts (seen texts fromStr privacy e) [] = true := rfl
    rw [@matches_eq texts fromStr privacy _ rfl rfl e, selects, selects, passes, passes,
      Option.all_map, hbare, Option.all_none, Bool.and_true, Bool.and_true]
    have htargets :
        targetMatches { q with contains := none, fields := [], limit := usizeMax } e.target =
          targetMatches q e.target := rfl
    rw [htargets]
    dsimp only [Function.comp_def]
    ac_rfl
  · rw [Bool.or_eq_true, not_or, Option.isSome_iff_ne_none, not_not] at hfilters
    have hfields : q.fields = [] := by
      simpa using hfilters.2
    have hselects : q.matches texts = selects texts fromStr privacy q :=
      funext fun e => matches_eq hfilters.1 hfields e
    rw [LogBuffer.query, hselects]
    rfl

/-! ## Two buffers that look the same -/

/-- The entries look the same once redacted, and the counters are the same. -/
structure SameView (texts : TextFunctions) (fromStr : String → Option Json.Value)
    (privacy : PrivacyConfig) (b b' : LogBuffer) : Prop where
  entries : b.ring.entries.map (seen texts fromStr privacy) =
    b'.ring.entries.map (seen texts fromStr privacy)
  nextSeq : b.ring.nextSeq = b'.ring.nextSeq
  evicted : b.ring.evicted = b'.ring.evicted
  clearedBefore : b.ring.clearedBefore = b'.ring.clearedBefore

theorem pageNextSeq_map (sinceSeq : Option Nat) (truncated : Bool)
    (entries : List BackendLogEntry) (next : Nat) :
    pageNextSeq sinceSeq truncated (entries.map (seen texts fromStr privacy)) next =
      pageNextSeq sinceSeq truncated entries next := by
  cases sinceSeq with
  | none => rfl
  | some since =>
      rw [pageNextSeq, pageNextSeq, List.getLast?_map]
      cases entries.getLast? with
      | none => rfl
      | some last =>
          rw [Option.map_some, Option.elim_some, Option.elim_some, seen_seq]

theorem cut_map {sinceSeq : Option Nat} {limit : Nat} (all : List BackendLogEntry) :
    cut sinceSeq limit (all.map (seen texts fromStr privacy)) =
      (cut sinceSeq limit all).map (seen texts fromStr privacy) := by
  rw [cut, cut]
  split_ifs
  · rw [List.map_take]
  · rw [keepNewest, keepNewest, List.length_map, List.map_drop]

/-- A page is shown as the cut of what is seen of the selection. -/
theorem shown_pageOf (b : LogBuffer) (q : LogQuery) (p : BackendLogEntry → Bool) :
    let view := ((b.ring.entries.drop (q.sinceSeq.elim 0 b.ring.indexOf)).filter p).map
      (seen texts fromStr privacy)
    shown texts fromStr privacy (pageOf b q p) =
      { entries := cut q.sinceSeq q.limit view
        totalMatched := view.length
        truncated := decide ((cut q.sinceSeq q.limit view).length < view.length)
        nextSeq := pageNextSeq q.sinceSeq
          (decide ((cut q.sinceSeq q.limit view).length < view.length))
          (cut q.sinceSeq q.limit view) b.ring.nextSeq
        oldestSeq := b.ring.oldestSeq
        evicted := b.ring.evicted
        gap := q.sinceSeq.any fun s => 0 < b.ring.evictedSince s } := by
  intro view
  rw [cut_map, pageNextSeq_map, List.length_map, List.length_map]
  rfl

namespace SameView

variable {b b' : LogBuffer}

theorem length_eq (h : SameView texts fromStr privacy b b') :
    b.ring.entries.length = b'.ring.entries.length := by
  have hlength := congrArg List.length h.entries
  rwa [List.length_map, List.length_map] at hlength

theorem front_eq (h : SameView texts fromStr privacy b b') :
    b.ring.entries.head?.map BackendLogEntry.seq =
      b'.ring.entries.head?.map BackendLogEntry.seq := by
  have hfront := congrArg (fun l => l.head?.map BackendLogEntry.seq) h.entries
  simpa only [List.head?_map, Option.map_map, Function.comp_def, seen_seq] using hfront

theorem indexOf_eq (h : SameView texts fromStr privacy b b') (seq : Nat) :
    b.ring.indexOf seq = b'.ring.indexOf seq := by
  have hindex (ring : Ring) : ring.indexOf seq = (ring.entries.head?.map BackendLogEntry.seq).elim 0
      fun front => min (seq - front) ring.entries.length := by
    rw [Ring.indexOf, Option.elim_map]
    rfl
  rw [hindex, hindex, h.front_eq, h.length_eq]

theorem oldestSeq_eq (h : SameView texts fromStr privacy b b') :
    b.ring.oldestSeq = b'.ring.oldestSeq := by
  have holdest (ring : Ring) : ring.oldestSeq =
      (ring.entries.head?.map BackendLogEntry.seq).elim ring.nextSeq fun front => front := by
    rw [Ring.oldestSeq, Option.elim_map]
    rfl
  rw [holdest, holdest, h.front_eq, h.nextSeq]

/-- Selections that agree entry by entry give pages that look the same. -/
theorem pageOf_shown (h : SameView texts fromStr privacy b b') {p : BackendLogEntry → Bool}
    (hsame : ∀ e e', (e, e') ∈ b.ring.entries.zip b'.ring.entries → p e = p e')
    (q : LogQuery) :
    shown texts fromStr privacy (pageOf b q p) = shown texts fromStr privacy (pageOf b' q p) := by
  have hpairs : List.Forall₂
      (fun e e' => seen texts fromStr privacy e = seen texts fromStr privacy e')
      b.ring.entries b'.ring.entries := by
    rw [← List.forall₂_map_right_iff, ← List.forall₂_map_left_iff, List.forall₂_eq_eq_eq]
    exact h.entries
  have hboth : List.Forall₂
      (fun e e' => seen texts fromStr privacy e = seen texts fromStr privacy e' ∧ p e = p e')
      b.ring.entries b'.ring.entries := by
    rw [List.forall₂_iff_zip] at hpairs ⊢
    exact ⟨hpairs.1, fun hmem => ⟨hpairs.2 hmem, hsame _ _ hmem⟩⟩
  have hindex : q.sinceSeq.elim 0 b.ring.indexOf = q.sinceSeq.elim 0 b'.ring.indexOf :=
    congrArg (q.sinceSeq.elim 0) (funext h.indexOf_eq)
  have hview :
      ((b.ring.entries.drop (q.sinceSeq.elim 0 b.ring.indexOf)).filter p).map
          (seen texts fromStr privacy) =
        ((b'.ring.entries.drop (q.sinceSeq.elim 0 b'.ring.indexOf)).filter p).map
          (seen texts fromStr privacy) := by
    rw [hindex, ← List.forall₂_eq_eq_eq, List.forall₂_map_left_iff, List.forall₂_map_right_iff]
    refine (List.rel_filter ?_ (List.forall₂_drop _ hboth)).imp fun _ _ hpair => hpair.1
    exact fun _ _ hpair => iff_of_eq (congrArg (· = true) hpair.2)
  have hgap (s : Nat) : b.ring.evictedSince s = b'.ring.evictedSince s := by
    rw [Ring.evictedSince, Ring.evictedSince, h.oldestSeq_eq, h.clearedBefore]
  rw [shown_pageOf, shown_pageOf, hview, h.nextSeq, h.oldestSeq_eq, h.evicted, funext hgap]

theorem pair_seen (h : SameView texts fromStr privacy b b') {e e' : BackendLogEntry}
    (hmem : (e, e') ∈ b.ring.entries.zip b'.ring.entries) :
    seen texts fromStr privacy e = seen texts fromStr privacy e' := by
  have hpairs := h.entries
  rw [← List.forall₂_eq_eq_eq, List.forall₂_map_left_iff, List.forall₂_map_right_iff,
    List.forall₂_iff_zip] at hpairs
  exact hpairs.2 hmem

theorem symm (h : SameView texts fromStr privacy b b') : SameView texts fromStr privacy b' b :=
  ⟨h.entries.symm, h.nextSeq.symm, h.evicted.symm, h.clearedBefore.symm⟩

end SameView

/-! ## Buffers of a run -/

/-- A buffer the program can have. -/
inductive Reached : LogBuffer → Prop
  | new {capacity maxBytes : Nat} (h : capacity ≤ usizeMax) : Reached (.new capacity maxBytes)
  | push {b : LogBuffer} (h : Reached b) (e : BackendLogEntry) : Reached (b.push e)
  | clear {b : LogBuffer} (h : Reached b) : Reached b.clear

theorem Reached.tracks {b : LogBuffer} (h : Reached b) :
    ∃ pushed oldest, Tracks pushed oldest b.ring := by
  induction h with
  | new => exact ⟨[], 0, tracks_empty⟩
  | @push b _ e ih =>
      obtain ⟨pushed, oldest, htracks⟩ := ih
      obtain ⟨oldest', -, -, -, htracks'⟩ := htracks.push b.capacity_pos b.maxBytes e
      exact ⟨_, oldest', htracks'⟩
  | clear _ ih =>
      obtain ⟨pushed, oldest, htracks⟩ := ih
      exact ⟨pushed, pushed.length, htracks.clear⟩

theorem Reached.length_le {b : LogBuffer} (h : Reached b) :
    b.ring.entries.length ≤ usizeMax := by
  have hcapacity : b.ring.entries.length ≤ b.capacity ∧ b.capacity ≤ usizeMax := by
    induction h with
    | new h => exact ⟨Nat.zero_le _, Nat.max_le.mpr ⟨h, by decide⟩⟩
    | @push b _ e ih => exact ⟨length_evict_le _ _ _, ih.2⟩
    | clear _ ih => exact ⟨Nat.zero_le _, ih.2⟩
  exact Nat.le_trans hcapacity.1 hcapacity.2

/-- A page of one entry, read from the number of an entry that is selected, shows it. -/
theorem selects_of_shown {b b' : LogBuffer} (hb : Reached b) (hb' : Reached b')
    {e e' : BackendLogEntry} (he : e ∈ b.ring.entries) (he' : e' ∈ b'.ring.entries)
    (hseq : e.seq = e'.seq) {q : LogQuery} {p : BackendLogEntry → Bool}
    (hpage : shown texts fromStr privacy (pageOf b { q with sinceSeq := some e.seq, limit := 1 } p) =
      shown texts fromStr privacy (pageOf b' { q with sinceSeq := some e.seq, limit := 1 } p))
    (hselected : p e = true) : p e' = true := by
  obtain ⟨pushed, oldest, htracks⟩ := hb.tracks
  obtain ⟨pushed', oldest', htracks'⟩ := hb'.tracks
  obtain ⟨rest, hsince, -⟩ := htracks.since_of_mem he
  obtain ⟨rest', hsince', hlater⟩ := htracks'.since_of_mem he'
  have hfirst : (shown texts fromStr privacy
      (pageOf b { q with sinceSeq := some e.seq, limit := 1 } p)).entries =
        [seen texts fromStr privacy e] := by
    change (((b.ring.since e.seq).filter p).take 1).map _ = _
    rw [hsince, List.filter_cons_of_pos hselected]
    rfl
  rw [hpage] at hfirst
  change (((b'.ring.since e.seq).filter p).take 1).map _ = _ at hfirst
  rw [hseq, hsince'] at hfirst
  by_contra hunselected
  rw [List.filter_cons_of_neg hunselected] at hfirst
  -- the page would start later
  have hmem : seen texts fromStr privacy e ∈
      ((rest'.filter p).take 1).map (seen texts fromStr privacy) := by
    rw [hfirst]
    exact List.mem_singleton_self _
  obtain ⟨d, hd, hsame⟩ := List.mem_map.mp hmem
  have hafter := hlater d (List.mem_of_mem_filter (List.mem_of_mem_take hd))
  have heq := congrArg BackendLogEntry.seq hsame
  rw [seen_seq, seen_seq] at heq
  omega

end Selection

/-! ## A probe -/

/-- A redactor that takes out two addresses, and the JSON text of no fields. -/
def addressPrivacy : PrivacyConfig :=
  { redactionEnabled := true
    redact := fun s => if s = "ann@x.io" ∨ s = "bob@x.io" then "[REDACTED]" else s }

def plainTexts : TextFunctions := ⟨String.toLower, fun _ => "\x7b\x7d"⟩

def parseNoFields (s : String) : Option Json.Value :=
  if s = "\x7b\x7d" then some (.object []) else none

/-- A buffer of one record. -/
def bufferOf (target message : String) : LogBuffer :=
  (LogBuffer.new 8 4096).push ⟨0, 5, .info, target, message, [], [], none, none, .tracing⟩

theorem bufferOf_entries (target message : String) :
    (bufferOf target message).ring.entries =
      [⟨0, 5, .info, target, message, [], [], none, none, .tracing⟩] := by
  rw [bufferOf, LogBuffer.push, Ring.push, evict_singleton (LogBuffer.new 8 4096).capacity_pos _ rfl]
  rfl

theorem reached_bufferOf (target message : String) : Reached (bufferOf target message) :=
  .push (.new (by decide)) _

end Victauri.Plugin.Mcp
