import Victauri.Plugin.BackendLogs.History

/-!
# Reading the log buffer page by page

A reader hands each page's cursor back with the next query while the buffer goes on growing
and evicting.  A page takes a stretch of the history that starts where the last one ended.
-/

namespace Victauri.Plugin.BackendLogs

/-! ## One page -/

/-- The first `limit` matches are the matches of a prefix that ends in the last of them. -/
theorem take_filter {α : Type*} (p : α → Bool) {xs : List α} {limit : Nat} (hlimit : 1 ≤ limit)
    (h : limit < (xs.filter p).length) :
    ∃ i < xs.length, (xs.filter p).take limit = (xs.take (i + 1)).filter p ∧
      ((xs.filter p).take limit).getLast? = xs[i]? := by
  induction xs generalizing limit with
  | nil => exact absurd h (Nat.not_lt_zero _)
  | cons x xs ih =>
      cases hx : p x with
      | false =>
          rw [List.filter_cons_of_neg (by rw [hx]; exact Bool.false_ne_true)] at h ⊢
          obtain ⟨i, hi, htake, hlast⟩ := ih hlimit h
          refine ⟨i + 1, Nat.succ_lt_succ hi, ?_, hlast⟩
          rw [htake, List.take_succ_cons, List.filter_cons_of_neg (by rw [hx]; exact Bool.false_ne_true)]
      | true =>
          rw [List.filter_cons_of_pos hx] at h ⊢
          obtain ⟨rest, rfl⟩ := Nat.exists_eq_add_of_le' hlimit
          rw [List.take_succ_cons]
          rcases Nat.eq_zero_or_pos rest with rfl | hpos
          · refine ⟨0, Nat.succ_pos _, ?_, rfl⟩
            rw [List.take_zero, List.take_succ_cons, List.take_zero, List.filter_cons_of_pos hx,
              List.filter_nil]
          · rw [List.length_cons, Nat.add_lt_add_iff_right] at h
            obtain ⟨i, hi, htake, hlast⟩ := ih hpos h
            refine ⟨i + 1, Nat.succ_lt_succ hi, ?_, ?_⟩
            · rw [htake, List.take_succ_cons, List.filter_cons_of_pos hx]
            · have hne : (xs.filter p).take rest ≠ [] := by
                intro hnil
                have hlength := congrArg List.length hnil
                rw [List.length_take, List.length_nil] at hlength
                omega
              rw [List.getLast?_cons_of_ne_nil hne, hlast, List.getElem?_cons_succ]

section Page

variable {texts : TextFunctions} {pushed : List BackendLogEntry} {oldest : Nat} {b : LogBuffer}
  {q : LogQuery} {since : Nat}

/-- What a cursor read answers: the matches of a stretch of the history. -/
structure PageSpec (texts : TextFunctions) (pushed : List BackendLogEntry) (oldest since : Nat)
    (q : LogQuery) (page : LogPage) : Prop where
  entries : page.entries =
    (stretch pushed (max oldest since) page.nextSeq).filter (q.matches texts)
  nextSeq_le : page.nextSeq ≤ pushed.length
  since_le : since ≤ page.nextSeq ∨ page.nextSeq = pushed.length
  oldestSeq : page.oldestSeq = oldest
  gap : page.gap = true ↔ since < oldest

theorem query_spec (h : Tracks pushed oldest b.ring) (hcleared : b.ring.clearedBefore = 0)
    (hsince : q.sinceSeq = some since) (hlimit : 1 ≤ q.limit) :
    PageSpec texts pushed oldest since q (b.query texts q) := by
  have hcandidates : b.ring.entries.drop (b.ring.indexOf since) =
      (numbered pushed).drop (max oldest since) := h.since since
  have hgap : decide (0 < b.ring.evictedSince since) = true ↔ since < oldest := by
    rw [decide_eq_true_eq, Ring.evictedSince, h.oldestSeq, hcleared]
    omega
  unfold LogBuffer.query
  simp only [hsince, Option.elim_some, Option.isSome_some, if_true, Option.any_some, hcandidates]
  by_cases hfew : q.limit < (((numbered pushed).drop (max oldest since)).filter
      (q.matches texts)).length
  · obtain ⟨i, hi, htake, hlast⟩ := take_filter (q.matches texts) hlimit hfew
    rw [List.length_drop, length_numbered] at hi
    have hnext : pageNextSeq (some since) true
        ((((numbered pushed).drop (max oldest since)).filter (q.matches texts)).take q.limit)
        b.ring.nextSeq = max oldest since + i + 1 := by
      have hlt : max oldest since + i < (numbered pushed).length := by
        rw [length_numbered]
        omega
      rw [pageNextSeq, hlast, List.getElem?_drop, List.getElem?_eq_getElem hlt, if_pos rfl,
        Option.elim_some, seq_numbered]
    have htruncated : decide (((((numbered pushed).drop (max oldest since)).filter
        (q.matches texts)).take q.limit).length < (((numbered pushed).drop
        (max oldest since)).filter (q.matches texts)).length) = true := by
      rw [decide_eq_true_eq, List.length_take]
      omega
    refine ⟨?_, ?_, ?_, h.oldestSeq, hgap⟩
    · dsimp only
      rw [htruncated, hnext, htake, stretch, List.drop_take]
      congr 2
      omega
    · dsimp only
      rw [htruncated, hnext]
      omega
    · dsimp only
      rw [htruncated, hnext]
      omega
  · have htake : (((numbered pushed).drop (max oldest since)).filter
        (q.matches texts)).take q.limit =
        ((numbered pushed).drop (max oldest since)).filter (q.matches texts) :=
      List.take_of_length_le (Nat.not_lt.mp hfew)
    have hnext : pageNextSeq (some since) false
        (((numbered pushed).drop (max oldest since)).filter (q.matches texts))
        b.ring.nextSeq = pushed.length := by
      rw [pageNextSeq, h.nextSeq]
      rfl
    rw [htake, decide_eq_false (Nat.lt_irrefl _)]
    refine ⟨?_, ?_, ?_, h.oldestSeq, hgap⟩
    · dsimp only
      rw [hnext, drop_numbered]
    · exact Nat.le_of_eq hnext
    · exact .inr hnext

end Page

/-! ## A whole reading -/

/-- What happens to a buffer while it is read: a record comes in, or the reader asks. -/
inductive Action where
  | push (entry : BackendLogEntry)
  | query (limit : Nat)

/-- The record an action brings. -/
def Action.pushed : Action → Option BackendLogEntry
  | push entry => some entry
  | query _ => none

/-- A buffer, the cursor of its reader, and the pages so far with the cursor of each. -/
structure Reading where
  buffer : LogBuffer
  cursor : Nat
  pages : List (Nat × LogPage)

namespace Reading

/-- The reader asks with its filter and the last page's cursor. -/
def step (texts : TextFunctions) (filter : LogQuery) (r : Reading) : Action → Reading
  | .push entry => { r with buffer := r.buffer.push entry }
  | .query limit =>
      let page := r.buffer.query texts { filter with sinceSeq := some r.cursor, limit }
      { r with cursor := page.nextSeq, pages := r.pages ++ [(r.cursor, page)] }

def run (texts : TextFunctions) (filter : LogQuery) (r : Reading) (actions : List Action) :
    Reading :=
  actions.foldl (step texts filter) r

/-- The pages, one after another. -/
def delivered (r : Reading) : List BackendLogEntry := r.pages.flatMap fun p => p.2.entries

end Reading

/-- The page that passed over an entry the ring had evicted, and says so. -/
def Skipped (e : BackendLogEntry) (p : Nat × LogPage) : Prop :=
  p.1 ≤ e.seq ∧ e.seq < p.2.nextSeq ∧ e.seq < p.2.oldestSeq ∧ p.2.gap = true

/-- The pages hold every match from `start` up to the cursor once and in order, but for
evicted entries, which a page owns up to. -/
structure Complete (texts : TextFunctions) (filter : LogQuery) (pushed : List BackendLogEntry)
    (start : Nat) (r : Reading) : Prop where
  ordered : r.delivered.Pairwise (fun e e' => e.seq < e'.seq)
  sound : ∀ e ∈ r.delivered,
    e ∈ numbered pushed ∧ filter.matches texts e = true ∧ e.seq < r.cursor
  complete : ∀ e ∈ numbered pushed, filter.matches texts e = true → start ≤ e.seq →
    e.seq < r.cursor → e ∈ r.delivered ∨ ∃ p ∈ r.pages, Skipped e p

/-- Between two actions: the buffer is on its history, and the cursor in it once a page was
read. -/
structure Reading.Inv (texts : TextFunctions) (filter : LogQuery)
    (pushed : List BackendLogEntry) (start : Nat) (r : Reading) : Prop where
  tracks : ∃ oldest, Tracks pushed oldest r.buffer.ring
  cleared : r.buffer.ring.clearedBefore = 0
  cursor : r.pages = [] ∧ r.cursor = start ∨ r.cursor ≤ pushed.length
  complete : Complete texts filter pushed start r

section Run

variable {texts : TextFunctions} {filter : LogQuery} {pushed : List BackendLogEntry}
  {start : Nat} {r : Reading}

theorem Reading.Inv.push (h : r.Inv texts filter pushed start) (e : BackendLogEntry) :
    (r.step texts filter (.push e)).Inv texts filter (pushed ++ [e]) start := by
  obtain ⟨oldest, htracks⟩ := h.tracks
  obtain ⟨oldest', -, -, hcleared, htracks'⟩ :=
    htracks.push r.buffer.capacity_pos r.buffer.maxBytes e
  refine ⟨⟨oldest', htracks'⟩, hcleared.trans h.cleared, ?_, ?_⟩
  · refine h.cursor.imp_right fun hle => ?_
    rw [List.length_append]
    exact Nat.le_add_right_of_le hle
  · refine ⟨h.complete.ordered, ?_, ?_⟩
    · intro d hd
      obtain ⟨hmem, hmatch, hlt⟩ := h.complete.sound d hd
      refine ⟨?_, hmatch, hlt⟩
      rw [numbered_append]
      exact List.mem_append_left _ hmem
    · intro d hd hmatch hstart hlt
      rw [numbered_append, List.mem_append, List.mem_singleton] at hd
      rcases hd with hd | rfl
      · exact h.complete.complete d hd hmatch hstart hlt
      · -- the new entry is past the cursor
        have hcursor : r.cursor ≤ max start pushed.length := by
          rcases h.cursor with ⟨-, heq⟩ | hle
          · rw [heq]
            exact Nat.le_max_left _ _
          · exact Nat.le_trans hle (Nat.le_max_right _ _)
        have hlt : pushed.length < r.cursor := hlt
        have hstart : start ≤ pushed.length := hstart
        omega

theorem Reading.Inv.query (h : r.Inv texts filter pushed start) {limit : Nat}
    (hlimit : 1 ≤ limit) :
    (r.step texts filter (.query limit)).Inv texts filter pushed start := by
  obtain ⟨oldest, htracks⟩ := h.tracks
  let q : LogQuery := { filter with sinceSeq := some r.cursor, limit }
  let page := r.buffer.query texts q
  have hpage : PageSpec texts pushed oldest r.cursor q page :=
    query_spec htracks h.cleared rfl hlimit
  have hdelivered : (r.step texts filter (.query limit)).delivered =
      r.delivered ++ page.entries := by
    change (r.pages ++ [(r.cursor, page)]).flatMap (fun p => p.2.entries) = _
    rw [List.flatMap_append, List.flatMap_singleton]
    rfl
  have hmem (e : BackendLogEntry) : e ∈ page.entries ↔
      e ∈ numbered pushed ∧ e.seq < page.nextSeq ∧ max oldest r.cursor ≤ e.seq ∧
        filter.matches texts e = true := by
    rw [hpage.entries, List.mem_filter, mem_stretch]
    tauto
  have hback : r.delivered = [] ∨ r.cursor ≤ page.nextSeq := by
    rcases h.cursor with ⟨hnone, -⟩ | hle
    · left
      rw [Reading.delivered, hnone]
      rfl
    · right
      rcases hpage.since_le with hsince | hend
      · exact hsince
      · rwa [hend]
  refine ⟨⟨oldest, htracks⟩, h.cleared, .inr hpage.nextSeq_le, ?_, ?_, ?_⟩
  · rw [hdelivered, List.pairwise_append]
    refine ⟨h.complete.ordered, ?_, ?_⟩
    · rw [hpage.entries]
      exact ((numbered_pairwise pushed).sublist
        ((List.drop_sublist _ _).trans (List.take_sublist _ _))).filter _
    · intro e he e' he'
      have hlt := (h.complete.sound e he).2.2
      have hle := ((hmem e').mp he').2.2.1
      omega
  · intro e he
    rw [hdelivered, List.mem_append] at he
    change e ∈ numbered pushed ∧ filter.matches texts e = true ∧ e.seq < page.nextSeq
    rcases he with he | he
    · obtain ⟨hin, hmatch, hlt⟩ := h.complete.sound e he
      rcases hback with hnil | hle
      · rw [hnil] at he
        cases he
      · exact ⟨hin, hmatch, Nat.lt_of_lt_of_le hlt hle⟩
    · obtain ⟨hin, hlt, -, hmatch⟩ := (hmem e).mp he
      exact ⟨hin, hmatch, hlt⟩
  · intro e hin hmatch hstart hlt
    rw [hdelivered, List.mem_append]
    have hlt : e.seq < page.nextSeq := hlt
    have hpages : (r.step texts filter (.query limit)).pages = r.pages ++ [(r.cursor, page)] := rfl
    rw [hpages]
    by_cases hold : e.seq < r.cursor
    · rcases h.complete.complete e hin hmatch hstart hold with hd | ⟨p, hp, hskip⟩
      · exact .inl (.inl hd)
      · exact .inr ⟨p, List.mem_append_left _ hp, hskip⟩
    · by_cases hgone : e.seq < oldest
      · refine .inr ⟨(r.cursor, page), List.mem_append_right _ (List.mem_singleton_self _), ?_⟩
        refine ⟨Nat.not_lt.mp hold, hlt, ?_, hpage.gap.mpr (by omega)⟩
        rw [hpage.oldestSeq]
        exact hgone
      · exact .inl (.inr ((hmem e).mpr ⟨hin, hlt, by omega, hmatch⟩))

theorem Reading.Inv.run (h : r.Inv texts filter pushed start) (actions : List Action)
    (hlimits : ∀ limit, .query limit ∈ actions → 1 ≤ limit) :
    (r.run texts filter actions).Inv texts filter
      (pushed ++ actions.filterMap Action.pushed) start := by
  induction actions generalizing r pushed with
  | nil =>
      rw [List.filterMap_nil, List.append_nil]
      exact h
  | cons action actions ih =>
      have hrest : ∀ limit, .query limit ∈ actions → 1 ≤ limit :=
        fun limit hmem => hlimits limit (List.mem_cons_of_mem _ hmem)
      cases action with
      | push e =>
          have hnext := ih (h.push e) hrest
          rw [List.append_assoc] at hnext
          exact hnext
      | query limit => exact ih (h.query (hlimits limit (List.mem_cons_self ..))) hrest

end Run

/-- Reading page by page loses nothing that was not evicted, and says when something was. -/
theorem pages_complete (texts : TextFunctions) (filter : LogQuery) (capacity maxBytes start : Nat)
    (actions : List Action) (hlimits : ∀ limit, .query limit ∈ actions → 1 ≤ limit) :
    Complete texts filter (actions.filterMap Action.pushed) start
      (Reading.run texts filter ⟨.new capacity maxBytes, start, []⟩ actions) := by
  have hinit : Reading.Inv texts filter [] start ⟨.new capacity maxBytes, start, []⟩ :=
    { tracks := ⟨0, tracks_empty⟩
      cleared := rfl
      cursor := .inl ⟨rfl, rfl⟩
      complete :=
        { ordered := .nil
          sound := fun e he => absurd he List.not_mem_nil
          complete := fun e he => absurd he List.not_mem_nil } }
  exact (hinit.run actions hlimits).complete

/-- Three records come into a buffer of two before the first page is read. -/
theorem pages_complete_of_two :
    let texts : TextFunctions := ⟨String.toLower, fun _ => "null"⟩
    let e : BackendLogEntry :=
      ⟨0, 5, .info, "app", "ready", [], [], none, none, .tracing⟩
    let filter : LogQuery := ⟨.trace, [], none, none, none, [], 100⟩
    let actions : List Action := [.push e, .push e, .push e, .query 1, .push e, .query 7]
    Complete texts filter [e, e, e, e] 0
      (Reading.run texts filter ⟨.new 2 4096, 0, []⟩ actions) := by
  intro texts e filter actions
  refine pages_complete texts filter 2 4096 0 actions ?_
  intro limit hmem
  simp only [actions, List.mem_cons, reduceCtorEq, Action.query.injEq, List.not_mem_nil,
    or_false, false_or] at hmem
  omega

end Victauri.Plugin.BackendLogs
