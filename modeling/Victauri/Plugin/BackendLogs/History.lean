import Victauri.Plugin.BackendLogs

/-!
# The log buffer and its history

Entries leave the ring at its old end only, so a ring holds what is left of everything ever
pushed once its first entries are dropped, and a sequence number is a place in that history.
-/

namespace Victauri.Plugin.BackendLogs

/-- The entries as they were pushed, with their sequence numbers. -/
def numbered (pushed : List BackendLogEntry) : List BackendLogEntry :=
  pushed.mapIdx fun i e => { e with seq := i }

@[simp] theorem length_numbered (pushed : List BackendLogEntry) :
    (numbered pushed).length = pushed.length := by
  rw [numbered, List.length_mapIdx]

theorem seq_numbered (pushed : List BackendLogEntry) (i : Nat)
    (h : i < (numbered pushed).length) : (numbered pushed)[i].seq = i := by
  simp only [numbered, List.getElem_mapIdx]

theorem numbered_append (pushed : List BackendLogEntry) (e : BackendLogEntry) :
    numbered (pushed ++ [e]) = numbered pushed ++ [{ e with seq := pushed.length }] := by
  rw [numbered, List.mapIdx_append]
  simp only [List.mapIdx_cons, List.mapIdx_nil, Nat.zero_add]
  rfl

theorem seq_lt_of_mem {pushed : List BackendLogEntry} {e : BackendLogEntry}
    (h : e ∈ numbered pushed) : e.seq < pushed.length := by
  obtain ⟨i, hi, rfl⟩ := List.mem_iff_getElem.mp h
  rw [seq_numbered]
  rwa [length_numbered] at hi

/-- The entries numbered from `lo` up to `hi`. -/
def stretch (pushed : List BackendLogEntry) (lo hi : Nat) : List BackendLogEntry :=
  ((numbered pushed).take hi).drop lo

theorem mem_stretch {pushed : List BackendLogEntry} {e : BackendLogEntry} {lo hi : Nat} :
    e ∈ stretch pushed lo hi ↔ e ∈ numbered pushed ∧ e.seq < hi ∧ lo ≤ e.seq := by
  constructor
  · intro h
    obtain ⟨i, hlt, rfl⟩ := List.mem_iff_getElem.mp h
    rw [stretch, List.length_drop, List.length_take] at hlt
    simp only [stretch, List.getElem_drop, List.getElem_take, seq_numbered]
    exact ⟨List.getElem_mem _, by omega, Nat.le_add_right lo i⟩
  · rintro ⟨h, hhi, hlo⟩
    obtain ⟨i, hlt, rfl⟩ := List.mem_iff_getElem.mp h
    rw [seq_numbered] at hhi hlo
    refine List.mem_iff_getElem.mpr ⟨i - lo, ?_, ?_⟩
    · rw [stretch, List.length_drop, List.length_take]
      omega
    · simp only [stretch, List.getElem_drop, List.getElem_take, Nat.add_sub_cancel' hlo]

theorem drop_numbered (pushed : List BackendLogEntry) (lo : Nat) :
    (numbered pushed).drop lo = stretch pushed lo pushed.length := by
  rw [stretch, List.take_of_length_le (Nat.le_of_eq (length_numbered pushed))]

theorem length_stretch (pushed : List BackendLogEntry) (lo hi : Nat) :
    (stretch pushed lo hi).length = min hi pushed.length - lo := by
  rw [stretch, List.length_drop, List.length_take, length_numbered]

theorem stretch_of_le {lo hi : Nat} (h : hi ≤ lo) (pushed : List BackendLogEntry) :
    stretch pushed lo hi = [] := by
  apply List.drop_eq_nil_of_le
  rw [List.length_take]
  omega

theorem stretch_append {lo mid hi : Nat} (hlo : lo ≤ mid) (hhi : mid ≤ hi)
    (pushed : List BackendLogEntry) :
    stretch pushed lo mid ++ stretch pushed mid hi = stretch pushed lo hi := by
  rw [stretch, stretch, stretch, List.drop_take, List.drop_take, List.drop_take]
  have hdrop : (numbered pushed).drop mid = ((numbered pushed).drop lo).drop (mid - lo) := by
    rw [List.drop_drop]
    congr 1
    omega
  rw [hdrop, ← List.take_add]
  congr 1
  omega

/-- New entries leave the old ones where they are. -/
theorem stretch_push {hi : Nat} {pushed : List BackendLogEntry} (h : hi ≤ pushed.length)
    (e : BackendLogEntry) (lo : Nat) : stretch (pushed ++ [e]) lo hi = stretch pushed lo hi := by
  rw [stretch, numbered_append, List.take_append_of_le_length (by rwa [length_numbered])]
  rfl

/-- Filtering by number cuts the stretch off. -/
theorem filter_stretch {p : BackendLogEntry → Bool} {pushed : List BackendLogEntry}
    {lo hi start : Nat} (h : ∀ e ∈ stretch pushed lo hi, p e = true ↔ start ≤ e.seq) :
    (stretch pushed lo hi).filter p = stretch pushed (max lo start) hi := by
  have hnone {mid : Nat} (hmid : mid ≤ max lo start) (hhi : mid ≤ hi) :
      (stretch pushed lo mid).filter p = [] := by
    rw [List.filter_eq_nil_iff]
    intro e he
    obtain ⟨hin, hlt, hle⟩ := mem_stretch.mp he
    rw [h e (mem_stretch.mpr ⟨hin, by omega, hle⟩)]
    omega
  rcases Nat.le_total hi (max lo start) with hle | hle
  · rw [stretch_of_le hle, hnone hle (Nat.le_refl _)]
  · rw [← stretch_append (Nat.le_max_left lo start) hle, List.filter_append,
      hnone (Nat.le_refl _) hle, List.nil_append, List.filter_eq_self]
    intro e he
    obtain ⟨hin, hlt, hge⟩ := mem_stretch.mp he
    rw [h e (mem_stretch.mpr ⟨hin, hlt, by omega⟩)]
    omega

theorem numbered_pairwise (pushed : List BackendLogEntry) :
    (numbered pushed).Pairwise (fun e e' => e.seq < e'.seq) := by
  rw [List.pairwise_iff_getElem]
  intro i j hi hj hij
  rw [seq_numbered, seq_numbered]
  exact hij

/-! ## What the ring holds -/

/-- The ring holds the history past its first `oldest` entries. -/
structure Tracks (pushed : List BackendLogEntry) (oldest : Nat) (ring : Ring) : Prop where
  entries : ring.entries = (numbered pushed).drop oldest
  nextSeq : ring.nextSeq = pushed.length
  oldest_le : oldest ≤ pushed.length
  clearedBefore_le : ring.clearedBefore ≤ oldest

theorem tracks_empty : Tracks [] 0 .empty where
  entries := rfl
  nextSeq := rfl
  oldest_le := Nat.le_refl 0
  clearedBefore_le := Nat.le_refl 0

/-- Eviction drops entries at the old end and keeps the newest. -/
theorem evict_spec {capacity : Nat} (hcapacity : 1 ≤ capacity) (maxBytes : Nat) (ring : Ring)
    (hne : ring.entries ≠ []) :
    ∃ n < ring.entries.length, (ring.evict capacity maxBytes).entries = ring.entries.drop n ∧
      (ring.evict capacity maxBytes).nextSeq = ring.nextSeq ∧
      (ring.evict capacity maxBytes).clearedBefore = ring.clearedBefore := by
  fun_induction Ring.evict capacity maxBytes ring with
  | case1 ring hnil => exact absurd hnil hne
  | case2 ring old rest hcons hfull ih =>
      rw [hcons, List.length_cons] at hfull
      have hrest : rest ≠ [] := by
        rintro rfl
        rw [List.length_nil] at hfull
        omega
      obtain ⟨n, hn, hentries, hnext, hcleared⟩ := ih hrest
      refine ⟨n + 1, ?_, ?_, hnext, hcleared⟩
      · rw [hcons, List.length_cons]
        exact Nat.succ_lt_succ hn
      · rw [hcons, List.drop_succ_cons]
        exact hentries
  | case3 ring old rest hcons hfits =>
      refine ⟨0, ?_, rfl, rfl, rfl⟩
      rw [hcons, List.length_cons]
      exact Nat.succ_pos _

/-- A lone entry stays. -/
theorem evict_singleton {capacity : Nat} (hcapacity : 1 ≤ capacity) (maxBytes : Nat) {ring : Ring}
    (h : ring.entries.length = 1) : ring.evict capacity maxBytes = ring := by
  rw [Ring.evict.eq_def]
  split
  · rfl
  · rw [if_neg (by omega)]

theorem length_evict_le (capacity maxBytes : Nat) (ring : Ring) :
    (ring.evict capacity maxBytes).entries.length ≤ capacity := by
  fun_induction Ring.evict capacity maxBytes ring with
  | case1 ring hnil =>
      rw [hnil]
      exact Nat.zero_le _
  | case2 ring old rest hcons hfull ih => exact ih
  | case3 ring old rest hcons hfits => exact Nat.not_lt.mp fun hlt => hfits (.inl hlt)

namespace Tracks

variable {pushed : List BackendLogEntry} {oldest : Nat} {ring : Ring}

theorem length_entries (h : Tracks pushed oldest ring) :
    ring.entries.length = pushed.length - oldest := by
  rw [h.entries, List.length_drop, length_numbered]

theorem oldestSeq (h : Tracks pushed oldest ring) : ring.oldestSeq = oldest := by
  have hle := h.oldest_le
  rw [Ring.oldestSeq, h.nextSeq, h.entries]
  cases hdrop : (numbered pushed).drop oldest with
  | nil =>
      have hlength := congrArg List.length hdrop
      rw [List.length_drop, length_numbered, List.length_nil] at hlength
      change pushed.length = oldest
      omega
  | cons e rest =>
      have hlength := congrArg List.length hdrop
      rw [List.length_drop, length_numbered, List.length_cons] at hlength
      have hlt : oldest < (numbered pushed).length := by
        rw [length_numbered]
        omega
      rw [List.drop_eq_getElem_cons hlt] at hdrop
      rw [← (List.cons.inj hdrop).1]
      exact seq_numbered pushed oldest hlt

/-- Indexing by sequence number is exact. -/
theorem since (h : Tracks pushed oldest ring) (start : Nat) :
    ring.since start = (numbered pushed).drop (max oldest start) := by
  have hseq := h.oldestSeq
  rw [Ring.oldestSeq] at hseq
  rw [Ring.since, Ring.indexOf]
  cases hentries : ring.entries with
  | nil =>
      have hlength := h.length_entries
      rw [hentries, List.length_nil] at hlength
      have hpast : (numbered pushed).drop (max oldest start) = [] := by
        apply List.drop_eq_nil_of_le
        rw [length_numbered]
        omega
      rw [hpast]
      rfl
  | cons front rest =>
      rw [hentries] at hseq
      have hfront : front.seq = oldest := hseq
      have hlength := h.length_entries
      rw [List.head?_cons, Option.elim_some, hfront, ← hentries, hlength, h.entries,
        List.drop_drop]
      by_cases hpast : start ≤ pushed.length
      · congr 1
        omega
      · rw [List.drop_eq_nil_of_le, List.drop_eq_nil_of_le]
        · rw [length_numbered]
          omega
        · rw [length_numbered]
          omega

/-- Reading from an entry's number starts with that entry. -/
theorem since_of_mem (h : Tracks pushed oldest ring) {e : BackendLogEntry}
    (he : e ∈ ring.entries) :
    ∃ rest, ring.since e.seq = e :: rest ∧ ∀ d ∈ rest, e.seq < d.seq := by
  rw [h.entries, drop_numbered, mem_stretch] at he
  obtain ⟨hin, hlt, hle⟩ := he
  obtain ⟨i, hi, rfl⟩ := List.mem_iff_getElem.mp hin
  rw [seq_numbered] at hlt hle ⊢
  refine ⟨(numbered pushed).drop (i + 1), ?_, ?_⟩
  · rw [h.since, Nat.max_eq_right hle, List.drop_eq_getElem_cons hi]
  · intro d hd
    rw [drop_numbered, mem_stretch] at hd
    exact hd.2.2

/-- A push appends to the history and may drop more of its beginning, never the new entry. -/
theorem push (h : Tracks pushed oldest ring) {capacity : Nat} (hcapacity : 1 ≤ capacity)
    (maxBytes : Nat) (e : BackendLogEntry) :
    ∃ oldest', oldest ≤ oldest' ∧ oldest' ≤ pushed.length ∧
      (ring.push capacity maxBytes e).clearedBefore = ring.clearedBefore ∧
      Tracks (pushed ++ [e]) oldest' (ring.push capacity maxBytes e) := by
  let grown : Ring :=
    { ring with
      nextSeq := ring.nextSeq + 1
      totals := ring.totals.modify e.level.index (· + 1)
      bytes := ring.bytes + { e with seq := ring.nextSeq : BackendLogEntry }.approxBytes
      entries := ring.entries ++ [{ e with seq := ring.nextSeq }] }
  have hle := h.oldest_le
  have hgrown : grown.entries = (numbered (pushed ++ [e])).drop oldest := by
    rw [numbered_append, List.drop_append_of_le_length (by rw [length_numbered]; exact hle),
      ← h.entries, ← h.nextSeq]
  have hlength : grown.entries.length = pushed.length + 1 - oldest := by
    rw [hgrown, List.length_drop, length_numbered, List.length_append, List.length_singleton]
  have hne : grown.entries ≠ [] := by
    intro hnil
    rw [hnil, List.length_nil] at hlength
    omega
  obtain ⟨n, hn, hentries, hnext, hcleared⟩ := evict_spec hcapacity maxBytes grown hne
  refine ⟨oldest + n, Nat.le_add_right _ _, by omega, hcleared, ?_⟩
  exact
    { entries := by
        rw [← List.drop_drop, ← hgrown]
        exact hentries
      nextSeq := by
        rw [List.length_append, List.length_singleton, ← h.nextSeq]
        exact hnext
      oldest_le := by
        rw [List.length_append, List.length_singleton]
        omega
      clearedBefore_le := by
        have hbefore := h.clearedBefore_le
        have hsame : (ring.push capacity maxBytes e).clearedBefore = ring.clearedBefore := hcleared
        omega }

theorem clear (h : Tracks pushed oldest ring) : Tracks pushed pushed.length ring.clear where
  entries := by
    rw [List.drop_eq_nil_of_le (Nat.le_of_eq (length_numbered pushed))]
    rfl
  nextSeq := h.nextSeq
  oldest_le := Nat.le_refl _
  clearedBefore_le := Nat.le_of_eq h.nextSeq

end Tracks

end Victauri.Plugin.BackendLogs
