import Mathlib.Data.List.Forall2

/-!
# Lines

A text split behind every line feed, and its lines without their ends: a line feed, or a carriage
return and a line feed.
-/

namespace Lines

variable {α : Type*} [DecidableEq α] (lf cr : α)

/-- `str::split_inclusive`, at line feeds. -/
def splitInclusive : List α → List (List α)
  | [] => []
  | c :: text =>
      if c = lf then [c] :: splitInclusive text
      else
        match splitInclusive text with
        | [] => [[c]]
        | piece :: pieces => (c :: piece) :: pieces

def stripEnd (piece : List α) : List α :=
  if piece.getLast? = some lf then
    if piece.dropLast.getLast? = some cr then piece.dropLast.dropLast else piece.dropLast
  else piece

/-- `str::lines`. -/
def lines (text : List α) : List (List α) := (splitInclusive lf text).map (stripEnd lf cr)

variable {lf cr}

/-! ## Pieces -/

theorem splitInclusive_lf (text : List α) :
    splitInclusive lf (lf :: text) = [lf] :: splitInclusive lf text := by
  rw [splitInclusive, if_pos rfl]

theorem splitInclusive_last {body : List α} (hbody : lf ∉ body) (hne : body ≠ []) :
    splitInclusive lf body = [body] := by
  induction body with
  | nil => exact absurd rfl hne
  | cons c body ih =>
    rw [List.mem_cons, not_or] at hbody
    rw [splitInclusive, if_neg (Ne.symm hbody.1)]
    by_cases hnil : body = []
    · rw [hnil]
      rfl
    · rw [ih hbody.2 hnil]

theorem splitInclusive_cons {body : List α} (hbody : lf ∉ body) (rest : List α) :
    splitInclusive lf (body ++ lf :: rest) = (body ++ [lf]) :: splitInclusive lf rest := by
  induction body with
  | nil => exact splitInclusive_lf rest
  | cons c body ih =>
    rw [List.mem_cons, not_or] at hbody
    rw [List.cons_append, splitInclusive, if_neg (Ne.symm hbody.1), ih hbody.2]
    rfl

variable (lf) in
/-- A text is empty, a line without an end, or a line in front of a text. -/
theorem lines_induction {motive : List α → Prop} (nil : motive [])
    (last : ∀ body, lf ∉ body → body ≠ [] → motive body)
    (cons : ∀ body rest, lf ∉ body → motive rest → motive (body ++ lf :: rest))
    (text : List α) : motive text := by
  induction h : text.length using Nat.strongRecOn generalizing text with
  | ind n ih =>
    by_cases hlf : lf ∈ text
    · obtain ⟨body, rest, rfl, hbody⟩ := List.eq_append_cons_of_mem hlf
      apply cons body rest hbody
      apply ih rest.length _ rest rfl
      rw [← h, List.length_append, List.length_cons]
      omega
    · by_cases hnil : text = []
      · rw [hnil]
        exact nil
      · exact last text hlf hnil

theorem flatten_splitInclusive (text : List α) : (splitInclusive lf text).flatten = text := by
  induction text using lines_induction lf with
  | nil => rfl
  | last body hbody hne => rw [splitInclusive_last hbody hne, List.flatten_singleton]
  | cons body rest hbody ih =>
    rw [splitInclusive_cons hbody, List.flatten_cons, ih, List.append_assoc,
      List.singleton_append]

/-- Every piece is a line with its end, but the last may have none. -/
theorem piece_cases {text : List α} {front back : List (List α)} {piece : List α}
    (h : splitInclusive lf text = front ++ piece :: back) :
    (∃ body, lf ∉ body ∧ piece = body ++ [lf]) ∨ (lf ∉ piece ∧ piece ≠ [] ∧ back = []) := by
  induction text using lines_induction lf generalizing front with
  | nil => exact absurd h.symm (List.append_ne_nil_of_right_ne_nil _ (List.cons_ne_nil _ _))
  | last body hbody hne =>
    rw [splitInclusive_last hbody hne] at h
    cases front with
    | nil =>
      obtain ⟨rfl, rfl⟩ := List.cons.inj h
      exact Or.inr ⟨hbody, hne, rfl⟩
    | cons p front =>
      have hnil := (List.cons.inj h).2.symm
      exact absurd hnil (List.append_ne_nil_of_right_ne_nil _ (List.cons_ne_nil _ _))
  | cons body rest hbody ih =>
    rw [splitInclusive_cons hbody] at h
    cases front with
    | nil => exact Or.inl ⟨body, hbody, (List.cons.inj h).1.symm⟩
    | cons p front => exact ih (List.cons.inj h).2

/-- A piece ends at its first line feed. -/
theorem eq_of_mem_splitInclusive {text body tail : List α}
    (h : body ++ [lf] ++ tail ∈ splitInclusive lf text) : tail = [] := by
  obtain ⟨front, back, hsplit⟩ := List.append_of_mem h
  have hmem : lf ∈ body ++ [lf] := List.mem_append_right _ (List.mem_singleton_self _)
  rcases piece_cases hsplit with ⟨line, hline, heq⟩ | ⟨hnone, -, -⟩
  · rcases List.eq_nil_or_concat' tail with rfl | ⟨tail, c, rfl⟩
    · rfl
    · rw [← List.append_assoc] at heq
      rw [← (List.append_inj' heq rfl).1] at hline
      exact absurd (List.mem_append_left tail hmem) hline
  · exact absurd (List.mem_append_left tail hmem) hnone

/-- Texts that have their line feeds in the same places are split in the same places. -/
theorem forall₂_splitInclusive {β : Type*} [DecidableEq β] {lf' : β} {R : α → β → Prop}
    (hR : ∀ c d, R c d → (c = lf ↔ d = lf')) {text : List α} {text' : List β}
    (h : List.Forall₂ R text text') :
    List.Forall₂ (List.Forall₂ R) (splitInclusive lf text) (splitInclusive lf' text') := by
  induction h with
  | nil => exact List.Forall₂.nil
  | @cons c d text text' hcd hrest ih =>
    unfold splitInclusive
    by_cases hc : c = lf
    · rw [if_pos hc, if_pos ((hR c d hcd).mp hc)]
      exact List.Forall₂.cons (List.Forall₂.cons hcd List.Forall₂.nil) ih
    · rw [if_neg hc, if_neg fun hd => hc ((hR c d hcd).mpr hd)]
      generalize splitInclusive lf text = pieces at ih ⊢
      generalize splitInclusive lf' text' = pieces' at ih ⊢
      cases ih with
      | nil => exact List.Forall₂.cons (List.Forall₂.cons hcd List.Forall₂.nil) List.Forall₂.nil
      | cons hpiece hpieces => exact List.Forall₂.cons (List.Forall₂.cons hcd hpiece) hpieces

/-! ## Line ends -/

theorem stripEnd_crlf (body : List α) : stripEnd lf cr (body ++ [cr, lf]) = body := by
  have hsplit : body ++ [cr, lf] = (body ++ [cr]) ++ [lf] := by
    rw [List.append_assoc, List.singleton_append]
  unfold stripEnd
  rw [hsplit, List.getLast?_concat, if_pos rfl, List.dropLast_concat, List.getLast?_concat,
    if_pos rfl, List.dropLast_concat]

theorem stripEnd_lf {body : List α} (h : body.getLast? ≠ some cr) :
    stripEnd lf cr (body ++ [lf]) = body := by
  unfold stripEnd
  rw [List.getLast?_concat, if_pos rfl, List.dropLast_concat, if_neg h]

theorem stripEnd_of_not_mem {body : List α} (h : lf ∉ body) : stripEnd lf cr body = body := by
  unfold stripEnd
  rw [if_neg]
  intro hlast
  exact h (List.mem_of_getLast? hlast)

theorem stripEnd_sublist (piece : List α) : (stripEnd lf cr piece).Sublist piece := by
  unfold stripEnd
  split_ifs
  · exact (List.dropLast_sublist _).trans (List.dropLast_sublist _)
  · exact List.dropLast_sublist _
  · exact List.Sublist.refl _

theorem not_mem_stripEnd {text : List α} {piece : List α} (h : piece ∈ splitInclusive lf text) :
    lf ∉ stripEnd lf cr piece := by
  obtain ⟨front, back, hsplit⟩ := List.append_of_mem h
  rcases piece_cases hsplit with ⟨body, hbody, rfl⟩ | ⟨hpiece, -, -⟩
  · unfold stripEnd
    rw [List.getLast?_concat, if_pos rfl, List.dropLast_concat]
    split_ifs
    · exact fun hmem => hbody ((List.dropLast_sublist body).subset hmem)
    · exact hbody
  · rw [stripEnd_of_not_mem hpiece]
    exact hpiece

/-! ## Joining lines -/

omit [DecidableEq α] in
theorem intercalate_concat (eol : List α) (front : List (List α)) (last : List α) :
    eol.intercalate (front ++ [last]) = front.flatMap (· ++ eol) ++ last := by
  induction front with
  | nil => exact List.intercalate_singleton
  | cons line front ih =>
    have hne : front ++ [last] ≠ [] := List.append_ne_nil_of_right_ne_nil _ (List.cons_ne_nil _ _)
    rw [List.cons_append, List.intercalate_cons_of_ne_nil hne, ih, List.flatMap_cons,
      List.append_assoc, List.append_assoc, List.append_assoc]

theorem getLast?_of_splitInclusive {text : List α} {front : List (List α)} {piece : List α}
    (h : splitInclusive lf text = front ++ [piece]) : text.getLast? = piece.getLast? := by
  have hne : piece ≠ [] := by
    rcases piece_cases h with ⟨body, -, rfl⟩ | ⟨-, hne, -⟩
    · exact List.append_ne_nil_of_right_ne_nil _ (List.cons_ne_nil _ _)
    · exact hne
  rw [← @flatten_splitInclusive _ _ lf text, h, List.flatten_append, List.flatten_singleton,
    List.getLast?_append_of_ne_nil _ hne]

theorem complete_of_front {text : List α} {front back : List (List α)}
    (h : splitInclusive lf text = front ++ back) (hback : back ≠ []) {piece : List α}
    (hpiece : piece ∈ front) : ∃ body, lf ∉ body ∧ piece = body ++ [lf] := by
  obtain ⟨front, more, rfl⟩ := List.append_of_mem hpiece
  rw [List.append_assoc, List.cons_append] at h
  rcases piece_cases h with hcomplete | ⟨-, -, hnil⟩
  · exact hcomplete
  · exact absurd hnil (List.append_ne_nil_of_right_ne_nil _ hback)

theorem flatMap_stripEnd {eol : List α} {pieces : List (List α)}
    (h : ∀ piece ∈ pieces, stripEnd lf cr piece ++ eol = piece) :
    (pieces.map (stripEnd lf cr)).flatMap (· ++ eol) = pieces.flatten := by
  rw [List.flatMap_map, List.flatMap_def, List.map_congr_left h, List.map_id']

/-- Where every line ends with `eol`, a line put between the others is all that is added. -/
theorem insert_line {text : List α} {front back : List (List α)} {eol : List α}
    (hsplit : splitInclusive lf text = front ++ back) (hback : back ≠ [])
    (hends : ∀ piece ∈ splitInclusive lf text, piece.getLast? = some lf →
      stripEnd lf cr piece ++ eol = piece) (line : List α) :
    eol.intercalate (front.map (stripEnd lf cr) ++ line :: back.map (stripEnd lf cr)) ++
        (if text.getLast? = some lf then eol else []) =
      front.flatten ++ (line ++ eol) ++ back.flatten := by
  obtain ⟨more, last, rfl⟩ := (List.eq_nil_or_concat' back).resolve_left hback
  have hlast : text.getLast? = last.getLast? := by
    rw [← List.append_assoc] at hsplit
    exact getLast?_of_splitInclusive hsplit
  have hcomplete : ∀ piece ∈ front ++ more, stripEnd lf cr piece ++ eol = piece := by
    intro piece hpiece
    rw [← List.append_assoc] at hsplit
    obtain ⟨body, -, hbody⟩ := complete_of_front hsplit (List.cons_ne_nil _ _) hpiece
    apply hends
    · rw [hsplit]
      exact List.mem_append_left _ hpiece
    · rw [hbody, List.getLast?_concat]
  have hend : stripEnd lf cr last ++ (if text.getLast? = some lf then eol else []) = last := by
    rw [hlast]
    have hmem : last ∈ splitInclusive lf text := by
      rw [hsplit, ← List.append_assoc]
      exact List.mem_append_right _ (List.mem_singleton_self _)
    by_cases h : last.getLast? = some lf
    · rw [if_pos h]
      exact hends last hmem h
    · rw [if_neg h, List.append_nil]
      unfold stripEnd
      rw [if_neg h]
  have hlines : front.map (stripEnd lf cr) ++ line :: (more ++ [last]).map (stripEnd lf cr) =
      (front.map (stripEnd lf cr) ++ line :: more.map (stripEnd lf cr)) ++
        [stripEnd lf cr last] := by
    rw [List.map_append, List.append_assoc]
    rfl
  have hfront := flatMap_stripEnd fun piece hpiece =>
    hcomplete piece (List.mem_append_left more hpiece)
  have hmore := flatMap_stripEnd fun piece hpiece =>
    hcomplete piece (List.mem_append_right front hpiece)
  rw [hlines, intercalate_concat, List.append_assoc, hend, List.flatMap_append,
    List.flatMap_cons, hfront, hmore, List.flatten_append, List.flatten_singleton]
  simp only [List.append_assoc]

/-! ## Mixed line ends -/

variable (lf cr) in
/-- A line feed without a carriage return before it. -/
def Lone (text : List α) : Prop :=
  ∃ front back, text = front ++ lf :: back ∧ front.getLast? ≠ some cr

variable (lf cr) in
/-- Both line ends occur. -/
def Mixed (text : List α) : Prop := [cr, lf] <:+: text ∧ Lone lf cr text

omit [DecidableEq α] in
theorem not_lone_flatMap (hcr : cr ≠ lf) {front : List (List α)}
    (hfront : ∀ line ∈ front, lf ∉ line) {last : List α} (hlast : lf ∉ last) :
    ¬ Lone lf cr (front.flatMap (· ++ [cr, lf]) ++ last) := by
  induction front with
  | nil =>
    rintro ⟨before, back, h, -⟩
    apply hlast
    change last = _ at h
    rw [h]
    exact List.mem_append_right _ List.mem_cons_self
  | cons line front ih =>
    have ih := ih fun l hl => hfront l (List.mem_cons_of_mem line hl)
    rintro ⟨before, back, h, hbefore⟩
    have hline : (line ++ [cr]) ++ lf :: (front.flatMap (· ++ [cr, lf]) ++ last) =
        before ++ lf :: back := by
      rw [← h, List.flatMap_cons]
      simp only [List.append_assoc, List.cons_append, List.nil_append]
    rcases List.append_eq_append_iff.mp hline with ⟨more, rfl, hmore⟩ | ⟨more, hmore, hrest⟩
    · cases more with
      | nil =>
        rw [List.append_nil, List.getLast?_concat] at hbefore
        exact hbefore rfl
      | cons d more =>
        have hrest := (List.cons.inj hmore).2
        apply ih
        refine ⟨more, back, hrest, ?_⟩
        intro hcrlast
        apply hbefore
        rw [List.getLast?_append, List.getLast?_cons, hcrlast]
        rfl
    · cases more with
      | nil =>
        rw [List.append_nil] at hmore
        rw [← hmore, List.getLast?_concat] at hbefore
        exact hbefore rfl
      | cons d more =>
        have hd : lf = d := (List.cons.inj hrest).1
        have hmem : d ∈ line ++ [cr] := by
          rw [hmore]
          exact List.mem_append_right _ List.mem_cons_self
        rw [← hd] at hmem
        rcases List.mem_append.mp hmem with hmem | hmem
        · exact hfront line List.mem_cons_self hmem
        · exact hcr (List.mem_singleton.mp hmem).symm

omit [DecidableEq α] in
/-- Lines joined by carriage returns and line feeds have no line feed alone. -/
theorem not_lone_intercalate (hcr : cr ≠ lf) {ls : List (List α)} (hls : ∀ line ∈ ls, lf ∉ line)
    (hne : ls ≠ []) (final : Bool) :
    ¬ Lone lf cr ([cr, lf].intercalate ls ++ if final then [cr, lf] else []) := by
  obtain ⟨front, last, rfl⟩ := (List.eq_nil_or_concat' ls).resolve_left hne
  rw [intercalate_concat]
  cases final with
  | false =>
    rw [if_neg Bool.false_ne_true, List.append_nil]
    exact not_lone_flatMap hcr (fun l hl => hls l (List.mem_append_left _ hl))
      (hls last (List.mem_append_right _ (List.mem_singleton_self _)))
  | true =>
    have hnone := not_lone_flatMap hcr hls List.not_mem_nil
    rw [List.flatMap_append, List.flatMap_singleton, List.append_nil, ← List.append_assoc] at hnone
    exact hnone

theorem getLast?_flatten_ne (hne : cr ≠ lf) {text : List α} {front back : List (List α)}
    (h : splitInclusive lf text = front ++ back) (hback : back ≠ []) :
    front.flatten.getLast? ≠ some cr := by
  rcases List.eq_nil_or_concat' front with rfl | ⟨front, piece, rfl⟩
  · exact nofun
  · obtain ⟨body, -, rfl⟩ := complete_of_front h hback
      (List.mem_append_right front (List.mem_singleton_self _))
    rw [List.flatten_append, List.flatten_singleton, ← List.append_assoc, List.getLast?_concat]
    exact fun heq => hne (Option.some.inj heq).symm

/-- Without mixed line ends every line ends as the text's line ends do. -/
theorem end_of_not_mixed (hne : cr ≠ lf) {text : List α} (h : ¬ Mixed lf cr text) {piece : List α}
    (hpiece : piece ∈ splitInclusive lf text) (hlast : piece.getLast? = some lf)
    [Decidable ([cr, lf] <:+: text)] :
    stripEnd lf cr piece ++ (if [cr, lf] <:+: text then [cr, lf] else [lf]) = piece := by
  obtain ⟨front, back, hsplit⟩ := List.append_of_mem hpiece
  have htext : text = front.flatten ++ piece ++ back.flatten := by
    rw [← @flatten_splitInclusive _ _ lf text, hsplit, List.flatten_append, List.flatten_cons,
      List.append_assoc]
  rcases piece_cases hsplit with ⟨body, hbody, rfl⟩ | ⟨hnone, -, -⟩
  · by_cases hcr : body.getLast? = some cr
    · obtain ⟨body, rfl⟩ := List.getLast?_eq_some_iff.mp hcr
      have hcrlf : (body ++ [cr]) ++ [lf] = body ++ [cr, lf] := by
        rw [List.append_assoc, List.singleton_append]
      have hoccurs : [cr, lf] <:+: text := by
        refine ⟨front.flatten ++ body, back.flatten, ?_⟩
        rw [htext]
        simp only [List.append_assoc, List.cons_append, List.nil_append]
      rw [if_pos hoccurs, hcrlf, stripEnd_crlf]
    · rw [stripEnd_lf hcr, if_neg]
      intro hoccurs
      apply h
      refine ⟨hoccurs, front.flatten ++ body, back.flatten, ?_, ?_⟩
      · rw [htext]
        simp only [List.append_assoc, List.cons_append, List.nil_append]
      · by_cases hnil : body = []
        · rw [hnil, List.append_nil]
          exact getLast?_flatten_ne hne hsplit (List.cons_ne_nil _ _)
        · rw [List.getLast?_append_of_ne_nil _ hnil]
          exact hcr
  · exact absurd (List.mem_of_getLast? hlast) hnone

omit [DecidableEq α] in
/-- A line more does not hide a line feed that is alone. -/
theorem Lone.insert (hne : cr ≠ lf) {front back : List α} (h : Lone lf cr (front ++ back))
    (body : List α) : Lone lf cr (front ++ (body ++ [lf]) ++ back) := by
  obtain ⟨before, after, hsplit, hbefore⟩ := h
  have hbehind : ∀ more, more.getLast? ≠ some cr →
      (front ++ (body ++ [lf]) ++ more).getLast? ≠ some cr := by
    intro more hmore
    rcases List.eq_nil_or_concat' more with rfl | ⟨more, c, rfl⟩
    · rw [List.append_nil, ← List.append_assoc, List.getLast?_concat]
      exact fun heq => hne (Option.some.inj heq).symm
    · rw [← List.append_assoc, List.getLast?_concat]
      rw [List.getLast?_concat] at hmore
      exact hmore
  rcases List.append_eq_append_iff.mp hsplit with ⟨more, rfl, rfl⟩ | ⟨more, rfl, hmore⟩
  · refine ⟨front ++ (body ++ [lf]) ++ more, after, by simp only [List.append_assoc], ?_⟩
    apply hbehind
    intro hcr
    apply hbefore
    rw [List.getLast?_append, hcr]
    rfl
  · cases more with
    | nil =>
      rw [List.nil_append] at hmore
      rw [← hmore]
      refine ⟨_, after, rfl, ?_⟩
      have hnil := hbehind [] nofun
      rw [List.append_nil] at hnil
      exact hnil
    | cons d more =>
      obtain ⟨rfl, rfl⟩ := List.cons.inj hmore
      refine ⟨before, more ++ (body ++ [lf]) ++ back, ?_, hbefore⟩
      simp only [List.append_assoc, List.cons_append]

/-! ## Where a line was put -/

omit [DecidableEq α] in
theorem exists_of_shift {body body' more : List α} (hbody : lf ∉ body) (hne : more ≠ [])
    (h : body ++ [lf] ++ more = more ++ (body' ++ [lf])) :
    ∃ rest, more = body ++ [lf] ++ rest := by
  rcases List.append_eq_append_iff.mp h with ⟨rest, hrest, -⟩ | ⟨rest, hrest, htail⟩
  · exact ⟨rest, hrest⟩
  · rcases List.eq_nil_or_concat' rest with rfl | ⟨rest, c, rfl⟩
    · exact ⟨[], by rw [hrest, List.append_nil, List.append_nil]⟩
    · obtain ⟨front, last, rfl⟩ := (List.eq_nil_or_concat' more).resolve_left hne
      have hlast : last = lf := by
        have hlasts := congrArg List.getLast? htail
        rw [List.getLast?_concat, ← List.append_assoc, List.getLast?_concat] at hlasts
        exact (Option.some.inj hlasts).symm
      rw [← List.append_assoc] at hrest
      have hfront := (List.append_inj' hrest rfl).1
      exfalso
      apply hbody
      rw [hfront, hlast]
      exact List.mem_append_left _ (List.mem_append_right _ (List.mem_singleton_self _))

omit [DecidableEq α] in
/-- A text into which a line was put can be so read another way only if the line stands in the text
already, before the place or behind it. -/
theorem insert_unique {front front' back back' body body' : List α} (hbody : lf ∉ body)
    (hbody' : lf ∉ body') (h : front ++ back = front' ++ back')
    (hnew : front ++ (body ++ [lf]) ++ back = front' ++ (body' ++ [lf]) ++ back') :
    front = front' ∨ (∃ more, front = front' ++ (body' ++ [lf]) ++ more) ∨
      ∃ more, back = body ++ [lf] ++ more := by
  rcases List.append_eq_append_iff.mp h with ⟨more, rfl, rfl⟩ | ⟨more, rfl, rfl⟩
  · by_cases hnil : more = []
    · exact Or.inl (by rw [hnil, List.append_nil])
    · right
      right
      have hshift : body ++ [lf] ++ more = more ++ (body' ++ [lf]) := by
        simp only [List.append_assoc, List.append_cancel_left_eq] at hnew
        simp only [← List.append_assoc, List.append_cancel_right_eq] at hnew
        simp only [List.append_assoc] at hnew ⊢
        exact hnew
      obtain ⟨rest, hrest⟩ := exists_of_shift hbody hnil hshift
      exact ⟨rest ++ back', by rw [hrest, List.append_assoc]⟩
  · by_cases hnil : more = []
    · exact Or.inl (by rw [hnil, List.append_nil])
    · right
      left
      have hshift : body' ++ [lf] ++ more = more ++ (body ++ [lf]) := by
        simp only [List.append_assoc, List.append_cancel_left_eq] at hnew
        simp only [← List.append_assoc, List.append_cancel_right_eq] at hnew
        simp only [List.append_assoc] at hnew ⊢
        exact hnew.symm
      obtain ⟨rest, hrest⟩ := exists_of_shift hbody' hnil hshift
      exact ⟨rest, by rw [hrest, ← List.append_assoc]⟩

end Lines
