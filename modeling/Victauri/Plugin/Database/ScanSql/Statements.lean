import Victauri.Plugin.Database.ScanSql.Agreement

/-!
# One statement

The marks that the scanner keeps in a text are those of its tokens, and a text that the checks
accept is one statement, with nothing to run after it.
-/

namespace Victauri.Plugin.Database

open Victauri.Library.Sqlite

/-! ## Marks of a text -/

theorem marks_scan {ps : List Placed} (h : ∀ t ∈ tokens ps, stumbles t = false) :
    marks (scan false ps) = (tokens ps).flatMap tokenMarks := by
  fun_induction tokens ps with
  | case1 => rw [scan]; rfl
  | case2 p ps ih =>
      rw [List.forall_mem_cons] at h
      obtain ⟨written, glued, ahead, hstep⟩ := reads_getToken h.1
      have hrest := ih h.2
      rw [hstep.rest_eq, marks_append, hstep.glued_eq, List.nil_append] at hrest
      rw [hstep.scan_eq, marks_append, hstep.marks_eq, hrest, List.flatMap_cons]

/-- The marks are what the masked text has of their characters. -/
theorem masked_filter (written : List Written) :
    (written.map Written.masked).filter isMark = (marks written).map Placed.char := by
  induction written with
  | nil => rfl
  | cons w written ih =>
      rw [List.map_cons, List.filter_cons, ih, marks, marks, List.filterMap_cons]
      cases w with
      | kept p =>
          rw [Written.masked, Written.mark]
          cases isMark p.char <;> rfl
      | hidden p => rfl
      | space => rfl
      | newline => rfl

/-! ## Separators -/

def isPart (t : Token) : Bool := t.kind != .semi

/-- No separator of `statement_count`. -/
def Written.isPart (w : Written) : Bool := w.masked != ';'

theorem masked_ne_semi {written : List Written} (h : ∀ p ∈ marks written, p.char ≠ ';') :
    ∀ w ∈ written, w.isPart = true := by
  intro w hw
  rw [Written.isPart, bne_iff_ne]
  cases w with
  | kept p =>
      intro hsemi
      refine h p (List.mem_filterMap.mpr ⟨.kept p, hw, ?_⟩) hsemi
      rw [Written.mark, show p.char = ';' from hsemi]
      rfl
  | hidden p => rintro ⟨⟩
  | space => rintro ⟨⟩
  | newline => rintro ⟨⟩

theorem Step.written_ne_semi {ps : List Placed} {t : Token} {written glued ahead : List Written}
    (hstep : Step ps t written glued ahead) (hsemi : t.kind ≠ .semi) :
    ∀ w ∈ written, w.isPart = true := by
  refine masked_ne_semi fun p hp => ?_
  rw [hstep.marks_eq] at hp
  exact hstep.not_semi hsemi p hp

theorem Step.glued_ne_semi {ps : List Placed} {t : Token} {written glued ahead : List Written}
    (hstep : Step ps t written glued ahead) : ∀ w ∈ glued, w.isPart = true := by
  refine masked_ne_semi fun p hp => ?_
  rw [hstep.glued_eq] at hp
  exact absurd hp List.not_mem_nil

/-- The first separator of the scanner is the first semicolon. -/
theorem scan_dropWhile {ps : List Placed} (h : ∀ t ∈ tokens ps, stumbles t = false) :
    (tokens ps).dropWhile isPart = [] ∧
        (scan false ps).dropWhile Written.isPart = [] ∨
      ∃ t p, (tokens ps).dropWhile isPart = t :: tokens t.rest ∧
        isIdle t = true ∧ (∀ t' ∈ tokens t.rest, stumbles t' = false) ∧
        (scan false ps).dropWhile Written.isPart = .kept p :: scan false t.rest := by
  fun_induction tokens ps with
  | case1 => exact .inl ⟨rfl, by rw [scan]; rfl⟩
  | case2 p ps ih =>
      rw [List.forall_mem_cons] at h
      obtain ⟨written, glued, ahead, hstep⟩ := reads_getToken h.1
      by_cases hsemi : (getToken p ps).kind = .semi
      · right
        obtain ⟨q, hwritten, hq, hglued⟩ := hstep.semi hsemi
        have hrest := hstep.rest_eq
        rw [hglued, List.nil_append] at hrest
        have hneg : ¬isPart (getToken p ps) = true := by
          rw [isPart, hsemi]
          decide
        have hkept : ¬(Written.kept q).isPart = true := by
          rw [Written.isPart, Written.masked, hq]
          decide
        refine ⟨getToken p ps, q, List.dropWhile_cons_of_neg hneg, ?_, h.2, ?_⟩
        · rw [isIdle, hsemi]
        · rw [hstep.scan_eq, hwritten, hrest]
          exact List.dropWhile_cons_of_neg hkept
      · have hpos : isPart (getToken p ps) = true := bne_iff_ne.mpr hsemi
        have hwritten : (scan false (p :: ps)).dropWhile Written.isPart =
            (scan false (getToken p ps).rest).dropWhile Written.isPart := by
          rw [hstep.scan_eq, hstep.rest_eq,
            List.dropWhile_append_of_pos (hstep.written_ne_semi hsemi),
            List.dropWhile_append_of_pos hstep.glued_ne_semi]
        rw [List.dropWhile_cons_of_pos hpos, hwritten]
        exact ih h.2

/-- Idle tokens before the first semicolon leave nothing but white space before it. -/
theorem scan_takeWhile {ps : List Placed} (h : ∀ t ∈ tokens ps, stumbles t = false)
    (hidle : ∀ t ∈ (tokens ps).takeWhile isPart, isIdle t = true) :
    ∀ w ∈ (scan false ps).takeWhile Written.isPart, w.isBlank = true := by
  fun_induction tokens ps with
  | case1 =>
      rw [scan]
      exact fun w hw => absurd hw List.not_mem_nil
  | case2 p ps ih =>
      rw [List.forall_mem_cons] at h
      obtain ⟨written, glued, ahead, hstep⟩ := reads_getToken h.1
      by_cases hsemi : (getToken p ps).kind = .semi
      · obtain ⟨q, hwritten, hq, -⟩ := hstep.semi hsemi
        have hkept : ¬(Written.kept q).isPart = true := by
          rw [Written.isPart, Written.masked, hq]
          decide
        rw [hstep.scan_eq, hwritten, List.singleton_append, List.takeWhile_cons_of_neg hkept]
        exact fun w hw => absurd hw List.not_mem_nil
      · have hpos : isPart (getToken p ps) = true := bne_iff_ne.mpr hsemi
        rw [List.takeWhile_cons_of_pos hpos, List.forall_mem_cons] at hidle
        have hahead := ih h.2 hidle.2
        rw [hstep.rest_eq, List.takeWhile_append_of_pos hstep.glued_ne_semi] at hahead
        rw [hstep.scan_eq, List.takeWhile_append_of_pos (hstep.written_ne_semi hsemi)]
        intro w hw
        rcases List.mem_append.mp hw with hw | hw
        · exact List.all_eq_true.mp (hstep.blank_of_idle hidle.1) w hw
        · exact hahead w (List.mem_append_right _ hw)

/-! ## What follows the statement -/

/-- White space, comments and semicolons, and perhaps a `/*` that the text ends with. -/
def Trails (ts : List Token) : Prop :=
  ∃ idle opened, ts = idle ++ opened ∧ (∀ t ∈ idle, isIdle t = true) ∧
    (opened.map fun t => t.text.map Placed.char) ∈ [[], [['/'], ['*']]]

theorem trails_of_blank {ps : List Placed} (h : ∀ t ∈ tokens ps, stumbles t = false)
    (hblank : ∀ w ∈ scan false ps, w.isBlank = true) : Trails (tokens ps) := by
  fun_induction tokens ps with
  | case1 =>
      exact ⟨[], [], rfl, fun t ht => absurd ht List.not_mem_nil, List.mem_cons_self⟩
  | case2 p ps ih =>
      rw [List.forall_mem_cons] at h
      obtain ⟨written, glued, ahead, hstep⟩ := reads_getToken h.1
      rw [hstep.scan_eq, List.forall_mem_append] at hblank
      rcases hstep.idle_of_blank (List.all_eq_true.mpr hblank.1) with ⟨hidle, hglued⟩ | hopens
      · have hrest : ∀ w ∈ scan false (getToken p ps).rest, w.isBlank = true := by
          rw [hstep.rest_eq, List.forall_mem_append]
          exact ⟨List.all_eq_true.mp hglued, hblank.2⟩
        obtain ⟨idle, opened, heq, hall, hopened⟩ := ih h.2 hrest
        refine ⟨getToken p ps :: idle, opened, ?_, List.forall_mem_cons.mpr ⟨hidle, hall⟩, hopened⟩
        rw [heq, List.cons_append]
      · rw [opensAtEnd, Bool.and_eq_true, beq_iff_eq, beq_iff_eq] at hopens
        refine ⟨[], tokens (p :: ps), ?_, fun t ht => absurd ht List.not_mem_nil, ?_⟩
        · rw [tokens, List.nil_append]
        · rw [tokens, List.map_cons, hopens.1]
          obtain ⟨star, hrest, hstar⟩ : ∃ star, (getToken p ps).rest = [star] ∧ star.char = '*' := by
            cases hrest : (getToken p ps).rest with
            | nil =>
                rw [hrest] at hopens
                exact absurd hopens.2 (by decide)
            | cons star more =>
                rw [hrest, List.map_cons, List.cons.injEq, List.map_eq_nil_iff] at hopens
                exact ⟨star, by rw [hopens.2.2], hopens.2.1⟩
          have htoken : getToken star [] = cutTake .operator 0 star [] := by
            have hclass : classify star.char = .operator := by
              rw [hstar]
              decide
            rw [getToken, hclass]
          rw [hrest, tokens, htoken, List.map_cons, cutTake, List.drop_nil, tokens]
          change [['/'], [star.char]] ∈ [[], [['/'], ['*']]]
          rw [hstar]
          decide

/-! ## Counting statements -/

theorem isBlank_eq (w : Written) : w.isBlank = (isWhitespace w.masked || w.masked == ';') := by
  cases w with
  | kept p => rfl
  | hidden p =>
      change false = (isWhitespace '_' || '_' == ';')
      decide
  | space =>
      change true = (isWhitespace ' ' || ' ' == ';')
      decide
  | newline =>
      change true = (isWhitespace '\n' || '\n' == ';')
      decide

theorem trimStart_eq_nil {cs : List Char} : trimStart cs = [] ↔ ∀ c ∈ cs, isWhitespace c = true :=
  List.dropWhile_eq_nil_iff

theorem trim_isEmpty {cs : List Char} :
    (trim cs).isEmpty = true ↔ ∀ c ∈ cs, isWhitespace c = true := by
  rw [List.isEmpty_iff, trim, List.reverse_eq_nil_iff, trimStart_eq_nil]
  constructor
  · intro h c hc
    rw [← List.takeWhile_append_dropWhile (p := isWhitespace) (l := cs)] at hc
    rcases List.mem_append.mp hc with hc | hc
    · exact List.mem_takeWhile_imp hc
    · exact h c (List.mem_reverse.mpr hc)
  · intro h
    rw [trimStart_eq_nil.mpr h]
    exact fun c hc => absurd hc List.not_mem_nil

theorem pieces_append {separator : Char → Bool} {xs : List Char}
    (hxs : ∀ c ∈ xs, separator c = false) {s : Char} (hs : separator s = true) (ys : List Char) :
    pieces separator (xs ++ s :: ys) = xs :: pieces separator ys := by
  induction xs with
  | nil =>
      rw [List.nil_append, pieces, if_pos hs]
  | cons x xs ih =>
      rw [List.forall_mem_cons] at hxs
      rw [List.cons_append, pieces, hxs.1, if_neg Bool.false_ne_true, ih hxs.2]

/-- Every character is a separator or in a piece. -/
theorem mem_pieces (separator : Char → Bool) {c : Char} {cs : List Char} (hc : c ∈ cs) :
    separator c = true ∨ ∃ piece ∈ pieces separator cs, c ∈ piece := by
  induction cs with
  | nil => exact absurd hc List.not_mem_nil
  | cons d cs ih =>
      rw [pieces]
      by_cases hd : separator d = true
      · rw [if_pos hd]
        rcases List.mem_cons.mp hc with rfl | hc
        · exact .inl hd
        · rcases ih hc with hsep | ⟨piece, hpiece, hmem⟩
          · exact .inl hsep
          · exact .inr ⟨piece, List.mem_cons_of_mem _ hpiece, hmem⟩
      · rw [if_neg hd]
        cases hpieces : pieces separator cs with
        | nil =>
            rw [hpieces] at ih
            rcases List.mem_cons.mp hc with rfl | hc
            · exact .inr ⟨[c], List.mem_cons_self, List.mem_cons_self⟩
            · rcases ih hc with hsep | ⟨piece, hpiece, -⟩
              · exact .inl hsep
              · exact absurd hpiece List.not_mem_nil
        | cons first rest =>
            rw [hpieces] at ih
            dsimp only
            rcases List.mem_cons.mp hc with rfl | hc
            · exact .inr ⟨c :: first, List.mem_cons_self, List.mem_cons_self⟩
            · rcases ih hc with hsep | ⟨piece, hpiece, hmem⟩
              · exact .inl hsep
              · right
                rcases List.mem_cons.mp hpiece with rfl | hpiece
                · exact ⟨d :: piece, List.mem_cons_self, List.mem_cons_of_mem _ hmem⟩
                · exact ⟨piece, List.mem_cons_of_mem _ hpiece, hmem⟩

/-- With one statement at most, and a first one, nothing follows its separator. -/
theorem blank_of_statementCount {sql : String} (hcount : ¬1 < statementCount sql)
    {before after : List Written} {p : Placed}
    (hscan : scan false (place sql) = before ++ .kept p :: after)
    (hbefore : ∀ w ∈ before, w.isPart = true) (hp : (Written.kept p).isPart = false)
    (hfirst : ∃ w ∈ before, w.isBlank = false) : ∀ w ∈ after, w.isBlank = true := by
  have hpieces : pieces (· == ';') (scanSql sql).masked =
      before.map Written.masked :: pieces (· == ';') (after.map Written.masked) := by
    rw [scanSql, hscan]
    dsimp only
    rw [List.map_append, List.map_cons]
    refine pieces_append (fun c hc => ?_) ?_ _
    · obtain ⟨w, hw, rfl⟩ := List.mem_map.mp hc
      have hpart := hbefore w hw
      rw [Written.isPart, bne_iff_ne] at hpart
      exact beq_eq_false_iff_ne.mpr hpart
    · rw [Written.isPart, bne_eq_false_iff_eq] at hp
      exact beq_iff_eq.mpr hp
  have hnonempty : (trim (before.map Written.masked)).isEmpty = false := by
    rw [Bool.eq_false_iff]
    intro hempty
    obtain ⟨w, hw, hblank⟩ := hfirst
    rw [isBlank_eq, trim_isEmpty.mp hempty _ (List.mem_map_of_mem hw), Bool.true_or] at hblank
    exact Bool.false_ne_true hblank.symm
  have hrest : ∀ piece ∈ pieces (· == ';') (after.map Written.masked),
      (trim piece).isEmpty = true := by
    rw [statementCount, hpieces, List.filter_cons_of_pos (by rw [hnonempty]; rfl),
      List.length_cons, Nat.not_lt, Nat.succ_le_succ_iff, Nat.le_zero,
      List.length_eq_zero_iff] at hcount
    have hnil := List.filter_eq_nil_iff.mp hcount
    intro piece hpiece
    have hneg := hnil piece hpiece
    rw [Bool.not_eq_true, Bool.not_eq_false'] at hneg
    exact hneg
  intro w hw
  rw [isBlank_eq, Bool.or_comm, Bool.or_eq_true]
  rcases mem_pieces (· == ';') (List.mem_map_of_mem hw) with hsep | ⟨piece, hpiece, hmem⟩
  · exact .inl hsep
  · exact .inr (trim_isEmpty.mp (hrest piece hpiece) _ hmem)

/-! ## What is accepted -/

/-- Code that starts with something else than a separator is in the first statement. -/
theorem first_of_trimStart {written : List Written} {c : Char} {rest : List Char}
    (h : trimStart (written.map Written.cleaned) = c :: rest) (hc : c ≠ ';') :
    ∃ w ∈ written.takeWhile Written.isPart, w.isBlank = false := by
  induction written with
  | nil => exact absurd h (List.cons_ne_nil _ _).symm
  | cons w written ih =>
      rw [trimStart, List.map_cons] at h
      by_cases hwhite : isWhitespace w.cleaned = true
      · rw [List.dropWhile_cons_of_pos hwhite] at h
        have hpart : w.isPart = true := by
          rw [Written.isPart, bne_iff_ne]
          cases w with
          | kept p =>
              intro hsemi
              rw [Written.cleaned, show p.char = ';' from hsemi] at hwhite
              exact absurd hwhite (by decide)
          | hidden p => rintro ⟨⟩
          | space => rintro ⟨⟩
          | newline => rintro ⟨⟩
        obtain ⟨w', hmem, hblank⟩ := ih h
        rw [List.takeWhile_cons_of_pos hpart]
        exact ⟨w', List.mem_cons_of_mem _ hmem, hblank⟩
      · rw [List.dropWhile_cons_of_neg hwhite, List.cons.injEq] at h
        have hfirst : w.isPart = true ∧ w.isBlank = false := by
          cases w with
          | kept p =>
              have hchar : p.char = c := h.1
              have hwhite' : isWhitespace p.char = false := Bool.eq_false_iff.mpr hwhite
              rw [Written.isPart, Written.masked, Written.isBlank, hwhite', hchar,
                Bool.false_or, bne_iff_ne, beq_eq_false_iff_ne]
              exact ⟨hc, hc⟩
          | hidden p => exact ⟨rfl, rfl⟩
          | space => exact absurd rfl hwhite
          | newline => exact absurd rfl hwhite
        rw [List.takeWhile_cons_of_pos hfirst.1]
        exact ⟨w, List.mem_cons_self, hfirst.2⟩

section Checks

variable {unicode : Unicode}

theorem trimStart_of_isReadOnly {sql : String} (h : isReadOnly unicode sql = true) :
    ∃ c rest, trimStart (stripSqlComments sql) = c :: rest ∧ c ≠ ';' := by
  rw [isReadOnly, statementStart] at h
  cases hstart : trimStart (stripSqlComments sql) with
  | nil =>
      rw [hstart, unicode.toLowercase_nil] at h
      exact absurd h (by decide)
  | cons c rest =>
      refine ⟨c, rest, rfl, ?_⟩
      rintro rfl
      have hhead := unicode.toLowercase_head ';' rest (by decide)
      rw [hstart] at h
      split_ifs at h
      rw [List.any_eq_true] at h
      obtain ⟨start, hmem, hprefix⟩ := h
      obtain ⟨more, hmore⟩ := List.isPrefixOf_iff_prefix.mp hprefix
      have hstarts : ∀ start ∈ readOnlyPrefixes, start.head?.any (· != ';') = true := by decide
      have hfirst := hstarts start hmem
      cases start with
      | nil => exact absurd hfirst (by decide)
      | cons d start =>
          rw [← hmore, List.cons_append, List.head?_cons, Option.some.injEq] at hhead
          rw [List.head?_cons, Option.any_some, hhead] at hfirst
          exact absurd hfirst (by decide)

theorem checks_of_validateQuery {sql : String} (h : validateQuery unicode sql = .ok ()) :
    isReadOnly unicode sql = true ∧ ¬1 < statementCount sql := by
  rw [validateQuery] at h
  split_ifs at h with hlength hread hwrite hpragma hnesting hselects hcount
  rw [Bool.not_eq_true, Bool.not_eq_false'] at hread
  exact ⟨hread, hcount⟩

/-- An accepted text is one statement that is not empty, and what follows it does not run. -/
theorem validateQuery_single {sql : String} (h : ∀ t ∈ tokens (place sql), stumbles t = false)
    (hok : validateQuery unicode sql = .ok ()) :
    ∃ first rest, tokens (place sql) = first ++ rest ∧ (∀ t ∈ first, t.kind ≠ .semi) ∧
      (∃ t ∈ first, isIdle t = false) ∧ Trails rest := by
  obtain ⟨hread, hcount⟩ := checks_of_validateQuery hok
  obtain ⟨c, cs, hstart, hc⟩ := trimStart_of_isReadOnly hread
  have hfirst := first_of_trimStart hstart hc
  refine ⟨(tokens (place sql)).takeWhile isPart, (tokens (place sql)).dropWhile isPart,
    List.takeWhile_append_dropWhile.symm, ?_, ?_, ?_⟩
  · intro t ht
    have hpart : isPart t = true := List.mem_takeWhile_imp ht
    exact bne_iff_ne.mp hpart
  · by_contra hnone
    obtain ⟨w, hw, hblank⟩ := hfirst
    have hidle : ∀ t ∈ (tokens (place sql)).takeWhile isPart, isIdle t = true := by
      intro t ht
      by_contra hidle
      exact hnone ⟨t, ht, Bool.eq_false_iff.mpr hidle⟩
    rw [scan_takeWhile h hidle w hw] at hblank
    exact Bool.false_ne_true hblank.symm
  · rcases scan_dropWhile h with ⟨htokens, -⟩ | ⟨t, p, htokens, hidle, hrest, hscan⟩
    · rw [htokens]
      exact ⟨[], [], rfl, fun t ht => absurd ht List.not_mem_nil, List.mem_cons_self⟩
    · have hsplit : scan false (place sql) =
          (scan false (place sql)).takeWhile Written.isPart ++ .kept p :: scan false t.rest := by
        rw [← hscan, List.takeWhile_append_dropWhile]
      have hkept : (Written.kept p).isPart = false := by
        have hne : (scan false (place sql)).dropWhile Written.isPart ≠ [] := by
          rw [hscan]
          exact List.cons_ne_nil _ _
        have hnot := List.head_dropWhile_not Written.isPart hne
        simp only [hscan, List.head_cons] at hnot
        exact hnot
      have hblank := blank_of_statementCount hcount hsplit
        (fun w hw => List.mem_takeWhile_imp hw) hkept hfirst
      obtain ⟨idle, opened, heq, hall, hopened⟩ := trails_of_blank hrest hblank
      rw [htokens]
      refine ⟨t :: idle, opened, ?_, List.forall_mem_cons.mpr ⟨hidle, hall⟩, hopened⟩
      rw [heq, List.cons_append]

end Checks

/-! ## Both together -/

/-- A text that ends where SQLite's does, with no `$` or U+FEFF where the scanner loses its
place. -/
structure WellRead (sql : String) : Prop where
  noNull : '\x00' ∉ sql.toList
  steady : ∀ t ∈ tokens (place sql), stumbles t = false

/-- Texts in which everything but ASCII is its own lower case. -/
def asciiUnicode : Unicode where
  toLowercase cs := cs.map Char.toLower
  isAlphanumeric c := isLetter c || isDigit c
  toLowercase_nil := rfl
  toLowercase_head _ _ _ := rfl

/-- The marks that are tokens of their own. -/
def ownMarks (ts : List Token) : List Placed :=
  ts.flatMap fun t =>
    match t.kind with
    | .semi => t.text
    | .lp => t.text
    | .rp => t.text
    | _ => []

end Victauri.Plugin.Database
